import OpenInterpreter.AbsolutePath

/-! Exec policies of `execpolicy/src/policy.rs` and `rule.rs`.

`rules_by_program` is a multimap; it is kept here as the list of its insertions,
and `getVec` reads one key's rules in insertion order. Lookups through an
absolute program path need the process's directories, given as a `PathContext`. -/

namespace OpenInterpreter.ExecPolicy

open AbsolutePath List Function

inductive Decision where
  | allow
  | prompt
  | forbidden
  deriving DecidableEq

def Decision.severity : Decision → Nat
  | .allow => 0
  | .prompt => 1
  | .forbidden => 2

theorem Decision.severity_injective : Injective Decision.severity := by
  intro left right same
  cases left <;> cases right <;> first | rfl | simp [Decision.severity] at same

instance : LinearOrder Decision := LinearOrder.lift' Decision.severity Decision.severity_injective

theorem Decision.allow_le (decision : Decision) : Decision.allow ≤ decision := by
  cases decision <;> decide

inductive PatternToken where
  | single (expected : String)
  | alts (alternatives : List String)
  deriving DecidableEq

def PatternToken.matches : PatternToken → String → Bool
  | .single expected, token => expected == token
  | .alts alternatives, token => alternatives.any (fun alternative => alternative == token)

structure PrefixPattern where
  first : String
  rest : List PatternToken
  deriving DecidableEq

def PrefixPattern.matchesPrefix (pattern : PrefixPattern) (cmd : List String) :
    Option (List String) :=
  let patternLength := pattern.rest.length + 1
  if cmd.length < patternLength ∨ cmd.head? ≠ some pattern.first then none
  else if (pattern.rest.zip ((cmd.take patternLength).drop 1)).all
      (fun pair => pair.1.matches pair.2) then
    some (cmd.take patternLength)
  else none

theorem matchesPrefix_isSome_iff (pattern : PrefixPattern) (cmd : List String) :
    (pattern.matchesPrefix cmd).isSome ↔ ∃ args extra, cmd = pattern.first :: (args ++ extra) ∧
        Forall₂ (fun token arg => token.matches arg = true) pattern.rest args := by
  unfold PrefixPattern.matchesPrefix
  dsimp only
  constructor
  · intro found
    split at found
    · cases found
    · rename_i fits
      split at found
      · rename_i agree
        push Not at fits
        cases cmd with
        | nil => simp at fits
        | cons head tail =>
          simp only [length_cons, head?_cons, Option.some.injEq] at fits
          refine ⟨tail.take pattern.rest.length, tail.drop pattern.rest.length, ?_, ?_⟩
          · rw [take_append_drop, fits.2]
          · rw [forall₂_iff_zip]
            constructor
            · rw [length_take]
              omega
            · intro token arg member
              exact all_eq_true.mp agree (token, arg) member
      · cases found
  · rintro ⟨args, extra, rfl, agree⟩
    have length := agree.length_eq
    have taken : ((pattern.first :: (args ++ extra)).take (pattern.rest.length + 1)).drop 1 =
        args := by
      rw [take_succ_cons, drop_one, tail_cons, length, take_left]
    rw [if_neg, taken, if_pos]
    · rfl
    · rw [all_eq_true]
      intro pair member
      exact (forall₂_iff_zip.mp agree).2 member
    · simp only [length_cons, length_append]
      push Not
      exact ⟨by omega, rfl⟩

theorem matchesPrefix_extend {pattern : PrefixPattern} {short long : List String}
    (matched : (pattern.matchesPrefix short).isSome) (longer : short <+: long) :
    (pattern.matchesPrefix long).isSome := by
  obtain ⟨args, extra, rfl, agree⟩ := (matchesPrefix_isSome_iff _ _).mp matched
  obtain ⟨more, rfl⟩ := longer
  exact (matchesPrefix_isSome_iff _ _).mpr ⟨args, extra ++ more, by simp, agree⟩

theorem matchesPrefix_singles (first : String) (rest cmd : List String) :
    (PrefixPattern.matchesPrefix ⟨first, rest.map .single⟩ cmd).isSome ↔ first :: rest <+: cmd := by
  have singles (args : List String) :
      Forall₂ (fun token arg => PatternToken.matches token arg = true)
        (rest.map PatternToken.single) args ↔ rest = args := by
    simp [PatternToken.matches]
  rw [matchesPrefix_isSome_iff]
  constructor
  · rintro ⟨args, extra, rfl, agree⟩
    rw [(singles args).mp agree]
    exact ⟨extra, rfl⟩
  · rintro ⟨extra, rfl⟩
    exact ⟨rest, extra, rfl, (singles rest).mpr rfl⟩

inductive RuleMatch where
  | prefixRuleMatch (matchedPrefix : List String) (decision : Decision)
      (resolvedProgram : Option AbsolutePathBuf) (justification : Option String)
  | heuristicsRuleMatch (command : List String) (decision : Decision)
  deriving DecidableEq

def RuleMatch.decision : RuleMatch → Decision
  | .prefixRuleMatch _ decision _ _ => decision
  | .heuristicsRuleMatch _ decision => decision

def RuleMatch.withResolvedProgram (ruleMatch : RuleMatch) (program : AbsolutePathBuf) :
    RuleMatch :=
  match ruleMatch with
  | .prefixRuleMatch matchedPrefix decision _ justification =>
    .prefixRuleMatch matchedPrefix decision (some program) justification
  | .heuristicsRuleMatch command decision => .heuristicsRuleMatch command decision

structure PrefixRule where
  pattern : PrefixPattern
  decision : Decision
  justification : Option String
  deriving DecidableEq

def PrefixRule.matches (rule : PrefixRule) (cmd : List String) : Option RuleMatch :=
  (rule.pattern.matchesPrefix cmd).map
    (fun matchedPrefix => .prefixRuleMatch matchedPrefix rule.decision none rule.justification)

structure Policy where
  rulesByProgram : List (String × PrefixRule)
  hostExecutablesByName : String → Option (List AbsolutePathBuf)

def Policy.empty : Policy := ⟨[], fun _ => none⟩

def getVec (rules : List (String × PrefixRule)) (program : String) : List PrefixRule :=
  (rules.filter (fun entry => entry.1 == program)).map Prod.snd

variable (policy : Policy)

def Policy.addPrefixRule (tokens : List String) (decision : Decision) : Except String Policy :=
  match tokens with
  | [] => .error "prefix cannot be empty"
  | first :: rest =>
    .ok { policy with
      rulesByProgram := policy.rulesByProgram ++
        [(first, ⟨⟨first, rest.map .single⟩, decision, none⟩)] }

def Policy.setHostExecutablePaths (name : String) (paths : List AbsolutePathBuf) : Policy :=
  { policy with
    hostExecutablesByName := update policy.hostExecutablesByName name (some paths) }

def Policy.mergeOverlay (policy overlay : Policy) : Policy where
  rulesByProgram := policy.rulesByProgram ++ overlay.rulesByProgram
  hostExecutablesByName name :=
    (overlay.hostExecutablesByName name).or (policy.hostExecutablesByName name)

structure MatchOptions where
  resolveHostExecutables : Bool

def Policy.matchExactRules (cmd : List String) : Option (List RuleMatch) :=
  cmd.head?.map (fun first =>
    (getVec policy.rulesByProgram first).filterMap (fun rule => rule.matches cmd))

variable (context : PathContext)

def Policy.matchHostExecutableRules (cmd : List String) : List RuleMatch :=
  match cmd with
  | [] => []
  | first :: rest =>
    match fromAbsolutePath context first with
    | none => []
    | some program =>
      match executablePathLookupKey program with
      | none => []
      | some basename =>
        if (policy.hostExecutablesByName basename).any
            (fun paths => !paths.contains program) then []
        else
          ((getVec policy.rulesByProgram basename).filterMap
            (fun rule => rule.matches (basename :: rest))).map
            (fun ruleMatch => ruleMatch.withResolvedProgram program)

/-- The rule matches before the fallback: exact first-token rules hide basename rules. -/
def Policy.matchedRules (cmd : List String) (options : MatchOptions) : List RuleMatch :=
  (((policy.matchExactRules cmd).filter (fun matched => !matched.isEmpty)).or
    (if options.resolveHostExecutables then
      (some (policy.matchHostExecutableRules context cmd)).filter (fun matched => !matched.isEmpty)
    else none)).getD []

abbrev HeuristicsFallback := List String → Decision

def Policy.matchesForCommandWithOptions (cmd : List String) (fallback : Option HeuristicsFallback)
    (options : MatchOptions) : List RuleMatch :=
  let matched := policy.matchedRules context cmd options
  match matched, fallback with
  | [], some decide => [.heuristicsRuleMatch cmd (decide cmd)]
  | _, _ => matched

structure Evaluation where
  decision : Decision
  matchedRules : List RuleMatch

def strictest (matched : List RuleMatch) : Option Decision :=
  (matched.map RuleMatch.decision).max?

/-- `Evaluation::from_matches`; `none` is its panic on an empty list. -/
def Evaluation.fromMatches (matched : List RuleMatch) : Option Evaluation :=
  (strictest matched).map (fun decision => ⟨decision, matched⟩)

def Policy.checkWithOptions (cmd : List String)
    (fallback : HeuristicsFallback) (options : MatchOptions) : Option Evaluation :=
  Evaluation.fromMatches
    (policy.matchesForCommandWithOptions context cmd (some fallback) options)

def Policy.checkMultipleWithOptions (commands : List (List String)) (fallback : HeuristicsFallback)
    (options : MatchOptions) : Option Evaluation :=
  Evaluation.fromMatches (commands.flatMap (fun command =>
    policy.matchesForCommandWithOptions context command (some fallback) options))

def hostResolution : MatchOptions := ⟨true⟩

variable (matched : List RuleMatch)

theorem strictest_eq_some (decision : Decision) :
    strictest matched = some decision ↔ (∃ ruleMatch ∈ matched, ruleMatch.decision = decision) ∧
        ∀ ruleMatch ∈ matched, ruleMatch.decision ≤ decision := by
  rw [strictest, max?_eq_some_iff]
  simp

theorem strictest_cons (ruleMatch : RuleMatch) (matched : List RuleMatch) :
    ∃ decision, strictest (ruleMatch :: matched) = some decision := by
  exact ⟨_, rfl⟩

theorem strictest_exists (nonempty : matched ≠ []) :
    ∃ decision, strictest matched = some decision := by
  cases matched with
  | nil => exact absurd rfl nonempty
  | cons ruleMatch matched => exact strictest_cons ruleMatch matched

def Policy.exactMatches (cmd : List String) : List RuleMatch :=
  (policy.matchExactRules cmd).getD []

variable (context : PathContext) (policy overlay : Policy) (cmd : List String)

open Policy

theorem matchedRules_eq :
    policy.matchedRules context cmd hostResolution =
      if policy.exactMatches cmd = [] then policy.matchHostExecutableRules context cmd
      else policy.exactMatches cmd := by
  have second (matched : List RuleMatch) :
      ((some matched).filter (fun matched => !matched.isEmpty)).getD [] = matched := by
    cases matched <;> rfl
  unfold matchedRules exactMatches
  cases policy.matchExactRules cmd with
  | none => exact (second _).trans (if_pos rfl).symm
  | some exact =>
    cases exact with
    | nil => exact (second _).trans (if_pos rfl).symm
    | cons head tail => exact (if_neg (cons_ne_nil head tail)).symm

variable (fallback : HeuristicsFallback) (options : MatchOptions)

theorem check_decision :
    ∃ evaluation, policy.checkWithOptions context cmd fallback options = some evaluation ∧
      strictest (policy.matchesForCommandWithOptions context cmd (some fallback) options) =
        some evaluation.decision := by
  have nonempty : policy.matchesForCommandWithOptions context cmd (some fallback) options ≠ [] := by
    unfold matchesForCommandWithOptions
    dsimp only
    split
    · simp
    · rename_i matched _ other
      intro empty
      exact other fallback empty rfl
  obtain ⟨decision, found⟩ := strictest_exists _ nonempty
  refine ⟨⟨decision, policy.matchesForCommandWithOptions context cmd (some fallback) options⟩,
    ?_, found⟩
  rw [checkWithOptions, Evaluation.fromMatches, found]
  rfl

theorem matches_of_matched (fallback : Option HeuristicsFallback) {options : MatchOptions}
    (nonempty : policy.matchedRules context cmd options ≠ []) :
    policy.matchesForCommandWithOptions context cmd fallback options =
      policy.matchedRules context cmd options := by
  unfold matchesForCommandWithOptions
  dsimp only
  split
  · rename_i empty
    exact absurd empty nonempty
  · rfl

theorem matches_of_unmatched (unmatched : policy.matchedRules context cmd options = []) :
    policy.matchesForCommandWithOptions context cmd (some fallback) options =
      [.heuristicsRuleMatch cmd (fallback cmd)] := by
  simp [matchesForCommandWithOptions, unmatched]

theorem matches_without_fallback :
    policy.matchesForCommandWithOptions context cmd none options =
      policy.matchedRules context cmd options := by
  unfold matchesForCommandWithOptions
  dsimp only
  split
  · rename_i absent
    cases absent
  · rfl

theorem decision_ge_iff (bound : Decision) :
    (∃ evaluation, policy.checkWithOptions context cmd fallback options = some evaluation ∧
        bound ≤ evaluation.decision) ↔
      ∃ ruleMatch ∈ policy.matchesForCommandWithOptions context cmd (some fallback) options,
        bound ≤ ruleMatch.decision := by
  obtain ⟨evaluation, checked, found⟩ := check_decision context policy cmd fallback options
  obtain ⟨⟨witness, member, reached⟩, upper⟩ := (strictest_eq_some _ _).mp found
  constructor
  · rintro ⟨other, same, above⟩
    rw [checked] at same
    cases same
    exact ⟨witness, member, reached ▸ above⟩
  · rintro ⟨ruleMatch, present, above⟩
    exact ⟨evaluation, checked, le_trans above (upper ruleMatch present)⟩

theorem getVec_append (left right : List (String × PrefixRule)) (program : String) :
    getVec (left ++ right) program = getVec left program ++ getVec right program := by
  simp [getVec]

theorem exactMatches_merge :
    (policy.mergeOverlay overlay).exactMatches cmd =
      policy.exactMatches cmd ++ overlay.exactMatches cmd := by
  cases cmd with
  | nil => rfl
  | cons first rest =>
    simp [exactMatches, matchExactRules, mergeOverlay, getVec_append]

def resolvedProgram (cmd : List String) : Option (AbsolutePathBuf × String) :=
  cmd.head?.bind (fun first =>
    (fromAbsolutePath context first).bind (fun program =>
      (executablePathLookupKey program).map (fun basename => (program, basename))))

def Policy.excludesHostPath (policy : Policy) (program : AbsolutePathBuf) (basename : String) :
    Bool :=
  (policy.hostExecutablesByName basename).any (fun paths => !paths.contains program)

def Policy.basenameMatches (policy : Policy) (program : AbsolutePathBuf) (basename : String)
    (cmd : List String) : List RuleMatch :=
  ((getVec policy.rulesByProgram basename).filterMap
    (fun rule => rule.matches (basename :: cmd.drop 1))).map
    (fun ruleMatch => ruleMatch.withResolvedProgram program)

theorem hostMatches_eq :
    policy.matchHostExecutableRules context cmd =
      match resolvedProgram context cmd with
      | none => []
      | some (program, basename) =>
        if policy.excludesHostPath program basename then []
        else policy.basenameMatches program basename cmd := by
  cases cmd with
  | nil => rfl
  | cons first rest =>
    unfold matchHostExecutableRules resolvedProgram
    simp only [head?_cons, Option.bind_some]
    cases fromAbsolutePath context first with
    | none => rfl
    | some program =>
      simp only [Option.bind_some]
      cases executablePathLookupKey program <;> rfl

theorem basenameMatches_merge (program : AbsolutePathBuf) (basename : String) (cmd : List String) :
    (policy.mergeOverlay overlay).basenameMatches program basename cmd =
      policy.basenameMatches program basename cmd ++
        overlay.basenameMatches program basename cmd := by
  simp [basenameMatches, mergeOverlay, getVec_append]

/-- The base policy lists host paths for the resolved program's basename without listing
the program, and the overlay lists none for it. -/
def hidesHostRules (policy overlay : Policy) (cmd : List String) : Bool :=
  (resolvedProgram context cmd).any (fun resolved =>
    (overlay.hostExecutablesByName resolved.2).isNone &&
      policy.excludesHostPath resolved.1 resolved.2)

theorem excludesHostPath_merge {program : AbsolutePathBuf} {basename : String}
    (listed : overlay.excludesHostPath program basename = false) :
    (policy.mergeOverlay overlay).excludesHostPath program basename =
      ((overlay.hostExecutablesByName basename).isNone &&
        policy.excludesHostPath program basename) := by
  unfold excludesHostPath mergeOverlay at *
  cases entry : overlay.hostExecutablesByName basename with
  | none => simp [entry]
  | some paths =>
    simpa [entry] using listed

theorem hostMatches_merge (speaks : overlay.matchHostExecutableRules context cmd ≠ []) :
    (hidesHostRules context policy overlay cmd = true →
        (policy.mergeOverlay overlay).matchHostExecutableRules context cmd = []) ∧
      (hidesHostRules context policy overlay cmd = false →
        overlay.matchHostExecutableRules context cmd ⊆
          (policy.mergeOverlay overlay).matchHostExecutableRules context cmd) := by
  rw [hostMatches_eq] at speaks
  rw [hostMatches_eq, hostMatches_eq, hidesHostRules]
  cases resolved : resolvedProgram context cmd with
  | none => simp [resolved] at speaks
  | some target =>
    obtain ⟨program, basename⟩ := target
    simp only [resolved] at speaks
    have listed : overlay.excludesHostPath program basename = false := by
      cases excluded : overlay.excludesHostPath program basename with
      | false => rfl
      | true => exact absurd (if_pos excluded) speaks
    have merged := excludesHostPath_merge policy overlay listed
    constructor
    · intro hidden
      exact if_pos (merged.trans hidden)
    · intro visible
      simp only [listed, merged.trans visible, basenameMatches_merge]
      exact subset_append_right _ _

/-- What keeps a requirement `decision` on `cmd` when `policy` is overlaid with `overlay`. -/
def RequirementKept (policy overlay : Policy) (cmd : List String) (decision : Decision) : Prop :=
  decision = .allow ∨ overlay.exactMatches cmd ≠ [] ∨
    (∃ ruleMatch ∈ policy.exactMatches cmd, decision ≤ ruleMatch.decision) ∨
      (policy.exactMatches cmd = [] ∧ hidesHostRules context policy overlay cmd = false)

theorem matchedRules_of_exact (exact : policy.exactMatches cmd ≠ []) :
    policy.matchedRules context cmd hostResolution = policy.exactMatches cmd := by
  rw [matchedRules_eq, if_neg exact]

theorem matchedRules_of_host (inexact : policy.exactMatches cmd = []) :
    policy.matchedRules context cmd hostResolution =
      policy.matchHostExecutableRules context cmd := by
  rw [matchedRules_eq, if_pos inexact]

theorem check_ge_of_mem {bound : Decision} {ruleMatch : RuleMatch}
    (member : ruleMatch ∈ policy.matchedRules context cmd hostResolution)
    (above : bound ≤ ruleMatch.decision) :
    ∃ evaluation, policy.checkWithOptions context cmd fallback hostResolution = some evaluation ∧
      bound ≤ evaluation.decision := by
  refine (decision_ge_iff context policy cmd fallback hostResolution bound).mpr ?_
  rw [matches_of_matched _ _ _ _ (ne_nil_of_mem member)]
  exact ⟨ruleMatch, member, above⟩

theorem kept_of_requirementKept {decision : Decision}
    (required : strictest (overlay.matchesForCommandWithOptions context cmd none hostResolution) =
      some decision) (kept : RequirementKept context policy overlay cmd decision)
    (fallback : HeuristicsFallback) :
    ∃ evaluation, (policy.mergeOverlay overlay).checkWithOptions context cmd fallback
        hostResolution = some evaluation ∧ decision ≤ evaluation.decision := by
  rw [matches_without_fallback] at required
  obtain ⟨⟨source, member, reached⟩, -⟩ := (strictest_eq_some _ _).mp required
  have above : decision ≤ source.decision := reached.ge
  by_cases exact : overlay.exactMatches cmd = []
  · rw [matchedRules_of_host context overlay cmd exact] at member
    have merged : (policy.mergeOverlay overlay).exactMatches cmd = policy.exactMatches cmd := by
      rw [exactMatches_merge, exact, append_nil]
    rcases kept with rfl | speaks | ⟨ruleMatch, present, strict⟩ | ⟨silent, visible⟩
    · obtain ⟨evaluation, checked, -⟩ := check_decision context (policy.mergeOverlay overlay) cmd
        fallback hostResolution
      exact ⟨evaluation, checked, Decision.allow_le _⟩
    · exact absurd exact speaks
    · refine check_ge_of_mem _ _ _ _ ?_ strict
      rw [matchedRules_of_exact, merged]
      · exact present
      · exact merged ▸ ne_nil_of_mem present
    · refine check_ge_of_mem _ _ _ _ ?_ above
      rw [matchedRules_of_host _ _ _ (merged.trans silent)]
      exact (hostMatches_merge context policy overlay cmd (ne_nil_of_mem member)).2
        visible member
  · rw [matchedRules_of_exact context overlay cmd exact] at member
    have merged : source ∈ (policy.mergeOverlay overlay).exactMatches cmd := by
      rw [exactMatches_merge]
      exact mem_append_right _ member
    refine check_ge_of_mem _ _ _ _ ?_ above
    rw [matchedRules_of_exact _ _ _ (ne_nil_of_mem merged)]
    exact merged

/-- A requirement survives the merge for every fallback exactly when it is `allow`, has an
exact rule, meets a base rule as strict, or is neither shadowed by an exact base rule nor
hidden by the base policy's host paths. -/
theorem requirement_kept_iff (context : PathContext) (policy overlay : Policy)
    (cmd : List String) (decision : Decision)
    (required : strictest (overlay.matchesForCommandWithOptions context cmd none hostResolution) =
      some decision) :
    (∀ fallback, ∃ evaluation, (policy.mergeOverlay overlay).checkWithOptions context cmd fallback
        hostResolution = some evaluation ∧ decision ≤ evaluation.decision) ↔
      RequirementKept context policy overlay cmd decision := by
  constructor
  · intro holds
    have reached := (decision_ge_iff context (policy.mergeOverlay overlay) cmd
      (fun _ => .allow) hostResolution decision).mp (holds (fun _ => .allow))
    by_cases exact : overlay.exactMatches cmd = []
    · have merged : (policy.mergeOverlay overlay).exactMatches cmd = policy.exactMatches cmd := by
        rw [exactMatches_merge, exact, append_nil]
      by_cases silent : policy.exactMatches cmd = []
      · cases hidden : hidesHostRules context policy overlay cmd with
        | false => exact .inr (.inr (.inr ⟨silent, hidden⟩))
        | true =>
          -- the hidden rules leave the command to the fallback, which may allow it
          rw [matches_without_fallback, matchedRules_of_host _ _ _ exact] at required
          have speaks : overlay.matchHostExecutableRules context cmd ≠ [] := by
            intro empty
            rw [empty] at required
            cases required
          have unmatched := (matchedRules_of_host context _ cmd (merged.trans silent)).trans
            ((hostMatches_merge context policy overlay cmd speaks).1 hidden)
          rw [matches_of_unmatched _ _ _ _ _ unmatched] at reached
          obtain ⟨ruleMatch, member, above⟩ := reached
          rw [mem_singleton.mp member] at above
          exact .inl (le_antisymm above (Decision.allow_le _))
      · have matched := matchedRules_of_exact context _ cmd (merged ▸ silent)
        rw [matches_of_matched _ _ _ _ (by rw [matched, merged]; exact silent), matched,
          merged] at reached
        exact .inr (.inr (.inl reached))
    · exact .inr (.inl exact)
  · intro kept fallback
    exact kept_of_requirementKept context policy overlay cmd required kept fallback

def onProgram (program : String) (decision : Decision) : Policy :=
  ⟨[(program, ⟨⟨program, []⟩, decision, none⟩)], fun _ => none⟩

theorem git_requirement_kept :
    strictest ((onProgram "git" .forbidden).matchesForCommandWithOptions ⟨root, none⟩
        ["/usr/bin/git", "push"] none hostResolution) = some .forbidden ∧
      ∀ fallback, ∃ evaluation,
        ((onProgram "ls" .allow).mergeOverlay (onProgram "git" .forbidden)).checkWithOptions
            ⟨root, none⟩ ["/usr/bin/git", "push"] fallback hostResolution = some evaluation ∧
          Decision.forbidden ≤ evaluation.decision := by
  constructor
  · decide
  · exact (requirement_kept_iff ⟨root, none⟩ (onProgram "ls" .allow) (onProgram "git" .forbidden)
      ["/usr/bin/git", "push"] .forbidden (by decide)).mpr (.inr (.inr (.inr (by decide))))

/-- The requirement forbids `git` under every path; a user rule for one path lifts it. -/
theorem git_requirement_weakened :
    strictest ((onProgram "git" .forbidden).matchesForCommandWithOptions ⟨root, none⟩
        ["/usr/bin/git", "push"] none hostResolution) = some .forbidden ∧
      ∀ fallback, (((onProgram "/usr/bin/git" .allow).mergeOverlay
          (onProgram "git" .forbidden)).checkWithOptions ⟨root, none⟩
            ["/usr/bin/git", "push"] fallback hostResolution).map Evaluation.decision =
        some .allow := by
  constructor
  · decide
  · intro fallback
    rfl

end OpenInterpreter.ExecPolicy
