import OpenInterpreter.ExecPolicy

/-! Amending the exec policy at run time: `append_amendment_and_update` of
`core/src/exec_policy.rs` over `execpolicy/src/amend.rs`, with the rules files at the
level of parsed statements. -/

namespace OpenInterpreter.ExecPolicyAmend

open AbsolutePath ExecPolicy List

inductive RuleStatement where
  | prefixRule (first : PatternToken) (rest : List PatternToken) (decision : Decision)
      (justification : Option String)
  | hostExecutable (name : String) (paths : List AbsolutePathBuf)

def alternatives : PatternToken → List String
  | .single expected => [expected]
  | .alts tokens => tokens

/-- `appended` is the very line `blocking_append_allow_prefix_rule` writes; any other
spelling of a statement is a different line of the file. -/
inductive RuleLine where
  | appended (first : String) (rest : List String)
  | other (statement : RuleStatement)

def RuleLine.isAppended (first : String) (rest : List String) : RuleLine → Bool
  | .appended program tokens => program == first && tokens == rest
  | .other _ => false

def allowEntry (first : String) (rest : List String) : String × PrefixRule :=
  (first, ⟨⟨first, rest.map .single⟩, .allow, none⟩)

/-- `PolicyBuilder::add_rule` and `add_host_executable`, one line at a time. -/
def addLine (policy : Policy) : RuleLine → Policy
  | .appended first rest =>
    { policy with rulesByProgram := policy.rulesByProgram ++ [allowEntry first rest] }
  | .other (.prefixRule first rest decision justification) =>
    { policy with
      rulesByProgram := policy.rulesByProgram ++
        (alternatives first).map (fun head => (head, ⟨⟨head, rest⟩, decision, justification⟩)) }
  | .other (.hostExecutable name paths) => policy.setHostExecutablePaths name paths

variable (lines : List RuleLine)

def parsePolicy : Policy := lines.foldl addLine Policy.empty

/-- The rules files in load order around `default.rules`, the one that is amended, and
the requirements policy laid over them. -/
structure RulesFiles where
  earlier : List RuleLine
  defaultRules : List RuleLine
  later : List RuleLine
  requirements : Option Policy

def loadExecPolicy (files : RulesFiles) : Policy :=
  let policy := parsePolicy (files.earlier ++ files.defaultRules ++ files.later)
  match files.requirements with
  | none => policy
  | some requirements => policy.mergeOverlay requirements

/-- `append_locked_line` writes the line unless the file already has it. -/
def appendAllowPrefixRule (command : List String) : Except String (List RuleLine) :=
  match command with
  | [] => .error "prefix rule requires at least one token"
  | first :: rest =>
    if lines.any (RuleLine.isAppended first rest) then .ok lines
    else .ok (lines ++ [.appended first rest])

def isPolicyMatch : RuleMatch → Bool
  | .prefixRuleMatch .. => true
  | .heuristicsRuleMatch .. => false

variable (context : PathContext)

def alreadyAllowed (policy : Policy) (command : List String) : Bool :=
  (policy.checkMultipleWithOptions context [command] (fun _ => .forbidden) hostResolution).any
    (fun existing => existing.decision = .allow && existing.matchedRules.any (fun ruleMatch =>
        isPolicyMatch ruleMatch && ruleMatch.decision = .allow))

structure Manager where
  policy : Policy
  files : RulesFiles

def Manager.load (files : RulesFiles) : Manager := ⟨loadExecPolicy files, files⟩

def appendAmendmentAndUpdate (manager : Manager)
    (command : List String) : Except String Manager := do
  let lines ← appendAllowPrefixRule manager.files.defaultRules command
  let files := { manager.files with defaultRules := lines }
  if alreadyAllowed context manager.policy command then
    return { manager with files := files }
  let policy ← manager.policy.addPrefixRule command .allow
  return ⟨policy, files⟩

def amendments (context : PathContext) (manager : Manager) :
    List (List String) → Except String (List Manager)
  | [] => .ok []
  | command :: commands => do
      let next ← appendAmendmentAndUpdate context manager command
      let rest ← amendments context next commands
      return next :: rest

def Agrees (manager : Manager) : Prop :=
  ∀ cmd fallback, (manager.policy.checkWithOptions context cmd fallback hostResolution).map
        Evaluation.decision =
      ((loadExecPolicy manager.files).checkWithOptions context cmd fallback hostResolution).map
        Evaluation.decision

/-- The commands whose decision a new exact rule for `first :: rest` could change through
`policy`'s host rules: those that start with the tokens, and those whose program's file
name is `first` with the same arguments. -/
def Covered (policy : Policy) (first : String) (rest : List String) : Prop :=
  (∀ cmd, first :: rest <+: cmd → policy.exactMatches cmd = [] →
      ∀ ruleMatch ∈ policy.matchHostExecutableRules context cmd, ruleMatch.decision = .allow) ∧
    ∀ cmd program, resolvedProgram context cmd = some (program, first) → rest <+: cmd.drop 1 →
      policy.excludesHostPath program first = false →
      policy.matchedRules context cmd hostResolution ≠ []

/-- An amendment keeps memory and disk in step: it is recorded in memory, or an exact
rule allows it already, or no host rule treats a longer command differently. -/
def SafeAmendment (policy : Policy) : List String → Prop
  | [] => True
  | first :: rest =>
    alreadyAllowed context policy (first :: rest) = true →
      policy.exactMatches (first :: rest) ≠ [] ∨ Covered context policy first rest

def exactVotes (policy : Policy) (cmd : List String) : Set Decision :=
  {decision | ∃ ruleMatch ∈ policy.exactMatches cmd, ruleMatch.decision = decision}

def hostVotes (policy : Policy) (cmd : List String) : Set Decision :=
  {decision | ∃ ruleMatch ∈ policy.matchHostExecutableRules context cmd,
    ruleMatch.decision = decision}

/-- The votes that count: exact rules first, host rules next, the fallback last. -/
def votes (policy : Policy) (cmd : List String) (fallback : HeuristicsFallback) : Set Decision :=
  {decision | decision ∈ exactVotes policy cmd ∨
    (policy.exactMatches cmd = [] ∧ decision ∈ hostVotes context policy cmd) ∨
    (policy.exactMatches cmd = [] ∧ policy.matchHostExecutableRules context cmd = [] ∧
      decision = fallback cmd)}

variable (context : PathContext) (policy : Policy) (manager : Manager) (first : String)
    (cmd : List String)

theorem voteless_iff (matched : List RuleMatch) :
    matched = [] ↔ {decision | ∃ ruleMatch ∈ matched, ruleMatch.decision = decision} = ∅ := by
  cases matched with
  | nil => simp
  | cons head tail =>
    refine iff_of_false (cons_ne_nil _ _) (Set.nonempty_iff_ne_empty.mp ⟨head.decision, ?_⟩)
    exact ⟨head, mem_cons_self, rfl⟩

theorem exactVotes_empty : policy.exactMatches cmd = [] ↔ exactVotes policy cmd = ∅ :=
  voteless_iff _

theorem hostVotes_empty :
    policy.matchHostExecutableRules context cmd = [] ↔ hostVotes context policy cmd = ∅ :=
  voteless_iff _

section

variable {context policy cmd}

theorem votes_of_exact (exact : exactVotes policy cmd ≠ ∅) (fallback : HeuristicsFallback) :
    votes context policy cmd fallback = exactVotes policy cmd := by
  simp [votes, exactVotes_empty, exact]

variable (silent : exactVotes policy cmd = ∅)
include silent

theorem votes_of_host (host : hostVotes context policy cmd ≠ ∅) (fallback : HeuristicsFallback) :
    votes context policy cmd fallback = hostVotes context policy cmd := by
  simp [votes, exactVotes_empty, hostVotes_empty, silent, host]

theorem votes_of_fallback (unheard : hostVotes context policy cmd = ∅)
    (fallback : HeuristicsFallback) : votes context policy cmd fallback = {fallback cmd} := by
  simp [votes, exactVotes_empty, hostVotes_empty, silent, unheard]

end

variable (fallback : HeuristicsFallback)

theorem mem_votes_iff (decision : Decision) :
    decision ∈ votes context policy cmd fallback ↔
      ∃ ruleMatch ∈ policy.matchesForCommandWithOptions context cmd (some fallback)
        hostResolution, ruleMatch.decision = decision := by
  unfold votes exactVotes hostVotes
  by_cases exact : policy.exactMatches cmd = []
  · have matched := matchedRules_of_host context policy cmd exact
    by_cases silent : policy.matchHostExecutableRules context cmd = []
    · rw [matches_of_unmatched _ _ _ _ _ (matched.trans silent)]
      simp [exact, silent, RuleMatch.decision, eq_comm]
    · rw [matches_of_matched _ _ _ _ (by rw [matched]; exact silent), matched]
      simp [exact, silent]
  · have matched := matchedRules_of_exact context policy cmd exact
    rw [matches_of_matched _ _ _ _ (by rw [matched]; exact exact), matched]
    simp [exact]

theorem check_isGreatest :
    ∃ evaluation, policy.checkWithOptions context cmd fallback hostResolution = some evaluation ∧
      IsGreatest (votes context policy cmd fallback) evaluation.decision := by
  obtain ⟨evaluation, checked, found⟩ := check_decision context policy cmd fallback hostResolution
  obtain ⟨reached, upper⟩ := (strictest_eq_some _ _).mp found
  refine ⟨evaluation, checked, (mem_votes_iff ..).mpr reached, ?_⟩
  intro decision vote
  obtain ⟨ruleMatch, member, rfl⟩ := (mem_votes_iff ..).mp vote
  exact upper ruleMatch member

variable {decision : Decision}

theorem isGreatest_of_allow {fewer more : Set Decision}
    (kept : fewer ⊆ more) (added : more ⊆ insert .allow fewer)
    (greatest : IsGreatest fewer decision) : IsGreatest more decision := by
  constructor
  · exact kept greatest.1
  · intro vote member
    rcases added member with rfl | old
    · exact Decision.allow_le decision
    · exact greatest.2 old

theorem exactVotes_iff (decision : Decision) :
    decision ∈ exactVotes policy cmd ↔ ∃ entry ∈ policy.rulesByProgram, cmd.head? = some entry.1 ∧
        (entry.2.pattern.matchesPrefix cmd).isSome ∧ entry.2.decision = decision := by
  cases cmd with
  | nil => simp [exactVotes, Policy.exactMatches, Policy.matchExactRules]
  | cons first rest =>
    simp only [exactVotes, Policy.exactMatches, Policy.matchExactRules, Option.map_some,
      Option.getD_some, mem_filterMap, getVec, mem_map, mem_filter, PrefixRule.matches,
      Option.map_eq_some_iff, head?_cons, Option.some.injEq, beq_iff_eq, Option.isSome_iff_exists]
    constructor
    · rintro ⟨_, ⟨rule, ⟨entry, ⟨member, program⟩, rfl⟩, found, matched, rfl⟩, reached⟩
      exact ⟨entry, member, program.symm, ⟨found, matched⟩, reached⟩
    · rintro ⟨entry, member, program, ⟨found, matched⟩, reached⟩
      exact ⟨_, ⟨entry.2, ⟨entry, ⟨member, program.symm⟩, rfl⟩, found, matched, rfl⟩, reached⟩

theorem hostVotes_iff (decision : Decision) :
    decision ∈ hostVotes context policy cmd ↔ ∃ program, ∃ entry ∈ policy.rulesByProgram,
        resolvedProgram context cmd = some (program, entry.1) ∧
        policy.excludesHostPath program entry.1 = false ∧
        (entry.2.pattern.matchesPrefix (entry.1 :: cmd.drop 1)).isSome ∧
        entry.2.decision = decision := by
  unfold hostVotes
  rw [hostMatches_eq]
  cases resolved : resolvedProgram context cmd with
  | none => simp
  | some target =>
    obtain ⟨program, basename⟩ := target
    cases excluded : policy.excludesHostPath program basename with
    | true =>
      simp only [excluded, if_true, not_mem_nil, false_and, exists_false,
        Set.ofPred_false, Set.mem_empty_iff_false, false_iff]
      rintro ⟨_, entry, -, ⟨rfl, rfl⟩, listed, -⟩
      exact absurd (excluded.symm.trans listed) (by decide)
    | false =>
      simp only [excluded, Bool.false_eq_true, if_false,
        Policy.basenameMatches, mem_map, mem_filterMap, getVec, mem_filter, PrefixRule.matches,
        Option.map_eq_some_iff, beq_iff_eq, Option.isSome_iff_exists]
      constructor
      · rintro ⟨_, ⟨_, ⟨rule, ⟨entry, ⟨member, rfl⟩, rfl⟩, found, matched, rfl⟩, rfl⟩, reached⟩
        exact ⟨program, entry, member, rfl, excluded, ⟨found, matched⟩, reached⟩
      · rintro ⟨_, entry, member, same, -, ⟨found, matched⟩, reached⟩
        cases same
        exact ⟨_, ⟨_, ⟨entry.2, ⟨entry, ⟨member, rfl⟩, rfl⟩, found, matched, rfl⟩, rfl⟩, reached⟩

theorem exactVotes_extend {short long : List String} (vote : decision ∈ exactVotes policy short)
    (longer : short <+: long) : decision ∈ exactVotes policy long := by
  obtain ⟨entry, member, program, matched, reached⟩ := (exactVotes_iff ..).mp vote
  refine (exactVotes_iff ..).mpr ⟨entry, member, ?_, matchesPrefix_extend matched longer, reached⟩
  obtain ⟨more, rfl⟩ := longer
  simp [program]

variable (rest : List String)

theorem hostVotes_of_exactVotes {cmd : List String} {program : AbsolutePathBuf}
    (vote : decision ∈ exactVotes policy (first :: rest))
    (resolved : resolvedProgram context cmd = some (program, first)) (longer : rest <+: cmd.drop 1)
    (listed : policy.excludesHostPath program first = false) :
    decision ∈ hostVotes context policy cmd := by
  obtain ⟨entry, member, same, matched, reached⟩ := (exactVotes_iff ..).mp vote
  rw [head?_cons, Option.some.injEq] at same
  subst same
  refine (hostVotes_iff ..).mpr ⟨program, entry, member, resolved, listed, ?_, reached⟩
  exact matchesPrefix_extend matched ((prefix_cons_inj _).mpr longer)

variable (cmd : List String)

theorem resolvedProgram_extend (longer : first :: rest <+: cmd) :
    resolvedProgram context cmd = resolvedProgram context (first :: rest) := by
  obtain ⟨more, rfl⟩ := longer
  rfl

theorem hostVotes_extend {cmd : List String}
    (vote : decision ∈ hostVotes context policy (first :: rest)) (longer : first :: rest <+: cmd) :
    decision ∈ hostVotes context policy cmd := by
  obtain ⟨program, entry, member, resolved, listed, matched, reached⟩ := (hostVotes_iff ..).mp vote
  refine (hostVotes_iff ..).mpr ⟨program, entry, member,
    (resolvedProgram_extend context first rest cmd longer).trans resolved, listed,
    matchesPrefix_extend matched ?_, reached⟩
  obtain ⟨more, rfl⟩ := longer
  exact ⟨more, rfl⟩

def Benign (policy : Policy) (first : String) (rest : List String) : Prop :=
  (∀ cmd, first :: rest <+: cmd → exactVotes policy cmd = ∅ →
      hostVotes context policy cmd = {.allow}) ∧
    ∀ cmd program, resolvedProgram context cmd = some (program, first) → rest <+: cmd.drop 1 →
      policy.excludesHostPath program first = false → exactVotes policy cmd = ∅ →
      (hostVotes context policy cmd).Nonempty

theorem benign_of_exact (exact : (exactVotes policy (first :: rest)).Nonempty) :
    Benign context policy first rest := by
  obtain ⟨decision, vote⟩ := exact
  constructor
  · intro cmd longer silent
    have present := exactVotes_extend policy vote longer
    rw [silent] at present
    exact absurd present (Set.notMem_empty _)
  · intro cmd program resolved longer listed silent
    exact ⟨decision, hostVotes_of_exactVotes context policy first rest vote resolved longer listed⟩

theorem matchedRules_ne_nil_iff :
    policy.matchedRules context cmd hostResolution ≠ [] ↔
      (exactVotes policy cmd = ∅ → (hostVotes context policy cmd).Nonempty) := by
  rw [← exactVotes_empty, Set.nonempty_iff_ne_empty, ne_eq, ne_eq, ← hostVotes_empty]
  by_cases exact : policy.exactMatches cmd = []
  · simp [matchedRules_of_host context policy cmd exact, exact]
  · simp [matchedRules_of_exact context policy cmd exact, exact]

theorem matched_of_alreadyAllowed (command : List String)
    (allowed : alreadyAllowed context policy command = true) :
    policy.matchedRules context command hostResolution ≠ [] := by
  intro unmatched
  simp [alreadyAllowed, Policy.checkMultipleWithOptions, Evaluation.fromMatches, strictest,
    matches_of_unmatched _ _ _ _ _ unmatched, RuleMatch.decision] at allowed

theorem covered_iff_benign
    (matched : policy.matchedRules context (first :: rest) hostResolution ≠ [])
    (inexact : policy.exactMatches (first :: rest) = []) :
    Covered context policy first rest ↔ Benign context policy first rest := by
  have host := (matchedRules_ne_nil_iff ..).mp matched ((exactVotes_empty ..).mp inexact)
  obtain ⟨decision, vote⟩ := host
  constructor
  · rintro ⟨allow, named⟩
    constructor
    · intro cmd longer silent
      have all := allow cmd longer ((exactVotes_empty ..).mpr silent)
      have subset : hostVotes context policy cmd ⊆ {.allow} := by
        rintro other ⟨ruleMatch, member, rfl⟩
        exact all ruleMatch member
      have present := hostVotes_extend context policy first rest vote longer
      exact Set.Nonempty.subset_singleton_iff ⟨decision, present⟩ |>.mp subset
    · intro cmd program resolved longer listed
      exact (matchedRules_ne_nil_iff ..).mp (named cmd program resolved longer listed)
  · rintro ⟨allow, named⟩
    constructor
    · intro cmd longer silent ruleMatch member
      have only := allow cmd longer ((exactVotes_empty ..).mp silent)
      have present : ruleMatch.decision ∈ hostVotes context policy cmd := ⟨ruleMatch, member, rfl⟩
      rw [only] at present
      exact present
    · intro cmd program resolved longer listed
      exact (matchedRules_ne_nil_iff ..).mpr (named cmd program resolved longer listed)

structure Extends (extra : String → List String → Prop) (fewer more : Policy) : Prop where
  hosts : more.hostExecutablesByName = fewer.hostExecutablesByName
  kept : fewer.rulesByProgram ⊆ more.rulesByProgram
  added : ∀ entry ∈ more.rulesByProgram, entry ∈ fewer.rulesByProgram ∨
    ∃ first rest, entry = allowEntry first rest ∧ extra first rest

variable {extra : String → List String → Prop} {fewer more : Policy}

theorem Extends.refl : Extends extra fewer fewer := ⟨rfl, Subset.refl _, fun _ => .inl⟩

section

variable (grown : Extends extra fewer more)
include grown

theorem Extends.mono : Extends (fun _ _ => True) fewer more where
  hosts := grown.hosts
  kept := grown.kept
  added entry member := by
    rcases grown.added entry member with old | ⟨first, rest, same, -⟩
    · exact .inl old
    · exact .inr ⟨first, rest, same, trivial⟩

theorem Extends.with_entry {larger : Policy} {first : String} {rest : List String}
    (hosts : larger.hostExecutablesByName = more.hostExecutablesByName)
    (rules : ∀ entry, entry ∈ larger.rulesByProgram ↔
      entry ∈ more.rulesByProgram ∨ entry = allowEntry first rest)
    (allowed : extra first rest) : Extends extra fewer larger where
  hosts := hosts.trans grown.hosts
  kept _ member := (rules _).mpr (.inl (grown.kept member))
  added entry member := by
    rcases (rules entry).mp member with old | rfl
    · exact grown.added entry old
    · exact .inr ⟨first, rest, rfl, allowed⟩

theorem Extends.excludes (program : AbsolutePathBuf) (basename : String) :
    more.excludesHostPath program basename = fewer.excludesHostPath program basename := by
  rw [Policy.excludesHostPath, grown.hosts, Policy.excludesHostPath]

theorem Extends.exact_subset : exactVotes fewer cmd ⊆ exactVotes more cmd := by
  intro decision vote
  obtain ⟨entry, member, rest⟩ := (exactVotes_iff ..).mp vote
  exact (exactVotes_iff ..).mpr ⟨entry, grown.kept member, rest⟩

theorem Extends.host_subset : hostVotes context fewer cmd ⊆ hostVotes context more cmd := by
  intro decision vote
  obtain ⟨program, entry, member, resolved, listed, rest⟩ := (hostVotes_iff ..).mp vote
  exact (hostVotes_iff ..).mpr ⟨program, entry, grown.kept member, resolved,
    (grown.excludes program entry.1).trans listed, rest⟩

theorem Extends.exact_added (decision : Decision) (vote : decision ∈ exactVotes more cmd) :
    decision ∈ exactVotes fewer cmd ∨
      decision = .allow ∧ ∃ first rest, extra first rest ∧ first :: rest <+: cmd := by
  obtain ⟨entry, member, program, matched, rfl⟩ := (exactVotes_iff ..).mp vote
  rcases grown.added entry member with old | ⟨first, rest, rfl, allowed⟩
  · exact .inl ((exactVotes_iff ..).mpr ⟨entry, old, program, matched, rfl⟩)
  · exact .inr ⟨rfl, first, rest, allowed, (matchesPrefix_singles first rest cmd).mp matched⟩

theorem Extends.exact_allow {cmd : List String} (silent : exactVotes fewer cmd = ∅) :
    exactVotes more cmd ⊆ {.allow} := by
  intro decision vote
  rcases grown.exact_added cmd decision vote with old | ⟨rfl, -⟩
  · rw [silent] at old
    exact absurd old (Set.notMem_empty _)
  · rfl

theorem Extends.host_added (decision : Decision) (vote : decision ∈ hostVotes context more cmd) :
    decision ∈ hostVotes context fewer cmd ∨
      decision = .allow ∧ ∃ first rest program, extra first rest ∧
        resolvedProgram context cmd = some (program, first) ∧ rest <+: cmd.drop 1 ∧
        fewer.excludesHostPath program first = false := by
  obtain ⟨program, entry, member, resolved, listed, matched, rfl⟩ := (hostVotes_iff ..).mp vote
  rw [grown.excludes] at listed
  rcases grown.added entry member with old | ⟨first, rest, rfl, allowed⟩
  · exact .inl ((hostVotes_iff ..).mpr ⟨program, entry, old, resolved, listed, matched, rfl⟩)
  · have longer := (matchesPrefix_singles first rest _).mp matched
    exact .inr ⟨rfl, first, rest, program, allowed, resolved, (prefix_cons_inj _).mp longer, listed⟩

omit grown in
theorem Extends.votes_bounds (grown : Extends (Benign context fewer) fewer more)
    (cmd : List String) (fallback : HeuristicsFallback) :
    votes context fewer cmd fallback ⊆ votes context more cmd fallback ∧
      votes context more cmd fallback ⊆ insert .allow (votes context fewer cmd fallback) := by
  have exactKept := grown.exact_subset cmd
  have hostKept := grown.host_subset context cmd
  by_cases silent : exactVotes fewer cmd = ∅
  · by_cases quiet : exactVotes more cmd = ∅
    · by_cases unheard : hostVotes context fewer cmd = ∅
      · -- an entry that speaks on disk only would have been heard in memory
        have still : hostVotes context more cmd = ∅ := by
          rw [Set.eq_empty_iff_forall_notMem]
          intro decision vote
          rcases grown.host_added context cmd decision vote with
            old | ⟨-, first, rest, program, benign, resolved, longer, listed⟩
          · rw [unheard] at old
            exact old
          · have heard := benign.2 cmd program resolved longer listed silent
            exact Set.nonempty_iff_ne_empty.mp heard unheard
        rw [votes_of_fallback silent unheard, votes_of_fallback quiet still]
        exact ⟨subset_rfl, Set.subset_insert _ _⟩
      · have loud := mt (Set.subset_eq_empty hostKept) unheard
        rw [votes_of_host silent unheard, votes_of_host quiet loud]
        refine ⟨hostKept, fun decision member => ?_⟩
        rcases grown.host_added context cmd decision member with old | ⟨rfl, -⟩
        · exact .inr old
        · exact .inl rfl
    · -- only skipped entries speak on disk; in memory the host rules say the same
      obtain ⟨decision, vote⟩ := Set.nonempty_iff_ne_empty.mpr quiet
      have only : hostVotes context fewer cmd = {.allow} := by
        rcases grown.exact_added cmd decision vote with old | ⟨-, first, rest, benign, longer⟩
        · rw [silent] at old
          exact absurd old (Set.notMem_empty _)
        · exact benign.1 cmd longer silent
      rw [votes_of_host silent (only ▸ Set.singleton_ne_empty _), votes_of_exact quiet, only,
        (Set.Nonempty.subset_singleton_iff ⟨decision, vote⟩).mp (grown.exact_allow silent)]
      exact ⟨subset_rfl, Set.subset_insert _ _⟩
  · rw [votes_of_exact silent, votes_of_exact (mt (Set.subset_eq_empty exactKept) silent)]
    refine ⟨exactKept, fun decision member => ?_⟩
    rcases grown.exact_added cmd decision member with old | ⟨rfl, -⟩
    · exact .inr old
    · exact .inl rfl

omit grown in
theorem decision_eq_of_isGreatest {fallback : HeuristicsFallback}
    (greatest : IsGreatest (votes context policy cmd fallback) decision) :
    (policy.checkWithOptions context cmd fallback hostResolution).map Evaluation.decision =
      some decision := by
  obtain ⟨evaluation, checked, found⟩ := check_isGreatest context policy cmd fallback
  rw [checked, Option.map_some, found.unique greatest]

omit grown in
theorem agrees_of_extends
    (grown : Extends (Benign context manager.policy) manager.policy
      (loadExecPolicy manager.files)) : Agrees context manager := by
  intro cmd fallback
  obtain ⟨evaluation, checked, greatest⟩ := check_isGreatest context manager.policy cmd fallback
  obtain ⟨kept, added⟩ := grown.votes_bounds context cmd fallback
  rw [checked, decision_eq_of_isGreatest context _ cmd
    (isGreatest_of_allow kept added greatest), Option.map_some]

theorem benign_of_extends (first : String) (rest : List String)
    (benign : Benign context fewer first rest) : Benign context more first rest := by
  have silent (cmd : List String) (none : exactVotes more cmd = ∅) : exactVotes fewer cmd = ∅ :=
    Set.subset_eq_empty (grown.exact_subset cmd) none
  constructor
  · intro cmd longer none
    have only := benign.1 cmd longer (silent cmd none)
    refine Set.Subset.antisymm ?_ (only ▸ grown.host_subset context cmd)
    intro decision vote
    rcases grown.host_added context cmd decision vote with old | ⟨rfl, -⟩
    · exact only ▸ old
    · rfl
  · intro cmd program resolved longer listed none
    rw [grown.excludes] at listed
    exact (benign.2 cmd program resolved longer listed (silent cmd none)).mono
      (grown.host_subset context cmd)

end

def RuleLine.entries : RuleLine → List (String × PrefixRule)
  | .appended first rest => [allowEntry first rest]
  | .other (.prefixRule first rest decision justification) =>
    (alternatives first).map (fun head => (head, ⟨⟨head, rest⟩, decision, justification⟩))
  | .other (.hostExecutable _ _) => []

theorem parse_rules (policy : Policy) : (lines.foldl addLine policy).rulesByProgram =
      policy.rulesByProgram ++ lines.flatMap RuleLine.entries := by
  induction lines generalizing policy with
  | nil => simp
  | cons line lines ih =>
    rw [foldl_cons, ih, flatMap_cons, ← append_assoc]
    congr 1
    cases line with
    | appended first rest => rfl
    | other statement =>
      cases statement with
      | prefixRule => rfl
      | hostExecutable => exact (append_nil _).symm

theorem parse_hosts (left right : Policy)
    (same : left.hostExecutablesByName = right.hostExecutablesByName) :
    (lines.foldl addLine left).hostExecutablesByName =
      (lines.foldl addLine right).hostExecutablesByName := by
  induction lines generalizing left right with
  | nil => exact same
  | cons line lines ih =>
    apply ih
    cases line with
    | appended first rest => exact same
    | other statement =>
      cases statement with
      | prefixRule => exact same
      | hostExecutable => simp [addLine, Policy.setHostExecutablePaths, same]

theorem load_rules (files : RulesFiles) :
    (loadExecPolicy files).rulesByProgram =
      (files.earlier ++ files.defaultRules ++ files.later).flatMap RuleLine.entries ++
        (files.requirements.map Policy.rulesByProgram).getD [] := by
  unfold loadExecPolicy parsePolicy
  cases files.requirements <;> simp [Policy.mergeOverlay, parse_rules, Policy.empty]

theorem load_appended {files : RulesFiles} {first : String} {rest : List String}
    {lines : List RuleLine}
    (written : appendAllowPrefixRule files.defaultRules (first :: rest) = .ok lines) :
    (loadExecPolicy { files with defaultRules := lines }).hostExecutablesByName =
        (loadExecPolicy files).hostExecutablesByName ∧
      ∀ entry, entry ∈ (loadExecPolicy { files with defaultRules := lines }).rulesByProgram ↔
        entry ∈ (loadExecPolicy files).rulesByProgram ∨ entry = allowEntry first rest := by
  simp only [appendAllowPrefixRule] at written
  split at written
  · rename_i present
    cases written
    refine ⟨rfl, fun entry => ⟨.inl, ?_⟩⟩
    rintro (old | rfl)
    · exact old
    · obtain ⟨line, member, same⟩ := any_eq_true.mp present
      cases line with
      | other statement => cases same
      | appended program tokens =>
        simp only [RuleLine.isAppended, Bool.and_eq_true, beq_iff_eq] at same
        obtain ⟨rfl, rfl⟩ := same
        rw [load_rules]
        refine mem_append_left _ (mem_flatMap.mpr
          ⟨.appended program tokens, ?_, mem_singleton_self (allowEntry program tokens)⟩)
        simp [member]
  · cases written
    constructor
    · have same : (parsePolicy (files.earlier ++ (files.defaultRules ++ [.appended first rest]) ++
          files.later)).hostExecutablesByName =
          (parsePolicy (files.earlier ++ files.defaultRules ++
            files.later)).hostExecutablesByName := by
        simp only [parsePolicy, foldl_append]
        exact parse_hosts files.later _ _ rfl
      unfold loadExecPolicy
      cases files.requirements with
      | none => exact same
      | some requirements =>
        funext name
        exact congrArg (fun hosts => (requirements.hostExecutablesByName name).or (hosts name)) same
    · rw [load_rules, load_rules]
      simp only [flatMap_append, flatMap_cons, RuleLine.entries, mem_append, mem_singleton]
      tauto

variable {command : List String} {next : Manager}

theorem amend_cases (amended : appendAmendmentAndUpdate context manager command = .ok next) :
    ∃ first rest, command = first :: rest ∧ (loadExecPolicy next.files).hostExecutablesByName =
        (loadExecPolicy manager.files).hostExecutablesByName ∧
      (∀ entry, entry ∈ (loadExecPolicy next.files).rulesByProgram ↔
        entry ∈ (loadExecPolicy manager.files).rulesByProgram ∨ entry = allowEntry first rest) ∧
      (alreadyAllowed context manager.policy command = true ∧ next.policy = manager.policy ∨
        next.policy.hostExecutablesByName = manager.policy.hostExecutablesByName ∧
          alreadyAllowed context manager.policy command = false ∧
          next.policy.rulesByProgram =
            manager.policy.rulesByProgram ++ [allowEntry first rest]) := by
  cases command with
  | nil => cases amended
  | cons first rest =>
    refine ⟨first, rest, rfl, ?_⟩
    unfold appendAmendmentAndUpdate at amended
    cases written : appendAllowPrefixRule manager.files.defaultRules (first :: rest) with
    | error reason =>
      rw [written] at amended
      cases amended
    | ok lines =>
      obtain ⟨hosts, rules⟩ := load_appended written
      rw [written] at amended
      cases allowed : alreadyAllowed context manager.policy (first :: rest) with
      | true =>
        have same := Except.ok.inj ((if_pos allowed).symm.trans amended)
        subst same
        exact ⟨hosts, rules, .inl ⟨rfl, rfl⟩⟩
      | false =>
        have same := Except.ok.inj ((if_neg (by simp [allowed])).symm.trans amended)
        subst same
        exact ⟨hosts, rules, .inr ⟨rfl, rfl, rfl⟩⟩

def InStep (manager : Manager) : Prop :=
  Extends (Benign context manager.policy) manager.policy (loadExecPolicy manager.files)

theorem load_inStep (files : RulesFiles) : InStep context (Manager.load files) := Extends.refl

theorem benign_of_safe (allowed : alreadyAllowed context policy (first :: rest) = true)
    (safe : SafeAmendment context policy (first :: rest)) : Benign context policy first rest := by
  by_cases inexact : policy.exactMatches (first :: rest) = []
  · rcases safe allowed with exact | covered
    · exact absurd inexact exact
    · exact (covered_iff_benign context policy first rest
        (matched_of_alreadyAllowed context policy _ allowed) inexact).mp covered
  · refine benign_of_exact context policy first rest (Set.nonempty_iff_ne_empty.mpr ?_)
    exact fun none => inexact ((exactVotes_empty ..).mpr none)

theorem amend_inStep (amended : appendAmendmentAndUpdate context manager command = .ok next)
    (before : InStep context manager) (safe : SafeAmendment context manager.policy command) :
    InStep context next := by
  obtain ⟨first, rest, rfl, hosts, rules, ⟨allowed, same⟩ | ⟨kept, -, added⟩⟩ :=
    amend_cases context manager amended
  · have benign := benign_of_safe context manager.policy first rest allowed safe
    unfold InStep
    rw [same]
    exact before.with_entry hosts rules benign
  · have recorded : ∀ entry, entry ∈ next.policy.rulesByProgram ↔
        entry ∈ manager.policy.rulesByProgram ∨ entry = allowEntry first rest := by simp [added]
    have grown : Extends (fun _ _ => True) manager.policy next.policy :=
      Extends.refl.with_entry kept recorded trivial
    constructor
    · exact hosts.trans (before.hosts.trans kept.symm)
    · intro entry member
      exact (rules entry).mpr (((recorded entry).mp member).imp_left (before.kept ·))
    · intro entry member
      rw [recorded]
      rcases (rules entry).mp member with old | rfl
      · rcases before.added entry old with memory | ⟨program, tokens, rfl, benign⟩
        · exact .inl (.inl memory)
        · exact .inr ⟨program, tokens, rfl, benign_of_extends context grown _ _ benign⟩
      · exact .inl (.inr rfl)

theorem benign_of_agrees {memory disk : Policy} {first : String} {rest : List String}
    (grown : Extends (fun _ _ => True) memory disk)
    (present : allowEntry first rest ∈ disk.rulesByProgram)
    (agrees : ∀ cmd fallback,
      (memory.checkWithOptions context cmd fallback hostResolution).map Evaluation.decision =
        (disk.checkWithOptions context cmd fallback hostResolution).map Evaluation.decision) :
    Benign context memory first rest := by
  -- memory must allow what disk allows, also where its fallback forbids
  have mirrored (cmd : List String)
      (only : votes context disk cmd (fun _ => .forbidden) = {.allow}) :
      votes context memory cmd (fun _ => .forbidden) ⊆ {.allow} := by
    obtain ⟨evaluation, checked, greatest⟩ := check_isGreatest context memory cmd
      (fun _ => .forbidden)
    have same := agrees cmd (fun _ => .forbidden)
    rw [checked, decision_eq_of_isGreatest context disk cmd (only ▸ isGreatest_singleton),
      Option.map_some, Option.some.injEq] at same
    intro decision vote
    have bound := greatest.2 vote
    rw [same] at bound
    exact le_antisymm bound (Decision.allow_le _)
  have heard (cmd : List String) (silent : exactVotes memory cmd = ∅)
      (only : votes context disk cmd (fun _ => .forbidden) = {.allow}) :
      (hostVotes context memory cmd).Nonempty := by
    rw [Set.nonempty_iff_ne_empty]
    intro unheard
    have subset := mirrored cmd only
    rw [votes_of_fallback silent unheard, Set.singleton_subset_singleton] at subset
    cases subset
  constructor
  · intro cmd longer silent
    have vote : Decision.allow ∈ exactVotes disk cmd := by
      refine (exactVotes_iff ..).mpr ⟨_, present, ?_, (matchesPrefix_singles ..).mpr longer, rfl⟩
      obtain ⟨more, rfl⟩ := longer
      rfl
    have only : votes context disk cmd (fun _ => .forbidden) = {.allow} := by
      rw [votes_of_exact (Set.nonempty_iff_ne_empty.mp ⟨_, vote⟩)]
      exact (Set.Nonempty.subset_singleton_iff ⟨_, vote⟩).mp (grown.exact_allow silent)
    have host := heard cmd silent only
    have subset := mirrored cmd only
    rw [votes_of_host silent host.ne_empty] at subset
    exact host.subset_singleton_iff.mp subset
  · intro cmd program resolved longer listed silent
    by_contra unheard
    have vote : Decision.allow ∈ hostVotes context disk cmd := by
      refine (hostVotes_iff ..).mpr ⟨program, _, present, resolved, ?_, ?_, rfl⟩
      · exact (grown.excludes ..).trans listed
      · exact (matchesPrefix_singles ..).mpr ((prefix_cons_inj _).mpr longer)
    refine unheard (heard cmd silent ?_)
    by_cases quiet : exactVotes disk cmd = ∅
    · rw [votes_of_host quiet (Set.nonempty_iff_ne_empty.mp ⟨_, vote⟩)]
      refine (Set.Nonempty.subset_singleton_iff ⟨_, vote⟩).mp fun decision member => ?_
      rcases grown.host_added context cmd decision member with old | ⟨rfl, -⟩
      · exact absurd ⟨decision, old⟩ unheard
      · rfl
    · rw [votes_of_exact quiet]
      exact (Set.nonempty_iff_ne_empty.mpr quiet).subset_singleton_iff.mp (grown.exact_allow silent)

theorem safe_of_agrees (amended : appendAmendmentAndUpdate context manager command = .ok next)
    (before : InStep context manager) (agrees : Agrees context next) :
    SafeAmendment context manager.policy command := by
  obtain ⟨first, rest, rfl, hosts, rules, ⟨allowed, same⟩ | ⟨-, denied, -⟩⟩ :=
    amend_cases context manager amended
  · intro _
    by_cases inexact : manager.policy.exactMatches (first :: rest) = []
    · right
      rw [covered_iff_benign context manager.policy first rest
        (matched_of_alreadyAllowed context manager.policy _ allowed) inexact]
      unfold Agrees at agrees
      rw [same] at agrees
      exact benign_of_agrees context (before.mono.with_entry hosts rules trivial)
        ((rules _).mpr (.inr rfl)) agrees
    · exact .inl inexact
  · intro allowed
    exact absurd (denied.symm.trans allowed) (by decide)

def SafeRun (context : PathContext) (manager : Manager) : List (List String) → Prop
  | [] => True
  | command :: commands =>
    SafeAmendment context manager.policy command ∧
      ∀ next, appendAmendmentAndUpdate context manager command = .ok next →
        SafeRun context next commands

variable {commands : List (List String)}

theorem amendments_cons {managers : List Manager}
    (ran : amendments context manager (command :: commands) = .ok managers) :
    ∃ next rest, appendAmendmentAndUpdate context manager command = .ok next ∧
      amendments context next commands = .ok rest ∧ managers = next :: rest := by
  unfold amendments at ran
  cases amended : appendAmendmentAndUpdate context manager command with
  | error reason =>
    rw [amended] at ran
    cases ran
  | ok next =>
    rw [amended] at ran
    cases tail : amendments context next commands with
    | error reason =>
      simp only [bind, Except.bind, tail] at ran
      cases ran
    | ok rest =>
      simp only [bind, Except.bind, tail, pure, Except.pure, Except.ok.injEq] at ran
      exact ⟨next, rest, rfl, tail, ran.symm⟩

theorem agree_iff_safeRun {manager : Manager} {managers : List Manager}
    (before : InStep context manager) (ran : amendments context manager commands = .ok managers) :
    (∀ state ∈ managers, Agrees context state) ↔ SafeRun context manager commands := by
  induction commands generalizing manager managers with
  | nil =>
    cases ran
    simp [SafeRun]
  | cons command commands ih =>
    obtain ⟨next, rest, amended, tail, rfl⟩ := amendments_cons context manager ran
    constructor
    · intro agree
      have safe := safe_of_agrees context manager amended before
        (agree next mem_cons_self)
      refine ⟨safe, fun other same => ?_⟩
      cases amended.symm.trans same
      exact (ih (amend_inStep context manager amended before safe)
        tail).mp (fun state member => agree state (mem_cons_of_mem _ member))
    · rintro ⟨safe, later⟩ state member
      have after := amend_inStep context manager amended before safe
      rcases mem_cons.mp member with rfl | member
      · exact agrees_of_extends context state after
      · exact (ih after tail).mpr (later next amended) state member

/-- In a run of successful amendments from loaded files, memory and disk agree after every
call exactly when each call adds its rule to memory, amends a command that an exact rule
already matches, or amends one whose longer commands the host rules all allow. -/
theorem amendments_agree_iff (context : PathContext) (files : RulesFiles)
    (commands : List (List String)) (managers : List Manager)
    (ran : amendments context (Manager.load files) commands = .ok managers) :
    (∀ manager ∈ Manager.load files :: managers, Agrees context manager) ↔
      SafeRun context (Manager.load files) commands := by
  have before := load_inStep context files
  rw [← agree_iff_safeRun context before ran]
  simp only [forall_mem_cons]
  exact and_iff_right (agrees_of_extends context _ before)

def gitRules : RulesFiles := ⟨[], lines, [], none⟩

theorem ls_and_git_amendments_agree :
    ∃ managers, amendments ⟨root, none⟩ (Manager.load (gitRules [.appended "git" []]))
        [["ls", "-l"], ["git", "status"]] = .ok managers ∧
      alreadyAllowed ⟨root, none⟩ (loadExecPolicy (gitRules [.appended "git" []]))
        ["git", "status"] = true ∧
      ∀ manager ∈ Manager.load (gitRules [.appended "git" []]) :: managers,
        Agrees ⟨root, none⟩ manager := by
  refine ⟨_, rfl, by decide, (amendments_agree_iff ⟨root, none⟩ (gitRules [.appended "git" []])
    [["ls", "-l"], ["git", "status"]] _ rfl).mpr ⟨?_, ?_⟩⟩
  · intro allowed
    exact absurd allowed (by decide)
  · -- `git status` is allowed already, so memory keeps its rules and disk gets one more
    rintro _ ⟨⟩
    exact ⟨fun _ => .inl (by decide), fun _ _ => trivial⟩

/-- `git` is allowed and `git status x` prompts. Amending `/usr/bin/git status` is skipped
in memory, yet the line on disk hides the prompt after a restart. -/
theorem git_amendment_disagrees :
    ∃ manager, appendAmendmentAndUpdate ⟨root, none⟩
        (Manager.load (gitRules [.appended "git" [],
          .other (.prefixRule (.single "git") [.single "status", .single "x"] .prompt none)]))
        ["/usr/bin/git", "status"] = .ok manager ∧
      (manager.policy.checkWithOptions ⟨root, none⟩ ["/usr/bin/git", "status", "x"]
          (fun _ => .prompt) hostResolution).map Evaluation.decision = some .prompt ∧
      ((loadExecPolicy manager.files).checkWithOptions ⟨root, none⟩
          ["/usr/bin/git", "status", "x"] (fun _ => .prompt) hostResolution).map
        Evaluation.decision = some .allow := by
  refine ⟨_, rfl, ?_, ?_⟩
  · decide
  · decide

end OpenInterpreter.ExecPolicyAmend
