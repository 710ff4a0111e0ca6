import Mathlib
import OpenInterpreter.ExecPolicy
import OpenInterpreter.Text

/-! Network rules of `execpolicy`: their hosts, their text and the domains they compile to. -/

namespace OpenInterpreter.NetworkRules

open ExecPolicy Text List Function

inductive NetworkRuleProtocol where
  | http
  | https
  | socks5Tcp
  | socks5Udp
  deriving DecidableEq

structure NetworkRule where
  host : List Char
  protocol : NetworkRuleProtocol
  decision : Decision
  justification : Option (List Char)
  deriving DecidableEq

/-! ### Compiled domains -/

def retainOthers (entries : List (List Char)) (host : List Char) : List (List Char) :=
  entries.filter (· ≠ host)

def upsertDomain (entries : List (List Char)) (host : List Char) : List (List Char) :=
  retainOthers entries host ++ [host]

def compileRule (domains : List (List Char) × List (List Char)) (rule : NetworkRule) :
    List (List Char) × List (List Char) :=
  match rule.decision with
  | .allow => (upsertDomain domains.1 rule.host, retainOthers domains.2 rule.host)
  | .forbidden => (retainOthers domains.1 rule.host, upsertDomain domains.2 rule.host)
  | .prompt => domains

variable (rules : List NetworkRule)

def compiledNetworkDomains : List (List Char) × List (List Char) :=
  rules.foldl compileRule ([], [])

variable (host : List Char)

def lastRule : Option (NetworkRule × Nat) :=
  (rules.zipIdx.filter fun entry => entry.1.host = host ∧ entry.1.decision ≠ .prompt).getLast?

def lastDecision : Option Decision :=
  (lastRule rules host).map (·.1.decision)

def lastPosition : Option Nat :=
  (lastRule rules host).map Prod.snd

theorem lastRule_concat (rule : NetworkRule) (host : List Char) : lastRule (rules ++ [rule]) host =
      if rule.host = host ∧ rule.decision ≠ .prompt then some (rule, rules.length)
      else lastRule rules host := by
  rw [lastRule, zipIdx_append]
  split
  · rename_i effective
    simp [effective]
  · rename_i other
    simp [other, lastRule]

variable {rules : List NetworkRule}

theorem lastPosition_lt {host : List Char} {position : Nat}
    (last : lastPosition rules host = some position) : position < rules.length := by
  rw [lastPosition, Option.map_eq_some_iff] at last
  obtain ⟨entry, found, rfl⟩ := last
  have member := (mem_filter.mp (mem_of_getLast? found)).1
  have bound := snd_lt_of_mem_zipIdx member
  omega

structure Side (rules : List NetworkRule) (decision : Decision) (entries : List (List Char)) :
    Prop where
  mem_iff : ∀ host, host ∈ entries ↔ lastDecision rules host = some decision
  ordered : entries.Pairwise fun first second =>
    ∃ before after, lastPosition rules first = some before ∧
      lastPosition rules second = some after ∧ before < after

theorem Side.nodup {decision : Decision} {entries : List (List Char)}
    (side : Side rules decision entries) : entries.Nodup :=
  side.ordered.imp fun ⟨before, after, first, second, less⟩ same => by
    rw [same, second, Option.some.injEq] at first
    omega

section

variable {rule : NetworkRule} {decision : Decision}
  {entries : List (List Char)}

theorem lastRule_other {host : List Char} (other : host ≠ rule.host) :
    lastRule (rules ++ [rule]) host = lastRule rules host := by
  rw [lastRule_concat, if_neg fun both => other both.1.symm]

theorem lastRule_self (effective : rule.decision ≠ .prompt) :
    lastRule (rules ++ [rule]) rule.host = some (rule, rules.length) := by
  rw [lastRule_concat, if_pos ⟨rfl, effective⟩]

variable (side : Side rules decision entries)
include side

theorem Side.retained :
    (retainOthers entries rule.host).Pairwise fun first second =>
      ∃ before after, lastPosition (rules ++ [rule]) first = some before ∧
        lastPosition (rules ++ [rule]) second = some after ∧ before < after := by
  refine (side.ordered.filter _).imp_of_mem fun {first second} inFirst inSecond order => ?_
  have otherFirst : first ≠ rule.host := by simpa using (mem_filter.mp inFirst).2
  have otherSecond : second ≠ rule.host := by simpa using (mem_filter.mp inSecond).2
  rwa [lastPosition, lastPosition, lastRule_other otherFirst, lastRule_other otherSecond]

theorem Side.prompt (prompts : rule.decision = .prompt) :
    Side (rules ++ [rule]) decision entries := by
  have same (host : List Char) : lastRule (rules ++ [rule]) host = lastRule rules host := by
    rw [lastRule_concat, if_neg fun both => both.2 prompts]
  refine ⟨fun host => ?_, ?_⟩
  · rw [side.mem_iff, lastDecision, lastDecision, same]
  · simp only [lastPosition, same]
    exact side.ordered

variable (effective : rule.decision ≠ .prompt)
include effective

theorem Side.remove (other : rule.decision ≠ decision) :
    Side (rules ++ [rule]) decision (retainOthers entries rule.host) := by
  refine ⟨fun host => ?_, side.retained⟩
  rw [retainOthers, mem_filter, side.mem_iff, lastDecision, lastDecision]
  by_cases same : host = rule.host
  · rw [same, lastRule_self effective]
    simpa using other
  · rw [lastRule_other same]
    simp [same]

theorem Side.upsert (same : rule.decision = decision) :
    Side (rules ++ [rule]) decision (upsertDomain entries rule.host) := by
  refine ⟨fun host => ?_, pairwise_append.mpr ⟨side.retained, by simp, ?_⟩⟩
  · rw [upsertDomain, retainOthers, mem_append, mem_filter, side.mem_iff, lastDecision,
      lastDecision]
    by_cases equal : host = rule.host
    · rw [equal, lastRule_self effective]
      simpa using same
    · rw [lastRule_other equal]
      simp [equal]
  · intro first member second last
    rw [mem_singleton.mp last, lastPosition, lastPosition, lastRule_self effective]
    obtain ⟨listed, other⟩ := mem_filter.mp member
    rw [lastRule_other (by simpa using other)]
    obtain ⟨entry, found, -⟩ := Option.map_eq_some_iff.mp ((side.mem_iff first).mp listed)
    rw [found]
    exact ⟨entry.2, rules.length, rfl, rfl,
      lastPosition_lt (by rw [lastPosition, found, Option.map_some])⟩

end

theorem compiled_sides (rules : List NetworkRule) :
    Side rules .allow (compiledNetworkDomains rules).1 ∧
      Side rules .forbidden (compiledNetworkDomains rules).2 := by
  induction rules using reverseRecOn with
  | nil => exact ⟨⟨by simp [compiledNetworkDomains, lastDecision, lastRule], .nil⟩,
      ⟨by simp [compiledNetworkDomains, lastDecision, lastRule], .nil⟩⟩
  | append_singleton rules rule ih =>
    obtain ⟨allowed, denied⟩ := ih
    rw [compiledNetworkDomains, foldl_append]
    simp only [foldl_cons, compileRule]
    cases decision : rule.decision with
    | allow =>
      exact ⟨allowed.upsert (by simp [decision]) decision,
        denied.remove (by simp [decision]) (by simp [decision])⟩
    | forbidden =>
      exact ⟨allowed.remove (by simp [decision]) (by simp [decision]),
        denied.upsert (by simp [decision]) decision⟩
    | prompt => exact ⟨allowed.prompt decision, denied.prompt decision⟩

/-- The domains follow the last rule of each host, in the order of these rules. -/
theorem compiled_domains_follow_last (rules : List NetworkRule) :
    Side rules .allow (compiledNetworkDomains rules).1 ∧
      Side rules .forbidden (compiledNetworkDomains rules).2 ∧
      (compiledNetworkDomains rules).1.Nodup ∧ (compiledNetworkDomains rules).2.Nodup ∧
      (compiledNetworkDomains rules).1.Disjoint (compiledNetworkDomains rules).2 := by
  obtain ⟨allowed, denied⟩ := compiled_sides rules
  refine ⟨allowed, denied, allowed.nodup, denied.nodup, fun host inAllowed inDenied => ?_⟩
  have both := ((allowed.mem_iff host).mp inAllowed).symm.trans ((denied.mem_iff host).mp inDenied)
  cases both

/-! ### Hosts -/

def splitOnce (separator : Char) (text : List Char) : Option (List Char × List Char) :=
  match text.dropWhile (· ≠ separator) with
  | [] => none
  | _ :: rest => some (text.takeWhile (· ≠ separator), rest)

def isPort (port : List Char) : Bool := !port.isEmpty && port.all Char.isDigit

def portOk : List Char → Bool
  | ':' :: port => isPort port
  | _ => false

def cutPort : Option (List Char) :=
  if host.count ':' = 1 then
    (splitOnce ':' host).bind fun (candidate, port) =>
      if !candidate.isEmpty && isPort port then some candidate else none
  else none

/-- The brackets and the port of `normalize_network_rule_host`. -/
def stripAddress (raw host : List Char) : Except String (List Char) :=
  match host with
  | '[' :: stripped =>
    match splitOnce ']' stripped with
    | none => .error "network_rule host has an invalid bracketed IPv6 literal"
    | some (inside, rest) =>
      if !rest.isEmpty && !portOk rest then
        .error ("network_rule host contains an unsupported suffix: " ++ String.ofList raw)
      else .ok inside
  | _ => .ok ((cutPort host).getD host)

def trimDots : List Char := host.rdropWhile (· = '.')

def Addressed : Prop :=
  "://".toList <:+: host ∨ '/' ∈ host ∨ '?' ∈ host ∨ '#' ∈ host

instance (host : List Char) : Decidable (Addressed host) :=
  inferInstanceAs (Decidable (_ ∨ _))

def normalizeNetworkRuleHost (raw : List Char) : Except String (List Char) :=
  if trim raw = [] then .error "network_rule host cannot be empty"
  else if Addressed (trim raw) then
    .error "network_rule host must be a hostname or IP literal (without scheme or path)"
  else
    match stripAddress raw (trim raw) with
    | .error message => .error message
    | .ok host =>
      let normalized := (trim (trimDots host)).map Char.toLower
      if normalized = [] then .error "network_rule host cannot be empty"
      else if '*' ∈ normalized then
        .error "network_rule host must be a specific host; wildcards are not allowed"
      else if normalized.any isWhitespace then
        .error "network_rule host cannot contain whitespace"
      else .ok normalized

def NetworkRuleProtocol.parse (raw : String) : Except String NetworkRuleProtocol :=
  match raw with
  | "http" => .ok .http
  | "https" | "https_connect" | "http-connect" => .ok .https
  | "socks5_tcp" => .ok .socks5Tcp
  | "socks5_udp" => .ok .socks5Udp
  | other => .error ("network_rule protocol must be one of http, https, socks5_tcp, socks5_udp (got "
      ++ other ++ ")")

def NetworkRuleProtocol.asPolicyString : NetworkRuleProtocol → String
  | .http => "http"
  | .https => "https"
  | .socks5Tcp => "socks5_tcp"
  | .socks5Udp => "socks5_udp"

def decisionText : Decision → String
  | .allow => "allow"
  | .prompt => "prompt"
  | .forbidden => "deny"

def parseNetworkRuleDecision (raw : String) : Except String Decision :=
  match raw with
  | "deny" => .ok .forbidden
  | "allow" => .ok .allow
  | "prompt" => .ok .prompt
  | "forbidden" => .ok .forbidden
  | other => .error other

def checkJustification (justification : Option (List Char)) : Except String Unit :=
  if justification.any (trim · = []) then throw "justification cannot be empty" else pure ()

def addNetworkRule (rules : List NetworkRule) (host : List Char) (protocol : NetworkRuleProtocol)
    (decision : Decision) (justification : Option (List Char)) :
    Except String (List NetworkRule) := do
  let host ← normalizeNetworkRuleHost host
  checkJustification justification
  return rules ++ [⟨host, protocol, decision, justification⟩]

structure NetworkRuleLine where
  host : List Char
  protocol : String
  decision : String
  justification : Option (List Char)

def networkRuleLine (protocol : NetworkRuleProtocol) (decision : Decision)
    (justification : Option (List Char)) : Except String NetworkRuleLine := do
  let host ← normalizeNetworkRuleHost host
  checkJustification justification
  return ⟨host, protocol.asPolicyString, decisionText decision, justification⟩

def parseLine (line : NetworkRuleLine) : Except String NetworkRule := do
  let protocol ← NetworkRuleProtocol.parse line.protocol
  let decision ← parseNetworkRuleDecision line.decision
  checkJustification line.justification
  let host ← normalizeNetworkRuleHost line.host
  return ⟨host, protocol, decision, line.justification⟩

/-! ### Hosts that are read again -/

structure NamedPort (name port : List Char) : Prop where
  filled : name ≠ []
  solid : ∀ ch ∈ name, isWhitespace ch = false
  single : ':' ∉ name
  port : isPort port = true

/-- The shapes of a trimmed host in which brackets, dots or white space cover a bracket, a dot or a
port: a second bracket behind the first, a dot before white space, and a name with a port that dots
separate from the end or that stands in brackets. -/
inductive Nested (text : List Char) : Prop where
  | bracket (gap rest : List Char) (blank : Blank gap) (shape : text = '[' :: (gap ++ '[' :: rest))
  | dot (front back : List Char) (space : Char) (white : isWhitespace space = true)
      (shape : text = front ++ '.' :: space :: back)
  | port (name port gap : List Char) (dots : Nat) (named : NamedPort name port) (blank : Blank gap)
      (shape : text = name ++ ':' :: port ++ gap ++ replicate (dots + 1) '.')
  | bracketedPort (before name port after rest : List Char) (dots : Nat)
      (named : NamedPort name port) (closed : ']' ∉ name) (blank : Blank (before ++ after))
      (shape : text = '[' :: (before ++ (name ++ ':' :: port) ++ after ++ replicate dots '.' ++
        ']' :: rest))

/-! ### A second normalisation -/

theorem toLower_eq_iff {target : Char} (plain : target.isAlpha = false) (ch : Char) :
    ch.toLower = target ↔ ch = target := by
  constructor
  · intro same
    have letter := Char.isAlpha_toLower_eq_isAlpha ch
    rw [same, plain] at letter
    rw [← same, Char.toLower_eq_of_not_isUpper]
    intro upper
    rw [Char.isAlpha, upper] at letter
    cases letter
  · rintro rfl
    refine Char.toLower_eq_of_not_isUpper fun upper => ?_
    rw [Char.isAlpha, upper] at plain
    cases plain

theorem test_toLower {test : Char → Bool}
    (apart : ∀ letter : Char, letter.isAlpha = true → test letter = false) (ch : Char) :
    test ch.toLower = test ch := by
  by_cases alpha : ch.isAlpha = true
  · rw [apart ch alpha, apart ch.toLower (by rwa [Char.isAlpha_toLower_eq_isAlpha])]
  · rw [Char.toLower_eq_of_not_isUpper]
    intro upper
    exact alpha (by rw [Char.isAlpha, upper, Bool.true_or])

theorem isDigit_toLower (ch : Char) : ch.toLower.isDigit = ch.isDigit := by
  refine test_toLower (fun letter alpha => ?_) ch
  simp [Char.isAlpha, Char.isUpper, Char.isLower, Char.isDigit, UInt32.le_iff_toNat_le] at alpha ⊢
  omega

theorem isWhitespace_toLower (ch : Char) : isWhitespace ch.toLower = isWhitespace ch := by
  refine test_toLower (fun letter alpha => ?_) ch
  simp only [Char.isAlpha, Char.isUpper, Char.isLower, ge_iff_le, Bool.or_eq_true,
    Bool.and_eq_true, decide_eq_true_eq, UInt32.le_iff_toNat_le] at alpha
  have code : 65 ≤ letter.toNat ∧ letter.toNat ≤ 90 ∨
      97 ≤ letter.toNat ∧ letter.toNat ≤ 122 := alpha
  simp [isWhitespace]
  omega

theorem splitOnce_map {separator : Char} (plain : separator.isAlpha = false) (text : List Char) :
    splitOnce separator (text.map Char.toLower) = (splitOnce separator text).map fun parts =>
        (parts.1.map Char.toLower, parts.2.map Char.toLower) := by
  have same : (fun ch => decide (ch ≠ separator)) ∘ Char.toLower =
      fun ch => decide (ch ≠ separator) := by
    funext ch
    simp [toLower_eq_iff plain]
  rw [splitOnce, splitOnce, dropWhile_map, takeWhile_map, same]
  cases text.dropWhile (· ≠ separator) <;> rfl

theorem cutPort_map (text : List Char) :
    cutPort (text.map Char.toLower) = (cutPort text).map (List.map Char.toLower) := by
  have colons : (text.map Char.toLower).count ':' = text.count ':' := by
    have same : (· == ':') ∘ Char.toLower = (· == ':') := by
      funext ch
      rw [comp, Bool.eq_iff_iff, beq_iff_eq, beq_iff_eq, toLower_eq_iff rfl]
    rw [count_eq_countP, countP_map, same, ← count_eq_countP]
  rw [cutPort, cutPort, colons, splitOnce_map rfl]
  split
  · cases splitOnce ':' text with
    | none => rfl
    | some parts =>
      have port : isPort (parts.2.map Char.toLower) = isPort parts.2 := by
        simp [isPort, comp_def, isDigit_toLower]
      simp only [Option.map_some, Option.bind_some, isEmpty_map, port]
      split <;> rfl
  · rfl

variable {text host raw : List Char}

theorem splitOnce_some {separator : Char} {first second : List Char}
    (found : splitOnce separator text = some (first, second)) :
    text = first ++ separator :: second := by
  have whole := takeWhile_append_dropWhile (p := fun ch => decide (ch ≠ separator)) (l := text)
  rw [splitOnce] at found
  split at found
  · cases found
  · rename_i ch rest dropped
    cases found
    have here := head?_dropWhile_not (fun ch => decide (ch ≠ separator)) text
    rw [dropped] at here whole
    have same : ch = separator := by simpa using here
    subst same
    exact whole.symm

theorem normalize_eq_ok_iff (raw out : List Char) :
    normalizeNetworkRuleHost raw = .ok out ↔
      trim raw ≠ [] ∧ ¬ Addressed (trim raw) ∧ ∃ host, stripAddress raw (trim raw) = .ok host ∧
        (trim (trimDots host)).map Char.toLower = out ∧ out ≠ [] ∧ '*' ∉ out ∧
        out.any isWhitespace = false := by
  unfold normalizeNetworkRuleHost
  split
  · simp [*]
  · split
    · simp [*]
    · rename_i filled plain
      cases stripAddress raw (trim raw) with
      | error message => simp
      | ok host =>
        dsimp only
        constructor
        · intro ok
          split_ifs at ok with empty star blank
          cases ok
          exact ⟨filled, plain, host, rfl, rfl, empty, star, by simpa using blank⟩
        · rintro ⟨-, -, _, ⟨⟩, rfl, empty, star, blank⟩
          rw [if_neg empty, if_neg star, blank]
          rfl

theorem trim_sublist (text : List Char) : (trim text).Sublist text :=
  (List.rdropWhile_prefix _ _).sublist.trans (dropWhile_suffix _).sublist

theorem trimDots_sublist (text : List Char) : (trimDots text).Sublist text :=
  (List.rdropWhile_prefix _ _).sublist

def Solid (text : List Char) : Prop := ∀ ch ∈ text, isWhitespace ch = false

theorem solid_iff : Solid text ↔ text.any isWhitespace = false := by
  simp [Solid]

theorem trim_solid (solid : Solid text) : trim text = text := by
  have start : trimStart text = text := by
    cases text with
    | nil => rfl
    | cons ch rest => exact dropWhile_cons_of_neg (by simp [solid ch mem_cons_self])
  rw [trim, start, trimEnd, rdropWhile_eq_self_iff]
  intro filled
  simp [solid _ (getLast_mem filled)]

theorem trimDots_of_last (last : text.getLast? ≠ some '.') : trimDots text = text := by
  rw [trimDots, rdropWhile_eq_self_iff]
  intro filled dot
  exact last (by rw [getLast?_eq_getLast_of_ne_nil filled, of_decide_eq_true dot])

theorem trimDots_length_lt (last : text.getLast? = some '.') :
    (trimDots text).length < text.length := by
  obtain ⟨front, rfl⟩ := getLast?_eq_some_iff.mp last
  rw [trimDots, rdropWhile_concat_pos _ _ _ (by decide), length_append]
  exact Nat.lt_succ_of_le (trimDots_sublist front).length_le

theorem stripAddress_plain (raw : List Char) (first : host.head? ≠ some '[')
    (port : cutPort host = none) : stripAddress raw host = .ok host := by
  unfold stripAddress
  split
  · exact absurd rfl first
  · rw [port, Option.getD_none]

/-! ### Parts of a host -/

variable {lead core gap : List Char} {dots : Nat}

theorem trimDots_append (text : List Char) (dots : Nat) :
    trimDots (text ++ replicate dots '.') = trimDots text := by
  induction dots with
  | zero => rw [replicate_zero, append_nil]
  | succ dots ih =>
    rw [replicate_succ', ← append_assoc, trimDots, rdropWhile_concat_pos _ _ _ (by decide)]
    exact ih

theorem getLast?_blank (blank : Blank text) : text.getLast? ≠ some '.' := by
  intro last
  exact absurd (blank '.' (mem_of_getLast? last)) (by decide)

theorem core_of_parts (blankLead : Blank lead) (solid : Solid core) (blankGap : Blank gap)
    (last : gap = [] → core.getLast? ≠ some '.') :
    trim (trimDots (lead ++ core ++ gap ++ replicate dots '.')) = core := by
  have stays : trimDots (lead ++ core ++ gap) = lead ++ core ++ gap := by
    apply trimDots_of_last
    rw [append_assoc, getLast?_append, getLast?_append]
    cases trailing : gap.getLast? with
    | some ch =>
      have other := trailing ▸ getLast?_blank blankGap
      simpa using other
    | none =>
      have inner := last (getLast?_eq_none_iff.mp trailing)
      cases final : core.getLast? with
      | some ch => simpa [final] using inner
      | none => simpa using getLast?_blank blankLead
  rw [trimDots_append, stays, trim_append_blank _ _ blankGap, trim_blank_append _ blankLead,
    trim_solid solid]

theorem host_parts (host : List Char) :
    ∃ lead gap dots, host = lead ++ trim (trimDots host) ++ gap ++ replicate dots '.' ∧
      Blank lead ∧ Blank gap ∧ (gap = [] → (trim (trimDots host)).getLast? ≠ some '.') := by
  obtain ⟨lead, gap, inner, blankLead, blankGap⟩ := trim_parts (trimDots host)
  have dotted : host.rtakeWhile (· = '.') =
      replicate (host.rtakeWhile (· = '.')).length '.' :=
    eq_replicate_iff.mpr ⟨rfl, fun ch member => by simpa using mem_rtakeWhile_imp member⟩
  refine ⟨lead, gap, (host.rtakeWhile (· = '.')).length, ?_, blankLead, blankGap, ?_⟩
  · rw [← dotted, ← inner]
    exact rdropWhile_append_rtakeWhile.symm
  · rintro rfl last
    rw [append_nil] at inner
    obtain ⟨front, final⟩ := getLast?_eq_some_iff.mp last
    rw [final, ← append_assoc] at inner
    have ended : (trimDots host).getLast? = some '.' := by rw [inner, getLast?_concat]
    have shorter := trimDots_length_lt ended
    rw [show trimDots (trimDots host) = trimDots host from rdropWhile_idempotent ..] at shorter
    exact absurd shorter (Nat.lt_irrefl _)

inductive Stripped (whole host : List Char) : Prop where
  | brackets (rest : List Char) (shape : whole = '[' :: (host ++ ']' :: rest))
      (closed : ']' ∉ host) (suffix : ∀ ch ∈ rest, ch = ':' ∨ ch.isDigit = true)
  | port (port : List Char) (shape : whole = host ++ ':' :: port) (first : whole.head? ≠ some '[')
      (single : ':' ∉ host) (digits : isPort port = true)
  | nothing (same : whole = host) (first : whole.head? ≠ some '[') (uncut : cutPort whole = none)

theorem splitOnce_eq_some_iff {separator : Char} {first second : List Char} :
    splitOnce separator text = some (first, second) ↔
      text = first ++ separator :: second ∧ separator ∉ first := by
  constructor
  · intro found
    refine ⟨splitOnce_some found, fun member => ?_⟩
    rw [splitOnce] at found
    split at found
    · cases found
    · cases found
      simpa using mem_takeWhile_imp member
  · rintro ⟨rfl, free⟩
    have kept : ∀ ch ∈ first, decide (ch ≠ separator) = true := by
      intro ch member
      rw [decide_eq_true_eq]
      rintro rfl
      exact free member
    rw [splitOnce, dropWhile_append_of_pos kept, takeWhile_append_of_pos kept]
    simp

theorem digits_of_isPort {port : List Char} (isPort_port : isPort port = true) :
    ∀ ch ∈ port, ch.isDigit = true := by
  simpa using (Bool.and_eq_true_iff.mp isPort_port).2

theorem isWhitespace_digit {ch : Char} (digit : ch.isDigit = true) : isWhitespace ch = false := by
  simp only [Char.isDigit, ge_iff_le, Bool.and_eq_true, decide_eq_true_eq,
    UInt32.le_iff_toNat_le] at digit
  have low : 48 ≤ ch.toNat := digit.1
  have high : ch.toNat ≤ 57 := digit.2
  simp [isWhitespace]
  omega

theorem cutPort_eq_some_iff {name : List Char} :
    cutPort text = some name ↔ ∃ port, text = name ++ ':' :: port ∧ name ≠ [] ∧ ':' ∉ name ∧
      isPort port = true := by
  constructor
  · intro cut
    unfold cutPort at cut
    split at cut
    · obtain ⟨⟨candidate, port⟩, split, kept⟩ := Option.bind_eq_some_iff.mp cut
      dsimp only at kept
      split at kept
      · rename_i filled
        cases kept
        simp only [Bool.and_eq_true, Bool.not_eq_true', isEmpty_eq_false_iff] at filled
        obtain ⟨whole, free⟩ := splitOnce_eq_some_iff.mp split
        exact ⟨port, whole, filled.1, free, filled.2⟩
      · cases kept
    · cases cut
  · rintro ⟨port, rfl, filled, single, isPort_port⟩
    have free : ':' ∉ port :=
      fun member => absurd (digits_of_isPort isPort_port ':' member) (by decide)
    have count : (name ++ ':' :: port).count ':' = 1 := by
      rw [count_append, count_cons_self, count_eq_zero_of_not_mem single,
        count_eq_zero_of_not_mem free]
    rw [cutPort, if_pos count, splitOnce_eq_some_iff.mpr ⟨rfl, single⟩]
    simp [filled, isPort_port]

theorem stripped_of_ok (ok : stripAddress raw text = .ok host) : Stripped text host := by
  unfold stripAddress at ok
  split at ok
  · split at ok
    · cases ok
    · rename_i inside rest found
      split at ok
      · cases ok
      · rename_i legal
        cases ok
        obtain ⟨rfl, closed⟩ := splitOnce_eq_some_iff.mp found
        refine .brackets rest rfl closed ?_
        simp only [Bool.and_eq_true, Bool.not_eq_true', not_and, Bool.not_eq_false] at legal
        cases rest with
        | nil => exact fun ch member => absurd member not_mem_nil
        | cons sign port =>
          have port_ok := legal rfl
          rw [portOk.eq_def] at port_ok
          split at port_ok
          · rename_i port same
            cases same
            exact forall_mem_cons.mpr ⟨.inl rfl, fun ch member =>
              .inr (digits_of_isPort port_ok ch member)⟩
          · cases port_ok
  · rename_i free
    have first : text.head? ≠ some '[' := by
      intro first
      obtain ⟨stripped, rfl⟩ := head?_eq_some_iff.mp first
      exact free stripped rfl
    cases ok
    cases found : cutPort text with
    | none => exact .nothing rfl first found
    | some candidate =>
      obtain ⟨port, whole, _, single, digits⟩ := cutPort_eq_some_iff.mp found
      exact .port port whole first single digits

theorem Stripped.subset (stripped : Stripped text host) : host ⊆ text := by
  cases stripped with
  | brackets rest shape => simp [shape]
  | port port shape => simp [shape]
  | nothing same => simp [same]

/-! ### What is uncovered comes from a shape -/

def DotsHeld (text : List Char) : Prop :=
  text.IsChain fun first second => ¬ (first = '.' ∧ isWhitespace second = true)

theorem dotsHeld_solid (solid : Solid text) : DotsHeld text := by
  apply Pairwise.isChain
  apply pairwise_of_forall_mem_list
  rintro first _ second member ⟨_, white⟩
  rw [solid second member] at white
  cases white

theorem dotsHeld_blank (blank : Blank text) : DotsHeld text := by
  apply Pairwise.isChain
  apply pairwise_of_forall_mem_list
  rintro first member second _ ⟨rfl, _⟩
  exact absurd (blank '.' member) (by decide)

theorem dotsHeld_append {rest : List Char} (held : DotsHeld text) (others : DotsHeld rest)
    (last : text.getLast? ≠ some '.') : DotsHeld (text ++ rest) := by
  refine isChain_append.mpr ⟨held, others, ?_⟩
  rintro first final second _ ⟨rfl, _⟩
  exact last final

section

variable (stripped : Stripped (trim raw) host)
  (parts : host = lead ++ core ++ gap ++ replicate dots '.') (blankLead : Blank lead)
include stripped parts blankLead

/-- Without brackets the host starts where its text does. -/
theorem lead_eq_nil (first : (trim raw).head? ≠ some '[') : lead = [] := by
  cases lead with
  | nil => rfl
  | cons ch rest =>
    have white := blankLead ch mem_cons_self
    have starts : (trim raw).head? = some ch := by
      cases stripped with
      | brackets _ shape => exact absurd (by rw [shape, head?_cons]) first
      | port port shape => rw [shape, parts]; rfl
      | nothing same => rw [same, parts]; rfl
    rw [(trim_ends raw).1 ch starts] at white
    cases white

theorem nested_of_bracket (first : core.head? = some '[') : Nested (trim raw) := by
  obtain ⟨inner, rfl⟩ := head?_eq_some_iff.mp first
  cases stripped with
  | brackets rest shape =>
    refine .bracket lead (inner ++ gap ++ replicate dots '.' ++ ']' :: rest) blankLead ?_
    rw [shape, parts]
    simp
  | port port shape other single digits =>
    have start := lead_eq_nil (.port port shape other single digits) parts blankLead other
    rw [shape, parts, start] at other
    exact absurd rfl other
  | nothing same other uncut =>
    have start := lead_eq_nil (.nothing same other uncut) parts blankLead other
    rw [same, parts, start] at other
    exact absurd rfl other

variable (blankGap : Blank gap)
include blankGap

omit stripped blankLead in
/-- Without brackets or a port, white space in front of the end dots is all the white space there
is: the text ends in a dot. -/
theorem dots_pos (same : trim raw = host) (filled : gap ≠ []) : dots ≠ 0 := by
  rintro rfl
  have final : (trim raw).getLast? = gap.getLast? := by
    rw [same, parts, replicate_zero, append_nil, getLast?_append_of_ne_nil _ filled]
  have white := blankGap _ (getLast_mem filled)
  rw [getLast?_eq_getLast_of_ne_nil filled] at final
  rw [(trim_ends raw).2 _ final] at white
  cases white

omit blankLead in
theorem nested_of_dot (last : gap = [] → core.getLast? ≠ some '.')
    (dot : core.getLast? = some '.') : Nested (trim raw) := by
  obtain ⟨inner, rfl⟩ := getLast?_eq_some_iff.mp dot
  obtain ⟨space, spaces, rfl⟩ := exists_cons_of_ne_nil fun empty => last empty dot
  have white := blankGap space mem_cons_self
  cases stripped with
  | brackets rest shape =>
    refine .dot ('[' :: (lead ++ inner)) (spaces ++ replicate dots '.' ++ ']' :: rest) space white ?_
    rw [shape, parts]
    simp
  | port port shape =>
    refine .dot (lead ++ inner) (spaces ++ replicate dots '.' ++ ':' :: port) space white ?_
    rw [shape, parts]
    simp
  | nothing same =>
    refine .dot (lead ++ inner) (spaces ++ replicate dots '.') space white ?_
    rw [same, parts]
    simp

theorem nested_of_port (solid : Solid core) {name : List Char} (cut : cutPort core = some name) :
    Nested (trim raw) := by
  obtain ⟨port, rfl, filled, single, digits⟩ := cutPort_eq_some_iff.mp cut
  have named : NamedPort name port :=
    ⟨filled, fun ch member => solid ch (mem_append_left _ member), single, digits⟩
  cases stripped with
  | brackets rest shape closed =>
    refine .bracketedPort lead name port gap rest dots named ?_
      ((blank_append _ _).mpr ⟨blankLead, blankGap⟩) ?_
    · intro member
      apply closed
      simp [parts, member]
    · rw [shape, parts]
  | port other shape first free =>
    apply absurd _ free
    simp [parts]
  | nothing same first uncut =>
    have start := lead_eq_nil (.nothing same first uncut) parts blankLead first
    subst start
    have some_dots : dots ≠ 0 := by
      rintro rfl
      by_cases filled : gap = []
      · rw [same, parts, filled] at uncut
        simp only [nil_append, append_nil, replicate_zero] at uncut
        rw [uncut] at cut
        cases cut
      · exact dots_pos parts blankGap same filled rfl
    obtain ⟨more, rfl⟩ := Nat.exists_eq_succ_of_ne_zero some_dots
    refine .port name port gap more named blankGap ?_
    rw [same, parts, nil_append]

end

/-! ### The shapes uncover something -/

theorem inside_of_stripped {inside rest : List Char} (stripped : Stripped ('[' :: text) host)
    (free : ']' ∉ inside) (starts : text = inside ++ ']' :: rest) : host = inside := by
  cases stripped with
  | brackets rest' shape closed =>
    rw [cons.injEq, starts] at shape
    have same := (splitOnce_eq_some_iff.mpr ⟨rfl, free⟩).symm.trans
      (splitOnce_eq_some_iff.mpr ⟨shape.2, closed⟩)
    cases same
    rfl
  | port _ _ first => exact absurd rfl first
  | nothing _ first => exact absurd rfl first

section

variable {name port : List Char} (named : NamedPort name port)
include named

theorem NamedPort.solid_text : Solid (name ++ ':' :: port) := by
  intro ch member
  rcases mem_append.mp member with front | back
  · exact named.solid ch front
  · rcases mem_cons.mp back with rfl | digit
    · decide
    · exact isWhitespace_digit (digits_of_isPort named.port ch digit)

theorem getLast?_port (front : List Char) :
    ∃ digit, (front ++ ':' :: port).getLast? = some digit ∧ digit.isDigit = true := by
  have filled : port ≠ [] := by
    rintro rfl
    exact absurd named.port (by decide)
  refine ⟨port.getLast filled, ?_, digits_of_isPort named.port _ (getLast_mem filled)⟩
  rw [getLast?_append_of_ne_nil _ (cons_ne_nil _ _), getLast?_cons_of_ne_nil filled,
    getLast?_eq_getLast_of_ne_nil filled]

theorem NamedPort.last : (name ++ ':' :: port).getLast? ≠ some '.' := by
  obtain ⟨digit, last, isDigit⟩ := getLast?_port named name
  rw [last]
  rintro ⟨⟩
  exact absurd isDigit (by decide)

end

section

variable (parts : host = lead ++ core ++ gap ++ replicate dots '.') (blankLead : Blank lead)
  (blankGap : Blank gap) (solid : Solid core)

include parts blankLead blankGap solid in
theorem head_of_bracket {between rest : List Char} (blankBetween : Blank between)
    (stripped : Stripped ('[' :: (between ++ '[' :: rest)) host) : core.head? = some '[' := by
  have starts : ∃ more, host = between ++ '[' :: more := by
    cases stripped with
    | port _ _ first => exact absurd rfl first
    | nothing _ first => exact absurd rfl first
    | brackets suffix shape closed =>
      rcases append_eq_append_iff.mp (cons.inj shape).2 with ⟨more, same, rest⟩ | ⟨more, same, rest⟩
      · cases more with
        | nil => cases rest
        | cons ch more =>
          obtain ⟨rfl, _⟩ := cons.inj rest
          exact ⟨more, same⟩
      · cases more with
        | nil => cases rest
        | cons ch more =>
          obtain ⟨rfl, _⟩ := cons.inj rest
          exact absurd (blankBetween ']' (by simp [same])) (by decide)
  obtain ⟨more, same⟩ := starts
  have whole : trimStart (core ++ (gap ++ replicate dots '.')) = '[' :: more := by
    rw [← trimStart_blank _ blankLead, ← append_assoc, ← append_assoc, ← parts, same,
      trimStart_blank _ blankBetween]
    rfl
  cases core with
  | nil =>
    have inside : '[' ∈ gap ++ replicate dots '.' :=
      (dropWhile_suffix _).subset (whole ▸ mem_cons_self)
    rcases mem_append.mp inside with space | dot
    · exact absurd (blankGap '[' space) (by decide)
    · exact absurd (eq_of_mem_replicate dot) (by decide)
  | cons ch inner =>
    rw [cons_append, trimStart, dropWhile_cons_of_neg (by simp [solid ch mem_cons_self])] at whole
    rw [head?_cons, (cons.inj whole).1]

end

theorem cut_of_port {name port between : List Char} {count : Nat} (named : NamedPort name port)
    (blankBetween : Blank between)
    (stripped : Stripped (name ++ ':' :: port ++ between ++ replicate (count + 1) '.') host) :
    cutPort (trim (trimDots host)) ≠ none := by
  have final :
      (name ++ ':' :: port ++ between ++ replicate (count + 1) '.').getLast? = some '.' := by
    rw [replicate_succ', ← append_assoc, getLast?_concat]
  cases stripped with
  | brackets rest shape closed suffix =>
    rw [shape, getLast?_cons, getLast?_append_of_ne_nil _ (cons_ne_nil _ _), getLast?_cons] at final
    cases last : rest.getLast? with
    | none => simp [last] at final
    | some ch =>
      have same : ch = '.' := by simpa [last] using final
      subst same
      rcases suffix '.' (mem_of_getLast? last) with colon | digit
      · cases colon
      · exact absurd digit (by decide)
  | port other shape first single digits =>
    have ported : NamedPort name other := ⟨named.filled, named.solid, named.single, digits⟩
    obtain ⟨digit, last, isDigit⟩ := getLast?_port ported host
    rw [shape, last] at final
    cases final
    exact absurd isDigit (by decide)
  | nothing same =>
    have inner : trim (trimDots ([] ++ (name ++ ':' :: port) ++ between ++
        replicate (count + 1) '.')) = name ++ ':' :: port :=
      core_of_parts (fun _ member => absurd member not_mem_nil) named.solid_text blankBetween
        fun _ => named.last
    rw [nil_append] at inner
    rw [← same, inner, cutPort_eq_some_iff.mpr ⟨port, rfl, named.filled, named.single, named.port⟩]
    simp

theorem cut_of_bracketedPort {before name port after rest : List Char} {count : Nat}
    (named : NamedPort name port) (closed : ']' ∉ name) (blank : Blank (before ++ after))
    (stripped : Stripped ('[' :: (before ++ (name ++ ':' :: port) ++ after ++ replicate count '.' ++
      ']' :: rest)) host) :
    cutPort (trim (trimDots host)) ≠ none := by
  obtain ⟨blankBefore, blankAfter⟩ := (blank_append _ _).mp blank
  have free : ']' ∉ before ++ (name ++ ':' :: port) ++ after ++ replicate count '.' := by
    have white {space : List Char} (blank : Blank space) : ']' ∉ space :=
      fun member => absurd (blank ']' member) (by decide)
    have digits : ']' ∉ port :=
      fun member => absurd (digits_of_isPort named.port ']' member) (by decide)
    simp [white blankBefore, white blankAfter, closed, digits]
  rw [inside_of_stripped stripped free rfl,
    core_of_parts blankBefore named.solid_text blankAfter fun _ => named.last,
    cutPort_eq_some_iff.mpr ⟨port, rfl, named.filled, named.single, named.port⟩]
  simp

theorem last_of_dot (stripped : Stripped text host)
    (parts : host = lead ++ core ++ gap ++ replicate dots '.') (blankLead : Blank lead)
    (blankGap : Blank gap) (solid : Solid core) {front back : List Char} {space : Char}
    (white : isWhitespace space = true) (shape : text = front ++ '.' :: space :: back) :
    core.getLast? = some '.' := by
  by_contra last
  have tail : ∀ closing, Solid closing →
      DotsHeld (lead ++ (core ++ (gap ++ (replicate dots '.' ++ closing)))) := by
    intro closing solidClosing
    have dotted : Solid (replicate dots '.' ++ closing) := by
      intro ch member
      rcases mem_append.mp member with dot | other
      · rw [eq_of_mem_replicate dot]
        decide
      · exact solidClosing ch other
    exact dotsHeld_append (dotsHeld_blank blankLead) (dotsHeld_append (dotsHeld_solid solid)
      (dotsHeld_append (dotsHeld_blank blankGap) (dotsHeld_solid dotted) (getLast?_blank blankGap))
      last) (getLast?_blank blankLead)
  have held : DotsHeld text := by
    cases stripped with
    | brackets rest shape closed suffix =>
      have solidRest : Solid (']' :: rest) := by
        refine forall_mem_cons.mpr ⟨by decide, fun ch member => ?_⟩
        rcases suffix ch member with rfl | digit
        · decide
        · exact isWhitespace_digit digit
      have opening : DotsHeld ['['] := dotsHeld_solid (by simp [Solid]; decide)
      have all := dotsHeld_append opening (tail _ solidRest) (by decide)
      rw [shape, parts]
      simpa using all
    | port port shape first single digits =>
      have solidPort : Solid (':' :: port) := forall_mem_cons.mpr ⟨by decide, fun ch member =>
        isWhitespace_digit (digits_of_isPort digits ch member)⟩
      rw [shape, parts]
      simpa using tail _ solidPort
    | nothing same =>
      rw [same, parts]
      simpa using tail [] fun _ member => absurd member not_mem_nil
  have pair : ['.', space] <:+: text := ⟨front, back, by simp [shape]⟩
  have chain := held.infix pair
  simp [white] at chain

theorem nested_iff (stripped : Stripped (trim raw) host) (solid : Solid (trim (trimDots host))) :
    Nested (trim raw) ↔ (trim (trimDots host)).head? = some '[' ∨
      (trim (trimDots host)).getLast? = some '.' ∨ cutPort (trim (trimDots host)) ≠ none := by
  obtain ⟨lead, gap, dots, parts, blankLead, blankGap, last⟩ := host_parts host
  constructor
  · intro nested
    cases nested with
    | bracket between rest blank shape =>
      exact .inl (head_of_bracket parts blankLead blankGap solid blank (shape ▸ stripped))
    | dot front back space white shape =>
      exact .inr (.inl (last_of_dot stripped parts blankLead blankGap solid white shape))
    | port name port between count named blank shape =>
      exact .inr (.inr (cut_of_port named blank (shape ▸ stripped)))
    | bracketedPort before name port after rest count named closed blank shape =>
      exact .inr (.inr (cut_of_bracketedPort named closed blank (shape ▸ stripped)))
  · rintro (first | dot | cut)
    · exact nested_of_bracket stripped parts blankLead first
    · exact nested_of_dot stripped parts blankGap last dot
    · obtain ⟨name, cut⟩ := Option.ne_none_iff_exists'.mp cut
      exact nested_of_port stripped parts blankLead blankGap solid cut

/-! ### A second normalisation of the result -/

theorem normalize_self_iff {out : List Char} (filled : out ≠ []) (plain : ¬ Addressed out)
    (lower : out.map Char.toLower = out) (star : '*' ∉ out) (solid : Solid out) :
    normalizeNetworkRuleHost out = .ok out ↔
      ¬ (out.head? = some '[' ∨ out.getLast? = some '.' ∨ cutPort out ≠ none) := by
  rw [normalize_eq_ok_iff, trim_solid solid]
  constructor
  · rintro ⟨-, -, host, ok, same, -⟩
    have size := congrArg List.length same
    rw [length_map] at size
    have inner := (trim_sublist (trimDots host)).length_le
    have outer := (trimDots_sublist host).length_le
    cases stripped_of_ok ok with
    | brackets rest shape =>
      have longer := congrArg List.length shape
      simp only [length_cons, length_append] at longer
      omega
    | port port shape =>
      have longer := congrArg List.length shape
      simp only [length_cons, length_append] at longer
      omega
    | nothing host_eq first uncut =>
      subst host_eq
      rintro (bracket | dot | cut)
      · exact first bracket
      · have := trimDots_length_lt dot
        omega
      · exact cut uncut
  · intro plainly
    simp only [not_or, not_not] at plainly
    obtain ⟨first, last, port⟩ := plainly
    refine ⟨filled, plain, out, stripAddress_plain out first port, ?_, filled, star,
      solid_iff.mp solid⟩
    rw [trimDots_of_last last, trim_solid solid, lower]

theorem not_addressed (plain : ¬ Addressed (trim raw)) (stripped : Stripped (trim raw) host) :
    ¬ Addressed ((trim (trimDots host)).map Char.toLower) := by
  have back {sign : Char} (letter : sign.isAlpha = false)
      (member : sign ∈ (trim (trimDots host)).map Char.toLower) : sign ∈ trim raw := by
    obtain ⟨ch, inside, same⟩ := mem_map.mp member
    rw [← (toLower_eq_iff letter ch).mp same]
    exact stripped.subset ((trimDots_sublist host).subset ((trim_sublist _).subset inside))
  rintro (scheme | slash | query | fragment)
  · exact plain (.inr (.inl (back rfl (scheme.subset (by decide)))))
  · exact plain (.inr (.inl (back rfl slash)))
  · exact plain (.inr (.inr (.inl (back rfl query))))
  · exact plain (.inr (.inr (.inr (back rfl fragment))))

theorem normalize_again_iff {out : List Char} (ok : normalizeNetworkRuleHost raw = .ok out) :
    normalizeNetworkRuleHost out = .ok out ↔ ¬ Nested (trim raw) := by
  obtain ⟨-, plain, host, stripped, rfl, filled, star, solid⟩ := (normalize_eq_ok_iff raw out).mp ok
  have lower : ((trim (trimDots host)).map Char.toLower).map Char.toLower =
      (trim (trimDots host)).map Char.toLower := by
    rw [map_map]
    exact map_congr_left fun ch _ => Char.toLower_toLower_eq_toLower ch
  have sign {target : Char} (letter : target.isAlpha = false) (final : Option Char) :
      final.map Char.toLower = some target ↔ final = some target := by
    cases final with
    | none => simp
    | some ch => simp [toLower_eq_iff letter]
  have inner : Solid (trim (trimDots host)) := by
    intro ch member
    rw [← isWhitespace_toLower]
    exact solid_iff.mpr solid _ (mem_map_of_mem member)
  rw [normalize_self_iff filled (not_addressed plain (stripped_of_ok stripped)) lower star
    (solid_iff.mpr solid), head?_map, getLast?_map, cutPort_map, sign rfl, sign rfl,
    nested_iff (stripped_of_ok stripped) inner, Ne, Option.map_eq_none_iff]

theorem addNetworkRule_ok {protocol : NetworkRuleProtocol}
    {decision : Decision} {justification : Option (List Char)} {rule : NetworkRule}
    (added : addNetworkRule rules host protocol decision justification = .ok (rules ++ [rule])) :
    normalizeNetworkRuleHost host = .ok rule.host ∧ checkJustification justification = .ok () ∧
      rule = ⟨rule.host, protocol, decision, justification⟩ := by
  unfold addNetworkRule at added
  cases normal : normalizeNetworkRuleHost host with
  | error message => rw [normal] at added; cases added
  | ok out =>
    cases checked : checkJustification justification with
    | error message => rw [normal, checked] at added; cases added
    | ok =>
      rw [normal, checked] at added
      have same := (append_cancel_left (Except.ok.inj added))
      cases same
      exact ⟨rfl, rfl, rfl⟩

/-- A rule comes back from its line with its host exactly if no bracket, dot or port is covered by
what the first reading of the host takes off. -/
theorem persisted_host_iff (rules : List NetworkRule) (host : List Char)
    (protocol : NetworkRuleProtocol) (decision : Decision) (justification : Option (List Char))
    (rule : NetworkRule)
    (added : addNetworkRule rules host protocol decision justification = .ok (rules ++ [rule])) :
    (∃ parsed, (networkRuleLine host protocol decision justification >>= parseLine) = .ok parsed ∧
      parsed.host = rule.host) ↔ ¬ Nested (trim host) := by
  obtain ⟨normal, checked, -⟩ := addNetworkRule_ok added
  rw [← normalize_again_iff normal]
  have parsed : (networkRuleLine host protocol decision justification >>= parseLine) =
      (normalizeNetworkRuleHost rule.host).map (⟨·, protocol, decision, justification⟩) := by
    have protocolBack : NetworkRuleProtocol.parse protocol.asPolicyString = .ok protocol := by
      cases protocol <;> rfl
    have decisionBack : parseNetworkRuleDecision (decisionText decision) = .ok decision := by
      cases decision <;> rfl
    rw [networkRuleLine, normal, checked]
    change parseLine ⟨rule.host, protocol.asPolicyString, decisionText decision, justification⟩ = _
    rw [parseLine, protocolBack, decisionBack, checked]
    rfl
  rw [parsed]
  cases normalizeNetworkRuleHost rule.host <;> simp [Except.map]

theorem port_rule_persisted :
    ∃ parsed, (networkRuleLine ['A', '.', ':', '8'] .https .forbidden none >>= parseLine) =
      .ok parsed ∧ parsed.host = ['a'] := by
  refine (persisted_host_iff [] ['A', '.', ':', '8'] .https .forbidden none
    ⟨['a'], .https, .forbidden, none⟩ rfl).mpr fun nested => ?_
  have stripped : Stripped (trim ['A', '.', ':', '8']) ['A', '.'] :=
    .port ['8'] rfl (by decide) (by decide) rfl
  have core : trim (trimDots ['A', '.']) = ['A'] := rfl
  have uncovered := (nested_iff stripped (by rw [core]; simp [Solid]; rfl)).mp nested
  rw [core] at uncovered
  exact absurd uncovered (by decide)

/-- The port is only seen once the dot after it is gone. -/
theorem dotted_port_lost :
    addNetworkRule [] ['a', ':', '8', '.'] .https .forbidden none =
        .ok [⟨['a', ':', '8'], .https, .forbidden, none⟩] ∧
      (networkRuleLine ['a', ':', '8', '.'] .https .forbidden none >>= parseLine) =
        .ok ⟨['a'], .https, .forbidden, none⟩ :=
  ⟨rfl, rfl⟩

end OpenInterpreter.NetworkRules
