import OpenInterpreter.Chunks

/-! `network-proxy/src/authorization_path.rs`: the paths that a hook may authorize are those that
every upstream reads alike. Bytes are numbers: `%` is 37, `.` is 46, `/` is 47 and the backslash
is 92. -/

namespace OpenInterpreter.AuthorizationPath

open List

abbrev Bytes := List UInt8

def decodeHexDigit (byte : UInt8) : Option UInt8 :=
  if 48 ≤ byte ∧ byte ≤ 57 then some (byte - 48)
  else if 97 ≤ byte ∧ byte ≤ 102 then some (byte - 97 + 10)
  else if 65 ≤ byte ∧ byte ≤ 70 then some (byte - 65 + 10)
  else none

def unescape (high low : UInt8) : Option UInt8 :=
  (decodeHexDigit high).bind fun high => (decodeHexDigit low).map fun low => high <<< 4 ||| low

/-- The loop of `is_safe_segment_for_authorization`. -/
def scanSegment (decodedDots : Nat) (hasNonDot : Bool) : Bytes → Bool
  | [] => hasNonDot || !(decodedDots == 1 || decodedDots == 2)
  | byte :: rest =>
    if byte = 46 then scanSegment (decodedDots + 1) hasNonDot rest
    else if byte = 92 then false
    else if byte = 37 then
      match rest with
      | high :: low :: rest =>
        match unescape high low with
        | some decoded =>
          if decoded = 37 ∨ decoded = 47 ∨ decoded = 92 then false
          else if decoded = 46 then scanSegment (decodedDots + 1) hasNonDot rest
          else scanSegment decodedDots true rest
        | none => false
      | _ => false
    else scanSegment decodedDots true rest

def segments (path : Bytes) : List Bytes := path.splitOn 47

def isSafeForAuthorization (path : Bytes) : Bool := (segments path).all (scanSegment 0 false)

def percentDecode : Bytes → Bytes
  | byte :: high :: low :: rest =>
    match if byte = 37 then unescape high low else none with
    | some decoded => decoded :: percentDecode rest
    | none => byte :: percentDecode (high :: low :: rest)
  | short => short

def keepSegment (kept : List Bytes) (part : Bytes) : List Bytes :=
  if part = [46] then kept else if part = [46, 46] then kept.dropLast else kept ++ [part]

def removeDotSegments (parts : List Bytes) : List Bytes := parts.foldl keepSegment []

inductive Rewriting where
  | decode
  | backslashesToSlashes
  | removeDots
  deriving DecidableEq

def Rewriting.apply (path : Bytes) : Rewriting → Bytes
  | .decode => percentDecode path
  | .backslashesToSlashes => path.map fun byte => if byte = 92 then 47 else byte
  | .removeDots => [47].intercalate (removeDotSegments (segments path))

/-- The segment decodes to this text, without a byte that could be read a second time. -/
inductive Decodes : Bytes → Bytes → Prop where
  | nil : Decodes [] []
  | plain {byte : UInt8} {rest text : Bytes} (backslash : byte ≠ 92) (percent : byte ≠ 37)
      (decodes : Decodes rest text) : Decodes (byte :: rest) (byte :: text)
  | escape {high low decoded : UInt8} {rest text : Bytes}
      (escape : unescape high low = some decoded)
      (once : ¬ (decoded = 37 ∨ decoded = 47 ∨ decoded = 92)) (decodes : Decodes rest text) :
      Decodes (37 :: high :: low :: rest) (decoded :: text)

inductive Fault : Bytes → Prop where
  | backslash (rest : Bytes) : Fault (92 :: rest)
  | malformed (rest : Bytes)
      (malformed : ∀ high low after, rest = high :: low :: after → unescape high low = none) :
      Fault (37 :: rest)
  | encoded {high low decoded : UInt8} (rest : Bytes) (escape : unescape high low = some decoded)
      (twice : decoded = 37 ∨ decoded = 47 ∨ decoded = 92) : Fault (37 :: high :: low :: rest)

section

variable {segment text path : Bytes} {dots : Nat} {nonDot : Bool}

def fine (dots : Nat) (nonDot : Bool) (text : Bytes) : Bool :=
  nonDot || text.any (· ≠ 46) || !(dots + text.length == 1 || dots + text.length == 2)

theorem fine_dot (text : Bytes) : fine dots nonDot (46 :: text) = fine (dots + 1) nonDot text := by
  simp [fine, Nat.add_assoc, Nat.add_comm 1]

theorem fine_other {byte : UInt8} (other : byte ≠ 46) (text : Bytes) :
    fine dots nonDot (byte :: text) = fine dots true text := by
  simp [fine, other]

def Found (dots : Nat) (nonDot : Bool) (segment : Bytes) (result : Bool) : Prop :=
  (∃ text, Decodes segment text ∧ result = fine dots nonDot text) ∨
    result = false ∧ ∃ rest, rest <:+ segment ∧ Fault rest

theorem Found.extend {laterDots : Nat} {laterNonDot result : Bool} {decoded : UInt8}
    (found : Found laterDots laterNonDot segment result) (front : Bytes)
    (decodes : ∀ {text}, Decodes segment text → Decodes (front ++ segment) (decoded :: text))
    (same : ∀ text, fine dots nonDot (decoded :: text) = fine laterDots laterNonDot text) :
    Found dots nonDot (front ++ segment) result := by
  rcases found with ⟨text, inside, decides⟩ | ⟨rejected, rest, suffix, fault⟩
  · exact .inl ⟨decoded :: text, decodes inside, by rw [decides, same]⟩
  · exact .inr ⟨rejected, rest, suffix.trans (suffix_append front segment), fault⟩

theorem scanSegment_found (dots : Nat) (nonDot : Bool) (segment : Bytes) :
    Found dots nonDot segment (scanSegment dots nonDot segment) := by
  fun_induction scanSegment dots nonDot segment with
  | case1 => exact .inl ⟨[], .nil, by simp [fine]⟩
  | case2 dots nonDot rest ih => exact ih.extend [46] (.plain (by decide) (by decide)) fine_dot
  | case3 dots nonDot rest => exact .inr ⟨rfl, _, suffix_refl _, .backslash rest⟩
  | case4 dots nonDot high low rest decoded escape twice =>
    exact .inr ⟨rfl, _, suffix_refl _, .encoded rest escape twice⟩
  | case5 dots nonDot high low rest _ _ escape once ih =>
    exact ih.extend [37, high, low] (.escape escape once) fine_dot
  | case6 dots nonDot high low rest decoded escape once other _ _ ih =>
    exact ih.extend [37, high, low] (.escape escape once) (fine_other other)
  | case7 dots nonDot high low rest bad =>
    refine .inr ⟨rfl, _, suffix_refl _, .malformed _ ?_⟩
    rintro _ _ _ ⟨⟩
    exact bad
  | case8 dots nonDot rest short =>
    refine .inr ⟨rfl, _, suffix_refl _, .malformed _ ?_⟩
    intro high low after long
    exact absurd long (short high low after)
  | case9 dots nonDot byte rest other backslash percent ih =>
    exact ih.extend [byte] (.plain backslash percent) (fine_other other)

theorem percentDecode_plain {byte : UInt8} (rest : Bytes) (plain : byte ≠ 37) :
    percentDecode (byte :: rest) = byte :: percentDecode rest := by
  rcases rest with _ | ⟨_, _ | _⟩ <;> simp [percentDecode, plain]

theorem Decodes.percentDecode_eq (decodes : Decodes segment text) :
    percentDecode segment = text := by
  induction decodes with
  | nil => rfl
  | plain backslash percent decodes ih => rw [percentDecode_plain _ percent, ih]
  | escape escape once decodes ih => simp [percentDecode, escape, ih]

theorem Decodes.append {later laterText : Bytes} (decodes : Decodes segment text)
    (behind : Decodes later laterText) : Decodes (segment ++ later) (text ++ laterText) := by
  induction decodes with
  | nil => exact behind
  | plain backslash percent decodes ih => exact .plain backslash percent ih
  | escape escape once decodes ih => exact .escape escape once ih

theorem unescape_digits {high low decoded : UInt8} (escape : unescape high low = some decoded) :
    high ≠ 92 ∧ low ≠ 92 := by
  obtain ⟨_, first, second⟩ := Option.bind_eq_some_iff.mp escape
  constructor
  · rintro rfl
    cases first
  · rintro rfl
    cases second

theorem Decodes.clean (decodes : Decodes segment text) :
    92 ∉ segment ∧ 37 ∉ text ∧ 92 ∉ text ∧ (47 ∉ segment → 47 ∉ text) := by
  induction decodes with
  | nil => simp
  | plain backslash percent decodes ih =>
    grind
  | escape escape once decodes ih =>
    have digits := unescape_digits escape
    grind

theorem decodes_intercalate {parts : List Bytes}
    (decodes : ∀ part ∈ parts, Decodes part (percentDecode part)) :
    Decodes ([47].intercalate parts) ([47].intercalate (parts.map percentDecode)) := by
  induction parts with
  | nil => exact .nil
  | cons part parts ih =>
    obtain ⟨first, rest⟩ := forall_mem_cons.mp decodes
    cases parts with
    | nil => simpa using first
    | cons next parts =>
      rw [intercalate_cons_cons, map_cons, map_cons, intercalate_cons_cons]
      exact (first.append (.plain (by decide) (by decide) .nil)).append (ih rest)

theorem percentDecode_self (plain : 37 ∉ text) : percentDecode text = text := by
  induction text with
  | nil => rfl
  | cons byte rest ih =>
    rw [mem_cons, not_or] at plain
    rw [percentDecode_plain rest (Ne.symm plain.1), ih plain.2]

structure Settled (text : Bytes) : Prop where
  backslash : 92 ∉ text
  dots : ∀ part ∈ segments text, part ≠ [46] ∧ part ≠ [46, 46]

theorem foldl_keepSegment {parts : List Bytes}
    (dots : ∀ part ∈ parts, part ≠ [46] ∧ part ≠ [46, 46]) (kept : List Bytes) :
    parts.foldl keepSegment kept = kept ++ parts := by
  induction parts generalizing kept with
  | nil => rw [foldl_nil, append_nil]
  | cons part parts ih =>
    obtain ⟨first, rest⟩ := forall_mem_cons.mp dots
    rw [foldl_cons, ih rest, keepSegment, if_neg first.1, if_neg first.2, append_assoc,
      singleton_append]

theorem Settled.apply (settled : Settled text) {rewriting : Rewriting}
    (other : rewriting ≠ .decode) : rewriting.apply text = text := by
  cases rewriting with
  | decode => exact absurd rfl other
  | backslashesToSlashes =>
    have kept (byte : UInt8) (member : byte ∈ text) :
        (if byte = 92 then 47 else byte) = id byte := by
      rw [if_neg, id]
      rintro rfl
      exact settled.backslash member
    rw [Rewriting.apply, map_congr_left kept, map_id]
  | removeDots =>
    rw [Rewriting.apply, removeDotSegments, foldl_keepSegment settled.dots, nil_append,
      segments, intercalate_splitOn]

theorem rewritings_eq (settled : Settled path) (decoded : Settled (percentDecode path))
    (plain : 37 ∉ percentDecode path) (rewritings : List Rewriting) :
    rewritings.foldl Rewriting.apply path =
      if .decode ∈ rewritings then percentDecode path else path := by
  induction rewritings generalizing path with
  | nil => rfl
  | cons rewriting rewritings ih =>
    rw [foldl_cons]
    by_cases decodes : rewriting = .decode
    · have again := percentDecode_self plain
      rw [decodes, Rewriting.apply, ih decoded (again.symm ▸ decoded) (again.symm ▸ plain), again,
        if_pos mem_cons_self, ite_self]
    · rw [settled.apply decodes, ih settled decoded plain]
      simp [Ne.symm decodes]

theorem safe_segments (safe : isSafeForAuthorization path = true) {part : Bytes}
    (member : part ∈ segments path) :
    Decodes part (percentDecode part) ∧ percentDecode part ≠ [46] ∧
      percentDecode part ≠ [46, 46] := by
  have passes := all_eq_true.mp safe part member
  rcases scanSegment_found 0 false part with ⟨text, decodes, same⟩ | ⟨rejected, _⟩
  · rw [passes] at same
    rw [decodes.percentDecode_eq]
    refine ⟨decodes, ?_, ?_⟩ <;> rintro rfl <;> cases same
  · rw [passes] at rejected
    cases rejected

/-- An accepted path reads alike before and after any rewriting that decodes it, and a rejected one
has a fault or a segment of dots. -/
theorem authorized_path_read_once (path : Bytes) :
    (isSafeForAuthorization path = true → 37 ∉ percentDecode path ∧ 92 ∉ percentDecode path ∧
        segments (percentDecode path) = (segments path).map percentDecode ∧
        (∀ part ∈ segments (percentDecode path), part ≠ [46] ∧ part ≠ [46, 46]) ∧
        ∀ rewritings : List Rewriting, segments (rewritings.foldl Rewriting.apply path) =
          if .decode ∈ rewritings then (segments path).map percentDecode else segments path) ∧
      (isSafeForAuthorization path = false → ∃ part ∈ segments path,
        (∃ rest, rest <:+ part ∧ Fault rest) ∨ percentDecode part = [46] ∨
          percentDecode part = [46, 46]) := by
  constructor
  · intro safe
    have each := fun part (member : part ∈ segments path) => safe_segments safe member
    have whole := decodes_intercalate fun part member => (each part member).1
    rw [segments, intercalate_splitOn] at whole
    obtain ⟨unslashed, plain, straight, _⟩ := whole.clean
    have text := whole.percentDecode_eq
    have parts : segments (percentDecode path) = (segments path).map percentDecode := by
      rw [text, segments, splitOn_intercalate]
      · rfl
      · intro part member
        obtain ⟨raw, inside, rfl⟩ := mem_map.mp member
        exact (each raw inside).1.clean.2.2.2 (Chunks.mem_splitOn inside).1
      · simp
    rw [← text] at plain straight
    have dots : ∀ part ∈ segments (percentDecode path), part ≠ [46] ∧ part ≠ [46, 46] := by
      intro part member
      rw [parts] at member
      obtain ⟨raw, inside, rfl⟩ := mem_map.mp member
      exact (each raw inside).2
    refine ⟨plain, straight, parts, dots, fun rewritings => ?_⟩
    have settled : Settled path := by
      refine ⟨unslashed, fun part member => ?_⟩
      have undotted := (each part member).2
      constructor
      · rintro rfl
        exact undotted.1 rfl
      · rintro rfl
        exact undotted.2 rfl
    rw [rewritings_eq settled ⟨straight, dots⟩ plain, apply_ite segments, parts]
  · intro rejected
    obtain ⟨part, member, fails⟩ := all_eq_false.mp rejected
    refine ⟨part, member, ?_⟩
    rcases scanSegment_found 0 false part with ⟨text, decodes, same⟩ | ⟨_, fault⟩
    · right
      have refused := same.symm.trans (Bool.eq_false_of_not_eq_true fails)
      rw [fine, Bool.or_eq_false_iff, Bool.or_eq_false_iff, any_eq_false] at refused
      have dots : text = replicate text.length 46 :=
        eq_replicate_of_mem fun byte member => by simpa using refused.1.2 byte member
      have count : text.length = 1 ∨ text.length = 2 := by
        simpa [or_iff_not_imp_left] using refused.2
      rw [decodes.percentDecode_eq]
      rcases count with one | two
      · rw [dots, one]
        exact .inl rfl
      · rw [dots, two]
        exact .inr rfl
    · exact .inl fault

end

end OpenInterpreter.AuthorizationPath
