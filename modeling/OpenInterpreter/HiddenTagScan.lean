import OpenInterpreter.InlineHiddenTag

/-! What a text with hidden tags means as a whole, and that the parser says the same of any way of
cutting it into chunks. -/

namespace OpenInterpreter.HiddenTagScan

open TextSearch InlineHiddenTag List Option

variable {τ : Type}

def opening (text : List Char) : List (InlineTagSpec τ) → Option (InlineTagSpec τ)
  | [] => none
  | spec :: specs =>
    match opening text specs with
    | none => if spec.openTag <+: text then some spec else none
    | some best =>
      if spec.openTag <+: text ∧ best.openTag.length ≤ spec.openTag.length then some spec
      else some best

variable {text : List Char} {specs : List (InlineTagSpec τ)} {spec : InlineTagSpec τ}

theorem opening_eq_none (absent : ∀ spec ∈ specs, ¬ spec.openTag <+: text) :
    opening text specs = none := by
  induction specs with
  | nil => rfl
  | cons head tail ih =>
    have rest := ih (fun spec member => absent spec (mem_cons_of_mem _ member))
    simp [opening, rest, if_neg (absent head mem_cons_self)]

theorem opening_cons_of_absent {head : InlineTagSpec τ} (tail : List (InlineTagSpec τ))
    (absent : ¬ head.openTag <+: text) : opening text (head :: tail) = opening text tail := by
  cases rest : opening text tail with
  | none => simp [opening, rest, if_neg absent]
  | some best => simp [opening, rest, absent]

theorem opening_found (found : opening text specs = some spec) : spec.openTag <+: text := by
  induction specs with
  | nil => cases found
  | cons head tail ih =>
    by_cases here : head.openTag <+: text
    · cases rest : opening text tail with
      | none =>
        simp only [opening, rest, here, if_true, some.injEq] at found
        exact found ▸ here
      | some best =>
        by_cases longer : best.openTag.length ≤ head.openTag.length
        · simp only [opening, rest, here, longer, and_self, if_true, some.injEq] at found
          exact found ▸ here
        · simp only [opening, rest, longer, and_false] at found
          exact ih (rest.trans found)
    · rw [opening_cons_of_absent tail here] at found
      exact ih found

/-- Everything up to the next opener is visible; an opener hides the text up to the next closer of
its spec, or to the end. -/
def scan (specs : List (InlineTagSpec τ)) : List Char → StreamTextChunk (ExtractedInlineTag τ)
  | [] => .empty
  | head :: tail =>
    match _found : opening (head :: tail) specs with
    | none => ⟨[head], []⟩ ++ scan specs tail
    | some spec =>
      let hidden := (head :: tail).drop spec.openTag.length
      match find spec.closeTag hidden with
      | none => ⟨[], [⟨spec.tag, hidden⟩]⟩
      | some stop =>
        ⟨[], [⟨spec.tag, hidden.take stop⟩]⟩ ++
          scan specs (hidden.drop (stop + spec.closeTag.length))
termination_by text => text.length
decreasing_by
  · simp
  · have positive := length_pos_iff.mpr spec.open_nonempty
    simp only [length_drop, length_cons]
    omega

theorem scan_cons_plain {head : Char} {tail : List Char}
    (plain : opening (head :: tail) specs = none) :
    scan specs (head :: tail) = ⟨[head], []⟩ ++ scan specs tail := by
  rw [scan]
  split
  · rfl
  · rename_i spec found
    cases plain.symm.trans found

def scanInside (specs : List (InlineTagSpec τ)) (active : ActiveTag τ) (text : List Char) :
    StreamTextChunk (ExtractedInlineTag τ) :=
  match find active.closeTag text with
  | none => ⟨[], [⟨active.tag, active.content ++ text⟩]⟩
  | some stop =>
    ⟨[], [⟨active.tag, active.content ++ text.take stop⟩]⟩ ++
      scan specs (text.drop (stop + active.closeTag.length))

theorem scan_open (found : opening text specs = some spec) :
    scan specs text = scanInside specs ⟨spec.tag, spec.closeTag, [], spec.close_nonempty⟩
        (text.drop spec.openTag.length) := by
  cases text with
  | nil => exact absurd (prefix_nil.mp (opening_found found)) spec.open_nonempty
  | cons head tail =>
    rw [scan]
    split
    · rename_i plain
      cases found.symm.trans plain
    · rename_i other same
      cases found.symm.trans same
      rfl

theorem scan_skip {specs : List (InlineTagSpec τ)} {text : List Char} {length : Nat}
    (inside : length ≤ text.length)
    (plain : ∀ position < length, opening (text.drop position) specs = none) :
    scan specs text = ⟨text.take length, []⟩ ++ scan specs (text.drop length) := by
  induction length generalizing text with
  | zero => rfl
  | succ length ih =>
    cases text with
    | nil => simp at inside
    | cons head tail =>
      have shorter : length ≤ tail.length := by simpa using inside
      have rest := ih shorter fun position before => by
        simpa using plain (position + 1) (by omega)
      calc scan specs (head :: tail)
          = ⟨[head], []⟩ ++ scan specs tail := scan_cons_plain (plain 0 (by omega))
        _ = ⟨[head], []⟩ ++ (⟨tail.take length, []⟩ ++ scan specs (tail.drop length)) := by
            rw [rest]
        _ = ⟨(head :: tail).take (length + 1), []⟩ ++
              scan specs ((head :: tail).drop (length + 1)) := by
            rw [← StreamTextChunk.append_assoc]
            rfl

theorem absent_of_find_none (missing : find spec.openTag text = none) (position : Nat) :
    ¬ spec.openTag <+: text.drop position :=
  (find_eq_none_iff _ spec.open_nonempty).mp missing position

theorem opening_of_missing (missing : findNextOpen text specs = none) (position : Nat) :
    opening (text.drop position) specs = none := by
  apply opening_eq_none
  intro spec member
  exact absent_of_find_none (findNextOpen_none text missing spec member) position

theorem opening_of_found {position : Nat}
    (found : findNextOpen text specs = some (position, spec)) :
    (∀ earlier < position, opening (text.drop earlier) specs = none) ∧
      opening (text.drop position) specs = some spec := by
  induction specs generalizing position spec with
  | nil => cases found
  | cons head tail ih =>
    cases here : find head.openTag text with
    | none =>
      simp only [findNextOpen, here] at found
      have absent := absent_of_find_none here
      obtain ⟨before, opensThere⟩ := ih found
      constructor
      · intro earlier less
        rw [opening_cons_of_absent tail (absent earlier)]
        exact before earlier less
      · rw [opening_cons_of_absent tail (absent position)]
        exact opensThere
    | some first =>
      obtain ⟨occurs, earliest⟩ := (find_eq_some_iff _ head.open_nonempty _).mp here
      cases rest : findNextOpen text tail with
      | none =>
        simp only [findNextOpen, here, rest, some.injEq, Prod.mk.injEq] at found
        obtain ⟨rfl, rfl⟩ := found
        have opensNone := opening_of_missing rest
        constructor
        · intro earlier less
          rw [opening_cons_of_absent tail (earliest earlier less)]
          exact opensNone earlier
        · simp [opening, opensNone, if_pos (show head.openTag <+: text.drop first from occurs)]
      | some best =>
        obtain ⟨other, candidate⟩ := best
        obtain ⟨before, opensThere⟩ := ih rest
        by_cases precedes : Precedes (other, candidate) (first, head)
        · simp only [findNextOpen, here, rest, if_pos precedes, some.injEq, Prod.mk.injEq] at found
          obtain ⟨rfl, rfl⟩ := found
          unfold Precedes at precedes
          constructor
          · intro earlier less
            rw [opening_cons_of_absent tail (earliest earlier (by omega))]
            exact before earlier less
          · rcases precedes with less | ⟨same, longer⟩
            · rw [opening_cons_of_absent tail (earliest other less)]
              exact opensThere
            · have short : ¬ candidate.openTag.length ≤ head.openTag.length := by
                simp only at longer
                omega
              simp [opening, opensThere, short]
        · simp only [findNextOpen, here, rest, if_neg precedes, some.injEq, Prod.mk.injEq] at found
          obtain ⟨rfl, rfl⟩ := found
          simp only [Precedes, not_or, not_and] at precedes
          constructor
          · intro earlier less
            rw [opening_cons_of_absent tail (earliest earlier less)]
            exact before earlier (by omega)
          · have starts : head.openTag <+: text.drop first := occurs
            by_cases same : other = first
            · have long : candidate.openTag.length ≤ head.openTag.length := by
                have bound := precedes.2 same
                omega
              rw [same] at opensThere
              simp [opening, opensThere, starts, long]
            · have later : opening (text.drop first) tail = none := before first (by omega)
              simp [opening, later, if_pos starts]

def parsed (specs : List (InlineTagSpec τ)) (chunks : List (List Char)) :
    StreamTextChunk (ExtractedInlineTag τ) :=
  let fed := (InlineHiddenTagParser.new specs).feed chunks
  fed.1 ++ fed.2.finish.1

def meaning (specs : List (InlineTagSpec τ)) (active : Option (ActiveTag τ)) (text : List Char) :
    StreamTextChunk (ExtractedInlineTag τ) :=
  match active with
  | none => scan specs text
  | some active => scanInside specs active text

theorem drain_finish (specs : List (InlineTagSpec τ)) (active : Option (ActiveTag τ))
    (text : List Char) :
    (drain specs active text).1 ++ (drain specs active text).2.finish.1 =
      meaning specs active text := by
  induction active, text using drain.induct specs with
  | case1 text active stop found ih =>
    rw [drain_close specs active text stop found, StreamTextChunk.append_assoc, ih]
    simp [meaning, scanInside, found]
  | case2 text active missing =>
    rw [drain_hold specs active text missing]
    simp [InlineHiddenTagParser.finish, meaning, scanInside, missing, ActiveTag.pushContent]
  | case3 text position spec found ih =>
    obtain ⟨before, here⟩ := opening_of_found found
    have bound := find_bound spec.open_nonempty (findNextOpen_found text found).2
    rw [drain_open specs text found, StreamTextChunk.append_assoc, ih]
    simp only [meaning]
    rw [scan_skip (by omega) before, scan_open here, drop_drop]
  | case4 text missing =>
    have plain := opening_of_missing missing
    rw [drain_show specs text missing]
    simp only [meaning]
    rw [scan_skip (Nat.le_refl _) fun position _ => plain position,
      take_length, drop_length, scan, StreamTextChunk.append_empty]
    exact StreamTextChunk.ext_parts (take_append_drop ..) rfl

/-- The parser gives the visible text and the tags of the whole text, however it is cut. -/
theorem hidden_tags_as_scanned (specs : List (InlineTagSpec τ)) (flat : NoNesting specs)
    (chunks : List (List Char)) : parsed specs chunks = scan specs chunks.flatten := by
  have fed := feed_eq_pushStr chunks (.new specs) flat (new_settled specs)
  calc parsed specs chunks
      = ((InlineHiddenTagParser.new specs).pushStr chunks.flatten).1 ++
          ((InlineHiddenTagParser.new specs).pushStr chunks.flatten).2.finish.1 := by
        rw [parsed, fed]
    _ = scan specs chunks.flatten := drain_finish specs none chunks.flatten

def noteSpec : InlineTagSpec Unit :=
  ⟨(), ['<', 'n', '>'], ['<', '/', 'n', '>'], by decide, by decide⟩

theorem split_note_hidden :
    parsed [noteSpec] [['x', '<'], ['n', '>', 'y', '<', '/', 'n'], ['>', 'z']] =
      ⟨['x', 'z'], [⟨(), ['y']⟩]⟩ := by
  have flat : NoNesting [noteSpec] := by
    intro inner innerIn outer outerIn _
    rw [mem_singleton.mp innerIn, mem_singleton.mp outerIn]
  rw [hidden_tags_as_scanned [noteSpec] flat]
  have plain : opening ['x', '<', 'n', '>', 'y', '<', '/', 'n', '>', 'z'] [noteSpec] = none := by
    decide
  have opens : opening ['<', 'n', '>', 'y', '<', '/', 'n', '>', 'z'] [noteSpec] = some noteSpec := by
    rfl
  have last : opening ['z'] [noteSpec] = none := by decide
  rw [flatten_cons, flatten_cons, flatten_cons, flatten_nil]
  simp only [cons_append, nil_append]
  rw [scan_cons_plain plain, scan_open opens]
  have closes : find noteSpec.closeTag ['y', '<', '/', 'n', '>', 'z'] = some 1 := by decide
  simp only [scanInside, noteSpec, length_cons, length_nil, drop_succ_cons, drop_zero]
  simp only [noteSpec] at closes last
  rw [closes]
  simp only [drop_succ_cons, drop_zero]
  rw [scan_cons_plain last, scan]
  rfl

end OpenInterpreter.HiddenTagScan
