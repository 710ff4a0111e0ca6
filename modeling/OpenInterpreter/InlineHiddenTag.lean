import OpenInterpreter.TextSearch

/-! The hidden-tag parser of `utils/stream-parser/src/inline_hidden_tag.rs`.

Texts are lists of characters, and positions count characters; the source counts bytes
of the same cut points. -/

namespace OpenInterpreter.InlineHiddenTag

open TextSearch List

structure StreamTextChunk (ε : Type) where
  visibleText : List Char
  extracted : List ε
  deriving DecidableEq

def StreamTextChunk.empty {ε : Type} : StreamTextChunk ε := ⟨[], []⟩

instance {ε : Type} : Append (StreamTextChunk ε) where
  append left right := ⟨left.visibleText ++ right.visibleText, left.extracted ++ right.extracted⟩

section

variable {ε : Type}

@[simp] theorem StreamTextChunk.visibleText_append (left right : StreamTextChunk ε) :
    (left ++ right).visibleText = left.visibleText ++ right.visibleText := rfl

@[simp] theorem StreamTextChunk.extracted_append (left right : StreamTextChunk ε) :
    (left ++ right).extracted = left.extracted ++ right.extracted := rfl

theorem StreamTextChunk.ext_parts {left right : StreamTextChunk ε}
    (visible : left.visibleText = right.visibleText)
    (extracted : left.extracted = right.extracted) : left = right := by
  cases left
  cases visible
  cases extracted
  rfl

variable (chunk : StreamTextChunk ε)

@[simp] theorem StreamTextChunk.empty_append : empty ++ chunk = chunk :=
  rfl

@[simp] theorem StreamTextChunk.append_empty : chunk ++ empty = chunk :=
  ext_parts (append_nil _) (append_nil _)

theorem StreamTextChunk.append_assoc (first second third : StreamTextChunk ε) :
    first ++ second ++ third = first ++ (second ++ third) :=
  ext_parts (List.append_assoc ..) (List.append_assoc ..)

theorem StreamTextChunk.eq_empty_of_append_eq {left right : StreamTextChunk ε}
    (same : left ++ right = left) : right = empty := by
  have visible := congrArg StreamTextChunk.visibleText same
  have extracted := congrArg StreamTextChunk.extracted same
  exact ext_parts (append_right_eq_self.mp visible) (append_right_eq_self.mp extracted)

end

structure InlineTagSpec (τ : Type) where
  tag : τ
  openTag : List Char
  closeTag : List Char
  open_nonempty : openTag ≠ []
  close_nonempty : closeTag ≠ []

structure ActiveTag (τ : Type) where
  tag : τ
  closeTag : List Char
  content : List Char
  close_nonempty : closeTag ≠ []

def ActiveTag.pushContent {τ : Type} (active : ActiveTag τ) (text : List Char) : ActiveTag τ :=
  { active with content := active.content ++ text }

structure ExtractedInlineTag (τ : Type) where
  tag : τ
  content : List Char
  deriving DecidableEq

structure InlineHiddenTagParser (τ : Type) where
  specs : List (InlineTagSpec τ)
  pending : List Char
  active : Option (ActiveTag τ)

variable {τ : Type}

def InlineHiddenTagParser.new (specs : List (InlineTagSpec τ)) : InlineHiddenTagParser τ :=
  ⟨specs, [], none⟩

/-- The comparison of `find_next_open`. -/
def Precedes (left right : Nat × InlineTagSpec τ) : Prop :=
  left.1 < right.1 ∨ left.1 = right.1 ∧ right.2.openTag.length < left.2.openTag.length

instance (left right : Nat × InlineTagSpec τ) : Decidable (Precedes left right) :=
  inferInstanceAs (Decidable (_ ∨ _))

def findNextOpen (pending : List Char) :
    List (InlineTagSpec τ) → Option (Nat × InlineTagSpec τ)
  | [] => none
  | spec :: specs =>
    match find spec.openTag pending, findNextOpen pending specs with
    | none, best => best
    | some position, none => some (position, spec)
    | some position, some best =>
      if Precedes best (position, spec) then some best else some (position, spec)

def maxOpenPrefixSuffixLen (pending : List Char) (specs : List (InlineTagSpec τ)) : Nat :=
  (specs.map (fun spec => suffixPrefixLen pending spec.openTag)).foldr max 0

variable (specs : List (InlineTagSpec τ)) (pending : List Char) {spec : InlineTagSpec τ}
  {position : Nat}

theorem findNextOpen_found {specs : List (InlineTagSpec τ)}
    (found : findNextOpen pending specs = some (position, spec)) :
    spec ∈ specs ∧ find spec.openTag pending = some position := by
  induction specs with
  | nil => cases found
  | cons head tail ih =>
    unfold findNextOpen at found
    split at found
    · obtain ⟨member, occurs⟩ := ih found
      exact ⟨mem_cons_of_mem _ member, occurs⟩
    · rename_i here _
      cases found
      exact ⟨mem_cons_self, here⟩
    · rename_i here rest
      split at found
      · cases found
        obtain ⟨member, occurs⟩ := ih rest
        exact ⟨mem_cons_of_mem _ member, occurs⟩
      · cases found
        exact ⟨mem_cons_self, here⟩

theorem findNextOpen_none {specs : List (InlineTagSpec τ)}
    (missing : findNextOpen pending specs = none) :
    ∀ spec ∈ specs, find spec.openTag pending = none := by
  induction specs with
  | nil => simp
  | cons head tail ih =>
    unfold findNextOpen at missing
    split at missing
    · rename_i absent
      intro spec member
      rcases mem_cons.mp member with rfl | member
      · exact absent
      · exact ih missing spec member
    · cases missing
    · split at missing <;> cases missing

theorem found_shrinks {specs : List (InlineTagSpec τ)}
    (found : findNextOpen pending specs = some (position, spec)) :
    (pending.drop (position + spec.openTag.length)).length < pending.length := by
  have bound := find_bound spec.open_nonempty (findNextOpen_found _ found).2
  have positive := length_pos_iff.mpr spec.open_nonempty
  rw [length_drop]
  omega

theorem closed_shrinks {active : ActiveTag τ}
    (found : find active.closeTag pending = some position) :
    (pending.drop (position + active.closeTag.length)).length < pending.length := by
  have bound := find_bound active.close_nonempty found
  have positive := length_pos_iff.mpr active.close_nonempty
  rw [length_drop]
  omega

/-- The loop of `push_str` over the pending text. -/
def drain (specs : List (InlineTagSpec τ)) (active : Option (ActiveTag τ)) (pending : List Char) :
    StreamTextChunk (ExtractedInlineTag τ) × InlineHiddenTagParser τ :=
  match active with
  | some active =>
    match _found : find active.closeTag pending with
    | some position =>
      let rest := drain specs none (pending.drop (position + active.closeTag.length))
      (⟨[], [⟨active.tag, active.content ++ pending.take position⟩]⟩ ++ rest.1, rest.2)
    | none =>
      let taken := pending.length - suffixPrefixLen pending active.closeTag
      (.empty, ⟨specs, pending.drop taken, some (active.pushContent (pending.take taken))⟩)
  | none =>
    match _found : findNextOpen pending specs with
    | some (position, spec) =>
      let rest := drain specs (some ⟨spec.tag, spec.closeTag, [], spec.close_nonempty⟩)
        (pending.drop (position + spec.openTag.length))
      (⟨pending.take position, []⟩ ++ rest.1, rest.2)
    | none =>
      let taken := pending.length - maxOpenPrefixSuffixLen pending specs
      (⟨pending.take taken, []⟩, ⟨specs, pending.drop taken, none⟩)
termination_by pending.length
decreasing_by
  · exact closed_shrinks pending _found
  · exact found_shrinks pending _found

variable (parser : InlineHiddenTagParser τ)

def InlineHiddenTagParser.pushStr (chunk : List Char) :
    StreamTextChunk (ExtractedInlineTag τ) × InlineHiddenTagParser τ :=
  drain parser.specs parser.active (parser.pending ++ chunk)

def InlineHiddenTagParser.finish :
    StreamTextChunk (ExtractedInlineTag τ) × InlineHiddenTagParser τ :=
  match parser.active with
  | some active =>
    (⟨[], [⟨active.tag, active.content ++ parser.pending⟩]⟩, ⟨parser.specs, [], none⟩)
  | none => (⟨parser.pending, []⟩, ⟨parser.specs, [], none⟩)

theorem drain_close (active : ActiveTag τ) (pending : List Char) (position : Nat)
    (found : find active.closeTag pending = some position) :
    drain specs (some active) pending =
      (⟨[], [⟨active.tag, active.content ++ pending.take position⟩]⟩ ++
          (drain specs none (pending.drop (position + active.closeTag.length))).1,
        (drain specs none (pending.drop (position + active.closeTag.length))).2) := by
  conv_lhs => rw [drain]
  split
  · rename_i other here
    cases found.symm.trans here
    rfl
  · rename_i missing
    cases found.symm.trans missing

theorem drain_hold (active : ActiveTag τ) (pending : List Char)
    (missing : find active.closeTag pending = none) :
    drain specs (some active) pending =
      (.empty, ⟨specs, pending.drop (pending.length - suffixPrefixLen pending active.closeTag),
        some (active.pushContent
          (pending.take (pending.length - suffixPrefixLen pending active.closeTag)))⟩) := by
  conv_lhs => rw [drain]
  split
  · rename_i position here
    cases missing.symm.trans here
  · rfl

theorem drain_open (found : findNextOpen pending specs = some (position, spec)) :
    drain specs none pending = (⟨pending.take position, []⟩ ++
          (drain specs (some ⟨spec.tag, spec.closeTag, [], spec.close_nonempty⟩)
            (pending.drop (position + spec.openTag.length))).1,
        (drain specs (some ⟨spec.tag, spec.closeTag, [], spec.close_nonempty⟩)
          (pending.drop (position + spec.openTag.length))).2) := by
  conv_lhs => rw [drain]
  split
  · rename_i other candidate here
    cases found.symm.trans here
    rfl
  · rename_i missing
    cases found.symm.trans missing

theorem drain_show (missing : findNextOpen pending specs = none) :
    drain specs none pending =
      (⟨pending.take (pending.length - maxOpenPrefixSuffixLen pending specs), []⟩,
        ⟨specs, pending.drop (pending.length - maxOpenPrefixSuffixLen pending specs), none⟩) := by
  conv_lhs => rw [drain]
  split
  · rename_i position spec here
    cases missing.symm.trans here
  · rfl

def NoNesting (specs : List (InlineTagSpec τ)) : Prop :=
  ∀ inner ∈ specs, ∀ outer ∈ specs, inner.openTag <:+: outer.openTag → inner.openTag = outer.openTag

theorem infix_of_occursAt {inner outer text : List Char} {innerAt outerAt : Nat}
    (innerOccurs : OccursAt inner text innerAt) (outerOccurs : OccursAt outer text outerAt)
    (starts : outerAt ≤ innerAt) (stops : innerAt + inner.length ≤ outerAt + outer.length) :
    inner <:+: outer := by
  have shifted : text.drop innerAt = (text.drop outerAt).drop (innerAt - outerAt) := by
    rw [drop_drop, Nat.add_sub_cancel' starts]
  have covered : inner <+: outer.drop (innerAt - outerAt) := by
    rw [OccursAt, shifted] at innerOccurs
    refine prefix_of_prefix_length_le innerOccurs (outerOccurs.drop _) ?_
    rw [length_drop]
    omega
  exact covered.isInfix.trans (drop_suffix _ _).isInfix

theorem complete_lt_straddling (flat : NoNesting specs) {inner outer : InlineTagSpec τ}
    (innerIn : inner ∈ specs) (outerIn : outer ∈ specs) {pending more : List Char}
    {innerAt outerAt : Nat} (complete : find inner.openTag pending = some innerAt)
    (straddles : find outer.openTag (pending ++ more) = some outerAt)
    (missing : find outer.openTag pending = none) : innerAt < outerAt := by
  have bound := find_bound inner.open_nonempty complete
  have innerOccurs := ((find_eq_some_iff _ inner.open_nonempty _).mp
    (find_append inner.open_nonempty more complete)).1
  have outerOccurs := ((find_eq_some_iff _ outer.open_nonempty _).mp straddles).1
  have beyond : pending.length < outerAt + outer.openTag.length := by
    by_contra inside
    exact (find_eq_none_iff _ outer.open_nonempty).mp missing outerAt
      ((occursAt_append_of_le more (by omega)).mp outerOccurs)
  by_contra before
  have same := flat inner innerIn outer outerIn
    (infix_of_occursAt innerOccurs outerOccurs (by omega) (by omega))
  rw [same] at bound
  omega

theorem findNextOpen_append {all : List (InlineTagSpec τ)} (flat : NoNesting all)
    (pending more : List Char) {specs : List (InlineTagSpec τ)} (among : specs ⊆ all) :
    findNextOpen (pending ++ more) specs = findNextOpen pending specs ∨
      findNextOpen pending specs = none ∧
        ∃ position spec, findNextOpen (pending ++ more) specs = some (position, spec) ∧
          spec ∈ all ∧ find spec.openTag (pending ++ more) = some position ∧
          find spec.openTag pending = none := by
  induction specs with
  | nil => exact .inl rfl
  | cons head tail ih =>
    have headIn : head ∈ all := among mem_cons_self
    have tailIn : tail ⊆ all := fun spec member => among (mem_cons_of_mem _ member)
    cases here : find head.openTag pending with
    | none =>
      cases later : find head.openTag (pending ++ more) with
      | none => simpa [findNextOpen, here, later] using ih tailIn
      | some position =>
        rcases ih tailIn with same | ⟨none, other, spec, found, member, there, missing⟩
        · cases rest : findNextOpen pending tail with
          | none =>
            right
            refine ⟨by simp [findNextOpen, here, rest], position, head, ?_, headIn, later,
              here⟩
            simp [findNextOpen, later, same, rest]
          | some best =>
            have member := (findNextOpen_found pending rest)
            have before := complete_lt_straddling all flat
              (tailIn member.1) headIn member.2 later here
            simp [findNextOpen, here, later, same, rest, Precedes, before]
        · right
          refine ⟨by simp [findNextOpen, here, none], ?_⟩
          by_cases first : Precedes (other, spec) (position, head)
          · exact ⟨other, spec, by simp [findNextOpen, later, found, first], member, there,
              missing⟩
          · exact ⟨position, head, by simp [findNextOpen, later, found, first], headIn,
              later, here⟩
    | some position =>
      have later := find_append head.open_nonempty more here
      rcases ih tailIn with same | ⟨none, other, spec, found, member, there, missing⟩
      · simp [findNextOpen, here, later, same]
      · have before := complete_lt_straddling all flat headIn member here there missing
        have behind : ¬ Precedes (other, spec) (position, head) := by
          unfold Precedes
          omega
        simp [findNextOpen, here, later, none, found, behind]

variable (more : List Char) {dropped : Nat}

theorem findNextOpen_drop {specs : List (InlineTagSpec τ)}
    (missing : ∀ spec ∈ specs, find spec.openTag pending = none)
    (kept : ∀ spec ∈ specs, dropped + suffixPrefixLen pending spec.openTag ≤ pending.length) :
    findNextOpen (pending ++ more) specs = (findNextOpen (pending.drop dropped ++ more) specs).map
        (fun found => (dropped + found.1, found.2)) := by
  induction specs with
  | nil => rfl
  | cons head tail ih =>
    have rest := ih (fun spec member => missing spec (mem_cons_of_mem _ member))
      (fun spec member => kept spec (mem_cons_of_mem _ member))
    have first := find_drop more head.open_nonempty (missing head mem_cons_self)
      (kept head mem_cons_self)
    unfold findNextOpen
    rw [first, rest]
    cases find head.openTag (pending.drop dropped ++ more) with
    | none => rfl
    | some position =>
      cases findNextOpen (pending.drop dropped ++ more) tail with
      | none => rfl
      | some best =>
        have shifted : Precedes (dropped + best.1, best.2) (dropped + position, head) ↔
            Precedes best (position, head) := by
          simp only [Precedes]
          omega
        simp only [Option.map_some, shifted]
        split <;> rfl

theorem suffixPrefixLen_le_max (specs : List (InlineTagSpec τ)) :
    ∀ spec ∈ specs, suffixPrefixLen pending spec.openTag ≤ maxOpenPrefixSuffixLen pending specs := by
  unfold maxOpenPrefixSuffixLen
  induction specs with
  | nil => simp
  | cons head tail ih =>
    intro spec member
    rcases mem_cons.mp member with rfl | member
    · exact le_max_left _ _
    · exact (ih spec member).trans (le_max_right _ _)

theorem maxOpenPrefixSuffixLen_le (specs : List (InlineTagSpec τ)) :
    maxOpenPrefixSuffixLen pending specs ≤ pending.length := by
  induction specs with
  | nil => exact Nat.zero_le _
  | cons head tail ih => exact max_le (suffixPrefixLen_le _ _) ih

theorem maxOpenPrefixSuffixLen_drop {specs : List (InlineTagSpec τ)}
    (kept : ∀ spec ∈ specs, dropped + suffixPrefixLen pending spec.openTag ≤ pending.length) :
    maxOpenPrefixSuffixLen (pending ++ more) specs =
      maxOpenPrefixSuffixLen (pending.drop dropped ++ more) specs := by
  unfold maxOpenPrefixSuffixLen
  congr 1
  refine map_congr_left fun spec member => ?_
  exact suffixPrefixLen_drop more spec.open_nonempty (kept spec member)

theorem split_shift (dropped position : Nat) (inside : dropped ≤ pending.length) :
    (pending ++ more).take (dropped + position) =
        pending.take dropped ++ (pending.drop dropped ++ more).take position ∧
      (pending ++ more).drop (dropped + position) =
        (pending.drop dropped ++ more).drop position := by
  have whole : pending ++ more = pending.take dropped ++ (pending.drop dropped ++ more) := by
    rw [← append_assoc, take_append_drop]
  have length : (pending.take dropped).length = dropped := by
    rw [length_take, min_eq_left inside]
  constructor
  · rw [whole, take_append, length, take_of_length_le (by omega), Nat.add_sub_cancel_left]
  · rw [whole, drop_append, length, drop_eq_nil_of_le (by omega), nil_append,
      Nat.add_sub_cancel_left]

theorem length_shift {held : Nat} (inside : dropped ≤ pending.length)
    (within : held ≤ (pending.drop dropped ++ more).length) :
    (pending ++ more).length - held = dropped + ((pending.drop dropped ++ more).length - held) := by
  simp only [length_append, length_drop] at within ⊢
  omega

def resume (specs : List (InlineTagSpec τ))
    (held : StreamTextChunk (ExtractedInlineTag τ) × InlineHiddenTagParser τ) (more : List Char) :
    StreamTextChunk (ExtractedInlineTag τ) × InlineHiddenTagParser τ :=
  (held.1 ++ (drain specs held.2.active (held.2.pending ++ more)).1,
    (drain specs held.2.active (held.2.pending ++ more)).2)

theorem resume_prepend (out : StreamTextChunk (ExtractedInlineTag τ))
    (held : StreamTextChunk (ExtractedInlineTag τ) × InlineHiddenTagParser τ) (more : List Char) :
    resume specs (out ++ held.1, held.2) more =
      (out ++ (resume specs held more).1, (resume specs held more).2) := by
  simp [resume, StreamTextChunk.append_assoc]

theorem drain_append_hold {active : ActiveTag τ} {pending : List Char} (more : List Char)
    (missing : find active.closeTag pending = none) :
    drain specs (some active) (pending ++ more) =
      resume specs (drain specs (some active) pending) more := by
  have length := suffixPrefixLen_le pending active.closeTag
  rw [drain_hold specs active pending missing]
  generalize cut : pending.length - suffixPrefixLen pending active.closeTag = dropped
  have inside : dropped ≤ pending.length := by omega
  have kept : dropped + suffixPrefixLen pending active.closeTag ≤ pending.length := by omega
  have search := find_drop more active.close_nonempty missing kept
  have split := split_shift pending more dropped
  simp only [resume]
  cases found : find active.closeTag (pending.drop dropped ++ more) with
  | some position =>
    rw [found] at search
    rw [drain_close specs active _ _ search,
      drain_close specs (active.pushContent (pending.take dropped)) _ position found,
      (split position inside).1, Nat.add_assoc, (split _ inside).2]
    simp [ActiveTag.pushContent]
  | none =>
    rw [found] at search
    rw [drain_hold specs active _ search,
      drain_hold specs (active.pushContent (pending.take dropped)) _ found,
      suffixPrefixLen_drop more active.close_nonempty kept]
    have reach := suffixPrefixLen_le (pending.drop dropped ++ more) active.closeTag
    rw [length_shift pending more inside reach, (split _ inside).1, (split _ inside).2]
    simp [ActiveTag.pushContent]

theorem drain_append_show (missing : findNextOpen pending specs = none) :
    drain specs none (pending ++ more) = resume specs (drain specs none pending) more := by
  have length := maxOpenPrefixSuffixLen_le pending specs
  have reach := suffixPrefixLen_le_max pending specs
  rw [drain_show specs pending missing]
  generalize cut : pending.length - maxOpenPrefixSuffixLen pending specs = dropped
  have inside : dropped ≤ pending.length := by omega
  have kept : ∀ spec ∈ specs, dropped + suffixPrefixLen pending spec.openTag ≤ pending.length := by
    intro spec member
    have within := reach spec member
    omega
  have search := findNextOpen_drop pending more
    (findNextOpen_none pending missing) kept
  have split := split_shift pending more dropped
  simp only [resume]
  cases found : findNextOpen (pending.drop dropped ++ more) specs with
  | some candidate =>
    obtain ⟨position, spec⟩ := candidate
    rw [found] at search
    rw [drain_open specs _ search, drain_open specs _ found,
      (split position inside).1, Nat.add_assoc, (split _ inside).2, ← StreamTextChunk.append_assoc]
    rfl
  | none =>
    rw [found] at search
    rw [drain_show specs _ search, drain_show specs _ found,
      maxOpenPrefixSuffixLen_drop pending more kept]
    have within := maxOpenPrefixSuffixLen_le (pending.drop dropped ++ more) specs
    rw [length_shift pending more inside within, (split _ inside).1, (split _ inside).2]
    rfl

theorem drain_append (flat : NoNesting specs) (active : Option (ActiveTag τ))
    (pending more : List Char) :
    drain specs active (pending ++ more) = resume specs (drain specs active pending) more := by
  induction size : pending.length using Nat.strongRecOn generalizing active pending with
  | _ size ih =>
    subst size
    cases active with
    | some active =>
      cases found : find active.closeTag pending with
      | none => exact drain_append_hold specs more found
      | some position =>
        have bound := find_bound active.close_nonempty found
        have rest := ih _ (closed_shrinks pending found) none
          (pending.drop (position + active.closeTag.length)) rfl
        rw [drain_close specs active pending position found, resume_prepend, ← rest,
          drain_close specs active _ position (find_append active.close_nonempty more found),
          take_append_of_le_length (by omega), drop_append_of_le_length bound]
    | none =>
      cases found : findNextOpen pending specs with
      | none => exact drain_append_show specs pending more found
      | some candidate =>
        obtain ⟨position, spec⟩ := candidate
        have bound := find_bound spec.open_nonempty
          (findNextOpen_found pending found).2
        have rest := ih _ (found_shrinks pending found)
          (some ⟨spec.tag, spec.closeTag, [], spec.close_nonempty⟩)
          (pending.drop (position + spec.openTag.length)) rfl
        have later : findNextOpen (pending ++ more) specs = some (position, spec) := by
          rcases findNextOpen_append flat pending more (fun _ member => member)
            with same | ⟨none, -⟩
          · exact same.trans found
          · cases found.symm.trans none
        rw [drain_open specs pending found, resume_prepend, ← rest, drain_open specs _ later,
          take_append_of_le_length (by omega), drop_append_of_le_length bound]

theorem drain_specs (active : Option (ActiveTag τ)) (pending : List Char) :
    (drain specs active pending).2.specs = specs := by
  induction active, pending using drain.induct specs with
  | case1 pending active position found ih =>
    rw [drain_close specs active pending position found]
    exact ih
  | case2 pending active missing => rw [drain_hold specs active pending missing]
  | case3 pending position spec found ih =>
    rw [drain_open specs pending found]
    exact ih
  | case4 pending missing => rw [drain_show specs pending missing]

def InlineHiddenTagParser.feed (parser : InlineHiddenTagParser τ) :
    List (List Char) → StreamTextChunk (ExtractedInlineTag τ) × InlineHiddenTagParser τ
  | [] => (.empty, parser)
  | chunk :: chunks =>
    let pushed := parser.pushStr chunk
    let rest := pushed.2.feed chunks
    (pushed.1 ++ rest.1, rest.2)

def Settled : Prop :=
  drain parser.specs parser.active parser.pending = (.empty, parser)

theorem new_settled : Settled (.new specs) := by
  have missing : findNextOpen [] specs = none := by
    induction specs with
    | nil => rfl
    | cons head tail ih => simp [findNextOpen, find, head.open_nonempty, ih]
  simp [Settled, InlineHiddenTagParser.new, drain_show specs [] missing, StreamTextChunk.empty]

theorem drain_settled (flat : NoNesting specs) (active : Option (ActiveTag τ))
    (pending : List Char) : Settled (drain specs active pending).2 := by
  have again := drain_append specs flat active pending []
  simp only [append_nil, resume] at again
  unfold Settled
  rw [drain_specs]
  have silent := StreamTextChunk.eq_empty_of_append_eq (congrArg Prod.fst again).symm
  exact Prod.ext silent (congrArg Prod.snd again).symm

open InlineHiddenTagParser

theorem feed_eq_pushStr (chunks : List (List Char)) (parser : InlineHiddenTagParser τ)
    (flat : NoNesting parser.specs) (settled : Settled parser) :
    parser.feed chunks = parser.pushStr chunks.flatten := by
  induction chunks generalizing parser with
  | nil =>
    rw [pushStr, flatten_nil, append_nil, settled]
    rfl
  | cons chunk chunks ih =>
    have specs : (parser.pushStr chunk).2.specs = parser.specs := drain_specs ..
    have rest := ih (parser.pushStr chunk).2 (specs ▸ flat) (drain_settled _ flat _ _)
    have whole : parser.pushStr (chunk ++ chunks.flatten) =
        resume parser.specs (parser.pushStr chunk) chunks.flatten := by
      rw [pushStr, ← append_assoc, drain_append _ flat]
      rfl
    have moved : (parser.pushStr chunk).2.pushStr chunks.flatten =
        drain parser.specs (parser.pushStr chunk).2.active
          ((parser.pushStr chunk).2.pending ++ chunks.flatten) := by
      rw [pushStr, specs]
    rw [feed, rest, flatten_cons, whole, moved, resume]

end OpenInterpreter.InlineHiddenTag
