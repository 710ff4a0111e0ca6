import Mathlib.Tactic

/-! Substring search in a text that arrives in pieces.

`find` gives the first occurrence of a needle. `suffixPrefixLen` is the length of the
longest end of a text that a needle could still start with; `find_drop` says that a text
searched without success may be cut down to that end before more is appended. -/

namespace OpenInterpreter.TextSearch

open List

section

variable {α : Type}

def OccursAt (needle text : List α) (position : Nat) : Prop := needle <+: text.drop position

variable {needle text : List α} {position : Nat}

theorem OccursAt.bound (nonempty : needle ≠ []) (occurs : OccursAt needle text position) :
    position + needle.length ≤ text.length := by
  have length := occurs.length_le
  have positive := length_pos_iff.mpr nonempty
  rw [length_drop] at length
  omega

theorem occursAt_append_of_le (more : List α) (inside : position + needle.length ≤ text.length) :
    OccursAt needle (text ++ more) position ↔ OccursAt needle text position := by
  unfold OccursAt
  rw [drop_append_of_le_length (by omega)]
  constructor
  · intro occurs
    exact prefix_of_prefix_length_le occurs (prefix_append _ _)
      (by rw [length_drop]; omega)
  · intro occurs
    exact occurs.trans (prefix_append _ _)

theorem straddle_prefix {more : List α} (inside : position ≤ text.length)
    (beyond : text.length < position + needle.length)
    (occurs : OccursAt needle (text ++ more) position) : text.drop position <+: needle := by
  unfold OccursAt at occurs
  rw [drop_append_of_le_length inside] at occurs
  refine prefix_of_prefix_length_le (prefix_append _ more) occurs ?_
  rw [length_drop]
  omega

theorem occursAt_drop (needle text : List α) (dropped position : Nat) :
    OccursAt needle (text.drop dropped) position ↔ OccursAt needle text (dropped + position) := by
  rw [OccursAt, OccursAt, drop_drop]

end

variable {α : Type} [DecidableEq α]

def find (needle : List α) : List α → Option Nat
  | [] => if needle = [] then some 0 else none
  | head :: tail =>
    if needle.isPrefixOf (head :: tail) then some 0 else (find needle tail).map (· + 1)

def suffixPrefixLen (text needle : List α) : Nat :=
  Nat.findGreatest (fun length => needle.take length <:+ text)
    (min text.length (needle.length - 1))

theorem suffixPrefixLen_suffix (text needle : List α) :
    needle.take (suffixPrefixLen text needle) <:+ text := by
  have zero : needle.take 0 <:+ text := nil_suffix
  exact Nat.findGreatest_spec (P := fun length => needle.take length <:+ text)
    (Nat.zero_le _) zero

variable {needle : List α}

theorem find_eq_some_iff (text : List α) (nonempty : needle ≠ []) (position : Nat) :
    find needle text = some position ↔
      OccursAt needle text position ∧ ∀ earlier < position, ¬ OccursAt needle text earlier := by
  induction text generalizing position with
  | nil => simp [find, nonempty, OccursAt]
  | cons head tail ih =>
    unfold find
    by_cases here : needle.isPrefixOf (head :: tail)
    · have occurs : OccursAt needle (head :: tail) 0 := isPrefixOf_iff_prefix.mp here
      rw [if_pos here]
      constructor
      · intro found
        cases found
        exact ⟨occurs, fun earlier before => absurd before (Nat.not_lt_zero _)⟩
      · rintro ⟨-, first⟩
        cases position with
        | zero => rfl
        | succ position => exact absurd occurs (first 0 (Nat.succ_pos _))
    · have absent : ¬ OccursAt needle (head :: tail) 0 :=
        fun occurs => here (List.isPrefixOf_iff_prefix.mpr occurs)
      rw [if_neg here, Option.map_eq_some_iff]
      constructor
      · rintro ⟨shifted, found, rfl⟩
        obtain ⟨occurs, first⟩ := (ih shifted).mp found
        refine ⟨occurs, fun earlier before => ?_⟩
        cases earlier with
        | zero => exact absent
        | succ earlier => exact first earlier (by omega)
      · rintro ⟨occurs, first⟩
        cases position with
        | zero => exact absurd occurs absent
        | succ position =>
          refine ⟨position, (ih position).mpr ⟨occurs, fun earlier before => ?_⟩, rfl⟩
          exact first (earlier + 1) (by omega)

theorem find_eq_none_iff (text : List α) (nonempty : needle ≠ []) :
    find needle text = none ↔ ∀ position, ¬ OccursAt needle text position := by
  constructor
  · intro missing position occurs
    classical
    have least := Nat.find_spec ⟨position, occurs⟩
    have found := (find_eq_some_iff text nonempty _).mpr
      ⟨least, fun earlier before => Nat.find_min ⟨position, occurs⟩ before⟩
    rw [missing] at found
    cases found
  · intro absent
    cases found : find needle text with
    | none => rfl
    | some position =>
      have occurs := ((find_eq_some_iff text nonempty position).mp found).1
      exact absurd occurs (absent position)

variable {text : List α} {position : Nat}

theorem find_bound (nonempty : needle ≠ []) (found : find needle text = some position) :
    position + needle.length ≤ text.length :=
  ((find_eq_some_iff text nonempty position).mp found).1.bound nonempty

theorem find_append (nonempty : needle ≠ []) (more : List α)
    (found : find needle text = some position) : find needle (text ++ more) = some position := by
  have bound := find_bound nonempty found
  obtain ⟨occurs, first⟩ := (find_eq_some_iff text nonempty position).mp found
  refine (find_eq_some_iff _ nonempty position).mpr
    ⟨(occursAt_append_of_le more bound).mpr occurs, fun earlier before => ?_⟩
  rw [occursAt_append_of_le more (by omega)]
  exact first earlier before

theorem suffixPrefixLen_le (text needle : List α) : suffixPrefixLen text needle ≤ text.length :=
  (Nat.findGreatest_le _).trans (min_le_left _ _)

theorem suffixPrefixLen_lt (text : List α) (nonempty : needle ≠ []) :
    suffixPrefixLen text needle < needle.length := by
  have bound : suffixPrefixLen text needle ≤ needle.length - 1 :=
    (Nat.findGreatest_le _).trans (min_le_right _ _)
  have positive := length_pos_iff.mpr nonempty
  omega

theorem le_suffixPrefixLen (starts : text.drop position <+: needle)
    (proper : text.length - position < needle.length) :
    text.length - position ≤ suffixPrefixLen text needle := by
  apply Nat.le_findGreatest
  · omega
  · have taken := prefix_iff_eq_take.mp starts
    rw [length_drop] at taken
    rw [← taken]
    exact drop_suffix _ _

theorem straddle_bound {more : List α} (nonempty : needle ≠ [])
    (missing : find needle text = none) (occurs : OccursAt needle (text ++ more) position) :
    text.length ≤ position + suffixPrefixLen text needle := by
  by_contra early
  have absent := (find_eq_none_iff text nonempty).mp missing position
  have beyond : text.length < position + needle.length := by
    by_contra inside
    exact absent ((occursAt_append_of_le more (by omega)).mp occurs)
  have starts := straddle_prefix (by omega) beyond occurs
  have reach := le_suffixPrefixLen starts (by omega)
  omega

/-- What an unsuccessful search may forget: with `dropped` entries cut from `text` and at
least the needle's reach kept, later searches give the same position, shifted. -/
theorem find_drop {dropped : Nat} (more : List α) (nonempty : needle ≠ [])
    (missing : find needle text = none)
    (kept : dropped + suffixPrefixLen text needle ≤ text.length) :
    find needle (text ++ more) =
      (find needle (text.drop dropped ++ more)).map (fun position => dropped + position) := by
  have same (position : Nat) : OccursAt needle (text.drop dropped ++ more) position ↔
      OccursAt needle (text ++ more) (dropped + position) := by
    rw [← occursAt_drop, drop_append_of_le_length (by omega)]
  cases found : find needle (text.drop dropped ++ more) with
  | none =>
    have absent := (find_eq_none_iff _ nonempty).mp found
    refine (find_eq_none_iff _ nonempty).mpr fun position occurs => ?_
    have late := straddle_bound nonempty missing occurs
    have shifted := (same (position - dropped)).mpr (by
      rw [Nat.add_sub_cancel' (by omega)]
      exact occurs)
    exact absent _ shifted
  | some position =>
    obtain ⟨occurs, first⟩ := (find_eq_some_iff _ nonempty position).mp found
    refine (find_eq_some_iff _ nonempty _).mpr ⟨(same position).mp occurs, ?_⟩
    intro earlier before present
    have late := straddle_bound nonempty missing present
    change earlier < dropped + position at before
    refine first (earlier - dropped) (by omega) ((same _).mpr ?_)
    rw [Nat.add_sub_cancel' (by omega)]
    exact present

theorem suffixPrefixLen_drop {dropped : Nat} (more : List α) (nonempty : needle ≠ [])
    (kept : dropped + suffixPrefixLen text needle ≤ text.length) :
    suffixPrefixLen (text ++ more) needle = suffixPrefixLen (text.drop dropped ++ more) needle := by
  apply le_antisymm
  · have suffix : needle.take (suffixPrefixLen (text ++ more) needle) <:+ text ++ more :=
      suffixPrefixLen_suffix _ _
    have proper := suffixPrefixLen_lt (text ++ more) nonempty
    have bound := suffixPrefixLen_le (text ++ more) needle
    generalize suffixPrefixLen (text ++ more) needle = length at suffix proper bound
    have drops := suffix_iff_eq_drop.mp suffix
    rw [length_take, min_eq_left (by omega)] at drops
    rw [length_append] at bound drops
    -- a longer end would put more of the old text within the needle's reach
    have short : length ≤ text.length - dropped + more.length := by
      by_contra long
      have inside : text.length + more.length - length ≤ text.length := by omega
      rw [drop_append_of_le_length inside] at drops
      have starts : text.drop (text.length + more.length - length) <+: needle :=
        (prefix_append _ more).trans (drops ▸ take_prefix _ _)
      have reach := le_suffixPrefixLen starts (by omega)
      omega
    apply Nat.le_findGreatest
    · rw [length_append, length_drop]
      omega
    · rw [drops]
      rw [← drop_append_of_le_length (by omega)]
      refine suffix_of_suffix_length_le (drop_suffix _ _) (drop_suffix _ _) ?_
      simp only [length_drop]
      omega
  · apply Nat.le_findGreatest
    · have bound := suffixPrefixLen_le (text.drop dropped ++ more) needle
      have proper := suffixPrefixLen_lt (text.drop dropped ++ more) nonempty
      rw [length_append, length_drop] at bound
      rw [length_append]
      omega
    · refine (suffixPrefixLen_suffix _ _).trans ?_
      rw [← drop_append_of_le_length (by omega)]
      exact drop_suffix _ _

end OpenInterpreter.TextSearch
