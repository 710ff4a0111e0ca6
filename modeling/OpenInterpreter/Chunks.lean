import Mathlib.Algebra.Order.Floor.Div

/-! A list cut into pieces of one size, the last of which may be shorter, or at a separator, and
fallible work on each item of a list. -/

namespace OpenInterpreter.Chunks

open List

variable {α : Type}

def pieces (size : Nat) : Nat → List α → List (List α)
  | 0, _ => []
  | count + 1, items => items.take size :: pieces size count (items.drop size)

def chunks (size : Nat) (items : List α) : List (List α) :=
  pieces size (items.length ⌈/⌉ size) items

@[simp]
theorem length_pieces (size count : Nat) (items : List α) :
    (pieces size count items).length = count := by
  induction count generalizing items with
  | zero => rfl
  | succ count ih => exact congrArg (· + 1) (ih _)

theorem flatten_pieces (size count : Nat) (items : List α) :
    (pieces size count items).flatten = items.take (size * count) := by
  induction count generalizing items with
  | zero => simp [pieces]
  | succ count ih =>
    rw [pieces, flatten_cons, ih, ← take_add]
    rw [Nat.mul_succ, Nat.add_comm]

@[simp]
theorem length_chunks (size : Nat) (items : List α) :
    (chunks size items).length = items.length ⌈/⌉ size :=
  length_pieces ..

theorem flatten_chunks {size : Nat} (positive : 0 < size) (items : List α) :
    (chunks size items).flatten = items := by
  rw [chunks, flatten_pieces, take_of_length_le]
  exact le_smul_ceilDiv positive

theorem chunks_halves {size : Nat} (positive : 0 < size) (item : α) :
    chunks size (replicate (2 * size) item) = [replicate size item, replicate size item] := by
  have count : 2 * size ⌈/⌉ size = 2 := by
    rw [Nat.ceilDiv_eq_add_pred_div]
    apply Nat.div_eq_of_lt_le <;> omega
  have rest : 2 * size - size = size := by omega
  rw [chunks, length_replicate, count]
  simp [pieces, take_replicate, drop_replicate, rest, Nat.le_mul_of_pos_left]

theorem mapM_ok {ε β : Type} {work : α → Except ε β} {value : α → β} {items : List α}
    (succeeds : ∀ item ∈ items, work item = .ok (value item)) :
    items.mapM work = .ok (items.map value) := by
  induction items with
  | nil => rfl
  | cons item items ih =>
    obtain ⟨first, rest⟩ := forall_mem_cons.mp succeeds
    rw [mapM_cons, first, ih rest]
    rfl

theorem mem_splitOn [DecidableEq α] {separator : α} {items part : List α}
    (member : part ∈ items.splitOn separator) : separator ∉ part ∧ part ⊆ items := by
  induction items generalizing part with
  | nil => simp_all
  | cons first rest ih =>
    rw [splitOn_cons_eq_if_modifyHead] at member
    cases shape : rest.splitOn separator with
    | nil => exact absurd shape (splitOn_ne_nil _ _)
    | cons head tail =>
      rw [shape] at member ih
      have start := ih mem_cons_self
      split at member
      · rcases mem_cons.mp member with rfl | later
        · simp
        · exact ⟨(ih later).1, subset_cons_of_subset _ (ih later).2⟩
      · rename_i other
        rcases mem_cons.mp member with rfl | later
        · have apart : separator ≠ first := by
            rintro rfl
            simp at other
          exact ⟨by simp [apart, start.1], cons_subset_cons _ start.2⟩
        · have tails := ih (mem_cons_of_mem _ later)
          exact ⟨tails.1, subset_cons_of_subset _ tails.2⟩

end OpenInterpreter.Chunks
