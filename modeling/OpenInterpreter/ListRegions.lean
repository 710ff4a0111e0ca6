import Mathlib.Data.List.Sort
import Mathlib.Tactic

/-! Regions of a list and what the list becomes when each is replaced. -/

namespace OpenInterpreter.ListRegions

open List

structure Region (α : Type) where
  start : Nat
  length : Nat
  content : List α
  deriving DecidableEq

namespace Region

variable {α β : Type}

def stop (region : Region α) : Nat := region.start + region.length

def covers (region : Region α) (index : Nat) : Prop :=
  region.start ≤ index ∧ index < region.stop

theorem start_le_stop (region : Region α) : region.start ≤ region.stop := Nat.le_add_right _ _

def map (change : α → β) (region : Region α) : Region β :=
  ⟨region.start, region.length, region.content.map change⟩

end Region

variable {α β : Type}

def InOrder (bound : Nat) : Nat → List (Region α) → Prop
  | index, [] => index ≤ bound
  | index, region :: regions => index ≤ region.start ∧ InOrder bound region.stop regions

def replaced (items : List α) : Nat → List (Region α) → List α
  | index, [] => items.drop index
  | index, region :: regions =>
    (items.take region.start).drop index ++ (region.content ++ replaced items region.stop regions)

variable {bound index first : Nat} {regions left right : List (Region α)} {region : Region α}
    {items : List α}

theorem InOrder.le (ordered : InOrder bound index regions) : index ≤ bound := by
  induction regions generalizing index with
  | nil => exact ordered
  | cons region regions ih =>
    calc
      index ≤ region.start := ordered.1
      _ ≤ region.stop := region.start_le_stop
      _ ≤ bound := ih ordered.2

theorem InOrder.mono {second : Nat} (ordered : InOrder bound second regions)
    (before : first ≤ second) : InOrder bound first regions := by
  cases regions with
  | nil => exact before.trans ordered
  | cons region regions => exact ⟨before.trans ordered.1, ordered.2⟩

theorem InOrder.append {middle : Nat} (first : InOrder middle index left)
    (second : InOrder bound middle right) : InOrder bound index (left ++ right) := by
  induction left generalizing index with
  | nil => exact second.mono first
  | cons region left ih => exact ⟨first.1, ih first.2⟩

theorem InOrder.mem (ordered : InOrder bound index regions) (member : region ∈ regions) :
    index ≤ region.start ∧ region.stop ≤ bound := by
  induction regions generalizing index with
  | nil => cases member
  | cons first regions ih =>
    rcases mem_cons.mp member with rfl | later
    · exact ⟨ordered.1, ordered.2.le⟩
    · have inside := ih ordered.2 later
      have front := first.start_le_stop
      have start := ordered.1
      exact ⟨by omega, inside.2⟩

theorem inOrder_iff_pairwise (bound index : Nat) (regions : List (Region α)) :
    InOrder bound index regions ↔
      index ≤ bound ∧ (∀ region ∈ regions, index ≤ region.start ∧ region.stop ≤ bound) ∧
        regions.Pairwise (fun left right => left.stop ≤ right.start) := by
  induction regions generalizing index with
  | nil => simp [InOrder]
  | cons region regions ih =>
    rw [InOrder, ih, pairwise_cons, forall_mem_cons]
    have front := region.start_le_stop
    constructor
    · rintro ⟨start, stop, inside, apart⟩
      refine ⟨by omega, ⟨⟨start, stop⟩, ?_⟩, fun next member => (inside next member).1, apart⟩
      intro next member
      have later := inside next member
      exact ⟨by omega, later.2⟩
    · rintro ⟨-, ⟨⟨start, stop⟩, inside⟩, behind, apart⟩
      exact ⟨start, stop, fun next member => ⟨behind next member, (inside next member).2⟩, apart⟩

section

variable {ι : Type} {start stop : ι → Nat} {items : List ι}
  (forwards : ∀ item, start item ≤ stop item)
include forwards

theorem orderedInsert_apart {item : ι}
    (apart : ∀ next ∈ items,
      stop item ≤ start next ∨ (stop next ≤ start item ∧ start next < start item))
    (sorted : items.Pairwise (fun left right => stop left ≤ start right)) :
    (items.orderedInsert (fun left right => start left ≤ start right) item).Pairwise
      (fun left right => stop left ≤ start right) := by
  induction items with
  | nil => exact pairwise_singleton _ _
  | cons first items ih =>
    obtain ⟨front, back⟩ := pairwise_cons.mp sorted
    obtain ⟨here, later⟩ := forall_mem_cons.mp apart
    have forward := forwards first
    rw [orderedInsert]
    split
    · refine pairwise_cons.mpr ⟨forall_mem_cons.mpr ⟨?_, ?_⟩, sorted⟩
      · omega
      · intro next member
        have behind := front next member
        omega
    · refine pairwise_cons.mpr ⟨?_, ih later back⟩
      intro next member
      rcases (mem_orderedInsert _).mp member with rfl | inside
      · have itself := forwards next
        omega
      · exact front next inside

theorem insertionSort_apart
    (apart : items.Pairwise (fun left right =>
      stop left ≤ start right ∨ (stop right ≤ start left ∧ start right < start left))) :
    (items.insertionSort (fun left right => start left ≤ start right)).Pairwise
      (fun left right => stop left ≤ start right) := by
  induction items with
  | nil => exact List.Pairwise.nil
  | cons item items ih =>
    obtain ⟨front, back⟩ := pairwise_cons.mp apart
    refine orderedInsert_apart forwards (fun next member => ?_) (ih back)
    exact front next ((mem_insertionSort _).mp member)

theorem insertionSort_sorted (sorted : items.Pairwise (fun left right => stop left ≤ start right)) :
    items.insertionSort (fun left right => start left ≤ start right) = items := by
  refine List.Pairwise.insertionSort_eq (sorted.imp fun {left right} behind => ?_)
  have forward := forwards left
  omega

end

theorem replaced_cons (front : index ≤ region.start) (inside : region.stop ≤ items.length) :
    let later := items.take region.stop ++ replaced items region.stop regions
    later.take region.start ++ region.content ++ later.drop region.stop =
      items.take index ++ replaced items index (region :: regions) := by
  intro later
  have forward := region.start_le_stop
  have length : (items.take region.stop).length = region.stop := length_take_of_le inside
  have kept : later.take region.start = items.take region.start := by
    rw [take_append_of_le_length (by omega), take_take, Nat.min_eq_left forward]
  have rest : later.drop region.stop = replaced items region.stop regions := by
    rw [drop_append_of_le_length (by omega), drop_eq_nil_of_le (by omega), nil_append]
  have split : items.take region.start =
      items.take index ++ (items.take region.start).drop index := by
    have whole := take_append_drop index (items.take region.start)
    rw [take_take, Nat.min_eq_left front] at whole
    exact whole.symm
  calc
    later.take region.start ++ region.content ++ later.drop region.stop =
        items.take region.start ++ region.content ++ replaced items region.stop regions := by
      rw [kept, rest]
    _ = items.take index ++ (items.take region.start).drop index ++ region.content ++
        replaced items region.stop regions := by rw [← split]
    _ = items.take index ++ replaced items index (region :: regions) := by
      rw [replaced]
      simp

theorem mem_replaced {item : α} (member : item ∈ replaced items index regions) :
    item ∈ items ∨ ∃ region ∈ regions, item ∈ region.content := by
  induction regions generalizing index with
  | nil => exact Or.inl (mem_of_mem_drop member)
  | cons region regions ih =>
    rw [replaced, mem_append, mem_append] at member
    rcases member with kept | here | later
    · exact Or.inl (mem_of_mem_take (mem_of_mem_drop kept))
    · exact Or.inr ⟨region, mem_cons_self, here⟩
    · rcases ih later with source | ⟨next, inside, content⟩
      · exact Or.inl source
      · exact Or.inr ⟨next, mem_cons_of_mem _ inside, content⟩

theorem mem_replaced_of_content {item : α} (inside : region ∈ regions)
    (content : item ∈ region.content) : item ∈ replaced items index regions := by
  induction regions generalizing index with
  | nil => cases inside
  | cons first regions ih =>
    rw [replaced, mem_append, mem_append]
    rcases mem_cons.mp inside with rfl | later
    · exact Or.inr (Or.inl content)
    · exact Or.inr (Or.inr (ih later))

structure Separate (regions : List (Region α)) : Prop where
  positive : ∀ region ∈ regions, 0 < region.length
  apart : regions.Pairwise (fun left right => left.stop ≤ right.start ∨ right.stop ≤ left.start)

def sorted (regions : List (Region α)) : List (Region α) :=
  regions.insertionSort (fun left right => left.start ≤ right.start)

def replacedAll (items : List α) (regions : List (Region α)) : List α :=
  replaced items 0 (sorted regions)

def image (items : List α) (regions : List (Region α)) (position : Nat) : Nat :=
  (replaced (items.take position) 0
    ((sorted regions).filter (fun region => region.stop ≤ position))).length

theorem mem_sorted : region ∈ sorted regions ↔ region ∈ regions := mem_insertionSort _

theorem Separate.cons_iff :
    Separate (region :: regions) ↔ 0 < region.length ∧
        (∀ next ∈ regions, region.stop ≤ next.start ∨ next.stop ≤ region.start) ∧
        Separate regions := by
  constructor
  · rintro ⟨positive, apart⟩
    obtain ⟨here, later⟩ := forall_mem_cons.mp positive
    obtain ⟨front, back⟩ := pairwise_cons.mp apart
    exact ⟨here, front, later, back⟩
  · rintro ⟨here, front, later, back⟩
    exact ⟨forall_mem_cons.mpr ⟨here, later⟩, pairwise_cons.mpr ⟨front, back⟩⟩

theorem Separate.perm (separate : Separate left) (same : left.Perm right) : Separate right := by
  constructor
  · intro region member
    exact separate.positive region (same.mem_iff.mpr member)
  · exact (same.pairwise_iff (fun {_ _} either => either.symm)).mp separate.apart

theorem Separate.sublist (separate : Separate right) (part : left.Sublist right) : Separate left :=
  ⟨fun region member => separate.positive region (part.subset member), separate.apart.sublist part⟩

theorem Separate.sorted_pairwise (separate : Separate regions) :
    (sorted regions).Pairwise (fun left right => left.stop ≤ right.start) := by
  refine insertionSort_apart Region.start_le_stop ?_
  refine separate.apart.imp_of_mem fun {left right} _ member either => ?_
  have positive := separate.positive right member
  have stop : right.stop = right.start + right.length := rfl
  omega

theorem Separate.inOrder (separate : Separate regions)
    (within : ∀ region ∈ regions, region.stop ≤ bound) : InOrder bound 0 (sorted regions) := by
  rw [inOrder_iff_pairwise]
  refine ⟨Nat.zero_le _, fun region member => ?_, separate.sorted_pairwise⟩
  exact ⟨Nat.zero_le _, within region (mem_sorted.mp member)⟩

theorem sorted_perm (separate : Separate left) (same : left.Perm right) :
    sorted left = sorted right := by
  have listed : (sorted left).Perm (sorted right) :=
    ((perm_insertionSort _ left).trans same).trans (perm_insertionSort _ right).symm
  refine listed.eq_of_pairwise ?_ separate.sorted_pairwise (separate.perm same).sorted_pairwise
  intro one two member _ before after
  have positive := separate.positive one (mem_sorted.mp member)
  have first : one.stop = one.start + one.length := rfl
  have second := two.start_le_stop
  omega

theorem slice_split (items : List α) {second third : Nat} (front : first ≤ second)
    (back : second ≤ third) :
    (items.take third).drop first =
      (items.take second).drop first ++ (items.take third).drop second := by
  have halves := take_append_drop (second - first) ((items.take third).drop first)
  rw [drop_drop, Nat.add_sub_cancel' front, ← drop_take, take_take, Nat.min_eq_left back] at halves
  exact halves.symm

theorem slice_around (items : List α) {region : Region α} {last : Nat}
    (front : first ≤ region.start) (back : region.stop ≤ last) :
    (items.take last).drop first = (items.take region.start).drop first ++
      ((items.take region.stop).drop region.start ++ (items.take last).drop region.stop) := by
  have forward := region.start_le_stop
  rw [slice_split items front (forward.trans back), slice_split items forward back]

theorem replaced_orderedInsert (inside : region.stop ≤ items.length) (front : index ≤ region.start)
    (ordered : InOrder items.length index regions) (separate : Separate (region :: regions)) :
    ∃ after, replaced items index regions = replaced (items.take region.start) index
            (regions.filter (fun next => next.stop ≤ region.start)) ++
          ((items.take region.stop).drop region.start ++ after) ∧
      replaced items index
          (regions.orderedInsert (fun left right => left.start ≤ right.start) region) =
        replaced (items.take region.start) index
            (regions.filter (fun next => next.stop ≤ region.start)) ++
          (region.content ++ after) := by
  induction regions generalizing index with
  | nil =>
    have whole := slice_around items front inside
    rw [take_length] at whole
    exact ⟨items.drop region.stop, whole, rfl⟩
  | cons first regions ih =>
    obtain ⟨positive, apart, rest⟩ := Separate.cons_iff.mp separate
    obtain ⟨here, later⟩ := forall_mem_cons.mp apart
    obtain ⟨own, -, others⟩ := Separate.cons_iff.mp rest
    have span : first.stop = first.start + first.length := rfl
    have itself : region.stop = region.start + region.length := rfl
    by_cases before : region.start ≤ first.start
    · have behind : region.stop ≤ first.start := by omega
      have none : (first :: regions).filter (fun next => next.stop ≤ region.start) = [] := by
        rw [filter_eq_nil_iff]
        intro next member
        have far : region.start < next.stop := by
          rcases mem_cons.mp member with rfl | further
          · omega
          · have order := (ordered.2.mem further).1
            have span := next.start_le_stop
            omega
        simpa using far
      refine ⟨(items.take first.start).drop region.stop ++
        (first.content ++ replaced items first.stop regions), ?_, ?_⟩
      · rw [none, replaced, replaced, slice_around items front behind]
        simp
      · rw [none, orderedInsert, if_pos before]
        rfl
    · have order : first.stop ≤ region.start := by omega
      have kept : (first :: regions).filter (fun next => next.stop ≤ region.start) =
          first :: regions.filter (fun next => next.stop ≤ region.start) :=
        filter_cons_of_pos (by simpa using order)
      have short : (items.take region.start).take first.start = items.take first.start := by
        rw [take_take, Nat.min_eq_left (by omega)]
      obtain ⟨after, plain, changed⟩ := ih order ordered.2
        (Separate.cons_iff.mpr ⟨positive, later, others⟩)
      refine ⟨after, ?_, ?_⟩
      · rw [kept, replaced, replaced, plain, short]
        simp
      · rw [kept, orderedInsert, if_neg before, replaced, replaced, changed, short]
        simp

end OpenInterpreter.ListRegions
