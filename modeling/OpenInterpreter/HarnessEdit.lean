import OpenInterpreter.TextSearch
import OpenInterpreter.ListRegions

/-! The text that `handle_edit` of `harness_aliases.rs` makes of a file, and when a list of edits
does what the tool's description says: match each old text against the original file. -/

namespace OpenInterpreter.HarnessEdit

open TextSearch ListRegions List

structure EditReplacement where
  oldText : List Char
  newText : List Char
  deriving DecidableEq

structure EditArgs where
  path : List Char
  oldString : Option (List Char)
  newString : Option (List Char)
  edits : List EditReplacement
  replaceAll : Bool
  deriving DecidableEq

def editReplacements (args : EditArgs) : Except String (List EditReplacement) :=
  if args.edits ≠ [] then .ok args.edits
  else
    match args.oldString, args.newString with
    | none, _ => .error "Edit failed: missing old_string"
    | some _, none => .error "Edit failed: missing new_string"
    | some oldText, some newText => .ok [⟨oldText, newText⟩]

/-- `matches(needle).count()`: matches do not overlap, so the rest of one is skipped. -/
def countMatches (needle : List Char) : List Char → Nat → Nat
  | [], _ => if needle = [] then 1 else 0
  | _ :: rest, skip + 1 => countMatches needle rest skip
  | ch :: rest, 0 =>
    if needle.isPrefixOf (ch :: rest) then 1 + countMatches needle rest (needle.length - 1)
    else countMatches needle rest 0

def replaceMatches (needle new : List Char) : List Char → Nat → List Char
  | [], _ => if needle = [] then new else []
  | _ :: rest, skip + 1 => replaceMatches needle new rest skip
  | ch :: rest, 0 =>
    if needle.isPrefixOf (ch :: rest) then
      new ++ (if needle = [] then [ch] else []) ++ replaceMatches needle new rest (needle.length - 1)
    else ch :: replaceMatches needle new rest 0

def replaceFirst (needle new text : List Char) : List Char :=
  match find needle text with
  | some position => text.take position ++ new ++ text.drop (position + needle.length)
  | none => text

def notFound : String := "Edit failed: old_string not found"

def foundMultiple : String :=
  "Edit failed: old_string found multiple times; set replace_all to true or provide more context"

variable (text : List Char)

/-- One turn of the loop: matches are counted in the original text, and replaced in the updated. -/
def applyEdit (replaceAll : Bool) (state : List Char × Nat)
    (edit : EditReplacement) : Except String (List Char × Nat) :=
  let count := countMatches edit.oldText text 0
  if count = 0 then .error notFound
  else if 1 < count ∧ replaceAll = false then .error foundMultiple
  else
    .ok (if replaceAll then replaceMatches edit.oldText edit.newText state.1 0
      else replaceFirst edit.oldText edit.newText state.1, state.2 + count)

def applyEdits (args : EditArgs) : Except String (List Char × Nat) := do
  let replacements ← editReplacements args
  replacements.foldlM (applyEdit text args.replaceAll) (text, 0)

/-- The outcome of `std::fs::write`: a failed write has an error and leaves something in the file,
for the file is truncated before the text is written. -/
inductive WriteOutcome where
  | written
  | failed (error : String) (left : List Char)
  deriving DecidableEq

/-- `handle_edit` on a file that holds `contents`: its answer, with the number of matches, and what
the file holds afterwards. `refusal` is the message of a check that comes before the text is read,
or of the failure to read it. -/
def handleEdit (refusal : Option String) (write : WriteOutcome) (contents : List Char)
    (args : EditArgs) : Except String Nat × List Char :=
  match refusal with
  | some message => (.error message, contents)
  | none =>
    match applyEdits contents args with
    | .error message => (.error message, contents)
    | .ok (updated, total) =>
      match write with
      | .written => (.ok total, updated)
      | .failed error left => (.error ("Edit failed: " ++ error), left)

structure PlacedEdit extends EditReplacement where
  start : Nat
  deriving DecidableEq

def PlacedEdit.region (edit : PlacedEdit) : Region Char :=
  ⟨edit.start, edit.oldText.length, edit.newText⟩

/-- Each old text occurs once in the text, also with overlaps, and their regions are disjoint. -/
structure PlacedOn (edits : List EditReplacement) (placed : List PlacedEdit) : Prop where
  listed : placed.map PlacedEdit.toEditReplacement = edits
  once : ∀ edit ∈ placed, ∀ position, OccursAt edit.oldText text position ↔ position = edit.start
  separate : Separate (placed.map PlacedEdit.region)

def FoundInPlace (text : List Char) : List (Region Char) → List Char → List PlacedEdit → Prop
  | _, _, [] => True
  | done, updated, edit :: rest =>
    find edit.oldText updated = some (image text done edit.start) ∧
      FoundInPlace text (edit.region :: done) (replaceFirst edit.oldText edit.newText updated) rest

def MatchedOnOriginal (edits : List EditReplacement) (updated : List Char) : Prop :=
  ∃ placed, PlacedOn text edits placed ∧ FoundInPlace text [] text placed ∧
    ∀ order : List PlacedEdit, order.Perm placed →
      updated = replacedAll text (order.map PlacedEdit.region)

/-- With the edits before it replaced, an old text occurs nowhere before its own region. -/
def Uncaptured (text : List Char) : List (Region Char) → List PlacedEdit → Prop
  | _, [] => True
  | done, edit :: rest =>
    (∀ position < image text done edit.start,
        ¬ OccursAt edit.oldText (replacedAll text done) position) ∧
      Uncaptured text (edit.region :: done) rest

variable (write : WriteOutcome)

/-- Some old text is not counted once; or the write succeeds, all occur once, apart from one another,
and no edit brings about an earlier occurrence of a later old text; or the write fails before it
changes the file. -/
def EditsClear (text : List Char) (edits : List EditReplacement) : Prop :=
  (∃ edit ∈ edits, countMatches edit.oldText text 0 ≠ 1) ∨
    match write with
    | .written => ∃ placed, PlacedOn text edits placed ∧ Uncaptured text [] placed
    | .failed _ left => left = text

variable {done : List (Region Char)}

section

variable {text : List Char} {edit : PlacedEdit}
  (occurs : OccursAt edit.oldText text edit.start) (nonempty : edit.oldText ≠ [])
  (within : ∀ region ∈ done, region.stop ≤ text.length) (separate : Separate (edit.region :: done))
include occurs nonempty within separate

theorem replacedAll_around :
    ∃ before after, before.length = image text done edit.start ∧
      replacedAll text done = before ++ (edit.oldText ++ after) ∧
      replacedAll text (edit.region :: done) = before ++ (edit.newText ++ after) := by
  have inside : edit.region.stop ≤ text.length := occurs.bound nonempty
  obtain ⟨positive, apart, others⟩ := Separate.cons_iff.mp separate
  have apartSorted : ∀ next ∈ sorted done,
      edit.region.stop ≤ next.start ∨ next.stop ≤ edit.region.start :=
    fun next member => apart next (mem_sorted.mp member)
  have sortedSeparate : Separate (edit.region :: sorted done) :=
    Separate.cons_iff.mpr ⟨positive, apartSorted, others.perm (perm_insertionSort _ done).symm⟩
  obtain ⟨after, plain, changed⟩ := replaced_orderedInsert inside (Nat.zero_le _)
    (others.inOrder within) sortedSeparate
  have slice : (text.take edit.region.stop).drop edit.region.start = edit.oldText := by
    have starts := prefix_iff_eq_take.mp occurs
    rw [drop_take]
    change (text.drop edit.start).take (edit.start + edit.oldText.length - edit.start) = _
    rw [Nat.add_sub_cancel_left]
    exact starts.symm
  rw [slice] at plain
  exact ⟨_, after, rfl, plain, changed⟩

theorem replaceFirst_in_place
    (found : find edit.oldText (replacedAll text done) = some (image text done edit.start)) :
    replaceFirst edit.oldText edit.newText (replacedAll text done) =
      replacedAll text (edit.region :: done) := by
  obtain ⟨before, after, length, plain, changed⟩ :=
    replacedAll_around occurs nonempty within separate
  rw [replaceFirst, found, changed, plain, ← length]
  simp only [take_left', append_assoc]
  simp

theorem found_in_place_iff :
    find edit.oldText (replacedAll text done) = some (image text done edit.start) ↔
      ∀ position < image text done edit.start,
        ¬ OccursAt edit.oldText (replacedAll text done) position := by
  rw [find_eq_some_iff _ nonempty]
  refine and_iff_right ?_
  obtain ⟨before, after, length, plain, -⟩ := replacedAll_around occurs nonempty within separate
  rw [← length, plain, OccursAt, drop_left]
  exact prefix_append _ _

end

variable {text : List Char} {args : EditArgs}

theorem stop_of_once {edit : PlacedEdit} (nonempty : edit.oldText ≠ [])
    (once : ∀ position, OccursAt edit.oldText text position ↔ position = edit.start) :
    edit.region.stop ≤ text.length :=
  ((once edit.start).mpr rfl).bound nonempty

def inTurn (edits : List EditReplacement) (text : List Char) : List Char :=
  edits.foldl (fun updated edit => replaceFirst edit.oldText edit.newText updated) text

variable {placed : List PlacedEdit}

section

theorem foundInPlace_iff
    (once : ∀ edit ∈ placed, ∀ position, OccursAt edit.oldText text position ↔ position = edit.start)
    (nonempty : ∀ edit ∈ placed, edit.oldText ≠ [])
    (within : ∀ region ∈ done, region.stop ≤ text.length)
    (separate : Separate ((placed.map PlacedEdit.region).reverse ++ done)) :
    (FoundInPlace text done (replacedAll text done) placed ↔ Uncaptured text done placed) ∧
      (Uncaptured text done placed →
        inTurn (placed.map PlacedEdit.toEditReplacement) (replacedAll text done) =
          replacedAll text ((placed.map PlacedEdit.region).reverse ++ done)) := by
  induction placed generalizing done with
  | nil => exact ⟨Iff.rfl, fun _ => rfl⟩
  | cons edit placed ih =>
    obtain ⟨here, others⟩ := forall_mem_cons.mp once
    obtain ⟨solid, solids⟩ := forall_mem_cons.mp nonempty
    have listed : ((edit :: placed).map PlacedEdit.region).reverse ++ done =
        (placed.map PlacedEdit.region).reverse ++ (edit.region :: done) := by
      rw [map_cons, reverse_cons, append_assoc, singleton_append]
    rw [listed] at separate ⊢
    have occurs := (here edit.start).mpr rfl
    have own := separate.sublist (sublist_append_right _ _)
    have bounds : ∀ region ∈ edit.region :: done, region.stop ≤ text.length :=
      forall_mem_cons.mpr ⟨stop_of_once solid here, within⟩
    obtain ⟨found, turned⟩ := ih others solids bounds separate
    have step := replaceFirst_in_place occurs solid within own
    have clear := found_in_place_iff occurs solid within own
    constructor
    · constructor
      · rintro ⟨first, rest⟩
        rw [step first] at rest
        exact ⟨clear.mp first, found.mp rest⟩
      · rintro ⟨first, rest⟩
        refine ⟨clear.mpr first, ?_⟩
        rw [step (clear.mpr first)]
        exact found.mpr rest
    · rintro ⟨first, rest⟩
      have later := turned rest
      rw [← step (clear.mpr first)] at later
      exact later

end

theorem foldlM_applyEdit (text : List Char) (edits : List EditReplacement)
    (state : List Char × Nat) :
    ((∃ edit ∈ edits, countMatches edit.oldText text 0 ≠ 1) →
        ∃ message, edits.foldlM (applyEdit text false) state = .error message) ∧
      ((∀ edit ∈ edits, countMatches edit.oldText text 0 = 1) →
        edits.foldlM (applyEdit text false) state =
          .ok (inTurn edits state.1, state.2 + edits.length)) := by
  induction edits generalizing state with
  | nil => exact ⟨nofun, fun _ => rfl⟩
  | cons edit edits ih =>
    rw [foldlM_cons]
    constructor
    · intro wrong
      by_cases here : countMatches edit.oldText text 0 = 1
      · have step : applyEdit text false state edit =
            .ok (replaceFirst edit.oldText edit.newText state.1, state.2 + 1) := by
          simp [applyEdit, here]
        obtain ⟨other, member, count⟩ := wrong
        have further : other ∈ edits := by
          rcases mem_cons.mp member with rfl | further
          · exact absurd here count
          · exact further
        rw [step]
        exact (ih _).1 ⟨other, further, count⟩
      · by_cases none : countMatches edit.oldText text 0 = 0
        · exact ⟨notFound, by simp [applyEdit, none, bind, Except.bind]⟩
        · have several : 1 < countMatches edit.oldText text 0 := by omega
          exact ⟨foundMultiple, by simp [applyEdit, none, several, bind, Except.bind]⟩
    · intro counts
      obtain ⟨here, later⟩ := forall_mem_cons.mp counts
      have step : applyEdit text false state edit =
          .ok (replaceFirst edit.oldText edit.newText state.1, state.2 + 1) := by
        simp [applyEdit, here]
      rw [step]
      change edits.foldlM (applyEdit text false) _ = _
      rw [(ih _).2 later, length_cons]
      simp only [inTurn, foldl_cons]
      rw [Nat.add_assoc, Nat.add_comm 1]

variable {contents : List Char} {edits : List EditReplacement}

theorem handleEdit_counted (listed : editReplacements args = .ok edits)
    (single : args.replaceAll = false)
    (counts : ∀ edit ∈ edits, countMatches edit.oldText contents 0 = 1) :
    handleEdit none write contents args =
      match write with
      | .written => (.ok edits.length, inTurn edits contents)
      | .failed error left => (.error ("Edit failed: " ++ error), left) := by
  have loop := (foldlM_applyEdit contents edits (contents, 0)).2 counts
  have applied : applyEdits contents args = .ok (inTurn edits contents, edits.length) := by
    rw [applyEdits, listed, single]
    exact loop.trans (by rw [Nat.zero_add])
  rw [handleEdit, applied]

theorem handleEdit_miscounted (listed : editReplacements args = .ok edits)
    (single : args.replaceAll = false)
    (wrong : ∃ edit ∈ edits, countMatches edit.oldText contents 0 ≠ 1) :
    ∃ message, handleEdit none write contents args = (.error message, contents) := by
  obtain ⟨message, loop⟩ := (foldlM_applyEdit contents edits (contents, 0)).1 wrong
  have refused : applyEdits contents args = .error message := by
    rw [applyEdits, listed, single]
    exact loop
  exact ⟨message, by rw [handleEdit, refused]⟩

theorem PlacedOn.nonempty (on : PlacedOn text edits placed) :
    ∀ edit ∈ placed, edit.oldText ≠ [] := by
  intro edit member empty
  have positive := on.separate.positive _ (mem_map_of_mem member)
  rw [PlacedEdit.region, empty] at positive
  cases positive

theorem inTurn_placed (on : PlacedOn text edits placed) :
    (FoundInPlace text [] text placed ↔ Uncaptured text [] placed) ∧
      (Uncaptured text [] placed → ∀ order : List PlacedEdit, order.Perm placed →
        inTurn edits text = replacedAll text (order.map PlacedEdit.region)) := by
  have reversed : ((placed.map PlacedEdit.region).reverse ++ []).Perm
      (placed.map PlacedEdit.region) := by
    rw [append_nil]
    exact reverse_perm _
  have separate := on.separate.perm reversed.symm
  obtain ⟨found, turned⟩ := foundInPlace_iff on.once on.nonempty (forall_mem_nil _) separate
  refine ⟨found, fun uncaptured order same => ?_⟩
  have all := turned uncaptured
  rw [on.listed] at all
  calc
    inTurn edits text = replacedAll text ((placed.map PlacedEdit.region).reverse ++ []) := all
    _ = replacedAll text (order.map PlacedEdit.region) := by
      rw [replacedAll, replacedAll,
        sorted_perm separate (reversed.trans (same.map PlacedEdit.region).symm)]

theorem kept_iff_unrefused {contents : List Char} {args : EditArgs} :
    (∀ refusal message kept, handleEdit refusal write contents args = (.error message, kept) →
        kept = contents) ↔
      ∀ message kept, handleEdit none write contents args = (.error message, kept) →
        kept = contents := by
  constructor
  · exact fun always => always none
  · rintro unrefused (- | refusal) message kept failed
    · exact unrefused message kept failed
    · cases failed
      rfl

/-- A list of edits is matched against the original file, and else refused with the file left as it
was, exactly when it is clear. -/
theorem multi_edit_matched_iff (write : WriteOutcome) (contents : List Char) (args : EditArgs)
    (edits : List EditReplacement) (listed : editReplacements args = .ok edits)
    (single : args.replaceAll = false) :
    ((∀ total updated, handleEdit none write contents args = (.ok total, updated) →
          MatchedOnOriginal contents edits updated) ∧
        ∀ refusal message kept, handleEdit refusal write contents args = (.error message, kept) →
          kept = contents) ↔
      EditsClear write contents edits := by
  rw [kept_iff_unrefused]
  by_cases counts : ∀ edit ∈ edits, countMatches edit.oldText contents 0 = 1
  · rw [handleEdit_counted write listed single counts]
    have counted : ¬ ∃ edit ∈ edits, countMatches edit.oldText contents 0 ≠ 1 :=
      fun ⟨edit, member, wrong⟩ => wrong (counts edit member)
    cases write with
    | written =>
      constructor
      · rintro ⟨matched, -⟩
        obtain ⟨placed, on, found, -⟩ := matched _ _ rfl
        exact .inr ⟨placed, on, (inTurn_placed on).1.mp found⟩
      · intro clear
        obtain ⟨placed, on, uncaptured⟩ := clear.resolve_left counted
        obtain ⟨found, turned⟩ := inTurn_placed on
        refine ⟨?_, nofun⟩
        rintro total updated ⟨⟩
        exact ⟨placed, on, found.mpr uncaptured, turned uncaptured⟩
    | failed error left =>
      constructor
      · rintro ⟨-, unchanged⟩
        exact .inr (unchanged _ _ rfl)
      · intro clear
        refine ⟨nofun, ?_⟩
        rintro message kept ⟨⟩
        exact clear.resolve_left counted
  · push Not at counts
    obtain ⟨answer, result⟩ := handleEdit_miscounted write listed single counts
    rw [result]
    refine iff_of_true ⟨nofun, ?_⟩ (.inl counts)
    rintro message kept ⟨⟩
    rfl

def rotateArgs : EditArgs where
  path := "f".toList
  oldString := none
  newString := none
  edits := [⟨['c'], ['a']⟩, ⟨['a'], ['x']⟩]
  replaceAll := false

theorem rotated_letters_matched :
    handleEdit none .written ['a', 'b', 'c'] rotateArgs = (.ok 2, ['x', 'b', 'a']) ∧
      MatchedOnOriginal ['a', 'b', 'c'] rotateArgs.edits ['x', 'b', 'a'] := by
  have done : handleEdit none .written ['a', 'b', 'c'] rotateArgs = (.ok 2, ['x', 'b', 'a']) := by
    decide +kernel
  refine ⟨done, ((multi_edit_matched_iff .written ['a', 'b', 'c'] rotateArgs rotateArgs.edits rfl
    rfl).mpr ?_).1 2 ['x', 'b', 'a'] done⟩
  have letter (ch : Char) (start : Nat) (short : start < 3)
      (only : ∀ position < 3, [ch] <+: ['a', 'b', 'c'].drop position ↔ position = start)
      (position : Nat) : OccursAt [ch] ['a', 'b', 'c'] position ↔ position = start := by
    by_cases inside : position < 3
    · exact only position inside
    · refine ⟨fun occurs => ?_, fun same => by omega⟩
      have bound : position + 1 ≤ 3 := occurs.bound (cons_ne_nil _ _)
      omega
  refine Or.inr ⟨[⟨⟨['c'], ['a']⟩, 2⟩, ⟨⟨['a'], ['x']⟩, 0⟩], ⟨rfl, ?_, ?_⟩, ?_, ?_, trivial⟩
  · refine forall_mem_cons.mpr ⟨letter 'c' 2 (by decide) (by decide), ?_⟩
    exact forall_mem_singleton.mpr (letter 'a' 0 (by decide) (by decide))
  · exact ⟨by decide, by decide⟩
  · show ∀ position < 2, ¬ ['c'] <+: ['a', 'b', 'c'].drop position
    decide
  · nofun

/-- The second edit meets the letter that the first one put in. -/
theorem inserted_letter_captured :
    handleEdit none .written ['a', 'b']
        ⟨['f'], none, none, [⟨['a'], ['b']⟩, ⟨['b'], ['c']⟩], false⟩ = (.ok 2, ['c', 'b']) ∧
      replacedAll ['a', 'b'] [⟨0, 1, ['b']⟩, ⟨1, 1, ['c']⟩] = ['b', 'c'] := by
  decide +kernel

end OpenInterpreter.HarnessEdit
