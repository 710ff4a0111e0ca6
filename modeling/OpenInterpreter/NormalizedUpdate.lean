import OpenInterpreter.SeekSequence

/-! Updates in the mode `NormalizeToLf`: which lines of a file they change. -/

namespace OpenInterpreter.NormalizedUpdate

open Text PatchParser FileUpdate ListRegions ChunkPlacement SeekSequence List

/-- The new text has the lines of the file with the lines of every chunk, where they were found,
replaced by its new lines. -/
structure TouchesOnly (originalLines : List (List Char)) (chunks : List UpdateFileChunk)
    (places : List Placement) (text : List Char) : Prop where
  matched : Forall₂ (Placement.Matches originalLines .normalizeToLf) chunks places
  disjoint : places.Pairwise (fun left right => left.stop ≤ right.start)
  lines : splitLf text = replaced originalLines 0 (places.map Placement.region)

/-- No window at the strictest level at which the pattern stands, from `first` on, starts in the
lines that are taken. -/
def NoneTaken (lines pattern : List (List Char)) (first taken : Nat) : Prop :=
  ∀ stricter key weaker, searchKeys = stricter ++ key :: weaker →
    (∀ other ∈ stricter, Absent other lines pattern first) →
      ∀ index, first ≤ index → index < taken → ¬ windowMatches key lines pattern index = true

/-- Where the search for a pattern starts; the search for no lines answers with its own start. -/
def lookedFrom (lines pattern : List (List Char)) (reached : Nat) (eof : Bool) : Nat :=
  if pattern = [] then reached else searchStart lines pattern reached eof .normalizeToLf

/-- A chunk that is looked for from `reached` on does not stand in the lines that are taken. One
without old lines is added at the end; one whose old lines do not stand in the file is looked for
without the last of them. -/
structure Free (lines : List (List Char)) (chunk : UpdateFileChunk) (reached taken : Nat) :
    Prop where
  added : chunk.oldLines = [] → taken ≤ insertionIdx lines .normalizeToLf
  whole : chunk.oldLines ≠ [] → Stands lines .normalizeToLf chunk reached →
    NoneTaken lines chunk.oldLines (lookedFrom lines chunk.oldLines reached chunk.isEndOfFile) taken
  cut : chunk.oldLines ≠ [] → ¬ Stands lines .normalizeToLf chunk reached →
    NoneTaken lines chunk.oldLines.dropLast
      (lookedFrom lines chunk.oldLines.dropLast reached chunk.isEndOfFile) taken

/-- No chunk stands in the lines taken before it, the new lines are lines, and the lines that are
asked for do not end in an empty one. -/
structure Clear (originalLines : List (List Char)) (chunks : List UpdateFileChunk)
    (places : List Placement) : Prop where
  free : EachChunk (Free originalLines) originalLines .normalizeToLf chunks 0 0
  plain : ∀ chunk ∈ chunks, ∀ line ∈ chunk.newLines, '\n' ∉ line
  ends : (replaced originalLines 0 (places.map Placement.region)).getLast? ≠ some []

section

variable {lines pattern : List (List Char)} {first taken reached index : Nat}

theorem noneTaken_of_le (behind : taken ≤ first) : NoneTaken lines pattern first taken := by
  intro stricter key weaker _ _ index front back
  omega

theorem noneTaken_of_earliest {stricter weaker : List (List Char → List Char)}
    {key : List Char → List Char} (keys : searchKeys = stricter ++ key :: weaker)
    (earliest : Earliest key lines pattern first index)
    (absent : ∀ other ∈ stricter, Absent other lines pattern first) (behind : taken ≤ index) :
    NoneTaken lines pattern first taken := by
  intro others level rest split none other front back matched
  -- the level is the one that answers, or one of the two is stricter than the other
  have stricter_or : key = level ∨ key ∈ others ∨ level ∈ stricter := by
    rcases append_eq_append_iff.mp (keys.symm.trans split) with ⟨between, rfl, tail⟩ |
      ⟨between, rfl, tail⟩
    all_goals cases between <;> cases tail <;> simp
  rcases stricter_or with rfl | weaker | above
  · have least := earliest.least other front matched
    omega
  · exact none key weaker index earliest.behind earliest.matched
  · exact absent level above other front matched

theorem found_behind_iff {eof : Bool}
    (found : seekSequence lines pattern reached eof .normalizeToLf = some index) :
    taken ≤ index ↔ NoneTaken lines pattern (lookedFrom lines pattern reached eof) taken := by
  by_cases empty : pattern = []
  · have same : reached = index := by simpa [seekSequence, empty] using found
    subst same
    rw [lookedFrom, if_pos empty]
    refine ⟨noneTaken_of_le, fun none => Nat.le_of_not_lt fun before => ?_⟩
    exact none [] id _ rfl (forall_mem_nil _) reached (Nat.le_refl _) before
      (by simp [windowMatches, empty])
  · rw [lookedFrom, if_neg empty]
    obtain ⟨stricter, key, weaker, keys, earliest, absent⟩ := (seekSequence_eq_some empty).mp found
    refine ⟨noneTaken_of_earliest keys earliest absent, fun none => Nat.le_of_not_lt fun before => ?_⟩
    exact none stricter key weaker keys absent index earliest.behind before earliest.matched

variable {chunk : UpdateFileChunk} {placement : Placement}

theorem place_behind_iff (placed : place lines .normalizeToLf chunk reached = some placement) :
    taken ≤ placement.start ↔ Free lines chunk reached taken := by
  by_cases empty : chunk.oldLines = []
  · rw [place, if_pos empty] at placed
    cases placed
    exact ⟨fun behind => ⟨fun _ => behind, fun some => absurd empty some,
      fun some => absurd empty some⟩, fun free => free.added empty⟩
  rcases place_cases empty placed with ⟨stands, -, found⟩ | ⟨absent, -, -, found⟩
  · rw [found_behind_iff found]
    exact ⟨fun none => ⟨fun blank => absurd blank empty, fun _ _ => none,
      fun _ absent => absurd stands absent⟩, fun free => free.whole empty stands⟩
  · rw [found_behind_iff found]
    exact ⟨fun none => ⟨fun blank => absurd blank empty, fun _ stands => absurd stands absent,
      fun _ _ => none⟩, fun free => free.cut empty absent⟩

variable {chunks : List UpdateFileChunk} {places : List Placement} {lineIndex : Nat}

theorem inOrder_iff_free (inside : lineIndex ≤ lines.length) (bounded : taken ≤ lines.length)
    (placed : placements lines .normalizeToLf chunks lineIndex = some places) :
    InOrder lines.length taken (places.map Placement.region) ↔
      EachChunk (Free lines) lines .normalizeToLf chunks lineIndex taken := by
  induction chunks generalizing lineIndex taken places with
  | nil =>
    cases placed
    exact ⟨fun _ => trivial, fun _ => bounded⟩
  | cons chunk chunks ih =>
    obtain ⟨reached, placement, later, moved, here, rest, rfl⟩ := placements_cons placed
    have bounds := contextIndex_spec inside moved
    obtain ⟨-, within, -⟩ := place_spec bounds.2 here
    rw [eachChunk_cons moved here, ← ih (indexBehind_le bounds.2 within) within rest,
      ← place_behind_iff here]
    rfl

/-- Chunks that have old lines and are not marked as the end of the file never stand in lines that
were taken before. -/
theorem free_of_plain (inside : lineIndex ≤ lines.length) (behind : taken ≤ lineIndex)
    (plain : ∀ chunk ∈ chunks, chunk.oldLines ≠ [] ∧ chunk.isEndOfFile = false) :
    EachChunk (Free lines) lines .normalizeToLf chunks lineIndex taken := by
  induction chunks generalizing lineIndex taken with
  | nil => trivial
  | cons chunk chunks ih =>
    obtain ⟨⟨nonempty, marked⟩, others⟩ := forall_mem_cons.mp plain
    intro reached moved
    have bounds := contextIndex_spec inside moved
    have start (pattern : List (List Char)) :
        lookedFrom lines pattern reached chunk.isEndOfFile = reached := by
      simp [lookedFrom, searchStart, marked]
    constructor
    · refine ⟨fun empty => absurd empty nonempty, fun _ _ => ?_, fun _ _ => ?_⟩
      all_goals
        rw [start]
        exact noneTaken_of_le (behind.trans bounds.1)
    · intro placement here
      obtain ⟨-, within, -⟩ := place_spec bounds.2 here
      refine ih (indexBehind_le bounds.2 within) ?_ others
      rw [indexBehind, if_neg nonempty]

end

theorem splitLf_eq (contents : List Char) :
    splitLf contents = withoutTrailing ((cutLines contents).1 ++ [(cutLines contents).2]) :=
  rfl

theorem splitLf_plain {contents : List Char} : ∀ line ∈ splitLf contents, '\n' ∉ line := by
  intro line member
  obtain ⟨plain, last⟩ := cutLines_plain contents
  have inside : line ∈ (cutLines contents).1 ++ [(cutLines contents).2] := by
    rw [splitLf_eq, withoutTrailing] at member
    split at member
    · exact mem_of_mem_dropLast member
    · exact member
  rcases mem_append.mp inside with front | back
  · exact plain line front
  · rw [mem_singleton.mp back]
    exact last

/-- The end of `derive_new_contents_from_chunks`. -/
def closed (lines : List (List Char)) : List (List Char) :=
  if lines.getLast? = some [] then lines else lines ++ [[]]

variable {lines : List (List Char)}

theorem splitLf_closed (plain : ∀ line ∈ lines, '\n' ∉ line) :
    splitLf (joinLines (closed lines)) = withoutTrailing lines := by
  have cut (front : List (List Char)) (free : ∀ line ∈ front, '\n' ∉ line) :
      splitLf (joinLines (front ++ [[]])) = front := by
    rw [splitLf_eq, joinLines_concat, cutLines_unlines front [] free not_mem_nil,
      withoutTrailing, if_pos getLast?_concat, dropLast_concat]
  rw [closed, withoutTrailing]
  split
  · rename_i ends
    have split := dropLast_append_getLast? [] ends
    nth_rewrite 1 [← split]
    exact cut _ fun line member => plain line (mem_of_mem_dropLast member)
  · exact cut lines plain

theorem withoutTrailing_self_iff (lines : List (List Char)) :
    withoutTrailing lines = lines ↔ lines.getLast? ≠ some [] := by
  rw [withoutTrailing]
  split
  · rename_i ends
    have nonempty : lines ≠ [] := by
      intro empty
      rw [empty] at ends
      cases ends
    refine ⟨fun same => ?_, fun other => absurd ends other⟩
    have length := congrArg List.length same
    have positive := length_pos_iff.mpr nonempty
    rw [length_dropLast] at length
    omega
  · rename_i other
    exact ⟨fun _ => other, fun _ => rfl⟩

def replacement (placement : Placement) : Replacement :=
  ⟨placement.start, placement.old.length, placement.new⟩

theorem pieces_normalized {originalLines : List (List Char)} {chunk : UpdateFileChunk} {index : Nat}
    {placement : Placement}
    (placed : place originalLines .normalizeToLf chunk index = some placement) :
    pieces .normalizeToLf chunk placement = .ok [replacement placement] := by
  rw [pieces]
  split
  · rename_i blank
    rw [place, if_pos blank] at placed
    cases placed
    rfl
  · rfl

variable {chunks : List UpdateFileChunk} {places : List Placement}

theorem zipWith_replacement (length : chunks.length = places.length) :
    (zipWith (fun _ placement => [replacement placement]) chunks places).flatten =
      places.map replacement := by
  induction chunks generalizing places with
  | nil =>
    rw [eq_nil_of_length_eq_zero length.symm]
    rfl
  | cons chunk chunks ih =>
    cases places with
    | nil => cases length
    | cons placement places =>
      rw [zipWith_cons_cons, flatten_cons, ih (Nat.succ.inj length)]
      rfl

theorem applyReplacements_inOrder {index : Nat}
    (ordered : InOrder lines.length index (places.map Placement.region)) :
    FileUpdate.applyReplacements lines (places.map replacement) =
      .ok (lines.take index ++ replaced lines index (places.map Placement.region)) := by
  induction places generalizing index with
  | nil =>
    have whole : lines.take index ++ replaced lines index [] = lines := take_append_drop index lines
    simp only [map_nil, whole]
    rfl
  | cons placement places ih =>
    have inside : placement.region.stop ≤ lines.length := ordered.2.le
    have forward := placement.region.start_le_stop
    let later := lines.take placement.region.stop ++
      replaced lines placement.region.stop (places.map Placement.region)
    have others : FileUpdate.applyReplacements lines (places.map replacement) = .ok later :=
      ih ordered.2
    have fits : ¬ (later.length < placement.region.start ∧ placement.new ≠ []) := by
      have length : placement.region.stop ≤ later.length := by
        rw [length_append, length_take_of_le inside]
        omega
      omega
    have step : later.take placement.region.start ++ placement.new ++
        later.drop placement.region.stop = lines.take index ++
            replaced lines index (placement.region :: places.map Placement.region) :=
      replaced_cons ordered.1 inside
    calc
      FileUpdate.applyReplacements lines ((placement :: places).map replacement) =
          (FileUpdate.applyReplacements lines (places.map replacement) >>= fun later =>
            if later.length < placement.region.start ∧ placement.new ≠ [] then
              .error .panicked
            else .ok (later.take placement.region.start ++ placement.new ++
              later.drop placement.region.stop)) := by
        rw [map_cons, FileUpdate.applyReplacements, foldrM_cons]
        rfl
      _ = .ok (later.take placement.region.start ++ placement.new ++
          later.drop placement.region.stop) := by
        rw [others]
        exact if_neg fits
      _ = _ := congrArg Except.ok step

section

variable {originalLines : List (List Char)}
  (disjoint : places.Pairwise (fun left right => left.stop ≤ right.start))
include disjoint

theorem inOrder_places (within : ∀ placement ∈ places, placement.stop ≤ originalLines.length) :
    InOrder originalLines.length 0 (places.map Placement.region) := by
  rw [inOrder_iff_pairwise]
  refine ⟨Nat.zero_le _, ?_, pairwise_map.mpr disjoint⟩
  intro region member
  obtain ⟨placement, source, rfl⟩ := mem_map.mp member
  exact ⟨Nat.zero_le _, within placement source⟩

theorem sorted_places :
    (places.map replacement).insertionSort (fun left right => left.start ≤ right.start) =
      places.map replacement := by
  have forwards (item : Replacement) : item.start ≤ item.start + item.oldLen := Nat.le_add_right _ _
  exact insertionSort_sorted forwards (pairwise_map.mpr disjoint)

end

variable {contents : List Char}

theorem derived_places {path text : List Char}
    (derived : deriveNewContents path chunks .normalizeToLf contents = .ok text) :
    ∃ places, placements (splitLf contents) .normalizeToLf chunks 0 = some places ∧
      ∃ lines, FileUpdate.applyReplacements (splitLf contents)
          ((places.map replacement).insertionSort (fun left right => left.start ≤ right.start)) =
            .ok lines ∧
        text = joinLines (closed lines) := by
  have sound : ∀ chunk ∈ chunks, ∀ index placement,
      place (splitLf contents) .normalizeToLf chunk index = some placement →
        pieces .normalizeToLf chunk placement = .ok [replacement placement] :=
    fun chunk _ index placement placed => pieces_normalized placed
  rcases collect_cases path chunks sound 0 with
    ⟨-, message, failed⟩ | ⟨places, placed, collected⟩
  · rw [deriveNewContents, computeReplacements, failed] at derived
    cases derived
  · have length := (placements_spec (Nat.zero_le _) placed).1.length_eq
    rw [zipWith_replacement length] at collected
    rw [deriveNewContents, computeReplacements, collected] at derived
    refine ⟨places, placed, ?_⟩
    cases applied : FileUpdate.applyReplacements (splitLf contents)
        ((places.map replacement).insertionSort (fun left right => left.start ≤ right.start)) with
    | error failure =>
      change (FileUpdate.applyReplacements (splitLf contents) _ >>= _) = _ at derived
      rw [applied] at derived
      cases derived
    | ok lines =>
      change (FileUpdate.applyReplacements (splitLf contents) _ >>= _) = _ at derived
      rw [applied] at derived
      cases derived
      exact ⟨lines, rfl, rfl⟩

theorem new_plain_iff {originalLines : List (List Char)} {chunk : UpdateFileChunk}
    {placement : Placement} (matched : placement.Matches originalLines .normalizeToLf chunk) :
    (∀ line ∈ placement.new, '\n' ∉ line) ↔ ∀ line ∈ chunk.newLines, '\n' ∉ line := by
  cases matched with
  | appended => rfl
  | found => rfl
  | retried =>
    rw [withoutTrailing]
    split
    · rename_i ends
      nth_rewrite 2 [← dropLast_append_getLast? [] ends]
      rw [forall_mem_append, forall_mem_singleton]
      exact (and_iff_left not_mem_nil).symm
    · rfl

theorem plain_iff {originalLines : List (List Char)}
    (matched : Forall₂ (Placement.Matches originalLines .normalizeToLf) chunks places) :
    (∀ placement ∈ places, ∀ line ∈ placement.new, '\n' ∉ line) ↔
      ∀ chunk ∈ chunks, ∀ line ∈ chunk.newLines, '\n' ∉ line := by
  induction matched with
  | nil => simp only [not_mem_nil, false_imp_iff, implies_true]
  | cons here _ ih => rw [forall_mem_cons, forall_mem_cons, new_plain_iff here, ih]

/-- Once the places follow one another, the text has the lines asked for exactly when these are
lines and do not end in an empty one. -/
theorem lines_kept_iff {path text : List Char}
    (placed : placements (splitLf contents) .normalizeToLf chunks 0 = some places)
    (derived : deriveNewContents path chunks .normalizeToLf contents = .ok text)
    (disjoint : places.Pairwise (fun left right => left.stop ≤ right.start)) :
    splitLf text = replaced (splitLf contents) 0 (places.map Placement.region) ↔
      (∀ chunk ∈ chunks, ∀ line ∈ chunk.newLines, '\n' ∉ line) ∧
        (replaced (splitLf contents) 0 (places.map Placement.region)).getLast? ≠ some [] := by
  obtain ⟨others, found, lines, applied, rfl⟩ := derived_places derived
  cases placed.symm.trans found
  obtain ⟨matched, within⟩ := placements_spec (Nat.zero_le _) placed
  rw [sorted_places disjoint, applyReplacements_inOrder (inOrder_places disjoint within)] at applied
  have result : replaced (splitLf contents) 0 (places.map Placement.region) = lines :=
    Except.ok.inj applied
  rw [result, ← plain_iff matched]
  constructor
  · intro kept
    have free : ∀ line ∈ lines, '\n' ∉ line := by
      rw [← kept]
      exact splitLf_plain
    constructor
    · intro placement member line new
      apply free
      rw [← result]
      exact mem_replaced_of_content (mem_map_of_mem member) new
    · rw [splitLf_closed free] at kept
      exact (withoutTrailing_self_iff lines).mp kept
  · rintro ⟨plain, ends⟩
    have free : ∀ line ∈ lines, '\n' ∉ line := by
      intro line member
      rw [← result] at member
      rcases mem_replaced member with source | ⟨region, inside, content⟩
      · exact splitLf_plain line source
      · obtain ⟨placement, source, rfl⟩ := mem_map.mp inside
        exact plain placement source line content
    rw [splitLf_closed free]
    exact (withoutTrailing_self_iff lines).mpr ends

/-- An update in this mode changes only the lines its chunks name, each where it was found, exactly
when no chunk stands in lines taken before it, the new lines are lines and the lines asked for do
not end in an empty line. -/
theorem normalized_update_iff (path contents text : List Char) (chunks : List UpdateFileChunk)
    (derived : deriveNewContents path chunks .normalizeToLf contents = .ok text) :
    ∃ places, placements (splitLf contents) .normalizeToLf chunks 0 = some places ∧
      (TouchesOnly (splitLf contents) chunks places text ↔
        Clear (splitLf contents) chunks places) := by
  obtain ⟨places, placed, -⟩ := derived_places derived
  refine ⟨places, placed, ?_⟩
  obtain ⟨matched, within⟩ := placements_spec (Nat.zero_le _) placed
  have free_iff := inOrder_iff_free (Nat.zero_le _) (Nat.zero_le _) placed
  constructor
  · intro touches
    obtain ⟨plain, ends⟩ := (lines_kept_iff placed derived touches.disjoint).mp touches.lines
    exact ⟨free_iff.mp (inOrder_places touches.disjoint within), plain, ends⟩
  · intro clear
    have ordered := (inOrder_iff_pairwise ..).mp (free_iff.mpr clear.free)
    have disjoint : places.Pairwise (fun left right => left.stop ≤ right.start) :=
      pairwise_map.mp ordered.2.2
    exact ⟨matched, disjoint, (lines_kept_iff placed derived disjoint).mpr ⟨clear.plain, clear.ends⟩⟩

def firstAndThird : List UpdateFileChunk :=
  [⟨none, ["a".toList], ["x".toList, "y".toList], [], false⟩, ⟨none, ["c".toList], [], [], false⟩]

theorem first_and_third_updated :
    ∃ places, placements ["a".toList, "b".toList, "c".toList] .normalizeToLf firstAndThird 0 =
        some places ∧
      TouchesOnly ["a".toList, "b".toList, "c".toList] firstAndThird places "x\ny\nb\n".toList := by
  obtain ⟨places, placed, iff⟩ := normalized_update_iff "f".toList "a\nb\nc\n".toList
    "x\ny\nb\n".toList firstAndThird (by decide +kernel)
  have found : placements (splitLf "a\nb\nc\n".toList) .normalizeToLf firstAndThird 0 =
      some [⟨0, ["a".toList], ["x".toList, "y".toList]⟩, ⟨2, ["c".toList], []⟩] := by decide +kernel
  cases placed.symm.trans found
  refine ⟨_, found, iff.mpr ⟨?_, by decide +kernel, by decide +kernel⟩⟩
  exact free_of_plain (Nat.zero_le _) (Nat.le_refl 0) (by decide +kernel)

/-- The empty last line of the file is lost, although no chunk names it. -/
theorem trailing_blank_line_lost :
    deriveNewContents "f".toList [⟨none, ["a".toList], ["b".toList], [], false⟩] .normalizeToLf
        "a\n\n".toList = .ok "b\n".toList ∧
      placements (splitLf "a\n\n".toList) .normalizeToLf
        [⟨none, ["a".toList], ["b".toList], [], false⟩] 0 = some [⟨0, ["a".toList], ["b".toList]⟩] ∧
      replaced (splitLf "a\n\n".toList) 0 [⟨0, 1, ["b".toList]⟩] = ["b".toList, []] ∧
      splitLf "b\n".toList = ["b".toList] := by
  decide +kernel

end OpenInterpreter.NormalizedUpdate
