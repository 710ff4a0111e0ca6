import OpenInterpreter.PatchStreaming

/-! What the patch parser guarantees of the context line indices of its chunks. -/

namespace OpenInterpreter.ParsedChunks

open Text PatchParser PatchStreaming Option

def Climbing : Nat → Nat → List (Nat × Nat) → Prop
  | _, _, [] => True
  | old, new, (oldContext, newContext) :: rest =>
    old ≤ oldContext ∧ new ≤ newContext ∧ Climbing (oldContext + 1) (newContext + 1) rest

structure Indexed (chunk : UpdateFileChunk) : Prop where
  climbing : Climbing 0 0 chunk.contextLineIndices
  inside : ∀ pair ∈ chunk.contextLineIndices,
    pair.1 < chunk.oldLines.length ∧ pair.2 < chunk.newLines.length

variable {indices : List (Nat × Nat)}

theorem climbing_append {old new oldLast newLast : Nat}
    (climbing : Climbing old new indices) (front : old ≤ oldLast ∧ new ≤ newLast)
    (below : ∀ pair ∈ indices, pair.1 < oldLast ∧ pair.2 < newLast) :
    Climbing old new (indices ++ [(oldLast, newLast)]) := by
  induction indices generalizing old new with
  | nil => exact ⟨front.1, front.2, trivial⟩
  | cons pair indices ih =>
    obtain ⟨here, later⟩ := List.forall_mem_cons.mp below
    obtain ⟨first, second, rest⟩ := climbing
    exact ⟨first, second, ih rest here later⟩

theorem climbing_below {old new : Nat} (climbing : Climbing old new indices) {pair : Nat × Nat}
    (member : pair ∈ indices) : old ≤ pair.1 ∧ new ≤ pair.2 := by
  induction indices generalizing old new with
  | nil => cases member
  | cons first indices ih =>
    obtain ⟨oldFront, newFront, rest⟩ := climbing
    rcases List.mem_cons.mp member with rfl | later
    · exact ⟨oldFront, newFront⟩
    · have behind := ih rest later
      omega

theorem indexed_default : Indexed .default := ⟨trivial, List.forall_mem_nil _⟩

variable {chunk : UpdateFileChunk} {line : List Char} {chunks : List UpdateFileChunk}
    {parser next : StreamingPatchParser}

theorem indexed_of_same {next : UpdateFileChunk} (indexed : Indexed chunk)
    (indices : next.contextLineIndices = chunk.contextLineIndices)
    (old : chunk.oldLines.length ≤ next.oldLines.length)
    (new : chunk.newLines.length ≤ next.newLines.length) : Indexed next := by
  constructor
  · rw [indices]
    exact indexed.climbing
  · rw [indices]
    intro pair member
    have below := indexed.inside pair member
    omega

theorem indexed_pushContextLine (indexed : Indexed chunk) (line : List Char) :
    Indexed (chunk.pushContextLine line) := by
  constructor
  · exact climbing_append indexed.climbing ⟨Nat.zero_le _, Nat.zero_le _⟩ indexed.inside
  · intro pair member
    have old : (chunk.pushContextLine line).oldLines.length = chunk.oldLines.length + 1 :=
      List.length_append
    have new : (chunk.pushContextLine line).newLines.length = chunk.newLines.length + 1 :=
      List.length_append
    rcases List.mem_append.mp member with before | last
    · have below := indexed.inside pair before
      omega
    · rw [List.mem_singleton.mp last]
      omega

theorem indexed_pushUpdateLine {next : UpdateFileChunk} (indexed : Indexed chunk)
    (pushed : pushUpdateLine line chunk = some next) : Indexed next := by
  unfold pushUpdateLine at pushed
  split at pushed <;> cases pushed
  · exact indexed_pushContextLine indexed []
  · exact indexed_pushContextLine indexed _
  · exact indexed_of_same indexed rfl (Nat.le_refl _) (by simp)
  · exact indexed_of_same indexed rfl (by simp) (Nat.le_refl _)

def AllIndexed (chunks : List UpdateFileChunk) : Prop := ∀ chunk ∈ chunks, Indexed chunk

theorem allIndexed_concat : AllIndexed (chunks ++ [chunk]) ↔ AllIndexed chunks ∧ Indexed chunk := by
  rw [AllIndexed, List.forall_mem_append, List.forall_mem_singleton]
  rfl

section

variable (all : AllIndexed chunks)
include all

theorem allIndexed_dropLast : AllIndexed chunks.dropLast :=
  fun chunk member => all chunk (List.mem_of_mem_dropLast member)

theorem allIndexed_ensureChunk : AllIndexed (ensureChunk chunks) := by
  unfold ensureChunk
  split
  · intro chunk member
    rw [List.mem_singleton.mp member]
    exact indexed_default
  · exact all

theorem allIndexed_updateHunkLine {lineNumber : Nat} {movePath : Option PatchPath}
    {updated : Option PatchPath × List UpdateFileChunk}
    (done : updateHunkLine lineNumber line movePath chunks = .ok updated) :
    AllIndexed updated.2 := by
  rcases updateHunkLine_cases done with same | ⟨context, header⟩ | ended |
    ⟨last, next, present, step, pushed⟩
  · rw [same]
    exact all
  · rw [header, allIndexed_concat]
    exact ⟨all, indexed_of_same indexed_default rfl (Nat.le_refl _) (Nat.le_refl _)⟩
  · rw [ended, modifyLast]
    cases last : chunks.getLast? with
    | none =>
      rw [map_none, toList_none, List.append_nil]
      exact allIndexed_dropLast all
    | some chunk =>
      have here := all chunk (List.mem_of_getLast? last)
      rw [map_some, toList_some, allIndexed_concat]
      exact ⟨allIndexed_dropLast all, indexed_of_same here rfl (Nat.le_refl _) (Nat.le_refl _)⟩
  · have ensured := allIndexed_ensureChunk all
    rw [pushed, allIndexed_concat]
    exact ⟨allIndexed_dropLast ensured,
      indexed_pushUpdateLine (ensured last (List.mem_of_getLast? present)) step⟩

end

def Kept (parser : StreamingPatchParser) : Prop :=
  ∀ hunk ∈ parser.hunks, AllIndexed (hunkChunks hunk)

theorem kept_concat {front : List Hunk} {hunk : Hunk} (hunks : parser.hunks = front ++ [hunk])
    (before : ∀ hunk ∈ front, AllIndexed (hunkChunks hunk)) (last : AllIndexed (hunkChunks hunk)) :
    Kept parser := by
  rw [Kept, hunks, List.forall_mem_append, List.forall_mem_singleton]
  exact ⟨before, last⟩

theorem kept_handle {trimmed : List Char} (kept : Kept parser)
    (handled : parser.handleHunkHeadersAndEndPatch trimmed = .ok (some next)) : Kept next := by
  rcases handle_cases handled with ⟨_, rfl⟩ | ⟨-, -, rfl⟩ | ⟨hunk, mode, rfl, -, fresh⟩
  · exact kept
  · exact kept
  · refine kept_concat rfl kept ?_
    rw [fresh]
    exact List.forall_mem_nil _

theorem kept_processLine (parser : StreamingPatchParser) (kept : Kept parser)
    (processed : parser.processLine line = .ok next) : Kept next := by
  have front : ∀ hunk ∈ parser.hunks.dropLast, AllIndexed (hunkChunks hunk) :=
    fun hunk member => kept hunk (List.mem_of_mem_dropLast member)
  rcases processLine_cases processed with ⟨-, -, rfl⟩ | ⟨-, -, handled⟩ |
    ⟨-, -, text, path, contents, -, last, rfl⟩ |
    ⟨number, -, -, path, movePath, chunks, updated, last, done, rfl⟩ | ⟨-, -, rfl⟩
  · exact kept
  · exact kept_handle kept handled
  · exact kept_concat rfl front (List.forall_mem_nil _)
  · have before : AllIndexed chunks := kept _ (List.mem_of_getLast? last)
    exact kept_concat rfl front (allIndexed_updateHunkLine before done)
  · exact kept

theorem kept_pushDelta (text : List Char) (kept : Kept parser)
    (pushed : parser.pushDelta text = .ok next) : Kept next := by
  induction text generalizing parser with
  | nil =>
    cases pushed
    exact kept
  | cons ch text ih =>
    obtain ⟨middle, first, rest⟩ := bind_ok pushed
    refine ih ?_ rest
    unfold StreamingPatchParser.pushChar at first
    split at first
    · exact kept_processLine (nextLine { parser with lineBuffer := [] }) kept first
    · cases first
      exact kept

theorem kept_finish (kept : Kept parser) (finished : parser.finish = .ok next) : Kept next := by
  rcases finish_cases finished with same | taken
  · rw [Kept, same]
    exact kept
  · exact kept_processLine (nextLine { parser with lineBuffer := [] }) kept taken

def Parsed (chunks : List UpdateFileChunk) : Prop :=
  ∃ text args path movePath, parsePatch text = .ok args ∧
    Hunk.updateFile path movePath chunks ∈ args.hunks

theorem parsed_indexed (parsed : Parsed chunks) : AllIndexed chunks := by
  obtain ⟨text, args, path, movePath, done, member⟩ := parsed
  obtain ⟨patchLines, -, rest⟩ := bind_ok done
  obtain ⟨pushed, push, rest⟩ := bind_ok rest
  obtain ⟨finished, finish, same⟩ := bind_ok rest
  cases same
  have start : Kept .default := List.forall_mem_nil _
  exact kept_finish (kept_pushDelta _ start push) finish _ member

end OpenInterpreter.ParsedChunks
