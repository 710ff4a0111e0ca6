import Mathlib.Data.List.DropRight

/-! `core/src/unified_exec/head_tail_buffer.rs`: a buffer that keeps the first and the last bytes of
an output, and the buffer of two outputs one after the other. -/

namespace OpenInterpreter.HeadTail

open List

def usizeMax : Nat := 0xFFFFFFFFFFFFFFFF

def saturatingAdd (left right : Nat) : Nat := min (left + right) usizeMax

structure HeadTailBuffer where
  head : List UInt8 := []
  tail : List UInt8 := []
  omittedBytes : Nat := 0
  deriving DecidableEq

variable (maxBytes : Nat)

def headBudget : Nat := maxBytes / 2

def tailBudget : Nat := maxBytes - headBudget maxBytes

namespace HeadTailBuffer

variable (buffer : HeadTailBuffer)

def fillHead (chunk : List UInt8) : HeadTailBuffer × List UInt8 :=
  let remainingHead := headBudget maxBytes - buffer.head.length
  let parts :=
    if remainingHead ≤ chunk.length then (chunk.take remainingHead, chunk.drop remainingHead)
    else (chunk, [])
  ({ buffer with head := buffer.head ++ parts.1 }, parts.2)

def pushTail (chunk : List UInt8) : HeadTailBuffer :=
  let remainingTail := tailBudget maxBytes - buffer.tail.length
  let excessTail := chunk.length - remainingTail
  let omittedBytes := saturatingAdd buffer.omittedBytes excessTail
  if excessTail < buffer.tail.length then
    { buffer with omittedBytes, tail := buffer.tail.drop excessTail ++ chunk }
  else { buffer with omittedBytes, tail := chunk.drop (excessTail - buffer.tail.length) }

def pushChunk (chunk : List UInt8) : HeadTailBuffer :=
  let filled := buffer.fillHead maxBytes chunk
  filled.1.pushTail maxBytes filled.2

/-- How `push_buffer` joins the heads: an existing head is filled, an empty one replaced. -/
def joinHead (head : List UInt8) : HeadTailBuffer × List UInt8 :=
  if buffer.head = [] then ({ buffer with head }, []) else buffer.fillHead maxBytes head

def pushBuffer (maxBytes wrap : Nat) (buffer source : HeadTailBuffer) : HeadTailBuffer :=
  let counted :=
    { buffer with omittedBytes := saturatingAdd buffer.omittedBytes source.omittedBytes }
  let filled := counted.joinHead maxBytes source.head
  if source.tail.length = tailBudget maxBytes then
    { filled.1 with
      omittedBytes := saturatingAdd (saturatingAdd filled.1.omittedBytes filled.1.tail.length)
        filled.2.length
      tail := source.tail }
  else
    let pushed := filled.1.pushTail maxBytes filled.2
    if pushed.tail = [] then { pushed with tail := source.tail }
    else (pushed.pushTail maxBytes (source.tail.take wrap)).pushTail maxBytes
      (source.tail.drop wrap)

def fed (chunks : List (List UInt8)) : HeadTailBuffer :=
  chunks.foldl (pushChunk maxBytes) {}

end HeadTailBuffer

open HeadTailBuffer

def summary (bytes : List UInt8) : HeadTailBuffer :=
  let rest := bytes.drop (headBudget maxBytes)
  { head := bytes.take (headBudget maxBytes)
    tail := rest.rtake (tailBudget maxBytes)
    omittedBytes := rest.length - tailBudget maxBytes }

section

variable {maxBytes : Nat} {head before chunk later bytes : List UInt8}

theorem saturatingAdd_eq {left right : Nat} (room : left + right ≤ usizeMax) :
    saturatingAdd left right = left + right := Nat.min_eq_left room

theorem length_rtake (count : Nat) : (before.rtake count).length = min count before.length := by
  rw [rtake, length_drop]
  omega

theorem rtake_append_of_le {count : Nat} (full : count ≤ later.length) :
    (before ++ later).rtake count = later.rtake count := by
  simp [rtake, Nat.add_sub_assoc full]

theorem fillHead_eq (buffer : HeadTailBuffer) :
    buffer.fillHead maxBytes chunk = ({ buffer with
          head := buffer.head ++ chunk.take (headBudget maxBytes - buffer.head.length) },
        chunk.drop (headBudget maxBytes - buffer.head.length)) := by
  simp only [fillHead]
  split
  · rfl
  · next short =>
    have covers := Nat.le_of_not_le short
    rw [take_of_length_le covers, drop_of_length_le covers]

theorem pushTail_rtake {omitted : Nat}
    (room : omitted + (min (tailBudget maxBytes) before.length + chunk.length -
      tailBudget maxBytes) ≤ usizeMax) :
    pushTail maxBytes ⟨head, before.rtake (tailBudget maxBytes), omitted⟩ chunk =
      ⟨head, (before ++ chunk).rtake (tailBudget maxBytes),
        omitted +
          (min (tailBudget maxBytes) before.length + chunk.length - tailBudget maxBytes)⟩ := by
  simp only [pushTail, length_rtake]
  rw [saturatingAdd_eq (by omega)]
  split
  · congr 1
    · rw [rtake, rtake, drop_drop, length_append, drop_append]
      congr 1
      · congr 1
        omega
      · rw [Nat.sub_eq_zero_of_le (by omega), drop_zero]
    · omega
  · have gone : before.drop (before.length + chunk.length - tailBudget maxBytes) = [] :=
      drop_of_length_le (by omega)
    congr 1
    · rw [rtake, length_append, drop_append, gone]
      congr 1
      omega
    · omega

theorem pushChunk_summary (room : bytes.length + chunk.length ≤ usizeMax) :
    (summary maxBytes bytes).pushChunk maxBytes chunk = summary maxBytes (bytes ++ chunk) := by
  simp only [pushChunk, summary, fillHead_eq, length_take]
  rw [pushTail_rtake (by simp only [length_drop]; omega), take_append, drop_append, length_append]
  have same : headBudget maxBytes - min (headBudget maxBytes) bytes.length =
      headBudget maxBytes - bytes.length := by omega
  rw [same]
  congr 1
  omega

theorem foldl_pushChunk (chunks : List (List UInt8))
    (room : bytes.length + chunks.flatten.length ≤ usizeMax) :
    chunks.foldl (pushChunk maxBytes) (summary maxBytes bytes) =
      summary maxBytes (bytes ++ chunks.flatten) := by
  induction chunks generalizing bytes with
  | nil => rw [foldl_nil, flatten_nil, append_nil]
  | cons chunk chunks ih =>
    rw [flatten_cons, length_append] at room
    rw [foldl_cons, pushChunk_summary (by omega), ih (by rw [length_append]; omega),
      flatten_cons, append_assoc]

theorem fed_eq_summary {chunks : List (List UInt8)} (room : chunks.flatten.length ≤ usizeMax) :
    fed maxBytes chunks = summary maxBytes chunks.flatten := by
  have empty : summary maxBytes [] = {} := by simp [summary]
  rw [fed, ← empty, foldl_pushChunk chunks (by simpa using room), nil_append]

theorem joinHead_take (bytes later : List UInt8) {tail : List UInt8} {omitted : Nat} :
    joinHead maxBytes ⟨bytes.take (headBudget maxBytes), tail, omitted⟩
        (later.take (headBudget maxBytes)) =
      (⟨(bytes ++ later).take (headBudget maxBytes), tail, omitted⟩,
        (later.take (headBudget maxBytes)).drop (headBudget maxBytes - bytes.length)) := by
  simp only [joinHead, take_append]
  split
  · next empty =>
    rcases take_eq_nil_iff.mp empty with zero | rfl
    · simp [zero]
    · simp
  · have same : headBudget maxBytes - min (headBudget maxBytes) bytes.length =
        headBudget maxBytes - bytes.length := by omega
    rw [fillHead_eq, length_take, same, take_take, Nat.min_eq_left (Nat.sub_le _ _)]

theorem drop_budget (budget : Nat) (bytes later : List UInt8) :
    (bytes ++ later).drop budget =
      bytes.drop budget ++ (later.take budget).drop (budget - bytes.length) ++ later.drop budget := by
  rw [drop_append, append_assoc]
  nth_rewrite 1 [← take_append_drop budget later]
  rw [drop_append, length_take]
  by_cases long : budget ≤ later.length
  · rw [Nat.min_eq_left long, Nat.sub_eq_zero_of_le (Nat.sub_le _ _), drop_zero]
  · rw [drop_of_length_le (Nat.le_of_not_le long), drop_nil]

theorem pushBuffer_summary (wrap : Nat) (room : bytes.length + later.length ≤ usizeMax) :
    (summary maxBytes bytes).pushBuffer maxBytes wrap (summary maxBytes later) =
      summary maxBytes (bytes ++ later) := by
  have total := congrArg List.length (drop_budget (headBudget maxBytes) bytes later)
  simp only [pushBuffer, summary, joinHead_take, drop_budget]
  generalize bytes.drop (headBudget maxBytes) = kept at total ⊢
  generalize (later.take (headBudget maxBytes)).drop _ = overflow at total ⊢
  generalize later.drop (headBudget maxBytes) = rest at total ⊢
  simp only [length_append, length_drop] at total ⊢
  have counted : saturatingAdd (kept.length - tailBudget maxBytes)
      (rest.length - tailBudget maxBytes) =
      kept.length - tailBudget maxBytes + (rest.length - tailBudget maxBytes) :=
    saturatingAdd_eq (by omega)
  rw [length_rtake]
  by_cases full : tailBudget maxBytes ≤ rest.length
  · -- the source tail displaces all that stands before it
    rw [if_pos (Nat.min_eq_left full), length_rtake, rtake_append_of_le full]
    congr 1
    simp only [saturatingAdd]
    omega
  · have whole : rest.rtake (tailBudget maxBytes) = rest := by
      rw [rtake, Nat.sub_eq_zero_of_le (by omega), drop_zero]
    rw [if_neg (by omega), pushTail_rtake (by omega), whole]
    split
    · next empty =>
      have none := congrArg List.length empty
      rw [length_rtake, length_append, length_nil] at none
      have nothing : kept ++ overflow = [] := eq_nil_of_length_eq_zero (by rw [length_append]; omega)
      rw [nothing, nil_append, whole]
      congr 1
      dsimp only
      omega
    · have parts := congrArg List.length (take_append_drop wrap rest)
      rw [length_append] at parts
      rw [pushTail_rtake (by rw [length_append]; omega),
        pushTail_rtake (by simp only [length_append]; omega), append_assoc (kept ++ _),
        take_append_drop]
      congr 1
      simp only [length_append]
      omega

/-- A buffer fed any chunks is the summary of their concatenation, and pushing a second buffer onto
it gives the summary of both outputs. -/
theorem buffers_summarize (maxBytes wrap : Nat) (chunks others : List (List UInt8))
    (room : chunks.flatten.length + others.flatten.length < usizeMax) :
    fed maxBytes chunks = summary maxBytes chunks.flatten ∧
      (fed maxBytes chunks).pushBuffer maxBytes wrap (fed maxBytes others) =
        summary maxBytes (chunks.flatten ++ others.flatten) := by
  rw [fed_eq_summary (by omega), fed_eq_summary (by omega)]
  exact ⟨rfl, pushBuffer_summary wrap (by omega)⟩

theorem five_bytes_summarized :
    fed 4 [[1, 2, 3], [4, 5]] = ⟨[1, 2], [4, 5], 1⟩ ∧
      (fed 4 [[1, 2, 3], [4, 5]]).pushBuffer 4 1 (fed 4 [[6, 7, 8]]) = ⟨[1, 2], [7, 8], 4⟩ :=
  buffers_summarize 4 1 [[1, 2, 3], [4, 5]] [[6, 7, 8]] (by decide)

end

end OpenInterpreter.HeadTail
