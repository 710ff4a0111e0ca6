import Mathlib.Data.Finmap
import Mathlib.Data.List.Range
import Mathlib.Tactic

/-! Reordering of relay records in front of the implicit Noise receive nonce.

The model follows `exec-server/src/noise_relay/ordered_ciphertext.rs`. A push
returns the new state together with its result, since the exhausted sequence
number is reported after the state has already moved. -/

namespace OpenInterpreter.OrderedCiphertext

open List Function

abbrev Payload := List UInt8

inductive ExecServerError where
  | protocol (message : String)
  deriving DecidableEq

def exceedsReorderWindow : ExecServerError :=
  .protocol "Noise relay ciphertext exceeds reorder window"

def pendingBufferFull : ExecServerError :=
  .protocol "Noise relay pending ciphertext buffer is full"

def sequenceExhausted : ExecServerError :=
  .protocol "Noise relay sequence number exhausted"

def maxReorderDistance : UInt32 := 64
def maxPendingBytes : Nat := 1024 * 1024

structure OrderedCiphertextFrames where
  nextSeq : UInt32
  pending : AList (fun _ : UInt32 => Payload)
  pendingBytes : Nat

instance : Inhabited OrderedCiphertextFrames := ⟨⟨0, ∅, 0⟩⟩

def advance (frames : OrderedCiphertextFrames) :
    OrderedCiphertextFrames × Except ExecServerError Unit :=
  if frames.nextSeq.toNat + 1 < UInt32.size then
    ({ frames with nextSeq := frames.nextSeq + 1 }, .ok ())
  else (frames, .error sequenceExhausted)

variable (frames : OrderedCiphertextFrames)

@[simp] theorem advance_pending : (advance frames).1.pending = frames.pending := by
  unfold advance
  split <;> rfl

def takeNext (payload : Payload) : OrderedCiphertextFrames :=
  { frames with
    pending := frames.pending.erase frames.nextSeq
    pendingBytes := frames.pendingBytes - payload.length }

def drain (frames : OrderedCiphertextFrames) (ready : List Payload) :
    OrderedCiphertextFrames × Except ExecServerError (List Payload) :=
  match _found : frames.pending.lookup frames.nextSeq with
  | none => (frames, .ok ready)
  | some payload =>
    match _moved : advance (takeNext frames payload) with
    | (advanced, .ok ()) => drain advanced (ready ++ [payload])
    | (stuck, .error error) => (stuck, .error error)
termination_by frames.pending.keys.length
decreasing_by
  have member : frames.nextSeq ∈ frames.pending.keys := by
    rw [← AList.mem_keys, ← AList.lookup_isSome, _found]
    rfl
  have same : advanced.pending = frames.pending.erase frames.nextSeq := by
    have moved := advance_pending (takeNext frames payload)
    rw [_moved] at moved
    exact moved
  rw [same, AList.keys_erase, length_erase_of_mem member]
  have positive := length_pos_of_mem member
  omega

def push (seq : UInt32) (payload : Payload) :
    OrderedCiphertextFrames × Except ExecServerError (List Payload) :=
  if seq < frames.nextSeq ∨ seq ∈ frames.pending then (frames, .ok [])
  else if frames.nextSeq < seq then
    if maxReorderDistance < seq - frames.nextSeq then (frames, .error exceedsReorderWindow)
    else
      let pendingBytes := frames.pendingBytes + payload.length
      if maxPendingBytes < pendingBytes then (frames, .error pendingBufferFull)
      else
        ({ frames with pending := frames.pending.insert seq payload, pendingBytes }, .ok [])
  else
    match advance frames with
    | (advanced, .ok ()) => drain advanced [payload]
    | (stuck, .error error) => (stuck, .error error)

structure Record where
  seq : UInt32
  payload : Payload
  deriving DecidableEq

/-- What a receiver has seen after some pushes: the frames, the released runs
one after the other, and the records whose push was accepted, oldest first. -/
structure Receiver where
  frames : OrderedCiphertextFrames
  released : List Payload
  accepted : List Record

def receiverStart : Receiver := ⟨default, [], []⟩

def receive (receiver : Receiver) (record : Record) : Receiver :=
  match push receiver.frames record.seq record.payload with
  | (frames, .ok run) => ⟨frames, receiver.released ++ run, receiver.accepted ++ [record]⟩
  | (frames, .error _) => { receiver with frames }

def receiveAll (records : List Record) : Receiver := records.foldl receive receiverStart

def firstAccepted (accepted : List Record) (index : Nat) : Option Payload :=
  (accepted.find? (fun record => record.seq.toNat == index)).map Record.payload

def heldBytes (pending : AList (fun _ : UInt32 => Payload)) : Nat :=
  (pending.entries.map (fun entry => entry.2.length)).sum

theorem heldBytes_insert (pending : AList (fun _ : UInt32 => Payload)) (seq : UInt32)
    (payload : Payload) (fresh : seq ∉ pending) :
    heldBytes (pending.insert seq payload) = heldBytes pending + payload.length := by
  simp only [heldBytes, AList.entries_insert_of_notMem fresh, map_cons, sum_cons]
  omega

variable {payload : Payload}

theorem heldBytes_erase {pending : AList (fun _ : UInt32 => Payload)} {seq : UInt32}
    (found : pending.lookup seq = some payload) :
    heldBytes pending = heldBytes (pending.erase seq) + payload.length := by
  have member : seq ∈ pending.entries.keys := by
    rw [← AList.keys, ← AList.mem_keys, ← AList.lookup_isSome, found]
    rfl
  obtain ⟨held, before, after, absent, split, erased⟩ := exists_of_kerase member
  have same : held = payload := by
    have looked : pending.entries.dlookup seq = some payload := found
    rw [split, dlookup_append, dlookup_eq_none.mpr absent] at looked
    simpa using looked
  subst same
  simp only [heldBytes, AList.erase, erased]
  rw [split]
  simp only [map_append, map_cons, sum_append, sum_cons]
  omega

variable (seq : UInt32)

theorem toNat_succ (room : seq.toNat + 1 < UInt32.size) : (seq + 1).toNat = seq.toNat + 1 := by
  exact Nat.mod_eq_of_lt room

theorem advance_ok {frames advanced : OrderedCiphertextFrames}
    (moved : advance frames = (advanced, .ok ())) :
    frames.nextSeq.toNat + 1 < UInt32.size ∧
      advanced = { frames with nextSeq := frames.nextSeq + 1 } := by
  unfold advance at moved
  split at moved
  · rename_i room
    simp only [Prod.mk.injEq, and_true] at moved
    exact ⟨room, moved.symm⟩
  · simp at moved

variable {stuck : OrderedCiphertextFrames} {error : ExecServerError}

theorem advance_error {frames : OrderedCiphertextFrames}
    (failed : advance frames = (stuck, .error error)) :
    UInt32.size ≤ frames.nextSeq.toNat + 1 ∧ stuck = frames ∧ error = sequenceExhausted := by
  unfold advance at failed
  split at failed
  · simp at failed
  · rename_i full
    simp only [Prod.mk.injEq, Except.error.injEq] at failed
    exact ⟨Nat.le_of_not_lt full, failed.1.symm, failed.2.symm⟩

structure Bounded : Prop where
  window : ∀ key ∈ frames.pending, frames.nextSeq.toNat ≤ key.toNat ∧
    key.toNat ≤ frames.nextSeq.toNat + maxReorderDistance.toNat
  bytes : frames.pendingBytes = heldBytes frames.pending
  limit : frames.pendingBytes ≤ maxPendingBytes

def Settled : Prop := frames.nextSeq ∉ frames.pending

/-- The released runs are the first accepted payloads below `nextSeq`, and the
buffer holds the first accepted payload of every later sequence number. -/
structure Tracks (released : List Payload) (accepted : List Record) : Prop where
  run : released.map some = (List.range frames.nextSeq.toNat).map (firstAccepted accepted)
  buffered : ∀ key : UInt32, frames.nextSeq.toNat ≤ key.toNat →
    firstAccepted accepted key.toNat = frames.pending.lookup key

section

variable (bounded : Bounded frames)
include bounded

theorem takeNext_bounded (found : frames.pending.lookup frames.nextSeq = some payload) :
    Bounded (takeNext frames payload) := by
  have total := heldBytes_erase found
  refine ⟨?_, ?_, ?_⟩
  · intro key member
    exact bounded.window key (AList.mem_erase.mp member).2
  · have bytes := bounded.bytes
    simp only [takeNext]
    omega
  · have limit := bounded.limit
    simp only [takeNext]
    omega

theorem takeNext_above :
    ∀ key ∈ (takeNext frames payload).pending, frames.nextSeq.toNat < key.toNat := by
  intro key member
  obtain ⟨different, present⟩ := AList.mem_erase.mp member
  have low := (bounded.window key present).1
  have apart : key.toNat ≠ frames.nextSeq.toNat := fun same => different (UInt32.toNat_inj.mp same)
  omega

theorem next_bounded (room : frames.nextSeq.toNat + 1 < UInt32.size)
    (above : ∀ key ∈ frames.pending, frames.nextSeq.toNat < key.toNat) :
    Bounded { frames with nextSeq := frames.nextSeq + 1 } := by
  refine ⟨?_, bounded.bytes, bounded.limit⟩
  intro key member
  have high := (bounded.window key member).2
  have low := above key member
  simp only [toNat_succ frames.nextSeq room]
  omega

end

variable (records : List Record) (ready : List Payload)

theorem drain_none (absent : frames.pending.lookup frames.nextSeq = none) :
    drain frames ready = (frames, .ok ready) := by
  rw [drain]
  split
  · rfl
  · simp_all

theorem drain_stuck (found : frames.pending.lookup frames.nextSeq = some payload)
    (failed : advance (takeNext frames payload) = (stuck, .error error)) :
    drain frames ready = (stuck, .error error) := by
  rw [drain]
  split
  · simp_all
  · rename_i other same
    split <;> simp_all

theorem drain_bounded (bounded : Bounded frames) :
    Bounded (drain frames ready).1 ∧ Settled (drain frames ready).1 := by
  fun_induction drain frames ready with
  | case1 frames ready absent => exact ⟨bounded, AList.lookup_eq_none.mp absent⟩
  | case2 frames ready payload found advanced moved ih =>
    obtain ⟨room, rfl⟩ := advance_ok moved
    have kept := takeNext_bounded frames bounded found
    exact ih (next_bounded _ kept room (takeNext_above frames bounded))
  | case3 frames ready payload found stuck error failed =>
    obtain ⟨_, rfl, rfl⟩ := advance_error failed
    refine ⟨takeNext_bounded frames bounded found, ?_⟩
    intro member
    exact absurd (takeNext_above frames bounded _ member) (Nat.lt_irrefl _)

theorem drain_error (failed : drain frames ready = (stuck, .error error)) :
    error = sequenceExhausted ∧
      ∀ key : UInt32, frames.nextSeq.toNat ≤ key.toNat → key ∈ frames.pending := by
  fun_induction drain frames ready with
  | case1 frames ready absent => simp at failed
  | case2 frames ready payload found advanced moved ih =>
    obtain ⟨room, rfl⟩ := advance_ok moved
    obtain ⟨exhausted, later⟩ := ih failed
    refine ⟨exhausted, ?_⟩
    intro key reached
    by_cases same : key = frames.nextSeq
    · rw [same, ← AList.lookup_isSome, found]
      rfl
    · have apart : key.toNat ≠ frames.nextSeq.toNat := fun equal => same (UInt32.toNat_inj.mp equal)
      have member := later key (by
        rw [show (takeNext frames payload).nextSeq = frames.nextSeq from rfl,
          toNat_succ frames.nextSeq room]
        omega)
      exact (AList.mem_erase.mp member).2
  | case3 frames ready payload found stuck' error' stopped =>
    obtain ⟨full, rfl, rfl⟩ := advance_error stopped
    simp only [Prod.mk.injEq, Except.error.injEq] at failed
    refine ⟨failed.2.symm, ?_⟩
    intro key reached
    have below := key.toNat_lt
    have last : key = frames.nextSeq := by
      apply UInt32.toNat_inj.mp
      simp only [takeNext, UInt32.size] at full
      omega
    rw [last, ← AList.lookup_isSome, found]
    rfl

variable (released : List Payload) (accepted : List Record)

theorem tracks_next (tracks : Tracks frames released accepted)
    (found : frames.pending.lookup frames.nextSeq = some payload)
    (room : frames.nextSeq.toNat + 1 < UInt32.size) :
    Tracks { takeNext frames payload with nextSeq := frames.nextSeq + 1 }
      (released ++ [payload]) accepted := by
  refine ⟨?_, ?_⟩
  · have here := tracks.buffered frames.nextSeq (Nat.le_refl _)
    simp [toNat_succ frames.nextSeq room, range_succ, tracks.run, here, found]
  · intro key reached
    rw [toNat_succ frames.nextSeq room] at reached
    have different : key ≠ frames.nextSeq := by
      rintro rfl
      omega
    rw [tracks.buffered key (by omega)]
    exact (AList.lookup_erase_ne different).symm

theorem drain_tracks {settled : OrderedCiphertextFrames} {run : List Payload}
    (tracks : Tracks frames (released ++ ready) accepted)
    (drained : drain frames ready = (settled, .ok run)) :
    Tracks settled (released ++ run) accepted := by
  fun_induction drain frames ready with
  | case1 frames ready absent =>
    cases drained
    exact tracks
  | case2 frames ready payload found advanced moved ih =>
    obtain ⟨room, rfl⟩ := advance_ok moved
    refine ih ?_ drained
    rw [← append_assoc]
    exact tracks_next frames _ accepted tracks found room
  | case3 frames ready payload found stuck error failed => cases drained

inductive PushStep (frames : OrderedCiphertextFrames) (seq : UInt32) (payload : Payload) :
    OrderedCiphertextFrames × Except ExecServerError (List Payload) → Prop where
  | duplicate (seen : seq.toNat < frames.nextSeq.toNat ∨ seq ∈ frames.pending) :
      PushStep frames seq payload (frames, .ok [])
  | outsideWindow (far : frames.nextSeq.toNat + maxReorderDistance.toNat < seq.toNat)
      (fresh : seq ∉ frames.pending) :
      PushStep frames seq payload (frames, .error exceedsReorderWindow)
  | bufferFull (future : frames.nextSeq.toNat < seq.toNat) (fresh : seq ∉ frames.pending)
      (excess : maxPendingBytes < frames.pendingBytes + payload.length) :
      PushStep frames seq payload (frames, .error pendingBufferFull)
  | buffer (future : frames.nextSeq.toNat < seq.toNat) (fresh : seq ∉ frames.pending)
      (near : seq.toNat ≤ frames.nextSeq.toNat + maxReorderDistance.toNat)
      (fits : frames.pendingBytes + payload.length ≤ maxPendingBytes) :
      PushStep frames seq payload
        ({ frames with
            pending := frames.pending.insert seq payload
            pendingBytes := frames.pendingBytes + payload.length }, .ok [])
  | release (expected : seq = frames.nextSeq) (fresh : seq ∉ frames.pending)
      (room : frames.nextSeq.toNat + 1 < UInt32.size) :
      PushStep frames seq payload
        (drain { frames with nextSeq := frames.nextSeq + 1 } [payload])
  | exhausted (expected : seq = frames.nextSeq) (fresh : seq ∉ frames.pending)
      (full : UInt32.size ≤ frames.nextSeq.toNat + 1) :
      PushStep frames seq payload (frames, .error sequenceExhausted)

theorem distance_toNat (low high : UInt32) (ordered : low < high) :
    (high - low).toNat = high.toNat - low.toNat :=
  UInt32.toNat_sub_of_le _ _ (UInt32.le_of_lt ordered)

theorem push_step (payload : Payload) : PushStep frames seq payload (push frames seq payload) := by
  unfold push
  split
  · rename_i seen
    exact .duplicate (seen.imp_left UInt32.lt_iff_toNat_lt.mp)
  · rename_i unseen
    obtain ⟨notBelow, fresh⟩ := not_or.mp unseen
    split
    · rename_i future
      have ahead := UInt32.lt_iff_toNat_lt.mp future
      have distance := distance_toNat _ _ future
      split
      · rename_i far
        rw [UInt32.lt_iff_toNat_lt] at far
        exact .outsideWindow (by omega) fresh
      · rename_i near
        rw [UInt32.lt_iff_toNat_lt] at near
        dsimp only
        split
        · rename_i excess
          exact .bufferFull ahead fresh excess
        · rename_i fits
          exact .buffer ahead fresh (by omega) (Nat.le_of_not_lt fits)
    · rename_i notAbove
      have expected : seq = frames.nextSeq := by
        rw [UInt32.lt_iff_toNat_lt] at notBelow notAbove
        exact UInt32.toNat_inj.mp (by omega)
      split
      · rename_i advanced moved
        obtain ⟨room, rfl⟩ := advance_ok moved
        exact .release expected fresh room
      · rename_i stuck error failed
        obtain ⟨full, rfl, rfl⟩ := advance_error failed
        exact .exhausted expected fresh full

theorem above_of_settled (bounded : Bounded frames) (settled : Settled frames) :
    ∀ key ∈ frames.pending, frames.nextSeq.toNat < key.toNat := by
  intro key member
  have low := (bounded.window key member).1
  have apart : key.toNat ≠ frames.nextSeq.toNat := by
    intro same
    rw [UInt32.toNat_inj.mp same] at member
    exact settled member
  omega

theorem push_bounded (payload : Payload) (bounded : Bounded frames) (settled : Settled frames) :
    Bounded (push frames seq payload).1 ∧ Settled (push frames seq payload).1 := by
  have step := push_step frames seq payload
  generalize push frames seq payload = outcome at step ⊢
  cases step with
  | duplicate | outsideWindow | bufferFull | exhausted => exact ⟨bounded, settled⟩
  | buffer future fresh near fits =>
    refine ⟨⟨?_, ?_, fits⟩, ?_⟩
    · intro key member
      rcases (AList.mem_insert _).mp member with rfl | old
      · exact ⟨Nat.le_of_lt future, near⟩
      · exact bounded.window key old
    · rw [heldBytes_insert _ _ _ fresh, ← bounded.bytes]
    · intro member
      rcases (AList.mem_insert _).mp member with same | old
      · rw [← same] at future
        exact Nat.lt_irrefl _ future
      · exact settled old
  | release expected fresh room =>
    exact drain_bounded _ _
      (next_bounded frames bounded room (above_of_settled frames bounded settled))

theorem push_rejected {frames' : OrderedCiphertextFrames} {seq : UInt32}
    {error : ExecServerError} (rejected : push frames seq payload = (frames', .error error))
    (limit : error ≠ sequenceExhausted) : frames' = frames := by
  have step := push_step frames seq payload
  rw [rejected] at step
  generalize result : (frames', Except.error error) = outcome at step
  cases step with
  | duplicate | buffer => simp at result
  | outsideWindow | bufferFull | exhausted => exact congrArg Prod.fst result
  | release _ _ _ => exact absurd (drain_error _ _ result.symm).1 limit

variable (record : Record)

theorem firstAccepted_append (index : Nat) :
    firstAccepted (accepted ++ [record]) index = (firstAccepted accepted index).or
        (if record.seq.toNat = index then some record.payload else none) := by
  simp only [firstAccepted, find?_append]
  cases accepted.find? (fun record => record.seq.toNat == index) with
  | some found => rfl
  | none =>
    by_cases same : record.seq.toNat = index
    · simp [same]
    · simp [same, beq_false_of_ne same]

theorem firstAccepted_taken (taken : (firstAccepted accepted record.seq.toNat).isSome) :
    firstAccepted (accepted ++ [record]) = firstAccepted accepted := by
  funext index
  rw [firstAccepted_append]
  by_cases same : record.seq.toNat = index
  · subst same
    obtain ⟨payload, found⟩ := Option.isSome_iff_exists.mp taken
    simp [found]
  · simp [same]

theorem firstAccepted_fresh (fresh : firstAccepted accepted record.seq.toNat = none) (index : Nat) :
    firstAccepted (accepted ++ [record]) index =
      if record.seq.toNat = index then some record.payload else firstAccepted accepted index := by
  rw [firstAccepted_append]
  split
  · rename_i same
    subst same
    simp [fresh]
  · simp

section

variable (tracks : Tracks frames released accepted)
include tracks

theorem tracks_taken {index : Nat}
    (below : index < frames.nextSeq.toNat) : (firstAccepted accepted index).isSome := by
  have member : firstAccepted accepted index ∈ released.map some := by
    rw [tracks.run]
    exact mem_map.mpr ⟨index, mem_range.mpr below, rfl⟩
  obtain ⟨payload, _, found⟩ := mem_map.mp member
  rw [← found]
  rfl

theorem tracks_duplicate
    (seen : record.seq.toNat < frames.nextSeq.toNat ∨ record.seq ∈ frames.pending) :
    Tracks frames released (accepted ++ [record]) := by
  have taken : (firstAccepted accepted record.seq.toNat).isSome := by
    by_cases below : record.seq.toNat < frames.nextSeq.toNat
    · exact tracks_taken frames released accepted tracks below
    · rw [tracks.buffered record.seq (Nat.le_of_not_lt below), AList.lookup_isSome]
      exact seen.resolve_left below
  refine ⟨?_, ?_⟩
  · rw [firstAccepted_taken accepted record taken]
    exact tracks.run
  · rw [firstAccepted_taken accepted record taken]
    exact tracks.buffered

variable (fresh : record.seq ∉ frames.pending)
include fresh

theorem tracks_run_fresh
    (reached : frames.nextSeq.toNat ≤ record.seq.toNat) :
    firstAccepted accepted record.seq.toNat = none ∧ released.map some =
        (List.range frames.nextSeq.toNat).map (firstAccepted (accepted ++ [record])) := by
  have unseen : firstAccepted accepted record.seq.toNat = none := by
    rw [tracks.buffered record.seq reached]
    exact AList.lookup_eq_none.mpr fresh
  refine ⟨unseen, ?_⟩
  rw [tracks.run]
  apply map_congr_left
  intro index member
  have below := mem_range.mp member
  rw [firstAccepted_fresh accepted record unseen, if_neg (by omega)]

theorem tracks_buffer (future : frames.nextSeq.toNat < record.seq.toNat)
    (pendingBytes : Nat) :
    Tracks ⟨frames.nextSeq, frames.pending.insert record.seq record.payload, pendingBytes⟩
      released (accepted ++ [record]) := by
  obtain ⟨unseen, run⟩ :=
    tracks_run_fresh frames released accepted record tracks fresh (Nat.le_of_lt future)
  refine ⟨run, ?_⟩
  intro key reached
  rw [firstAccepted_fresh accepted record unseen]
  by_cases same : key = record.seq
  · subst same
    simp
  · have apart : record.seq.toNat ≠ key.toNat := fun equal => same (UInt32.toNat_inj.mp equal.symm)
    rw [if_neg apart, AList.lookup_insert_ne same]
    exact tracks.buffered key reached

theorem tracks_expected (expected : record.seq = frames.nextSeq)
    (room : frames.nextSeq.toNat + 1 < UInt32.size) :
    Tracks { frames with nextSeq := frames.nextSeq + 1 } (released ++ [record.payload])
      (accepted ++ [record]) := by
  obtain ⟨unseen, run⟩ := tracks_run_fresh frames released accepted record tracks
    fresh (Nat.le_of_eq (by rw [expected]))
  have here := firstAccepted_fresh accepted record unseen
  refine ⟨?_, ?_⟩
  · rw [toNat_succ frames.nextSeq room, range_succ, map_append, map_append, run]
    simp only [map_cons, map_nil]
    rw [here frames.nextSeq.toNat, if_pos (by rw [expected])]
  · intro key reached
    rw [toNat_succ frames.nextSeq room] at reached
    rw [here key.toNat, if_neg (by rw [expected]; omega)]
    exact tracks.buffered key (by omega)

end

/-- The push closes a gap behind which every number up to the last `u32` is
already buffered, so the drain loop runs out of sequence numbers. -/
def DrainExhausts (seq : UInt32) : Prop :=
  seq = frames.nextSeq ∧ frames.nextSeq.toNat + 1 < UInt32.size ∧
    ∀ key : UInt32, frames.nextSeq.toNat < key.toNat → key ∈ frames.pending

variable {record}

theorem drainExhausts_of_error (expected : record.seq = frames.nextSeq)
    (room : frames.nextSeq.toNat + 1 < UInt32.size)
    (failed : drain { frames with nextSeq := frames.nextSeq + 1 } ready = (stuck, .error error)) :
    DrainExhausts frames record.seq := by
  refine ⟨expected, room, ?_⟩
  intro key above
  refine (drain_error _ _ failed).2 key ?_
  simp only [toNat_succ frames.nextSeq room]
  omega

theorem receive_bounded (receiver : Receiver) (record : Record)
    (bounded : Bounded receiver.frames) (settled : Settled receiver.frames) :
    Bounded (receive receiver record).frames ∧ Settled (receive receiver record).frames := by
  have pushed := push_bounded receiver.frames record.seq record.payload bounded settled
  unfold receive
  split <;> simp_all

theorem receive_tracks {receiver : Receiver}
    (tracks : Tracks receiver.frames receiver.released receiver.accepted)
    (safe : ¬ DrainExhausts receiver.frames record.seq) :
    Tracks (receive receiver record).frames (receive receiver record).released
      (receive receiver record).accepted := by
  unfold receive
  have step := push_step receiver.frames record.seq record.payload
  generalize push receiver.frames record.seq record.payload = outcome at step ⊢
  cases step with
  | duplicate seen =>
    simpa using tracks_duplicate _ _ _ record tracks seen
  | outsideWindow | bufferFull | exhausted => exact tracks
  | buffer future fresh _ _ =>
    simpa using tracks_buffer _ _ _ record tracks fresh future
      (receiver.frames.pendingBytes + record.payload.length)
  | release expected fresh room =>
    have started := tracks_expected _ _ _ record tracks fresh expected room
    generalize drained :
      drain { receiver.frames with nextSeq := receiver.frames.nextSeq + 1 }
        [record.payload] = outcome
    match outcome, drained with
    | (frames, .ok run), drained => exact drain_tracks _ _ _ _ started drained
    | (frames, .error error), drained =>
      exact absurd (drainExhausts_of_error _ _ expected room drained) safe

theorem receiverStart_bounded : Bounded receiverStart.frames ∧ Settled receiverStart.frames := by
  refine ⟨⟨?_, rfl, Nat.zero_le _⟩, AList.notMem_empty _⟩
  intro key member
  exact absurd member (AList.notMem_empty key)

theorem receiverStart_tracks :
    Tracks receiverStart.frames receiverStart.released receiverStart.accepted :=
  ⟨rfl, fun _ _ => rfl⟩

theorem receiveAll_append :
    receiveAll (records ++ [record]) = receive (receiveAll records) record := by
  simp [receiveAll]

theorem receiveAll_bounded :
    Bounded (receiveAll records).frames ∧ Settled (receiveAll records).frames := by
  induction records using reverseRecOn with
  | nil => exact receiverStart_bounded
  | append_singleton records record ih =>
    rw [receiveAll_append]
    exact receive_bounded _ record ih.1 ih.2

theorem receiveAll_tracks
    (safe : ∀ before record after, records = before ++ record :: after →
      ¬ DrainExhausts (receiveAll before).frames record.seq) :
    Tracks (receiveAll records).frames (receiveAll records).released
      (receiveAll records).accepted := by
  induction records using reverseRecOn with
  | nil => exact receiverStart_tracks
  | append_singleton records record ih =>
    rw [receiveAll_append]
    apply receive_tracks
    · apply ih
      intro before earlier after split
      exact safe before earlier (after ++ [record]) (by simp [split])
    · exact safe records record [] rfl

def FirstMissing (arrived : List Record) (gap : Nat) : Prop :=
  (∀ index < gap, ∃ record ∈ arrived, record.seq.toNat = index) ∧
    ∀ record ∈ arrived, record.seq.toNat ≠ gap

def lateBytes (arrived : List Record) (gap : Nat) : Nat :=
  ((arrived.filter (fun record => gap < record.seq.toNat)).map
    (fun record => record.payload.length)).sum

/-- Every record that arrives ahead of the first missing one is at most 64
numbers early and fits, with the others that are early, into one mebibyte. -/
def WithinLimits : Prop :=
  ∀ before record after, records = before ++ record :: after →
    ∀ gap, FirstMissing before gap → gap < record.seq.toNat →
      record.seq.toNat ≤ gap + maxReorderDistance.toNat ∧
        lateBytes before gap + record.payload.length ≤ maxPendingBytes

theorem firstAccepted_isSome (index : Nat) :
    (firstAccepted accepted index).isSome ↔ ∃ record ∈ accepted, record.seq.toNat = index := by
  simp [firstAccepted]

theorem tracks_firstMissing (tracks : Tracks frames released accepted) (settled : Settled frames) :
    FirstMissing accepted frames.nextSeq.toNat := by
  refine ⟨?_, ?_⟩
  · intro index below
    exact (firstAccepted_isSome accepted index).mp (tracks_taken _ _ _ tracks below)
  · intro record member same
    have present := (firstAccepted_isSome accepted _).mpr ⟨record, member, same⟩
    rw [tracks.buffered frames.nextSeq (Nat.le_refl _), AList.lookup_isSome] at present
    exact settled present

theorem heldBytes_congr (left right : AList (fun _ : UInt32 => Payload))
    (same : ∀ key, left.lookup key = right.lookup key) : heldBytes left = heldBytes right := by
  have equal : left.toFinmap = right.toFinmap := by
    apply Finmap.ext_lookup
    intro key
    simpa using same key
  exact ((AList.toFinmap_eq.mp equal).map _).sum_eq

def entryOf (record : Record) : Sigma (fun _ : UInt32 => Payload) := ⟨record.seq, record.payload⟩

theorem dlookup_late (arrived : List Record) (gap : Nat) (key : UInt32) :
    ((arrived.filter (fun record => gap < record.seq.toNat)).map entryOf).dlookup key =
      if gap < key.toNat then firstAccepted arrived key.toNat else none := by
  induction arrived with
  | nil => simp [firstAccepted]
  | cons record arrived ih =>
    by_cases same : record.seq = key
    · subst same
      by_cases late : gap < record.seq.toNat
      · simp [late, firstAccepted, entryOf]
      · simpa [late] using ih
    · have apart : record.seq.toNat ≠ key.toNat := fun equal => same (UInt32.toNat_inj.mp equal)
      have skip : firstAccepted (record :: arrived) key.toNat = firstAccepted arrived key.toNat := by
        simp [firstAccepted, beq_false_of_ne apart]
      rw [skip, ← ih]
      by_cases late : gap < record.seq.toNat
      · have head : key ≠ (entryOf record).1 := Ne.symm same
        simp only [late, filter_cons]
        exact dlookup_cons_ne _ _ head
      · simp [late]

theorem nodupKeys_late {arrived : List Record} (gap : Nat)
    (distinct : (arrived.map (fun record => record.seq.toNat)).Nodup) :
    ((arrived.filter (fun record => gap < record.seq.toNat)).map entryOf).NodupKeys := by
  have seqs : (arrived.map Record.seq).Nodup := by
    apply Nodup.of_map UInt32.toNat
    simpa [comp_def] using distinct
  have keys : ((arrived.filter (fun record => gap < record.seq.toNat)).map entryOf).keys =
      (arrived.filter (fun record => gap < record.seq.toNat)).map Record.seq := by
    simp [keys, entryOf]
  rw [NodupKeys, keys]
  exact seqs.sublist (filter_sublist.map _)

theorem heldBytes_late (tracks : Tracks frames released accepted) (bounded : Bounded frames)
    (settled : Settled frames) (distinct : (accepted.map (fun record => record.seq.toNat)).Nodup) :
    heldBytes frames.pending = lateBytes accepted frames.nextSeq.toNat := by
  let late : AList (fun _ : UInt32 => Payload) := ⟨_, nodupKeys_late frames.nextSeq.toNat distinct⟩
  have same : heldBytes frames.pending = heldBytes late := by
    apply heldBytes_congr
    intro key
    have looked : late.lookup key = _ := dlookup_late accepted frames.nextSeq.toNat key
    rw [looked]
    split
    · rename_i above
      exact (tracks.buffered key (Nat.le_of_lt above)).symm
    · rename_i notAbove
      apply AList.lookup_eq_none.mpr
      intro member
      exact notAbove (above_of_settled frames bounded settled key member)
  rw [same]
  simp [late, heldBytes, lateBytes, entryOf, comp_def]

theorem receive_within {receiver : Receiver}
    (tracks : Tracks receiver.frames receiver.released receiver.accepted)
    (bounded : Bounded receiver.frames) (settled : Settled receiver.frames)
    (distinct : (receiver.accepted.map (fun record => record.seq.toNat)).Nodup)
    (notLast : record.seq.toNat + 1 < UInt32.size)
    (below : ∀ earlier ∈ receiver.accepted, earlier.seq.toNat + 1 < UInt32.size)
    (limits : receiver.frames.nextSeq.toNat < record.seq.toNat →
      record.seq.toNat ≤ receiver.frames.nextSeq.toNat + maxReorderDistance.toNat ∧
        lateBytes receiver.accepted receiver.frames.nextSeq.toNat + record.payload.length ≤
          maxPendingBytes) :
    (receive receiver record).accepted = receiver.accepted ++ [record] ∧
      ¬ DrainExhausts receiver.frames record.seq := by
  have safe : ¬ DrainExhausts receiver.frames record.seq := by
    rintro ⟨_, room, contiguous⟩
    have last : (4294967295 : UInt32).toNat = 4294967295 := rfl
    have member := contiguous 4294967295 (by rw [last]; simp only [UInt32.size] at room; omega)
    have reached := (bounded.window _ member).1
    rw [← AList.lookup_isSome, ← tracks.buffered _ reached, firstAccepted_isSome] at member
    obtain ⟨earlier, present, same⟩ := member
    have bound := below earlier present
    rw [same] at bound
    simp at bound
  refine ⟨?_, safe⟩
  have bytes := heldBytes_late _ _ _ tracks bounded settled distinct
  unfold receive
  have step := push_step receiver.frames record.seq record.payload
  generalize push receiver.frames record.seq record.payload = outcome at step ⊢
  cases step with
  | duplicate | buffer => rfl
  | outsideWindow far _ =>
    omega
  | bufferFull future _ excess =>
    have fits := (limits future).2
    rw [← bytes, ← bounded.bytes] at fits
    omega
  | exhausted expected _ full =>
    rw [expected] at notLast
    omega
  | release expected fresh room =>
    generalize drained :
      drain { receiver.frames with nextSeq := receiver.frames.nextSeq + 1 }
        [record.payload] = outcome
    match outcome, drained with
    | (frames, .ok run), _ => rfl
    | (frames, .error error), drained =>
      exact absurd (drainExhausts_of_error _ _ expected room drained) safe

structure Delivered (receiver : Receiver) (records : List Record) : Prop where
  accepted : receiver.accepted = records
  tracks : Tracks receiver.frames receiver.released receiver.accepted

theorem receiveAll_delivered (distinct : (records.map (fun record => record.seq.toNat)).Nodup)
    (below : ∀ record ∈ records, record.seq.toNat + 1 < UInt32.size)
    (limits : WithinLimits records) : Delivered (receiveAll records) records := by
  induction records using reverseRecOn with
  | nil => exact ⟨rfl, receiverStart_tracks⟩
  | append_singleton records record ih =>
    obtain ⟨accepted, tracks⟩ := ih
      ((sublist_append_left records [record]).map _ |>.nodup distinct)
      (fun earlier member => below earlier (mem_append_left _ member))
      (fun before earlier after split =>
        limits before earlier (after ++ [record]) (by simp [split]))
    obtain ⟨bounded, settled⟩ := receiveAll_bounded records
    have missing := tracks_firstMissing _ _ _ tracks settled
    rw [accepted] at missing
    obtain ⟨appended, safe⟩ := receive_within tracks bounded settled
      (by rw [accepted]; exact (sublist_append_left records [record]).map _ |>.nodup distinct)
      (below record (by simp))
      (by rw [accepted]; exact fun earlier member => below earlier (mem_append_left _ member))
      (by rw [accepted]; exact limits records record [] rfl _ missing)
    rw [receiveAll_append]
    refine ⟨?_, receive_tracks tracks safe⟩
    rw [appended, accepted]

theorem receiveAll_complete (n : Nat) (small : n < 4294967295)
    (complete : (records.map (fun record => record.seq.toNat)).Perm (List.range (n + 1)))
    (limits : WithinLimits records) :
    (receiveAll records).accepted = records ∧
      (receiveAll records).released.map some = (List.range (n + 1)).map (firstAccepted records) ∧
      (receiveAll records).frames.pending = ∅ := by
  have range (index : Nat) : (∃ record ∈ records, record.seq.toNat = index) ↔ index < n + 1 := by
    rw [← mem_range, ← complete.mem_iff, mem_map]
  have below : ∀ record ∈ records, record.seq.toNat < n + 1 :=
    fun record member => (range _).mp ⟨record, member, rfl⟩
  obtain ⟨accepted, tracks⟩ := receiveAll_delivered records
    (complete.nodup_iff.mpr nodup_range)
    (fun record member => by
      have bound := below record member
      simp only [UInt32.size]
      omega)
    limits
  obtain ⟨bounded, settled⟩ := receiveAll_bounded records
  obtain ⟨present, absent⟩ := tracks_firstMissing _ _ _ tracks settled
  rw [accepted] at present absent tracks
  have next : (receiveAll records).frames.nextSeq.toNat = n + 1 := by
    rcases Nat.lt_trichotomy (receiveAll records).frames.nextSeq.toNat (n + 1) with low | same | high
    · obtain ⟨record, member, equal⟩ := (range _).mpr low
      exact absurd equal (absent record member)
    · exact same
    · exact absurd ((range _).mp (present _ high)) (Nat.lt_irrefl _)
  refine ⟨accepted, ?_, ?_⟩
  · rw [← next]
    exact tracks.run
  · apply AList.ext
    apply eq_nil_iff_forall_not_mem.mpr
    intro entry member
    have key : entry.1 ∈ (receiveAll records).frames.pending :=
      AList.mem_keys.mpr (mem_keys_of_mem member)
    have above := above_of_settled _ bounded settled entry.1 key
    rw [← AList.lookup_isSome, ← tracks.buffered _ (Nat.le_of_lt above), firstAccepted_isSome,
      range] at key
    omega

/-- The relay's contract over every arrival order. Only the exhausted sequence
number, met while a gap is being closed, loses a run that was ready. -/
theorem records_released_in_order (records : List Record) :
    ((∀ before record after, records = before ++ record :: after →
        ¬ DrainExhausts (receiveAll before).frames record.seq) →
      (receiveAll records).released.map some =
        (List.range (receiveAll records).frames.nextSeq.toNat).map
          (firstAccepted (receiveAll records).accepted)) ∧
    ((∀ key ∈ (receiveAll records).frames.pending,
        (receiveAll records).frames.nextSeq.toNat < key.toNat ∧
          key.toNat ≤ (receiveAll records).frames.nextSeq.toNat + 64) ∧
      (receiveAll records).frames.pendingBytes = heldBytes (receiveAll records).frames.pending ∧
      (receiveAll records).frames.pendingBytes ≤ 1024 * 1024) ∧
    (∀ frames seq payload frames' error, push frames seq payload = (frames', .error error) →
      error = exceedsReorderWindow ∨ error = pendingBufferFull → frames' = frames) ∧
    (∀ n < 2 ^ 32 - 1, (records.map (fun record => record.seq.toNat)).Perm (List.range (n + 1)) →
      WithinLimits records →
      (receiveAll records).accepted = records ∧ (receiveAll records).released.map some =
          (List.range (n + 1)).map (firstAccepted records) ∧
        (receiveAll records).frames.pending = ∅) := by
  obtain ⟨bounded, settled⟩ := receiveAll_bounded records
  refine ⟨?_, ⟨?_, bounded.bytes, bounded.limit⟩, ?_, ?_⟩
  · intro safe
    exact (receiveAll_tracks records safe).run
  · intro key member
    exact ⟨above_of_settled _ bounded settled key member, (bounded.window key member).2⟩
  · intro frames seq payload frames' error rejected limit
    apply push_rejected frames rejected
    rcases limit with rfl | rfl <;> decide
  · intro n small complete limits
    exact receiveAll_complete records n small complete limits

def swapped : List Record := [⟨1, [7]⟩, ⟨0, [5]⟩]

theorem swapped_within : WithinLimits swapped := by
  intro before record after split gap missing early
  match before, split with
  | [], split =>
    obtain ⟨rfl, -⟩ := cons.inj split
    have first : gap = 0 := by
      by_contra positive
      obtain ⟨earlier, member, -⟩ := missing.1 0 (Nat.pos_of_ne_zero positive)
      simp at member
    subst first
    decide
  | [_], split =>
    obtain ⟨-, split⟩ := cons.inj split
    obtain ⟨rfl, -⟩ := cons.inj split
    simp at early
  | _ :: _ :: before, split => simp [swapped] at split

theorem swapped_released : (receiveAll swapped).released = [[5], [7]] := by
  have complete := ((records_released_in_order swapped).2.2.2 1 (by decide) (by decide)
    swapped_within).2.1
  have payloads : (List.range (1 + 1)).map (firstAccepted swapped) = [[5], [7]].map some := by decide
  exact map_injective_iff.mpr (Option.some_injective _) complete

def inOrder (count : Nat) : List Record :=
  (List.range count).map (fun index => ⟨UInt32.ofNat index, []⟩)

theorem receiveAll_inOrder (count : Nat) (small : count < UInt32.size) :
    (receiveAll (inOrder count)).frames = ⟨UInt32.ofNat count, ∅, 0⟩ ∧
      (receiveAll (inOrder count)).released.length = count := by
  induction count with
  | zero => exact ⟨rfl, rfl⟩
  | succ count ih =>
    obtain ⟨frames, length⟩ := ih (by omega)
    have number : (UInt32.ofNat count).toNat = count := UInt32.toNat_ofNat_of_lt' (by omega)
    have next : UInt32.ofNat count + 1 = UInt32.ofNat (count + 1) := by
      apply UInt32.toNat_inj.mp
      rw [toNat_succ _ (by rw [number]; exact small), number]
      exact (UInt32.toNat_ofNat_of_lt' small).symm
    have split : inOrder (count + 1) = inOrder count ++ [⟨UInt32.ofNat count, []⟩] := by
      simp [inOrder, range_succ]
    have pushed : push ⟨UInt32.ofNat count, ∅, 0⟩ (UInt32.ofNat count) [] =
        (⟨UInt32.ofNat (count + 1), ∅, 0⟩, .ok [[]]) := by
      have moved : advance ⟨UInt32.ofNat count, ∅, 0⟩ =
          (⟨UInt32.ofNat (count + 1), ∅, 0⟩, .ok ()) := by
        simp only [advance, number, small, if_true, next]
      unfold push
      rw [if_neg (by simp), if_neg (by simp), moved]
      exact drain_none _ _ rfl
    rw [split, receiveAll_append, receive, frames, pushed]
    exact ⟨rfl, by simp [length]⟩

def exhaustingRecords (count : Nat) : List Record :=
  inOrder count ++ [⟨4294967295, []⟩] ++ [⟨4294967294, []⟩]

def gapFrames : OrderedCiphertextFrames := ⟨4294967294, ∅, 0⟩
def heldFrames : OrderedCiphertextFrames :=
  ⟨4294967294, (∅ : AList (fun _ : UInt32 => Payload)).insert 4294967295 [], 0⟩
def lastFrames : OrderedCiphertextFrames := { heldFrames with nextSeq := 4294967295 }

theorem push_last_buffered : push gapFrames 4294967295 [] = (heldFrames, .ok []) := by
  unfold push
  rfl

theorem push_gap_exhausted :
    push heldFrames 4294967294 [] = (takeNext lastFrames [], .error sequenceExhausted) := by
  have found : lastFrames.pending.lookup lastFrames.nextSeq = some [] := AList.lookup_insert _
  have failed : advance (takeNext lastFrames []) =
      (takeNext lastFrames [], .error sequenceExhausted) := rfl
  have moved : advance heldFrames = (lastFrames, .ok ()) := rfl
  unfold push
  exact drain_stuck lastFrames [[]] found failed

theorem receiveAll_exhausting {count : Nat} (size : count = 4294967294) :
    (receiveAll (exhaustingRecords count)).frames.nextSeq = 4294967295 ∧
      (receiveAll (exhaustingRecords count)).released.length = count := by
  obtain ⟨frames, length⟩ := receiveAll_inOrder count (by rw [size]; decide)
  have start : (receiveAll (inOrder count)).frames = gapFrames := by
    rw [frames, size]
    rfl
  rw [exhaustingRecords, receiveAll_append, receiveAll_append]
  simp only [receive, start, push_last_buffered, push_gap_exhausted, append_nil]
  exact ⟨rfl, length⟩

/-- The run that closes the gap is dropped with the error, but `nextSeq` has moved past it. -/
theorem exhausted_run_is_lost :
    (receiveAll (exhaustingRecords 4294967294)).released.map some ≠
      (List.range (receiveAll (exhaustingRecords 4294967294)).frames.nextSeq.toNat).map
        (firstAccepted (receiveAll (exhaustingRecords 4294967294)).accepted) := by
  obtain ⟨next, length⟩ := receiveAll_exhausting rfl
  intro same
  have lengths := congrArg List.length same
  rw [length_map, length_map, length_range, length, next] at lengths
  exact absurd lengths (by decide)

end OpenInterpreter.OrderedCiphertext
