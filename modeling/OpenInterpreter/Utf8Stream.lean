import Mathlib.Data.List.Forall2
import Mathlib.Data.UInt

/-! The byte stream over a text parser of `utils/stream-parser/src/utf8_stream.rs`. -/

namespace OpenInterpreter.Utf8Stream

open List

/-! ### Well-formed UTF-8 -/

/-- The continuation bytes a lead byte asks for, as bounds: the table of well-formed sequences. -/
def continuation (lead : UInt8) : Option (List (UInt8 × UInt8)) :=
  if lead < 0x80 then some []
  else if lead < 0xC2 then none
  else if lead < 0xE0 then some [(0x80, 0xBF)]
  else if lead = 0xE0 then some [(0xA0, 0xBF), (0x80, 0xBF)]
  else if lead = 0xED then some [(0x80, 0x9F), (0x80, 0xBF)]
  else if lead < 0xF0 then some [(0x80, 0xBF), (0x80, 0xBF)]
  else if lead = 0xF0 then some [(0x90, 0xBF), (0x80, 0xBF), (0x80, 0xBF)]
  else if lead < 0xF4 then some [(0x80, 0xBF), (0x80, 0xBF), (0x80, 0xBF)]
  else if lead = 0xF4 then some [(0x80, 0x8F), (0x80, 0xBF), (0x80, 0xBF)]
  else none

def Within (byte : UInt8) (bounds : UInt8 × UInt8) : Prop := bounds.1 ≤ byte ∧ byte ≤ bounds.2

instance (byte : UInt8) (bounds : UInt8 × UInt8) : Decidable (Within byte bounds) :=
  inferInstanceAs (Decidable (_ ∧ _))

variable (bytes : List UInt8)

def CodePoint : Prop :=
  ∃ lead rest bounds, bytes = lead :: rest ∧ continuation lead = some bounds ∧
    Forall₂ Within rest bounds

inductive Valid : List UInt8 → Prop where
  | nil : Valid []
  | cons {point bytes : List UInt8} : CodePoint point → Valid bytes → Valid (point ++ bytes)

def CutPoint : Prop :=
  ∃ rest, rest ≠ [] ∧ CodePoint (bytes ++ rest)

def Completable : Prop := ∃ more, Valid (bytes ++ more)

/-! ### `std::str::from_utf8` -/

/-- The error of `from_utf8`: no length when the input ends within a code point, and otherwise
the length of the sequence that cannot be continued. -/
structure Utf8Error where
  validUpTo : Nat
  errorLen : Option Nat
  deriving DecidableEq

def step (awaited : List (UInt8 × UInt8)) (byte : UInt8) : Option (List (UInt8 × UInt8)) :=
  match awaited with
  | [] => continuation byte
  | bounds :: awaited => if Within byte bounds then some awaited else none

def scan (start seen : Nat) (awaited : List (UInt8 × UInt8)) : List UInt8 → Option Utf8Error
  | [] => if awaited = [] then none else some ⟨start, none⟩
  | byte :: rest =>
    match step awaited byte with
    | none => some ⟨start, some (max 1 seen)⟩
    | some [] => scan (start + seen + 1) 0 [] rest
    | some awaited => scan start (seen + 1) awaited rest

def fromUtf8 : Option Utf8Error := scan 0 0 [] bytes

/-! ### The stream -/

inductive Utf8StreamParserError where
  | invalidUtf8 (validUpTo errorLen : Nat)
  | incompleteUtf8AtEof
  deriving DecidableEq

structure Utf8StreamParser (P : Type) where
  inner : P
  pendingUtf8 : List UInt8
  deriving DecidableEq

variable {P Chunk : Type} [Inhabited Chunk]

def Utf8StreamParser.new (inner : P) : Utf8StreamParser P := ⟨inner, []⟩

def Utf8StreamParser.pushBytes (pushStr : P → List UInt8 → Chunk × P)
    (parser : Utf8StreamParser P) (chunk : List UInt8) :
    Except Utf8StreamParserError Chunk × Utf8StreamParser P :=
  let oldLen := parser.pendingUtf8.length
  let pending := parser.pendingUtf8 ++ chunk
  match fromUtf8 pending with
  | none =>
    let out := pushStr parser.inner pending
    (.ok out.1, ⟨out.2, []⟩)
  | some ⟨validUpTo, some errorLen⟩ =>
    (.error (.invalidUtf8 validUpTo errorLen), ⟨parser.inner, pending.take oldLen⟩)
  | some ⟨validUpTo, none⟩ =>
    if validUpTo = 0 then (.ok default, ⟨parser.inner, pending⟩)
    else
      match fromUtf8 (pending.take validUpTo) with
      | some error =>
        (.error (.invalidUtf8 error.validUpTo (error.errorLen.getD 0)),
          ⟨parser.inner, pending.take oldLen⟩)
      | none =>
        let out := pushStr parser.inner (pending.take validUpTo)
        (.ok out.1, ⟨out.2, pending.drop validUpTo⟩)

def Utf8StreamParser.pushAll (pushStr : P → List UInt8 → Chunk × P) (parser : Utf8StreamParser P) :
    List (List UInt8) → List (List UInt8) × Utf8StreamParser P
  | [] => ([], parser)
  | chunk :: chunks =>
    let pushed := parser.pushBytes pushStr chunk
    let later := pushed.2.pushAll pushStr chunks
    (if pushed.1.isOk then chunk :: later.1 else later.1, later.2)

/-! ### What the scan decides -/

variable {bytes seen : List UInt8} {awaited : List (UInt8 × UInt8)}

def run (awaited : List (UInt8 × UInt8)) (bytes : List UInt8) : Option (List (UInt8 × UInt8)) :=
  bytes.foldlM step awaited

theorem run_append (awaited : List (UInt8 × UInt8)) (left right : List UInt8) :
    run awaited (left ++ right) = (run awaited left).bind (run · right) := foldlM_append ..

theorem run_within (within : Forall₂ Within bytes awaited) : run awaited bytes = some [] := by
  induction within with
  | nil => rfl
  | cons first _ ih =>
    rw [run, foldlM_cons, step, if_pos first]
    exact ih

theorem run_codePoint {point : List UInt8} (wellFormed : CodePoint point) :
    run [] point = some [] := by
  obtain ⟨lead, rest, bounds, rfl, found, within⟩ := wellFormed
  rw [run, foldlM_cons, step, found]
  exact run_within within

theorem run_valid (valid : Valid bytes) : run [] bytes = some [] := by
  induction valid with
  | nil => rfl
  | cons wellFormed _ ih => rw [run_append, run_codePoint wellFormed, Option.bind_some, ih]

theorem run_of_completable (completable : Completable bytes) : run [] bytes ≠ none := by
  obtain ⟨more, valid⟩ := completable
  intro stuck
  have whole := run_valid valid
  rw [run_append, stuck] at whole
  cases whole

theorem scan_eq (start seen : Nat) (awaited : List (UInt8 × UInt8)) (bytes : List UInt8) :
    match run awaited bytes with
    | none => ∃ upTo length, scan start seen awaited bytes = some ⟨upTo, some length⟩
    | some [] => scan start seen awaited bytes = none
    | some (_ :: _) => ∃ upTo, scan start seen awaited bytes = some ⟨upTo, none⟩ := by
  induction bytes generalizing start seen awaited with
  | nil =>
    cases awaited with
    | nil => rfl
    | cons bounds awaited => exact ⟨start, rfl⟩
  | cons byte bytes ih =>
    rw [run, foldlM_cons, scan]
    cases step awaited byte with
    | none => exact ⟨start, max 1 seen, rfl⟩
    | some next =>
      cases next with
      | nil => exact ih (start + seen + 1) 0 []
      | cons bounds next => exact ih start (seen + 1) (bounds :: next)

theorem continuation_bounds {lead : UInt8} {bounds : List (UInt8 × UInt8)}
    (found : continuation lead = some bounds) :
    bounds.length ≤ 3 ∧ ∀ range ∈ bounds, range.1 ≤ range.2 := by
  unfold continuation at found
  repeat' split at found
  all_goals cases found
  all_goals simp

theorem CutPoint.length_le (cut : CutPoint bytes) : bytes.length ≤ 3 := by
  obtain ⟨rest, more, lead, tail, bounds, whole, found, within⟩ := cut
  have size := congrArg List.length whole
  rw [length_append, length_cons, within.length_eq] at size
  have := length_pos_iff.mpr more
  have := (continuation_bounds found).1
  omega

theorem cutPoint_nil : CutPoint [] := ⟨[0], cons_ne_nil _ _, 0, [], [], rfl, rfl, .nil⟩

structure Awaits (seen : List UInt8) (awaited : List (UInt8 × UInt8)) : Prop where
  completed : ∀ rest, Forall₂ Within rest awaited → CodePoint (seen ++ rest)
  filled : ∀ bounds ∈ awaited, bounds.1 ≤ bounds.2

def AtPoint (seen : List UInt8) (awaited : List (UInt8 × UInt8)) : Prop :=
  seen = [] ∧ awaited = [] ∨ awaited ≠ [] ∧ Awaits seen awaited

theorem Awaits.cutPoint (awaits : Awaits seen awaited) (more : awaited ≠ []) : CutPoint seen := by
  refine ⟨awaited.map Prod.fst, by simpa using more, awaits.completed _ ?_⟩
  rw [forall₂_map_left_iff, forall₂_same]
  exact fun bounds member => ⟨UInt8.le_refl _, awaits.filled bounds member⟩

theorem AtPoint.step {next : List (UInt8 × UInt8)} {byte : UInt8} (point : AtPoint seen awaited)
    (taken : step awaited byte = some next) : Awaits (seen ++ [byte]) next := by
  rcases point with ⟨rfl, rfl⟩ | ⟨more, awaits⟩
  · exact ⟨fun rest within => ⟨byte, rest, next, rfl, taken, within⟩, (continuation_bounds taken).2⟩
  · cases awaited with
    | nil => exact absurd rfl more
    | cons bounds awaited =>
      rw [Utf8Stream.step] at taken
      split at taken
      · rename_i inside
        cases taken
        refine ⟨fun rest within => ?_, fun range member =>
          awaits.filled range (mem_cons_of_mem _ member)⟩
        rw [append_assoc]
        exact awaits.completed _ (.cons inside within)
      · cases taken

theorem scan_split (start : Nat) (bytes : List UInt8) (point : AtPoint seen awaited) :
    (scan start seen.length awaited bytes = none → Valid (seen ++ bytes)) ∧
      ∀ upTo, scan start seen.length awaited bytes = some ⟨upTo, none⟩ →
        ∃ front cut, seen ++ bytes = front ++ cut ∧ Valid front ∧ CutPoint cut ∧
          upTo = start + front.length := by
  induction bytes generalizing start seen awaited with
  | nil =>
    rcases point with ⟨rfl, rfl⟩ | ⟨more, awaits⟩
    · exact ⟨fun _ => .nil, nofun⟩
    · rw [scan, if_neg more, append_nil]
      refine ⟨nofun, fun upTo found => ?_⟩
      cases found
      exact ⟨[], seen, rfl, .nil, awaits.cutPoint more, rfl⟩
  | cons byte bytes ih =>
    have whole : seen ++ byte :: bytes = seen ++ [byte] ++ bytes := by simp
    rw [scan, whole]
    cases taken : Utf8Stream.step awaited byte with
    | none => exact ⟨nofun, nofun⟩
    | some next =>
      have awaits := point.step taken
      cases next with
      | nil =>
        have wellFormed : CodePoint (seen ++ [byte]) := by
          simpa using awaits.completed [] .nil
        obtain ⟨valid, split⟩ := ih (start + seen.length + 1) (.inl ⟨rfl, rfl⟩)
        refine ⟨fun done => .cons wellFormed (valid done), fun upTo found => ?_⟩
        obtain ⟨front, cut, rest, frontValid, cutPoint, rfl⟩ := split upTo found
        rw [nil_append] at rest
        refine ⟨seen ++ [byte] ++ front, cut, ?_, .cons wellFormed frontValid, cutPoint, ?_⟩
        · rw [rest, append_assoc _ front]
        · simp only [length_append, length_singleton]
          omega
      | cons bounds next =>
        have later := ih start (.inr ⟨cons_ne_nil _ _, awaits⟩)
        rwa [length_append] at later

/-! ### What a chunk does -/

variable (pushStr : P → List UInt8 → Chunk × P)

def fed (inner : P) (texts : List (List UInt8)) : P :=
  texts.foldl (fun inner text => (pushStr inner text).2) inner

structure Accepted (parser : Utf8StreamParser P) (chunk : List UInt8)
    (after : Utf8StreamParser P) : Prop where
  texts : ∃ texts, (∀ text ∈ texts, Valid text) ∧ after.inner = fed pushStr parser.inner texts ∧
    parser.pendingUtf8 ++ chunk = texts.flatten ++ after.pendingUtf8
  cut : CutPoint after.pendingUtf8
  completable : Completable (parser.pendingUtf8 ++ chunk)

theorem Valid.append {left right : List UInt8} (first : Valid left) (second : Valid right) :
    Valid (left ++ right) := by
  induction first with
  | nil => exact second
  | cons wellFormed _ ih =>
    rw [append_assoc]
    exact .cons wellFormed ih

theorem completable_of_cut {front cut : List UInt8} (valid : Valid front) (within : CutPoint cut) :
    Completable (front ++ cut) := by
  obtain ⟨rest, -, wellFormed⟩ := within
  refine ⟨rest, ?_⟩
  rw [append_assoc, ← append_nil (cut ++ rest)]
  exact valid.append (.cons wellFormed .nil)

variable (parser : Utf8StreamParser P)

theorem pushBytes_spec (chunk : List UInt8) :
    (parser.pushBytes pushStr chunk).1.isOk = true ∧
        Accepted pushStr parser chunk (parser.pushBytes pushStr chunk).2 ∨
      (parser.pushBytes pushStr chunk).1.isOk = false ∧
        ¬ Completable (parser.pendingUtf8 ++ chunk) ∧
        (parser.pushBytes pushStr chunk).2 = parser := by
  obtain ⟨valid, split⟩ := scan_split 0 (parser.pendingUtf8 ++ chunk) (.inl ⟨rfl, rfl⟩)
  have kind := scan_eq 0 0 [] (parser.pendingUtf8 ++ chunk)
  rw [← fromUtf8] at kind
  rw [nil_append] at valid split
  unfold Utf8StreamParser.pushBytes
  dsimp only
  cases state : run [] (parser.pendingUtf8 ++ chunk) with
  | none =>
    rw [state] at kind
    obtain ⟨upTo, length, found⟩ := kind
    rw [found]
    exact .inr ⟨rfl, fun completable => run_of_completable completable state, by rw [take_left]⟩
  | some awaited =>
    rw [state] at kind
    left
    cases awaited with
    | nil =>
      rw [show fromUtf8 _ = none from kind]
      exact ⟨rfl, ⟨[parser.pendingUtf8 ++ chunk], by simpa using valid kind, rfl, by simp⟩,
        cutPoint_nil, [], by simpa using valid kind⟩
    | cons bounds awaited =>
      obtain ⟨upTo, found⟩ := kind
      obtain ⟨front, cut, whole, frontValid, within, upTo_eq⟩ := split upTo found
      rw [Nat.zero_add] at upTo_eq
      have completable : Completable (parser.pendingUtf8 ++ chunk) :=
        whole ▸ completable_of_cut frontValid within
      rw [found, upTo_eq]
      dsimp only
      split
      · rename_i empty
        rw [length_eq_zero_iff.mp empty] at whole
        exact ⟨rfl, ⟨[], by simp, rfl, rfl⟩, whole ▸ within, completable⟩
      · have again : fromUtf8 front = none := by
          have kind := scan_eq 0 0 [] front
          rwa [run_valid frontValid] at kind
        have taken : (parser.pendingUtf8 ++ chunk).take front.length = front := by
          rw [whole, take_left]
        have dropped : (parser.pendingUtf8 ++ chunk).drop front.length = cut := by
          rw [whole, drop_left]
        rw [taken, again, dropped]
        exact ⟨rfl, ⟨[front], by simpa using frontValid, rfl, by simpa using whole⟩, within,
          completable⟩

theorem pushAll_texts (chunks : List (List UInt8)) (cut : CutPoint parser.pendingUtf8) :
    (∃ texts, (∀ text ∈ texts, Valid text) ∧
      (parser.pushAll pushStr chunks).2.inner = fed pushStr parser.inner texts ∧
      texts.flatten ++ (parser.pushAll pushStr chunks).2.pendingUtf8 =
        parser.pendingUtf8 ++ (parser.pushAll pushStr chunks).1.flatten) ∧
      CutPoint (parser.pushAll pushStr chunks).2.pendingUtf8 := by
  induction chunks generalizing parser with
  | nil => exact ⟨⟨[], by simp, rfl, by simp [Utf8StreamParser.pushAll]⟩, cut⟩
  | cons chunk chunks ih =>
    rw [Utf8StreamParser.pushAll]
    rcases pushBytes_spec pushStr parser chunk with ⟨ok, accepted⟩ | ⟨failed, -, same⟩
    · obtain ⟨texts, valid, inner, bytes⟩ := accepted.texts
      obtain ⟨⟨later, laterValid, laterInner, laterBytes⟩, laterCut⟩ := ih _ accepted.cut
      refine ⟨⟨texts ++ later, forall_mem_append.mpr ⟨valid, laterValid⟩, ?_, ?_⟩, laterCut⟩
      · rw [laterInner, inner, fed, fed, fed, foldl_append]
      · rw [if_pos ok, flatten_append, append_assoc, laterBytes, ← append_assoc,
          ← bytes, flatten_cons, append_assoc]
    · rw [same, failed]
      exact ih parser cut

/-- A stream of chunks is exact and transactional: what the inner parser was given and what is
pending are the accepted chunks, and a chunk that fits no valid text changes nothing. -/
theorem stream_exact (inner : P) (chunks : List (List UInt8)) :
    let after := ((Utf8StreamParser.new inner).pushAll pushStr chunks).2
    (∃ texts, (∀ text ∈ texts, Valid text) ∧ after.inner = fed pushStr inner texts ∧
      texts.flatten ++ after.pendingUtf8 =
        ((Utf8StreamParser.new inner).pushAll pushStr chunks).1.flatten) ∧
    CutPoint after.pendingUtf8 ∧ after.pendingUtf8.length ≤ 3 ∧
    ∀ chunk, ((after.pushBytes pushStr chunk).1.isOk = false ↔
        ¬ Completable (after.pendingUtf8 ++ chunk)) ∧
      ((after.pushBytes pushStr chunk).1.isOk = false →
        (after.pushBytes pushStr chunk).2 = after) := by
  intro after
  obtain ⟨texts, cut⟩ := pushAll_texts pushStr (.new inner) chunks cutPoint_nil
  refine ⟨texts, cut, cut.length_le, fun chunk => ?_⟩
  rcases pushBytes_spec pushStr after chunk with ⟨ok, accepted⟩ | ⟨failed, stuck, same⟩
  · rw [ok]
    exact ⟨⟨nofun, fun stuck => absurd accepted.completable stuck⟩, nofun⟩
  · exact ⟨⟨fun _ => stuck, fun _ => failed⟩, fun _ => same⟩

/-! ### The end of the stream -/

variable (finishInner : P → Chunk × P) (append : Chunk → Chunk → Chunk)

def Utf8StreamParser.finish (parser : Utf8StreamParser P) :
    Except Utf8StreamParserError Chunk × Utf8StreamParser P :=
  match fromUtf8 parser.pendingUtf8 with
  | some ⟨validUpTo, some errorLen⟩ => (.error (.invalidUtf8 validUpTo errorLen), parser)
  | some ⟨_, none⟩ => (.error .incompleteUtf8AtEof, parser)
  | none =>
    let out :=
      if parser.pendingUtf8 = [] then (default, parser.inner)
      else pushStr parser.inner parser.pendingUtf8
    let tail := finishInner out.2
    (.ok (append out.1 tail.1), ⟨tail.2, []⟩)

theorem run_front {front rest : List UInt8} (within : Forall₂ Within (front ++ rest) awaited) :
    run awaited front = some (awaited.drop front.length) := by
  induction front generalizing awaited with
  | nil => rfl
  | cons byte front ih =>
    cases within with
    | cons first later =>
      rw [run, foldlM_cons, step, if_pos first]
      exact ih later

theorem run_cut {cut : List UInt8} (within : CutPoint cut) (begun : cut ≠ []) :
    ∃ bounds awaited, run [] cut = some (bounds :: awaited) := by
  obtain ⟨rest, more, lead, later, bounds, whole, found, within⟩ := within
  cases cut with
  | nil => exact absurd rfl begun
  | cons byte cut =>
    rw [cons_append] at whole
    obtain ⟨rfl, rfl⟩ := cons.inj whole
    have left : bounds.drop cut.length ≠ [] := by
      have lengths := within.length_eq
      have positive := length_pos_iff.mpr more
      rw [length_append] at lengths
      rw [ne_eq, drop_eq_nil_iff]
      omega
    obtain ⟨first, awaited, shape⟩ := exists_cons_of_ne_nil left
    refine ⟨first, awaited, ?_⟩
    rw [run, foldlM_cons, step, found, ← shape]
    exact run_front within

theorem valid_flatten {texts : List (List UInt8)} (valid : ∀ text ∈ texts, Valid text) :
    Valid texts.flatten := by
  induction texts with
  | nil => exact .nil
  | cons text texts ih =>
    obtain ⟨first, rest⟩ := forall_mem_cons.mp valid
    exact first.append (ih rest)

/-- However bytes are cut into chunks, the stream finishes exactly if the accepted ones are valid
UTF-8, and the inner parser has then been given all of them. Otherwise the text is incomplete,
and the parser stays as it is. -/
theorem finish_exact (inner : P) (chunks : List (List UInt8)) :
    let pushed := (Utf8StreamParser.new inner).pushAll pushStr chunks
    let finished := pushed.2.finish pushStr finishInner append
    (Valid pushed.1.flatten → finished.1.isOk ∧ ∃ texts, texts.flatten = pushed.1.flatten ∧
      (∀ text ∈ texts, Valid text) ∧
      finished.2 = .new (finishInner (fed pushStr inner texts)).2) ∧
    (¬ Valid pushed.1.flatten → finished = (.error .incompleteUtf8AtEof, pushed.2)) := by
  intro pushed finished
  obtain ⟨⟨texts, valid, fedInner, bytes⟩, cut⟩ :=
    pushAll_texts pushStr (.new inner) chunks cutPoint_nil
  change texts.flatten ++ pushed.2.pendingUtf8 = pushed.1.flatten at bytes
  by_cases empty : pushed.2.pendingUtf8 = []
  · rw [empty, append_nil] at bytes
    have done : finished = (.ok (append default (finishInner pushed.2.inner).1),
        ⟨(finishInner pushed.2.inner).2, []⟩) := by
      simp [finished, Utf8StreamParser.finish, empty, fromUtf8, scan]
    rw [done, ← bytes]
    exact ⟨fun _ => ⟨rfl, texts, rfl, valid, by rw [fedInner]; rfl⟩,
      fun invalid => absurd (valid_flatten valid) invalid⟩
  · obtain ⟨bounds, awaited, stopped⟩ := run_cut cut empty
    have kind := scan_eq 0 0 [] pushed.2.pendingUtf8
    rw [stopped] at kind
    obtain ⟨upTo, found⟩ := kind
    constructor
    · intro whole
      have complete := run_valid whole
      rw [← bytes, run_append, run_valid (valid_flatten valid), Option.bind_some, stopped]
        at complete
      cases complete
    · intro _
      simp [finished, Utf8StreamParser.finish, fromUtf8, found]

end OpenInterpreter.Utf8Stream
