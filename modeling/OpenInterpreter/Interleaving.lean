import Mathlib.Algebra.GroupWithZero.Nat
import Mathlib.Data.List.Basic
import Mathlib.Data.List.Induction

/-! Processes that take turns on one shared state. A process is its local state; a step reads and
writes the shared state and the local state of one process. The history of a world lists its steps. -/

namespace OpenInterpreter.Interleaving

open List Option

structure Moment (Shared Local Input : Type) where
  before : Shared
  source : Local
  input : Input
  after : Shared
  target : Local

structure World (Shared Local Input : Type) where
  shared : Shared
  locals : List Local := []
  history : List (Moment Shared Local Input) := []

inductive Move (Request Input : Type) where
  | enter (request : Request)
  | act (index : Nat) (input : Input)

def AtEach {Event : Type} (holds : List Event → Event → Prop) (history : List Event) : Prop :=
  ∀ earlier event later, history = earlier ++ event :: later → holds earlier event

variable {Event : Type}

theorem atEach_nil (holds : List Event → Event → Prop) : AtEach holds [] := by
  intro earlier event later parts
  simp at parts

theorem concat_eq_append_cons {history earlier later : List Event}
    {event middle : Event} (parts : history ++ [event] = earlier ++ middle :: later) :
    later = [] ∧ history = earlier ∧ event = middle ∨
      ∃ rest, later = rest ++ [event] ∧ history = earlier ++ middle :: rest := by
  rcases eq_nil_or_concat' later with rfl | ⟨rest, last, rfl⟩
  · obtain ⟨same, ⟨⟩⟩ := append_inj' parts rfl
    exact .inl ⟨rfl, same, rfl⟩
  · rw [← cons_append, ← append_assoc] at parts
    obtain ⟨same, ⟨⟩⟩ := append_inj' parts rfl
    exact .inr ⟨rest, rfl, same⟩

theorem AtEach.append {holds : List Event → Event → Prop} {history : List Event}
    {event : Event} (past : AtEach holds history) (now : holds history event) :
    AtEach holds (history ++ [event]) := by
  intro earlier middle later parts
  rcases concat_eq_append_cons parts with ⟨_, rfl, rfl⟩ | ⟨rest, _, same⟩
  · exact now
  · exact past earlier middle rest same

section

variable {Shared Local Input Request : Type}
  (step : Shared → Local → Input → Option (Shared × Local)) (start : Request → Local)

def move (world : World Shared Local Input) :
    Move Request Input → Option (World Shared Local Input)
  | .enter request => some { world with locals := world.locals ++ [start request] }
  | .act index input => do
      let source ← world.locals[index]?
      let (after, target) ← step world.shared source input
      return {
        shared := after
        locals := world.locals.set index target
        history := world.history ++ [⟨world.shared, source, input, after, target⟩] }

def run (world : World Shared Local Input) (moves : List (Move Request Input)) :
    Option (World Shared Local Input) :=
  moves.foldlM (move step start) world

variable {world : World Shared Local Input} {index : Nat} {source target : Local} {input : Input}

variable {step} in
theorem move_act {after : Shared} (present : world.locals[index]? = some source)
    (stepped : step world.shared source input = some (after, target)) :
    ∃ next, move step start world (.act index input) = some next ∧ next.shared = after ∧
      next.locals = world.locals.set index target ∧ next.locals[index]? = some target := by
  have inside := (List.getElem?_eq_some_iff.mp present).1
  refine ⟨⟨after, world.locals.set index target,
    world.history ++ [⟨world.shared, source, input, after, target⟩]⟩, ?_, rfl, rfl, ?_⟩
  · simp [move, present, stepped]
  · exact getElem?_set_self inside

variable {next : World Shared Local Input}

theorem act_cases (moved : move step start world (.act index input) = some next) :
    ∃ (source : Local) (after : Shared) (target : Local), world.locals[index]? = some source ∧
      step world.shared source input = some (after, target) ∧
      next = ⟨after, world.locals.set index target,
        world.history ++ [⟨world.shared, source, input, after, target⟩]⟩ := by
  simp only [move, Option.bind_eq_bind, Option.bind_eq_some_iff, Option.pure_def,
    Option.some.injEq] at moved
  obtain ⟨source, present, ⟨after, target⟩, stepped, same⟩ := moved
  exact ⟨source, after, target, present, stepped, same.symm⟩

theorem move_cases {next_move : Move Request Input}
    (moved : move step start world next_move = some next) :
    (∃ request, next = { world with locals := world.locals ++ [start request] }) ∨
      ∃ (index : Nat) (source : Local) (input : Input) (after : Shared) (target : Local),
        world.locals[index]? = some source ∧
        step world.shared source input = some (after, target) ∧
        next = ⟨after, world.locals.set index target,
          world.history ++ [⟨world.shared, source, input, after, target⟩]⟩ := by
  cases next_move with
  | enter request =>
    refine .inl ⟨request, ?_⟩
    simpa [move] using moved.symm
  | act index input =>
    obtain ⟨source, after, target, parts⟩ := act_cases step start moved
    exact .inr ⟨index, source, input, after, target, parts⟩

variable {holds : World Shared Local Input → Prop} {moves : List (Move Request Input)}

theorem run_keeps
    (keeps : ∀ world next_move next, holds world → move step start world next_move = some next →
      holds next) {last : World Shared Local Input}
    (ran : run step start world moves = some last) (initially : holds world) : holds last := by
  induction moves generalizing world with
  | nil =>
    have same : world = last := by simpa [run] using ran
    exact same ▸ initially
  | cons first rest ih =>
    rw [run, foldlM_cons, bind_eq_bind, bind_eq_some_iff] at ran
    obtain ⟨middle, moved, later⟩ := ran
    exact ih later (keeps world first middle initially moved)

variable (common : Shared → List (Moment Shared Local Input) → Prop)
  (own : Shared → List (Moment Shared Local Input) → Local → Prop) (apart : Local → Local → Prop)

/-- `common` is about the shared state, `own` about one process and `apart` about two. A step
keeps them when it leaves its own process in order and does not disturb one that is apart from it. -/
structure Invariant : Prop where
  symmetric : ∀ left right, apart left right → apart right left
  start_own : ∀ shared history request, common shared history → own shared history (start request)
  start_apart : ∀ shared history request other, own shared history other →
    apart (start request) other
  step_shared : ∀ shared history source input after target, common shared history →
    own shared history source → step shared source input = some (after, target) →
    common after (history ++ [⟨shared, source, input, after, target⟩])
  step_own : ∀ shared history source input after target, common shared history →
    own shared history source → step shared source input = some (after, target) →
    own after (history ++ [⟨shared, source, input, after, target⟩]) target
  step_other : ∀ shared history source input after target other, common shared history →
    own shared history source → own shared history other → apart source other →
    step shared source input = some (after, target) →
    own after (history ++ [⟨shared, source, input, after, target⟩]) other
  step_apart : ∀ shared history source input after target other, common shared history →
    own shared history source → own shared history other → apart source other →
    step shared source input = some (after, target) → apart target other

structure Holds (world : World Shared Local Input) : Prop where
  shared : common world.shared world.history
  each : ∀ (index : Nat) source, world.locals[index]? = some source →
    own world.shared world.history source
  pairs : ∀ (left right : Nat) source other, left ≠ right → world.locals[left]? = some source →
    world.locals[right]? = some other → apart source other

structure Balanced (stock incoming : Shared → Nat) (held : Local → Nat)
    (world : World Shared Local Input) : Prop where
  holds : Holds common own apart world
  sum : stock world.shared + (world.locals.map held).sum = incoming world.shared

variable {step start common own apart} {locals : List Local} {initial : Shared}

theorem getElem?_append_single {added found : Local}
    (present : (locals ++ [added])[index]? = some found) :
    index < locals.length ∧ locals[index]? = some found ∨ index = locals.length ∧ found = added := by
  rw [getElem?_append] at present
  split at present
  · next inside => exact .inl ⟨inside, present⟩
  · rw [getElem?_singleton] at present
    split at present
    · rw [some.injEq] at present
      exact .inr ⟨by omega, present.symm⟩
    · simp at present

theorem getElem?_set_cases {found : Local} {other : Nat}
    (present : (locals.set index target)[other]? = some found) :
    other = index ∧ found = target ∨ other ≠ index ∧ locals[other]? = some found := by
  rw [getElem?_set] at present
  split at present
  · next same =>
    split at present
    · rw [some.injEq] at present
      exact .inl ⟨same.symm, present.symm⟩
    · simp at present
  · next different => exact .inr ⟨fun same => different same.symm, present⟩

section

variable (invariant : Invariant step start common own apart)
include invariant

theorem Invariant.keeps_enter (holds : Holds common own apart world) (request : Request) :
    Holds common own apart { world with locals := world.locals ++ [start request] } := by
  refine ⟨holds.shared, ?_, ?_⟩
  · intro index source present
    cases getElem?_append_single present with
    | inl old => exact holds.each index source old.2
    | inr new => exact new.2 ▸ invariant.start_own _ _ request holds.shared
  · intro left right source other different atLeft atRight
    cases getElem?_append_single atLeft with
    | inl oldLeft =>
      cases getElem?_append_single atRight with
      | inl oldRight => exact holds.pairs left right source other different oldLeft.2 oldRight.2
      | inr newRight =>
        rw [newRight.2]
        exact invariant.symmetric _ _
          (invariant.start_apart _ _ request source (holds.each left source oldLeft.2))
    | inr newLeft =>
      cases getElem?_append_single atRight with
      | inl oldRight =>
        rw [newLeft.2]
        exact invariant.start_apart _ _ request other (holds.each right other oldRight.2)
      | inr newRight => exact absurd (newLeft.1.trans newRight.1.symm) different

theorem Invariant.keeps_act (holds : Holds common own apart world) {after : Shared}
    (present : world.locals[index]? = some source)
    (stepped : step world.shared source input = some (after, target)) :
    Holds common own apart ⟨after, world.locals.set index target,
      world.history ++ [⟨world.shared, source, input, after, target⟩]⟩ := by
  have ownSource := holds.each index source present
  refine ⟨invariant.step_shared _ _ _ _ _ _ holds.shared ownSource stepped, ?_, ?_⟩
  · intro position found located
    cases getElem?_set_cases located with
    | inl here =>
      rw [here.2]
      exact invariant.step_own _ _ _ _ _ _ holds.shared ownSource stepped
    | inr elsewhere =>
      exact invariant.step_other _ _ _ _ _ _ found holds.shared ownSource
        (holds.each position found elsewhere.2)
        (holds.pairs index position source found (Ne.symm elsewhere.1) present elsewhere.2) stepped
  · intro left right first second different atLeft atRight
    cases getElem?_set_cases atLeft with
    | inl hereLeft =>
      cases getElem?_set_cases atRight with
      | inl hereRight => exact absurd (hereLeft.1.trans hereRight.1.symm) different
      | inr elsewhere =>
        rw [hereLeft.2]
        exact invariant.step_apart _ _ _ _ _ _ second holds.shared ownSource
          (holds.each right second elsewhere.2)
          (holds.pairs index right source second (Ne.symm elsewhere.1) present elsewhere.2) stepped
    | inr elsewhereLeft =>
      cases getElem?_set_cases atRight with
      | inl hereRight =>
        rw [hereRight.2]
        exact invariant.symmetric _ _ (invariant.step_apart _ _ _ _ _ _ first holds.shared ownSource
          (holds.each left first elsewhereLeft.2)
          (holds.pairs index left source first (Ne.symm elsewhereLeft.1) present elsewhereLeft.2)
          stepped)
      | inr elsewhereRight =>
        exact holds.pairs left right first second different elsewhereLeft.2 elsewhereRight.2

theorem Invariant.holds_of_run (initially : common initial []) (moves : List (Move Request Input))
    (ran : run step start { shared := initial } moves = some world) :
    Holds common own apart world := by
  refine run_keeps step start ?_ ran ⟨initially, by simp, by simp⟩
  intro world next_move next holds moved
  rcases move_cases step start moved with ⟨request, rfl⟩ | ⟨index, source, input, after, target,
    present, stepped, rfl⟩
  · exact invariant.keeps_enter holds request
  · exact invariant.keeps_act holds present stepped

end

def Covered {Need : Type} (needs : Shared → Need → Prop) (meets : Local → Need → Prop)
    (world : World Shared Local Input) : Prop :=
  ∀ need, needs world.shared need → ∃ (index : Nat) (source : Local),
    world.locals[index]? = some source ∧ meets source need

theorem covered_of_run {Need : Type} {needs : Shared → Need → Prop} {meets : Local → Need → Prop}
    (steps : ∀ shared source input after target need,
      step shared source input = some (after, target) → needs after need →
      meets target need ∨ needs shared need ∧ ¬ meets source need)
    (initially : ∀ need, ¬ needs initial need) (moves : List (Move Request Input))
    (ran : run step start { shared := initial } moves = some world) :
    Covered needs meets world := by
  refine run_keeps step start ?_ ran (fun need needed => absurd needed (initially need))
  intro world next_move next covered moved need needed
  rcases move_cases step start moved with ⟨request, rfl⟩ | ⟨index, source, input, after, target,
    present, stepped, rfl⟩
  · obtain ⟨index, source, present, met⟩ := covered need needed
    have inside := (List.getElem?_eq_some_iff.mp present).1
    exact ⟨index, source, by rw [getElem?_append_left inside, present], met⟩
  · have inside := (List.getElem?_eq_some_iff.mp present).1
    cases steps _ _ _ _ _ need stepped needed with
    | inl met => exact ⟨index, target, by simp [inside], met⟩
    | inr earlier =>
      obtain ⟨position, other, located, met⟩ := covered need earlier.1
      have elsewhere : index ≠ position := by
        rintro rfl
        rw [present, some.injEq] at located
        exact earlier.2 (located ▸ met)
      exact ⟨position, other, by rw [getElem?_set_ne elsewhere, located], met⟩

theorem sum_set (weight : Local → Nat) (target : Local) (present : locals[index]? = some source) :
    ((locals.set index target).map weight).sum + weight source =
      (locals.map weight).sum + weight target := by
  induction locals generalizing index with
  | nil => simp at present
  | cons first rest ih =>
    cases index with
    | zero =>
      rw [getElem?_cons_zero, some.injEq] at present
      simp only [set_cons_zero, map_cons, sum_cons, present]
      omega
    | succ index =>
      have later := ih present
      simp only [set_cons_succ, map_cons, sum_cons]
      omega

theorem Invariant.balanced_of_run (invariant : Invariant step start common own apart)
    {stock incoming : Shared → Nat} {held : Local → Nat}
    (starts : ∀ request, held (start request) = 0)
    (steps : ∀ shared history source input after target, common shared history →
      own shared history source → step shared source input = some (after, target) →
      stock after + held target + incoming shared = stock shared + held source + incoming after)
    (initially : common initial []) (balanced : stock initial = incoming initial)
    (moves : List (Move Request Input))
    (ran : run step start { shared := initial } moves = some world) :
    Balanced common own apart stock incoming held world := by
  refine run_keeps step start ?_ ran
    ⟨⟨initially, by simp, by simp⟩, by simpa using balanced⟩
  intro world next_move next before moved
  rcases move_cases step start moved with ⟨request, rfl⟩ | ⟨index, source, input, after, target,
    present, stepped, rfl⟩
  · refine ⟨invariant.keeps_enter before.holds request, ?_⟩
    have sum := before.sum
    simp only [map_append, sum_append, map_cons, map_nil, sum_cons, sum_nil, starts]
    omega
  · refine ⟨invariant.keeps_act before.holds present stepped, ?_⟩
    have sum := before.sum
    have moved := steps _ _ _ _ _ _ before.holds.shared (before.holds.each index source present)
      stepped
    have replaced := sum_set held target present
    dsimp only
    omega

section moments

variable (step start) (initial : World Shared Local Input)

def Always (holds : World Shared Local Input → Prop) (moves : List (Move Request Input)) : Prop :=
  ∀ earlier later world, moves = earlier ++ later →
    run step start initial earlier = some world → holds world

def EachMove (safe : World Shared Local Input → Move Request Input → Prop)
    (moves : List (Move Request Input)) : Prop :=
  ∀ earlier next_move later world, moves = earlier ++ next_move :: later →
    run step start initial earlier = some world → safe world next_move

variable {step start initial} {next_move : Move Request Input} {last : World Shared Local Input}
  {safe : World Shared Local Input → Move Request Input → Prop}

theorem run_concat :
    run step start initial (moves ++ [next_move]) = some last ↔
      ∃ middle, run step start initial moves = some middle ∧
        move step start middle next_move = some last := by
  simp [run, bind_eq_some_iff]

theorem always_concat (ran : run step start initial (moves ++ [next_move]) = some last) :
    Always step start initial holds (moves ++ [next_move]) ↔
      Always step start initial holds moves ∧ holds last := by
  constructor
  · intro always
    refine ⟨?_, always _ [] last (append_nil _).symm ran⟩
    intro earlier later world parts
    exact always earlier (later ++ [next_move]) world (by rw [parts, append_assoc])
  · rintro ⟨always, atEnd⟩ earlier later world parts reached
    rcases eq_nil_or_concat later with rfl | ⟨rest, final, rfl⟩
    · rw [append_nil] at parts
      rw [← parts, ran, some.injEq] at reached
      exact reached ▸ atEnd
    · rw [concat_eq_append, ← append_assoc] at parts
      exact always earlier rest world (append_inj' parts rfl).1 reached

theorem eachMove_concat {middle : World Shared Local Input}
    (ran : run step start initial moves = some middle) :
    EachMove step start initial safe (moves ++ [next_move]) ↔
      EachMove step start initial safe moves ∧ safe middle next_move := by
  constructor
  · intro each
    refine ⟨?_, each moves next_move [] middle rfl ran⟩
    intro earlier between later world parts
    exact each earlier between (later ++ [next_move]) world (by rw [parts]; simp)
  · rintro ⟨each, last⟩ earlier between later world parts reached
    rcases eq_nil_or_concat later with rfl | ⟨rest, final, rfl⟩
    · obtain ⟨same, final⟩ := append_inj' parts rfl
      rw [← same, ran, some.injEq] at reached
      rw [cons.injEq] at final
      exact reached ▸ final.1 ▸ last
    · rw [concat_eq_append, ← cons_append, ← append_assoc] at parts
      exact each earlier between rest world (append_inj' parts rfl).1 reached

theorem eachMove_nil : EachMove step start initial safe [] := by
  intro earlier next_move later world parts
  simp at parts

theorem eachMove_cons {first : Move Request Input} {rest : List (Move Request Input)} :
    EachMove step start initial safe (first :: rest) ↔ safe initial first ∧
      ∀ next, move step start initial first = some next → EachMove step start next safe rest := by
  constructor
  · intro each
    refine ⟨each [] first rest initial rfl rfl, ?_⟩
    intro next moved earlier next_move later world parts reached
    refine each (first :: earlier) next_move later world (by rw [parts, cons_append]) ?_
    rw [run, foldlM_cons, moved]
    exact reached
  · rintro ⟨safely, each⟩ earlier next_move later world parts reached
    cases earlier with
    | nil =>
      obtain ⟨same, _⟩ := cons.inj parts
      have here : initial = world := by simpa [run] using reached
      exact here ▸ same ▸ safely
    | cons head earlier =>
      obtain ⟨same, others⟩ := cons.inj parts
      rw [run, foldlM_cons, bind_eq_bind, bind_eq_some_iff] at reached
      obtain ⟨next, moved, followed⟩ := reached
      exact each next (same ▸ moved) earlier next_move later world others followed

variable (step start safe) in
def EachFrom : World Shared Local Input → List (Move Request Input) → Prop
  | _, [] => True
  | world, first :: rest =>
    safe world first ∧ ∀ next ∈ move step start world first, EachFrom next rest

instance decidableEachFrom [∀ world next_move, Decidable (safe world next_move)] :
    ∀ (world : World Shared Local Input) (moves : List (Move Request Input)),
      Decidable (EachFrom step start safe world moves)
  | _, [] => isTrue trivial
  | world, first :: rest =>
    have (next : World Shared Local Input) : Decidable (EachFrom step start safe next rest) :=
      decidableEachFrom next rest
    inferInstanceAs (Decidable (_ ∧ ∀ next ∈ move step start world first, _))

theorem eachMove_iff_eachFrom :
    EachMove step start initial safe moves ↔ EachFrom step start safe initial moves := by
  induction moves generalizing initial with
  | nil => exact iff_of_true eachMove_nil trivial
  | cons first rest ih => simp only [eachMove_cons, ih, EachFrom, mem_def]

/-- What every safe move keeps holds all along a run of safe moves. -/
theorem always_of_eachMove
    (keeps : ∀ moves world next_move next, run step start initial moves = some world →
      holds world → safe world next_move → move step start world next_move = some next →
      holds next)
    (initially : holds initial) (each : EachMove step start initial safe moves) :
    Always step start initial holds moves := by
  intro earlier later world parts reached
  induction earlier using reverseRecOn generalizing later world with
  | nil =>
    have same : initial = world := by simpa [run] using reached
    exact same ▸ initially
  | append_singleton earlier next_move ih =>
    obtain ⟨middle, ran, moved⟩ := run_concat.mp reached
    rw [append_assoc] at parts
    exact keeps earlier middle next_move world ran (ih _ middle parts ran)
      (each earlier next_move later middle parts ran) moved

/-- If a safe move is one that keeps a property, the property holds all along a run exactly when
every move of the run is safe. -/
theorem always_iff_eachMove
    (steps : ∀ moves world next_move next, run step start initial moves = some world →
      holds world → move step start world next_move = some next →
      (holds next ↔ safe world next_move))
    (initially : holds initial) (ran : run step start initial moves = some last) :
    Always step start initial holds moves ↔ EachMove step start initial safe moves := by
  induction moves using reverseRecOn generalizing last with
  | nil =>
    constructor
    · intro _ earlier between later world parts
      simp at parts
    · intro _ earlier later world parts reached
      rw [(append_eq_nil_iff.mp parts.symm).1] at reached
      have same : initial = world := by simpa [run] using reached
      exact same ▸ initially
  | append_singleton moves next_move ih =>
    obtain ⟨middle, reached, moved⟩ := run_concat.mp ran
    rw [always_concat ran, eachMove_concat reached, ih reached]
    apply and_congr_right
    intro each
    have always := (ih reached).mpr each
    exact steps moves middle next_move last reached
      (always moves [] middle (append_nil _).symm reached) moved

end moments

end

end OpenInterpreter.Interleaving
