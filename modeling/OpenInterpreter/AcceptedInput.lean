import OpenInterpreter.InputQueues
import Mathlib.Data.List.Sort
import Mathlib.Data.Option.Basic

/-! Accepted input waits or has been handed over, each item once, exactly as long as no turn is
cleared with input in it and no start adds to a turn that is gone. Mail is handed over in the order
of its enqueueing as long as the processes that take mail do so one after the other. -/

namespace OpenInterpreter.AcceptedInput

open PendingInput InputQueues Interleaving List

abbrev Processes := World Session Stage Input

def initial : Processes := { shared := {} }

/-! ### The property and the condition -/

def mails (entries : List Entry) : List Entry := entries.filter Entry.isMail

def activeInput (session : Session) : List Entry :=
  match session.activeAddress with
  | none => []
  | some turn => session.pendingInput turn

variable (world : Processes)

def waiting : List Entry :=
  (queues world.shared).mailbox ++ activeInput world.shared ++ world.locals.flatMap Stage.held

def Once : Prop :=
  ∀ entry ∈ world.shared.accepted, (waiting world ++ world.shared.handed).count entry = 1

structure Kept : Prop where
  once : Once world
  ordered : mails world.shared.handed <+: mails world.shared.accepted

/-- A process that clears a reserved turn finds nothing accepted in it, and one that adds what it
has drained to a turn finds that turn active. -/
abbrev StrandsNothing (session : Session) (stage : Stage) : Prop :=
  (∀ turn ∈ stage.clears, session.isReserved turn = true →
    ∀ entry ∈ session.pendingInput turn, entry.ticket = none) ∧
  (∀ turn ∈ stage.adds, session.activeAddress = some turn ∨
    ∀ entry ∈ stage.held, entry.ticket = none)

abbrev Alone (lists : List (List Entry)) (index : Nat) : Prop :=
  ∀ list ∈ lists.eraseIdx index, mails list = []

/-- A process drains the mailbox or takes the input of a turn while no other process holds mail, and
hands mail over while none waits in a turn. -/
abbrev TakesTurns (index : Nat) (stage : Stage) : Prop :=
  (stage.takes = true → Alone (world.locals.map Stage.held) index) ∧
  (stage.hands = true →
    mails stage.held = [] ∨ mails (queues world.shared).pendings.flatten = [])

def LeavesNothing : Move Request Input → Prop
  | .enter _ => True
  | .act index _ => ∀ stage ∈ world.locals[index]?, StrandsNothing world.shared stage

def Safe : Move Request Input → Prop
  | .enter _ => True
  | .act index _ => ∀ stage ∈ world.locals[index]?,
      StrandsNothing world.shared stage ∧ TakesTurns world index stage

instance (world : Processes) : DecidablePred (Safe world)
  | .enter _ => inferInstanceAs (Decidable True)
  | .act index _ => inferInstanceAs (Decidable (∀ stage ∈ world.locals[index]?,
      StrandsNothing world.shared stage ∧ TakesTurns world index stage))

/-! ### Tickets -/

theorem mails_append (left right : List Entry) :
    mails (left ++ right) = mails left ++ mails right :=
  filter_append ..

theorem mails_numbered {inputs : List TurnInput} (noMail : NoMail inputs) (first : Nat) :
    mails (numbered first inputs) = [] := by
  apply filter_eq_nil_iff.mpr
  intro entry member
  obtain ⟨place, inside, rfl⟩ := mem_mapIdx.mp member
  have other := noMail _ (getElem_mem inside)
  cases same : inputs[place] with
  | interAgentCommunication communication => exact absurd same (other communication)
  | _ => simp [Entry.isMail]

theorem ticket_numbered (first : Nat) (inputs : List TurnInput) :
    (numbered first inputs).map Entry.ticket =
      (List.range inputs.length).map fun place => some (first + place) := by
  apply ext_getElem?
  intro place
  by_cases inside : place < inputs.length <;> simp [numbered, inside]

variable {entry : Entry} {before after state : Queues} {source target held : List Entry}
    {session : Session} {stage : Stage}

theorem ticket_of_isMail (isMail : entry.isMail = true) : entry.ticket.isSome := by
  unfold Entry.isMail at isMail
  split at isMail
  · exact isMail
  · simp at isMail

theorem ticket_unnumbered {inputs : List TurnInput} (member : entry ∈ unnumbered inputs) :
    entry.ticket = none := by
  obtain ⟨input, _, rfl⟩ := mem_map.mp member
  rfl

def Filed (state : Queues) : Prop :=
  state.accepted.map Entry.ticket = (List.range state.accepted.length).map some

theorem tickets_append {accepted entries : List Entry}
    (old : accepted.map Entry.ticket = (List.range accepted.length).map some)
    (new : entries.map Entry.ticket =
      (List.range entries.length).map fun place => some (accepted.length + place)) :
    (accepted ++ entries).map Entry.ticket =
      (List.range (accepted ++ entries).length).map some := by
  rw [map_append, old, new, length_append, range_add, map_append, map_map]
  rfl

theorem length_numbered (first : Nat) (inputs : List TurnInput) :
    (numbered first inputs).length = inputs.length := length_mapIdx

theorem filed_calm (filed : Filed before) (change : Calm before source after target) :
    Filed after := by
  cases change with
  | enqueue mail isMail ticket => exact tickets_append filed (by simp [ticket])
  | accept noMail | record noMail =>
    exact tickets_append filed (by rw [ticket_numbered, length_numbered])
  | quiet | drain | bring | take | reserve => exact filed

theorem filed_effect (filed : Filed (queues session)) (effect : Effect session stage after held) :
    Filed after := by
  cases effect with
  | calm clears adds hands holds change => exact filed_calm filed change
  | spare | clear | add | hand => exact filed

section

variable (filed : Filed state)
include filed

theorem Filed.isSome (member : entry ∈ state.accepted) : entry.ticket.isSome := by
  have found : entry.ticket ∈ state.accepted.map Entry.ticket := mem_map_of_mem member
  rw [filed] at found
  obtain ⟨number, _, same⟩ := mem_map.mp found
  simp [← same]

theorem Filed.nodup : state.accepted.Nodup := by
  apply Nodup.of_map Entry.ticket
  rw [filed]
  exact nodup_range.map (Option.some_injective _)

theorem Filed.count (member : entry ∈ state.accepted) : state.accepted.count entry = 1 :=
  count_eq_one_of_mem filed.nodup member

end

/-! ### Nothing is lost -/

def stock (entry : Entry) (state : Queues) : Nat :=
  state.mailbox.count entry + state.pendings.flatten.count entry + state.handed.count entry

variable {turn : Nat} {pendings : List (List Entry)}

theorem count_flatten_set {old : List Entry}
    (present : pendings[turn]? = some old) (new : List Entry) (entry : Entry) :
    (pendings.set turn new).flatten.count entry + old.count entry =
      pendings.flatten.count entry + new.count entry := by
  rw [count_flatten, count_flatten]
  exact sum_set (count entry) new present

theorem count_flatten_extend {old : List Entry}
    (present : pendings[turn]? = some old) (new : List Entry) (entry : Entry) :
    (pendings.set turn (old ++ new)).flatten.count entry =
      pendings.flatten.count entry + new.count entry := by
  have moved := count_flatten_set present (old ++ new) entry
  rw [count_append] at moved
  omega

section

variable (numbered : entry.ticket.isSome)
include numbered

theorem count_unnumbered (inputs : List TurnInput) : (unnumbered inputs).count entry = 0 := by
  apply count_eq_zero_of_not_mem
  intro member
  simp [ticket_unnumbered member] at numbered

theorem balance_calm (change : Calm before source after target) :
    stock entry after + target.count entry + before.accepted.count entry =
      stock entry before + source.count entry + after.accepted.count entry := by
  cases change with
  | quiet => rfl
  | enqueue | record =>
    simp only [stock, count_append]
    omega
  | accept noMail active present =>
    simp only [stock, count_flatten_extend present, count_append]
    omega
  | bring present =>
    simp only [stock, count_flatten_extend present, count_unnumbered numbered]
    omega
  | drain =>
    simp only [stock, count_append, count_nil]
    omega
  | take present =>
    have moved := count_flatten_set present [] entry
    simp only [stock] at moved ⊢
    omega
  | reserve idle => simp [stock]

theorem balance_effect (effect : Effect session stage after held) :
    stock entry after + held.count entry + (queues session).accepted.count entry =
      stock entry (queues session) + stage.held.count entry + after.accepted.count entry := by
  cases effect with
  | calm clears adds hands holds change => exact balance_calm numbered change
  | clear clears adds hands empty reserved => rw [empty]; rfl
  | spare clears adds hands empty other => rw [empty]
  | add clears adds hands present =>
    simp only [stock, count_flatten_extend present, count_nil]
    omega
  | hand clears adds hands =>
    simp only [stock, count_append, count_nil]
    omega

end

/-! ### Reachable worlds -/

def SessionHolds (session : Session) (_ : List (Moment Session Stage Input)) : Prop :=
  ActiveValid session ∧ Filed (queues session)

def StageHolds (session : Session) (_ : List (Moment Session Stage Input)) (stage : Stage) : Prop :=
  Sound session stage

def Apart (left right : Stage) : Prop := lockOf left = none ∨ lockOf right = none

theorem Apart.free {left right : Stage} (apart : Apart left right)
    (lock : lockOf right = some turn) : lockOf left = none :=
  apart.resolve_right (by rw [lock]; nofun)

theorem sound_start (session : Session) (request : Request) : Sound session (start request) := by
  cases request <;> exact sound_plain (by simp [start]) ⟨rfl, rfl⟩

theorem invariant : Invariant step start SessionHolds StageHolds Apart where
  symmetric left right apart := apart.symm
  start_own session _ request _ := sound_start session request
  start_apart session _ request other _ := .inl (by cases request <;> rfl)
  step_shared session history source input after target holds own stepped := by
    have did := stepped_of_step holds.1 own stepped
    exact ⟨did.active, filed_effect holds.2 did.effect⟩
  step_own session history source input after target holds own stepped :=
    (stepped_of_step holds.1 own stepped).sound
  step_other session history source input after target other holds own sound apart stepped := by
    have did := stepped_of_step holds.1 own stepped
    refine ⟨fun turn member => (sound.turn turn member).trans_le did.grows, ?_, sound.noMail⟩
    intro turn member
    obtain ⟨locked, active⟩ := sound.lock turn member
    obtain ⟨still, same, _⟩ := did.frame locked (apart.free member)
    exact ⟨still, same.trans active⟩
  step_apart session history source input after target other holds own sound apart stepped := by
    have did := stepped_of_step holds.1 own stepped
    cases lock : lockOf other with
    | none => exact .inr lock
    | some turn => exact .inl (did.frame (sound.lock turn lock).1 (apart.free lock)).2.2

theorem sessionHolds_initial : SessionHolds {} [] := by
  exact ⟨by simp [ActiveValid, Session.activeAddress], rfl⟩

variable {moves : List (Move Request Input)}

section

variable {world : Processes}
  (ran : run step start initial moves = some world)
include ran

theorem holds_of_run : Holds SessionHolds StageHolds Apart world :=
  invariant.holds_of_run sessionHolds_initial moves ran

theorem filed_of_run : Filed (queues world.shared) := (holds_of_run ran).shared.2

theorem balance_of_run {entry : Entry} (numbered : entry.ticket.isSome) :
    stock entry (queues world.shared) + (world.locals.flatMap Stage.held).count entry =
      world.shared.accepted.count entry := by
  have balanced := invariant.balanced_of_run (fun request => by cases request <;> rfl)
    (fun session history source input after target holds own stepped =>
      balance_effect numbered (stepped_of_step holds.1 own stepped).effect)
    sessionHolds_initial rfl moves ran
  rw [count_flatMap]
  exact balanced.sum

end

/-! ### No accepted input in a turn that is not active -/

def NoneStranded (state : Queues) : Prop :=
  ∀ (turn : Nat) (pending : List Entry), state.pendings[turn]? = some pending →
    state.active ≠ some turn → ∀ entry ∈ pending, entry.ticket = none

def elsewhere (state : Queues) : List Entry :=
  match state.active with
  | none => state.pendings.flatten
  | some turn => (state.pendings.eraseIdx turn).flatten

theorem mem_elsewhere :
    entry ∈ elsewhere state ↔ ∃ (turn : Nat) (pending : List Entry),
      state.pendings[turn]? = some pending ∧ state.active ≠ some turn ∧ entry ∈ pending := by
  cases active : state.active with
  | none =>
    simp only [elsewhere, active, mem_flatten]
    constructor
    · rintro ⟨pending, present, member⟩
      obtain ⟨turn, found⟩ := mem_iff_getElem?.mp present
      exact ⟨turn, pending, found, by simp, member⟩
    · rintro ⟨turn, pending, found, _, member⟩
      exact ⟨pending, mem_of_getElem? found, member⟩
  | some own =>
    simp only [elsewhere, active, mem_flatten, mem_eraseIdx_iff_getElem?]
    constructor
    · rintro ⟨pending, ⟨turn, other, present⟩, member⟩
      exact ⟨turn, pending, present, fun same => other (Option.some.inj same).symm, member⟩
    · rintro ⟨turn, pending, present, other, member⟩
      exact ⟨pending, ⟨turn, fun same => other (by rw [same]), present⟩, member⟩

theorem noneStranded_iff : NoneStranded state ↔ ∀ entry ∈ elsewhere state, entry.ticket = none := by
  constructor
  · intro unstranded entry member
    obtain ⟨turn, pending, present, other, inside⟩ := mem_elsewhere.mp member
    exact unstranded turn pending present other entry inside
  · intro unstranded turn pending present other entry inside
    exact unstranded entry (mem_elsewhere.mpr ⟨turn, pending, present, other, inside⟩)

theorem count_pendings (valid : ActiveValid session) (entry : Entry) :
    (queues session).pendings.flatten.count entry =
      (activeInput session).count entry + (elsewhere (queues session)).count entry := by
  cases active : session.activeAddress with
  | none =>
    have idle : (queues session).active = none := active
    simp [elsewhere, idle, activeInput, active]
  | some turn =>
    have running : (queues session).active = some turn := active
    obtain ⟨state, present⟩ := state_at (valid turn active)
    have located := pendings_getElem? present
    obtain ⟨inside, same⟩ := List.getElem?_eq_some_iff.mp located
    have parts := (getElem_cons_eraseIdx_perm inside).flatten.count_eq entry
    rw [flatten_cons, count_append, same] at parts
    simp only [elsewhere, running, activeInput, active, pendingInput_eq present]
    exact parts.symm

variable {world : Processes}

theorem once_iff (ran : run step start initial moves = some world) :
    Once world ↔ NoneStranded (queues world.shared) := by
  have filed := filed_of_run ran
  have total : ∀ entry : Entry, entry.ticket.isSome →
      (waiting world ++ world.shared.handed).count entry +
        (elsewhere (queues world.shared)).count entry = world.shared.accepted.count entry := by
    intro entry numbered
    have balance := balance_of_run ran numbered
    have parts := count_pendings (holds_of_run ran).shared.1 entry
    have handed : (queues world.shared).handed = world.shared.handed := rfl
    simp only [stock, waiting, count_append, handed] at balance parts ⊢
    omega
  rw [noneStranded_iff]
  constructor
  · intro once entry member
    by_contra ticketed
    have numbered := Option.isSome_iff_ne_none.mpr ticketed
    have sum := total entry numbered
    have found := count_pos_iff.mpr member
    have accepted : entry ∈ world.shared.accepted := count_pos_iff.mp (by omega)
    have single := filed.count accepted
    have own := once entry accepted
    simp only [queues] at single
    omega
  · intro unstranded entry accepted
    have numbered := filed.isSome accepted
    have absent : (elsewhere (queues world.shared)).count entry = 0 := by
      apply count_eq_zero_of_not_mem
      intro member
      simp [unstranded entry member] at numbered
    have sum := total entry numbered
    have single := filed.count accepted
    simp only [queues] at single
    omega

section

theorem NoneStranded.set {before after : Queues} {new : List Entry} (unstranded : NoneStranded before)
    (pendings : after.pendings = before.pendings.set turn new) (active : after.active = before.active)
    (own : before.active ≠ some turn → ∀ entry ∈ new, entry.ticket = none) : NoneStranded after := by
  intro other pending found apart
  rw [pendings] at found
  rw [active] at apart
  rcases getElem?_set_cases found with ⟨rfl, rfl⟩ | ⟨_, old⟩
  · exact own apart
  · exact unstranded other pending old apart

theorem noneStranded_calm {before after : Queues} {source target : List Entry}
    (unstranded : NoneStranded before) (change : Calm before source after target) :
    NoneStranded after := by
  cases change with
  | quiet | enqueue | record | drain => exact unstranded
  | accept noMail active present => exact unstranded.set rfl rfl fun other => absurd active other
  | bring present =>
    exact unstranded.set rfl rfl fun other => forall_mem_append.mpr
      ⟨unstranded _ _ present other, fun _ => ticket_unnumbered⟩
  | take present => exact unstranded.set rfl rfl fun _ => nofun
  | reserve idle =>
    intro turn pending found other entry member
    rcases getElem?_append_single found with ⟨_, old⟩ | ⟨_, rfl⟩
    · exact unstranded turn pending old (by simp [idle]) entry member
    · simp at member

theorem active_of_isReserved (reserved : session.isReserved turn = true) :
    session.activeAddress = some turn := by
  cases active : session.activeTurn with
  | none => simp [Session.isReserved, active] at reserved
  | some found =>
    simp only [Session.isReserved, active, Option.any_some, Bool.and_eq_true, beq_iff_eq] at reserved
    simp [Session.activeAddress, active, reserved.2]

theorem noneStranded_effect {after : Queues} {held : List Entry} (valid : ActiveValid session)
    (unstranded : NoneStranded (queues session)) (effect : Effect session stage after held) :
    NoneStranded after ↔ StrandsNothing session stage := by
  cases effect with
  | calm clears adds hands holds change =>
    exact iff_of_true (noneStranded_calm unstranded change) ⟨by simp [clears], by simp [adds]⟩
  | spare clears adds hands empty other =>
    refine iff_of_true unstranded ⟨?_, by simp [adds]⟩
    intro turn member reserved
    rw [clears, Option.mem_def, Option.some.injEq] at member
    rw [member, reserved] at other
    simp at other
  | hand clears adds hands => exact iff_of_true unstranded ⟨by simp [clears], by simp [adds]⟩
  | @clear turn clears adds hands empty reserved =>
    have active := active_of_isReserved reserved
    obtain ⟨state, present⟩ := state_at (valid turn active)
    constructor
    · intro after
      refine ⟨?_, by simp [adds]⟩
      intro own member _ entry waits
      rw [clears, Option.mem_def, Option.some.injEq] at member
      subst member
      rw [pendingInput_eq present] at waits
      exact after _ _ (pendings_getElem? present) (by simp) entry waits
    · intro safe own pending found _ entry waits
      by_cases same : own = turn
      · subst same
        rw [pendings_getElem? present, Option.some.injEq] at found
        apply safe.1 own clears reserved entry
        rwa [pendingInput_eq present, found]
      · refine unstranded own pending found ?_ entry waits
        intro other
        exact same (Option.some.inj (other.symm.trans active))
  | @add turn old clears adds hands present =>
    have inside := (List.getElem?_eq_some_iff.mp present).1
    constructor
    · intro after
      refine ⟨by simp [clears], ?_⟩
      intro own member
      rw [adds, Option.mem_def, Option.some.injEq] at member
      subst member
      by_cases active : session.activeAddress = some turn
      · exact .inl active
      · right
        intro entry holds
        exact after turn _ (getElem?_set_self inside) active entry
          (mem_append_right _ holds)
    · intro safe
      exact unstranded.set rfl rfl fun other => forall_mem_append.mpr
        ⟨unstranded turn old present other, (safe.2 turn adds).resolve_left other⟩

end

/-! ### Mail in order -/

section

variable {lists : List (List Entry)} {index : Nat} {old new : List Entry}

theorem mails_flatten_set (present : lists[index]? = some old) (same : mails new = mails old) :
    mails (lists.set index new).flatten = mails lists.flatten := by
  induction lists generalizing index with
  | nil => simp at present
  | cons first rest ih =>
    cases index with
    | zero =>
      cases present
      rw [set_cons_zero, flatten_cons, flatten_cons, mails_append, mails_append, same]
    | succ index =>
      rw [set_cons_succ, flatten_cons, flatten_cons, mails_append, mails_append, ih present]

theorem mails_flatten_alone (present : lists[index]? = some old) (alone : Alone lists index) :
    mails lists.flatten = mails old := by
  obtain ⟨inside, same⟩ := List.getElem?_eq_some_iff.mp present
  have parts : lists = lists.take index ++ old :: lists.drop (index + 1) := by
    rw [← same, ← drop_eq_getElem_cons inside, take_append_drop]
  have others : ∀ list ∈ lists.take index ++ lists.drop (index + 1), mails list = [] := by
    rw [← eraseIdx_eq_take_drop_succ]
    exact alone
  have none (part : List (List Entry)) (empty : ∀ list ∈ part, mails list = []) :
      mails part.flatten = [] := by
    rw [mails, filter_flatten, flatten_eq_nil_iff]
    intro list member
    obtain ⟨source, listed, rfl⟩ := mem_map.mp member
    exact empty source listed
  rw [forall_mem_append] at others
  rw [parts, flatten_append, flatten_cons, mails_append, mails_append, none _ others.1,
    none _ others.2, nil_append, append_nil]

theorem alone_set : Alone (lists.set index new) index ↔ Alone lists index := by
  rw [Alone, eraseIdx_set_eq]

theorem mails_flatten_set_alone (present : lists[index]? = some old) (alone : Alone lists index) :
    mails (lists.set index new).flatten = mails new :=
  mails_flatten_alone (getElem?_set_self (List.getElem?_eq_some_iff.mp present).1)
    (alone_set.mpr alone)

/-- Lists in which only one list holds mail gain mail at their end and lose it at their front. -/
theorem mails_flatten_extend (present : lists[index]? = some old)
    (alone : mails new = [] ∨ Alone lists index) :
    mails (lists.set index (old ++ new)).flatten = mails lists.flatten ++ mails new := by
  rcases alone with none | alone
  · rw [mails_flatten_set present (by rw [mails_append, none, append_nil]), none, append_nil]
  · rw [mails_flatten_set_alone present alone, mails_flatten_alone present alone, mails_append]

theorem mails_flatten_take (present : lists[index]? = some old)
    (alone : mails old = [] ∨ Alone lists index) :
    mails lists.flatten = mails old ++ mails (lists.set index []).flatten := by
  rcases alone with none | alone
  · have same : mails (lists.set index []).flatten = mails lists.flatten :=
      mails_flatten_set present none.symm
    rw [same, none, nil_append]
  · rw [mails_flatten_set_alone present alone, mails_flatten_alone present alone]
    exact (append_nil _).symm

theorem mails_of_unticketed (plain : ∀ entry ∈ old, entry.ticket = none) : mails old = [] := by
  apply filter_eq_nil_iff.mpr
  intro entry member isMail
  have ticket := ticket_of_isMail isMail
  rw [plain entry member] at ticket
  cases ticket

theorem NoneStranded.alone_active (unstranded : NoneStranded state)
    (active : state.active = some turn) : Alone state.pendings turn := by
  intro list member
  obtain ⟨other, different, found⟩ := mem_eraseIdx_iff_getElem?.mp member
  refine mails_of_unticketed (unstranded other list found fun same => ?_)
  exact different (Option.some.inj (same.symm.trans active))

theorem NoneStranded.alone (unstranded : NoneStranded state)
    (present : state.pendings[turn]? = some old) :
    mails old = [] ∨ Alone state.pendings turn := by
  by_cases active : state.active = some turn
  · exact .inr (unstranded.alone_active active)
  · exact .inl (mails_of_unticketed (unstranded turn old present active))

end

/-- At most one process holds mail, and the mail that was handed over, that waits in turns, that is
held and that lies in the mailbox is the accepted mail in its order. -/
structure Lined (state : Queues) (helds : List (List Entry)) : Prop where
  single : ∀ (index : Nat) held, helds[index]? = some held → mails held = [] ∨ Alone helds index
  order : mails state.handed ++ (mails state.pendings.flatten ++ (mails helds.flatten ++
    mails state.mailbox)) = mails state.accepted

section

variable {helds : List (List Entry)} {index : Nat}

theorem single_set
    (single : ∀ (index : Nat) held, helds[index]? = some held → mails held = [] ∨ Alone helds index)
    (own : mails target = [] ∨ Alone helds index) :
    ∀ (other : Nat) held, (helds.set index target)[other]? = some held →
      mails held = [] ∨ Alone (helds.set index target) other := by
  intro other held found
  rcases getElem?_set_cases found with ⟨rfl, rfl⟩ | ⟨different, there⟩
  · exact own.imp_right alone_set.mpr
  rcases own with none | alone
  · refine (single other held there).imp_right fun alone list member => ?_
    obtain ⟨place, apart, listed⟩ := mem_eraseIdx_iff_getElem?.mp member
    rcases getElem?_set_cases listed with ⟨-, rfl⟩ | ⟨-, before⟩
    · exact none
    · exact alone list (mem_eraseIdx_iff_getElem?.mpr ⟨place, apart, before⟩)
  · exact .inl (alone held (mem_eraseIdx_iff_getElem?.mpr ⟨other, different, there⟩))

theorem lined_calm (unstranded : NoneStranded before) (lined : Lined before helds)
    (present : helds[index]? = some source) (holds : target = source ∨ Alone helds index)
    (change : Calm before source after target) : Lined after (helds.set index target) := by
  have own : mails target = [] ∨ Alone helds index := by
    rcases holds with rfl | alone
    · exact lined.single index target present
    · exact .inr alone
  refine ⟨single_set lined.single own, ?_⟩
  have order := lined.order
  cases change with
  | quiet => rw [mails_flatten_set present rfl, order]
  | enqueue mail =>
    rw [mails_flatten_set present rfl, mails_append, mails_append, ← order]
    simp only [append_assoc]
  | accept noMail active there =>
    have none := mails_numbered noMail before.accepted.length
    rw [mails_flatten_set present rfl, mails_flatten_extend there (.inl none), mails_append, none,
      append_nil, append_nil, order]
  | @bring turn old inputs there =>
    have none : mails (unnumbered inputs) = [] :=
      mails_of_unticketed fun entry member => ticket_unnumbered member
    rw [mails_flatten_set present rfl, mails_flatten_extend there (.inl none), none, append_nil,
      order]
  | record noMail =>
    rw [mails_flatten_set present rfl, mails_append, mails_append, mails_numbered noMail,
      append_nil, append_nil, order]
  | drain =>
    have empty : mails before.mailbox = [] ∨ Alone helds index := by
      refine holds.imp_left fun same => ?_
      rw [append_right_eq_self.mp same]
      rfl
    rw [mails_flatten_extend present empty, ← order]
    simp [mails]
  | @take turn old there =>
    rcases unstranded.alone there with none | waiting
    · have same : mails (before.pendings.set turn []).flatten = mails before.pendings.flatten :=
        mails_flatten_set there none.symm
      rw [mails_flatten_set present none, same, order]
    · rw [mails_flatten_alone there waiting] at order
      rw [mails_flatten_set_alone there waiting, ← order]
      rcases holds with rfl | alone
      · rw [mails_flatten_set present rfl]
      · rw [mails_flatten_set_alone present alone, mails_flatten_alone present alone]
        rfl
  | reserve => rw [mails_flatten_set present rfl, ← order, flatten_concat, append_nil]

theorem lined_effect (unstranded : NoneStranded (queues session))
    (lined : Lined (queues session) helds) (present : helds[index]? = some stage.held)
    (strands : StrandsNothing session stage) (takes : stage.takes = true → Alone helds index)
    (hands : stage.hands = true →
      mails stage.held = [] ∨ mails (queues session).pendings.flatten = [])
    (effect : Effect session stage after held) : Lined after (helds.set index held) := by
  have own := lined.single index stage.held present
  have order := lined.order
  cases effect with
  | calm _ _ _ holds change =>
    exact lined_calm unstranded lined present (holds.imp_right takes) change
  | clear _ _ _ empty | spare _ _ _ empty =>
    refine ⟨single_set lined.single (.inl rfl), ?_⟩
    rw [mails_flatten_set present (by rw [empty])]
    exact order
  | @add turn old _ adds _ there =>
    refine ⟨single_set lined.single (.inl rfl), ?_⟩
    have waiting : mails stage.held = [] ∨ Alone (queues session).pendings turn :=
      (strands.2 turn adds).symm.imp mails_of_unticketed unstranded.alone_active
    rw [mails_flatten_take present own] at order
    rw [mails_flatten_extend there waiting, ← order]
    simp only [append_assoc]
  | hand _ _ isHand =>
    refine ⟨single_set lined.single (.inl rfl), ?_⟩
    rw [mails_flatten_take present own] at order
    rw [mails_append, ← order]
    rcases hands isHand with none | none <;> simp [none]

end

/-! ### Every moment of a run -/

theorem once_move_iff {next : Processes} {next_move : Move Request Input}
    (ran : run step start initial moves = some world) (once : Once world)
    (moved : move step start world next_move = some next) :
    Once next ↔ LeavesNothing world next_move := by
  have later : run step start initial (moves ++ [next_move]) = some next :=
    run_concat.mpr ⟨world, ran, moved⟩
  have unstranded := (once_iff ran).mp once
  rw [once_iff later]
  rcases next_move with request | ⟨index, input⟩
  · cases moved
    exact iff_of_true unstranded trivial
  · obtain ⟨stage, after, target, present, stepped, rfl⟩ := act_cases step start moved
    have holds := holds_of_run ran
    have effect := (stepped_of_step holds.shared.1 (holds.each index stage present) stepped).effect
    rw [noneStranded_effect holds.shared.1 unstranded effect]
    simp only [LeavesNothing, present, Option.mem_def, Option.some.injEq, forall_eq']

def InLine (world : Processes) : Prop :=
  Once world ∧ Lined (queues world.shared) (world.locals.map Stage.held)

theorem inLine_move {next : Processes} {next_move : Move Request Input}
    (ran : run step start initial moves = some world) (inLine : InLine world)
    (safe : Safe world next_move) (moved : move step start world next_move = some next) :
    InLine next := by
  obtain ⟨once, lined⟩ := inLine
  rcases next_move with request | ⟨index, input⟩
  · refine ⟨(once_move_iff ran once moved).mpr trivial, ?_⟩
    cases moved
    have fresh : (start request).held = [] := by cases request <;> rfl
    simp only [map_append, map_cons, map_nil, fresh]
    refine ⟨fun index held found => ?_, ?_⟩
    · rcases getElem?_append_single found with ⟨inside, there⟩ | ⟨-, rfl⟩
      · refine (lined.single index held there).imp_right fun alone list member => ?_
        rw [eraseIdx_append_of_lt_length inside] at member
        rcases mem_append.mp member with other | last
        · exact alone list other
        · rw [mem_singleton.mp last]
          rfl
      · exact .inl rfl
    · rw [flatten_concat, append_nil]
      exact lined.order
  · obtain ⟨stage, after, target, present, stepped, rfl⟩ := act_cases step start moved
    obtain ⟨strands, takes, hands⟩ := safe stage present
    have holds := holds_of_run ran
    have effect := (stepped_of_step holds.shared.1 (holds.each index stage present) stepped).effect
    refine ⟨(once_move_iff ran once moved).mpr fun found there => ?_, ?_⟩
    · exact (safe found there).1
    · rw [map_set]
      exact lined_effect ((once_iff ran).mp once) lined (by rw [getElem?_map, present]; rfl) strands
        takes hands effect

/-- No accepted input is lost or doubled at any moment of a run exactly when every move leaves
nothing behind, and besides mail is handed over in order where the moves are safe. -/
theorem accepted_input_kept (moves : List (Move Request Input)) (world : Processes)
    (ran : run step start initial moves = some world) :
    (Always step start initial Once moves ↔ EachMove step start initial LeavesNothing moves) ∧
      (EachMove step start initial Safe moves → Always step start initial Kept moves) := by
  have initially : Once initial := by simp [Once, initial]
  constructor
  · exact always_iff_eachMove (fun _ _ _ _ reached once moved => once_move_iff reached once moved)
      initially ran
  · intro each
    have inLine : InLine initial := ⟨initially, by simp [initial], rfl⟩
    have always := always_of_eachMove (fun _ _ _ _ => inLine_move) inLine each
    intro earlier later world parts reached
    obtain ⟨once, lined⟩ := always earlier later world parts reached
    exact ⟨once, _, lined.order⟩

/-- Mail is drained into a new turn, an item is injected and more mail enqueued; the task collects
all of it, hands it over and finishes. -/
def mailHandedOver : List (Move Request Input) :=
  let task : RunningTask := { subId := "turn", kind := .regular }
  [.enter (.enqueue ⟨"first", true⟩), .act 0 .go,
    .enter (.spawnTask task), .act 1 .go, .act 1 .go, .act 1 .go, .act 1 .go, .act 1 .go,
    .enter (.inject (.injectIfRunning ["note"])), .act 2 .go, .act 2 .go,
    .enter (.enqueue ⟨"second", false⟩), .act 3 .go,
    .act 1 .collect, .act 1 .go, .act 1 .go, .act 1 .go, .act 1 .go,
    .act 1 (.finish task), .act 1 .go, .act 1 .go, .act 1 .go, .act 1 .go]

theorem mail_handed_over_kept :
    ∃ world, run step start initial mailHandedOver = some world ∧
      world.shared.handed = [⟨.interAgentCommunication ⟨"first", true⟩, some 0⟩,
        ⟨.responseItem "note", some 1⟩, ⟨.interAgentCommunication ⟨"second", false⟩, some 2⟩] ∧
      Always step start initial Kept mailHandedOver ∧
      EachMove step start initial LeavesNothing mailHandedOver := by
  obtain ⟨once_iff, kept⟩ := accepted_input_kept mailHandedOver _ rfl
  have always := kept (eachMove_iff_eachFrom.mpr (by decide +kernel))
  refine ⟨_, rfl, rfl, always, once_iff.mp fun earlier later world parts reached => ?_⟩
  exact (always earlier later world parts reached).once

/-- A task has finished and taken the pending input of its turn; an item is injected into the turn,
which is then cleared. -/
def injectedWhileFinishing : List (Move Request Input) :=
  let task : RunningTask := { subId := "turn", kind := .regular }
  [.enter (.spawnTask task), .act 0 .go, .act 0 .go, .act 0 .go, .act 0 .go, .act 0 .go,
    .act 0 (.finish task), .act 0 .go, .act 0 .go,
    .enter (.inject (.injectIfRunning ["note"])), .act 1 .go, .act 1 .go,
    .act 0 .go, .act 0 .go]

theorem injected_item_lost :
    ∃ world, run step start initial injectedWhileFinishing = some world ∧
      world.locals[1]? = some (.returned .ok) ∧
      world.shared.accepted = [⟨.responseItem "note", some 0⟩] ∧
      waiting world = [] ∧ world.shared.handed = [] ∧
      ¬ Always step start initial Kept injectedWhileFinishing := by
  refine ⟨_, rfl, rfl, rfl, rfl, rfl, ?_⟩
  intro always
  have kept := always injectedWhileFinishing [] _ (append_nil _).symm rfl
  exact absurd (kept.once ⟨.responseItem "note", some 0⟩ (mem_singleton.mpr rfl)) (by decide)

end OpenInterpreter.AcceptedInput
