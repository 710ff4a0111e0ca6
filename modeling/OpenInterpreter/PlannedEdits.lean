import Mathlib.Data.List.Nodup
import Mathlib.Data.List.Pairwise
import Mathlib.Logic.Function.Basic

/-! Edits of a map from paths to texts: what is planned for each edit on the first map,
against what the edits leave when they run one after the other. -/

namespace OpenInterpreter.PlannedEdits

open List Option Function

inductive Edit (Path Text : Type) where
  | add (path : Path) (text : Text)
  | delete (path : Path)
  | rewrite (path : Path) (change : Text → Option Text)
  | move (path dest : Path) (change : Text → Option Text)

abbrev Files (Path Text : Type) := Path → Option Text

variable {Path Text : Type}

def Edit.source : Edit Path Text → Path
  | .add path _ | .delete path | .rewrite path _ | .move path _ _ => path

def Edit.dest : Edit Path Text → Option Path
  | .move _ dest _ => some dest
  | _ => none

def Edit.Names (edit : Edit Path Text) (path : Path) : Prop :=
  path = edit.source ∨ edit.dest = some path

def Edit.run [DecidableEq Path] : Edit Path Text → Files Path Text → Option (Files Path Text)
  | .add path text, files => some (update files path (some text))
  | .delete path, files => some (update files path none)
  | .rewrite path change, files =>
    ((files path).bind change).map fun text => update files path (some text)
  | .move path dest change, files =>
    ((files path).bind change).map fun text =>
      update (update files dest (some text)) path none

def runAll [DecidableEq Path] (edits : List (Edit Path Text)) (files : Files Path Text) :
    Option (Files Path Text) :=
  edits.foldlM (fun files edit => edit.run files) files

inductive Announces (files : Files Path Text) : Edit Path Text → Path → Option Text → Prop
  | add (path : Path) (text : Text) : Announces files (.add path text) path (some text)
  | delete (path : Path) : Announces files (.delete path) path none
  | rewrite (path : Path) (change : Text → Option Text) :
      Announces files (.rewrite path change) path ((files path).bind change)
  | moved (path dest : Path) (change : Text → Option Text) :
      Announces files (.move path dest change) dest ((files path).bind change)
  | left (path dest : Path) (change : Text → Option Text) (apart : path ≠ dest) :
      Announces files (.move path dest change) path none

def Planned (files : Files Path Text) : Edit Path Text → Prop
  | .rewrite path change | .move path _ change => ((files path).bind change).isSome = true
  | _ => True

structure CarriedOut (edits : List (Edit Path Text)) (before after : Files Path Text) : Prop where
  announced : ∀ edit ∈ edits, ∀ path text, Announces before edit path text → after path = text
  others : ∀ path, (∀ edit ∈ edits, ¬ edit.Names path) → after path = before path

/-- When running the edits gives what was announced: no path is announced two outcomes, a
rewrite of a path that was moved to, and is not moved to again, finds nothing left to change,
and a move of a path onto itself is followed by another move to it. -/
structure Settled (edits : List (Edit Path Text)) (files : Files Path Text) : Prop where
  agree : ∀ first ∈ edits, ∀ second ∈ edits, ∀ path text other,
    Announces files first path text → Announces files second path other → text = other
  rewrites : ∀ front path change back, edits = front ++ .rewrite path change :: back →
    (∃ edit ∈ front, edit.dest = some path) → (∀ edit ∈ back, edit.dest ≠ some path) →
    ((files path).bind change).bind change = (files path).bind change
  selfMoves : ∀ front path change back, edits = front ++ .move path path change :: back →
    ∃ edit ∈ back, edit.dest = some path

variable {files : Files Path Text} {edit : Edit Path Text} {path : Path}
    {front back : List (Edit Path Text)}

theorem announces_some (planned : Planned files edit) (dest : edit.dest = some path) :
    ∃ text, Announces files edit path (some text) := by
  cases edit with
  | move source target change =>
    cases dest
    obtain ⟨text, found⟩ := isSome_iff_exists.mp planned
    have moved : Announces files (.move source path change) path ((files source).bind change) :=
      .moved source path change
    rw [found] at moved
    exact ⟨text, moved⟩
  | add | delete | rewrite => cases dest

theorem Announces.names {text : Option Text} (announced : Announces files edit path text) :
    edit.Names path := by
  cases announced with
  | add | delete | rewrite | left => exact Or.inl rfl
  | moved => exact Or.inr rfl

theorem Announces.unique {text other : Option Text} (first : Announces files edit path text)
    (second : Announces files edit path other) : text = other := by
  cases first with
  | add | delete | rewrite =>
    cases second
    rfl
  | moved source dest change =>
    cases second with
    | moved => rfl
    | left _ _ _ apart => exact absurd rfl apart
  | left source dest change apart =>
    cases second with
    | moved => exact absurd rfl apart
    | left => rfl

variable {edits : List (Edit Path Text)}

theorem settled_of_disjoint
    (disjoint : edits.Pairwise fun first second => ∀ path, first.Names path → ¬ second.Names path)
    (apart : ∀ path change, .move path path change ∉ edits) : Settled edits files := by
  have : Std.Symm fun first second : Edit Path Text =>
      ∀ path, first.Names path → ¬ second.Names path :=
    ⟨fun _ _ free path named again => free path again named⟩
  constructor
  · intro first inside second member path text other announced again
    by_cases same : first = second
    · subst same
      exact announced.unique again
    · have clash := disjoint.forall inside member same
      exact absurd again.names (clash path announced.names)
  · intro front path change back split moved _
    obtain ⟨edit, member, dest⟩ := moved
    rw [split, pairwise_append] at disjoint
    have clash := disjoint.2.2 edit member (.rewrite path change) mem_cons_self
    exact absurd (Or.inl rfl) (clash path (Or.inr dest))
  · intro front path change back split
    exact absurd (by rw [split]; simp) (apart path change)

theorem last_naming (edits : List (Edit Path Text)) (path : Path) :
    (∀ edit ∈ edits, ¬ edit.Names path) ∨
      ∃ front edit back, edits = front ++ edit :: back ∧ edit.Names path ∧
        ∀ later ∈ back, ¬ later.Names path := by
  induction edits with
  | nil => exact Or.inl (by simp)
  | cons edit edits ih =>
    rcases ih with none | ⟨front, last, back, rfl, names, rest⟩
    · by_cases names : edit.Names path
      · exact Or.inr ⟨[], edit, edits, rfl, names, none⟩
      · exact Or.inl (forall_mem_cons.mpr ⟨names, none⟩)
    · exact Or.inr ⟨edit :: front, last, back, rfl, names, rest⟩

section

variable (distinct : ((front ++ edit :: back).map Edit.source).Nodup)
include distinct

theorem source_apart {other : Edit Path Text}
    (member : other ∈ front ∨ other ∈ back) : edit.source ≠ other.source := by
  rw [map_append, map_cons, nodup_middle, nodup_cons] at distinct
  intro same
  apply distinct.1
  rw [same, mem_append]
  rcases member with before | behind
  · exact Or.inl (mem_map_of_mem before)
  · exact Or.inr (mem_map_of_mem behind)

theorem unnamed_of_dest {other : Edit Path Text} (member : other ∈ front ∨ other ∈ back)
    (elsewhere : other.dest ≠ some edit.source) : ¬ other.Names edit.source := by
  rintro (same | moved)
  · exact source_apart distinct member same
  · exact elsewhere moved

end

variable {change : Text → Option Text}

theorem no_dest_of_agree {dest : Path} (planned : ∀ edit ∈ edits, Planned files edit)
    (agree : ∀ first ∈ edits, ∀ second ∈ edits, ∀ path text other,
      Announces files first path text → Announces files second path other → text = other)
    (member : .move path dest change ∈ edits) (apart : path ≠ dest) :
    ∀ edit ∈ edits, edit.dest ≠ some path := by
  intro edit inside moved
  obtain ⟨text, announced⟩ := announces_some (planned edit inside) moved
  have clash := agree edit inside _ member path (some text) none announced
    (.left path dest change apart)
  cases clash

variable [DecidableEq Path]

theorem runAll_append (left right : List (Edit Path Text)) (files : Files Path Text) :
    runAll (left ++ right) files = (runAll left files).bind (runAll right) := by
  unfold runAll
  rw [foldlM_append]
  rfl

theorem run_frame {before after : Files Path Text} (ran : edit.run before = some after)
    (unnamed : ¬ edit.Names path) : after path = before path := by
  have apart : path ≠ edit.source := fun same => unnamed (Or.inl same)
  cases edit with
  | add | delete =>
    cases ran
    exact update_of_ne apart _ _
  | rewrite source change =>
    obtain ⟨_, -, rfl⟩ := map_eq_some_iff.mp ran
    exact update_of_ne apart _ _
  | move source dest change =>
    obtain ⟨_, -, rfl⟩ := map_eq_some_iff.mp ran
    have elsewhere : path ≠ dest := fun same => unnamed (Or.inr (by rw [same]; rfl))
    calc
      _ = update before dest _ path := update_of_ne apart _ _
      _ = before path := update_of_ne elsewhere _ _

theorem runAll_frame {before after : Files Path Text} (ran : runAll edits before = some after)
    (unnamed : ∀ edit ∈ edits, ¬ edit.Names path) : after path = before path := by
  induction edits generalizing before with
  | nil =>
    cases ran
    rfl
  | cons edit edits ih =>
    obtain ⟨middle, first, rest⟩ := bind_eq_some_iff.mp ran
    calc
      after path = middle path :=
        ih rest (fun other member => unnamed other (mem_cons_of_mem _ member))
      _ = before path := run_frame first (unnamed edit mem_cons_self)

theorem runAll_last {before after : Files Path Text}
    (ran : runAll (front ++ edit :: back) before = some after)
    (unnamed : ∀ later ∈ back, ¬ later.Names path) :
    ∃ current next, runAll front before = some current ∧ edit.run current = some next ∧
      after path = next path := by
  rw [runAll_append] at ran
  obtain ⟨current, first, rest⟩ := bind_eq_some_iff.mp ran
  obtain ⟨next, step, later⟩ := bind_eq_some_iff.mp rest
  exact ⟨current, next, first, step, runAll_frame later unnamed⟩

variable (distinct : (edits.map Edit.source).Nodup)

section Agreement

variable {before after : Files Path Text}
  (planned : ∀ edit ∈ edits, Planned before edit)
  (agree : ∀ first ∈ edits, ∀ second ∈ edits, ∀ path text other,
    Announces before first path text → Announces before second path other → text = other)

include distinct planned agree

variable {current : Files Path Text}

theorem move_finds {dest : Path}
    (split : edits = front ++ .move path dest change :: back) (apart : path ≠ dest)
    (ran : runAll front before = some current) : current path = before path := by
  subst split
  apply runAll_frame ran
  have inside : .move path dest change ∈ front ++ .move path dest change :: back := by simp
  intro edit member
  apply unnamed_of_dest distinct (Or.inl member)
  exact no_dest_of_agree planned agree inside apart edit (mem_append_left _ member)

theorem source_moved {edit : Edit Path Text} (split : edits = front ++ edit :: back)
    (ran : runAll front before = some current)
    (moved : ∃ other ∈ front, other.dest = some edit.source) :
    ∃ other ∈ front, Announces before other edit.source (current edit.source) := by
  rcases last_naming front edit.source with none | ⟨first, other, rest, frontSplit, names, unnamed⟩
  · obtain ⟨other, member, dest⟩ := moved
    exact absurd (Or.inr dest) (none other member)
  · have member : other ∈ front := by rw [frontSplit]; simp
    have apart : edit.source ≠ other.source := by
      rw [split] at distinct
      exact source_apart distinct (Or.inl member)
    have dest : other.dest = some edit.source := names.resolve_left apart
    have ranSplit := ran
    rw [frontSplit] at ranSplit
    obtain ⟨start, next, begun, step, left⟩ := runAll_last ranSplit unnamed
    refine ⟨other, member, ?_⟩
    cases other with
    | add | delete | rewrite => cases dest
    | move source target change =>
      change edit.source ≠ source at apart
      have target_eq : target = edit.source := by
        injection dest
      obtain ⟨text, changed, rfl⟩ := map_eq_some_iff.mp step
      have wholeSplit : edits = first ++ .move source target change :: (rest ++ edit :: back) := by
        rw [split, frontSplit]
        simp
      have found := move_finds distinct planned agree wholeSplit
        (by rw [target_eq]; exact apart.symm) begun
      have announced : Announces before (.move source target change) target
          ((before source).bind change) := .moved source target change
      rw [← found, changed, target_eq] at announced
      rw [left, update_of_ne apart, target_eq, update_self]
      exact announced

theorem rewrite_moved (split : edits = front ++ .rewrite path change :: back)
    (ran : runAll front before = some current) (moved : ∃ other ∈ front, other.dest = some path) :
    current path = (before path).bind change := by
  obtain ⟨other, member, announced⟩ := source_moved distinct planned agree split ran moved
  apply agree other (by rw [split]; exact mem_append_left _ member)
    (.rewrite path change) (by rw [split]; simp) path
  · exact announced
  · exact .rewrite path change

end Agreement

section Settling

variable {before after : Files Path Text}
  (planned : ∀ edit ∈ edits, Planned before edit)

include distinct planned

theorem last_announces (settled : Settled edits before) {front back : List (Edit Path Text)}
    {last : Edit Path Text} {current next : Files Path Text}
    (split : edits = front ++ last :: back) (names : last.Names path)
    (unnamed : ∀ later ∈ back, ¬ later.Names path) (begun : runAll front before = some current)
    (step : last.run current = some next) : Announces before last path (next path) := by
  cases last with
  | add source text =>
    cases step
    have same : path = source := names.resolve_right (by simp [Edit.dest])
    rw [same, update_self]
    exact .add source text
  | delete source =>
    cases step
    have same : path = source := names.resolve_right (by simp [Edit.dest])
    rw [same, update_self]
    exact .delete source
  | rewrite source change =>
    obtain ⟨text, changed, rfl⟩ := map_eq_some_iff.mp step
    have same : path = source := names.resolve_right (by simp [Edit.dest])
    subst same
    have value : (before path).bind change = some text := by
      by_cases moved : ∃ other ∈ front, other.dest = some path
      · have found := rewrite_moved distinct planned settled.agree split begun moved
        have idle := settled.rewrites front path change back split moved
          (fun later member dest => unnamed later member (Or.inr dest))
        rw [← idle, ← found, changed]
      · subst split
        have found : current path = before path := by
          apply runAll_frame begun
          intro other member
          apply unnamed_of_dest distinct (Or.inl member)
          exact fun dest => moved ⟨other, member, dest⟩
        rw [← found, changed]
    rw [update_self, ← value]
    exact .rewrite path change
  | move source dest change =>
    by_cases self : source = dest
    · subst self
      obtain ⟨later, member, again⟩ := settled.selfMoves front source change back split
      have same : path = source := by
        rcases names with same | same
        · exact same
        · injection same with equal
          exact equal.symm
      exact absurd (Or.inr (by rw [same]; exact again)) (unnamed later member)
    · obtain ⟨text, changed, rfl⟩ := map_eq_some_iff.mp step
      rcases names with same | moved
      · change path = source at same
        rw [same, update_self]
        exact .left source dest change self
      · have target : dest = path := by injection moved
        subst target
        have found := move_finds distinct planned settled.agree split self begun
        rw [update_of_ne (Ne.symm self), update_self, ← changed, found]
        exact .moved source dest change

theorem carriedOut_of_settled (settled : Settled edits before)
    (ran : runAll edits before = some after) : CarriedOut edits before after := by
  constructor
  · intro edit member path text announced
    rcases last_naming edits path with none | ⟨front, last, back, split, names, unnamed⟩
    · exact absurd announced.names (none edit member)
    · have ranSplit := ran
      rw [split] at ranSplit
      obtain ⟨current, next, begun, step, left⟩ := runAll_last ranSplit unnamed
      have final := last_announces distinct planned settled split names unnamed begun step
      rw [left]
      exact settled.agree last (by rw [split]; simp) edit member path _ _ final announced
  · intro path unnamed
    exact runAll_frame ran unnamed

theorem settled_of_carriedOut (carried : CarriedOut edits before after)
    (ran : runAll edits before = some after) : Settled edits before := by
  have agree : ∀ first ∈ edits, ∀ second ∈ edits, ∀ path text other,
      Announces before first path text → Announces before second path other → text = other := by
    intro first inside second member path text other announced againAnnounced
    rw [← carried.announced first inside path text announced,
      ← carried.announced second member path other againAnnounced]
  constructor
  · exact agree
  · intro front path change back split moved unmoved
    have member : .rewrite path change ∈ edits := by rw [split]; simp
    have final := carried.announced _ member path _ (.rewrite path change)
    have ranSplit := ran
    have distinctSplit := distinct
    rw [split] at ranSplit distinctSplit
    obtain ⟨current, next, begun, step, left⟩ := runAll_last ranSplit
      (fun later inside => unnamed_of_dest distinctSplit (Or.inr inside) (unmoved later inside))
    obtain ⟨text, changed, rfl⟩ := map_eq_some_iff.mp step
    have found := rewrite_moved distinct planned agree split begun moved
    change after path = update current path (some text) path at left
    rw [update_self] at left
    calc
      ((before path).bind change).bind change = (current path).bind change := by rw [found]
      _ = some text := changed
      _ = after path := left.symm
      _ = (before path).bind change := final
  · intro front path change back split
    by_contra unmoved
    have member : .move path path change ∈ edits := by rw [split]; simp
    have final := carried.announced _ member path _ (.moved path path change)
    have some_final := planned _ member
    have ranSplit := ran
    have distinctSplit := distinct
    rw [split] at ranSplit distinctSplit
    obtain ⟨current, next, begun, step, left⟩ := runAll_last ranSplit
      (fun later inside => unnamed_of_dest distinctSplit (Or.inr inside)
        (fun dest => unmoved ⟨later, inside, dest⟩))
    obtain ⟨text, changed, rfl⟩ := map_eq_some_iff.mp step
    change after path = update (update current path (some text)) path none path at left
    rw [update_self] at left
    change ((before path).bind change).isSome = true at some_final
    rw [← final, left] at some_final
    cases some_final

/-- Planned edits with distinct sources leave exactly what they announce when they run one
after the other iff the list is settled. -/
theorem carriedOut_iff_settled (ran : runAll edits before = some after) :
    CarriedOut edits before after ↔ Settled edits before :=
  ⟨fun carried => settled_of_carriedOut distinct planned carried ran,
    fun settled => carriedOut_of_settled distinct planned settled ran⟩

end Settling

end OpenInterpreter.PlannedEdits
