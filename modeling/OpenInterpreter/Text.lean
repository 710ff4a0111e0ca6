import Mathlib.Data.List.DropRight
import Mathlib.Tactic

/-! Text operations of the Rust standard library on lists of characters. -/

namespace OpenInterpreter.Text

open List

def isWhitespace (ch : Char) : Bool :=
  let code := ch.toNat
  (0x09 ≤ code && code ≤ 0x0D) || code == 0x20 || code == 0x85 || code == 0xA0 ||
    code == 0x1680 || (0x2000 ≤ code && code ≤ 0x200A) || code == 0x2028 || code == 0x2029 ||
    code == 0x202F || code == 0x205F || code == 0x3000

variable (text : List Char)

def trimStart : List Char := text.dropWhile isWhitespace

def trimEnd : List Char := text.rdropWhile isWhitespace

def trim : List Char := trimEnd (trimStart text)

def consLine (ch : Char) : List (List Char) × List Char → List (List Char) × List Char
  | ([], last) => ([], ch :: last)
  | (line :: lines, last) => ((ch :: line) :: lines, last)

def cutLines : List Char → List (List Char) × List Char
  | [] => ([], [])
  | ch :: rest =>
    if ch = '\n' then ([] :: (cutLines rest).1, (cutLines rest).2)
    else consLine ch (cutLines rest)

def stripReturn (line : List Char) : List Char :=
  if line.getLast? = some '\r' then line.dropLast else line

def lines : List (List Char) :=
  (cutLines text).1.map stripReturn ++ if (cutLines text).2 = [] then [] else [(cutLines text).2]

def joinLines : List (List Char) → List Char
  | [] => []
  | [line] => line
  | line :: next :: rest => line ++ '\n' :: joinLines (next :: rest)

def stripPrefix (start text : List Char) : Option (List Char) :=
  if start.isPrefixOf text then some (text.drop start.length) else none

def Blank : Prop := ∀ ch ∈ text, isWhitespace ch = true

theorem blank_append (left right : List Char) : Blank (left ++ right) ↔ Blank left ∧ Blank right :=
  forall_mem_append

variable (text : List Char)

theorem trimEnd_append_blank {space : List Char} (blank : Blank space) :
    trimEnd (text ++ space) = trimEnd text := by
  induction space using reverseRecOn with
  | nil => rw [append_nil]
  | append_singleton space ch ih =>
    obtain ⟨rest, last⟩ := (blank_append _ _).mp blank
    rw [← append_assoc, trimEnd, rdropWhile_concat_pos]
    · exact ih rest
    · exact last ch (mem_singleton_self ch)

theorem trimEnd_split : ∃ space, text = trimEnd text ++ space ∧ Blank space :=
  ⟨text.rtakeWhile isWhitespace, rdropWhile_append_rtakeWhile.symm,
    fun _ member => mem_rtakeWhile_imp member⟩

theorem trimEnd_eq_nil : trimEnd text = [] ↔ Blank text := rdropWhile_eq_nil_iff

theorem trimEnd_idem : trimEnd (trimEnd text) = trimEnd text := rdropWhile_idempotent ..

theorem trimStart_eq_nil : trimStart text = [] ↔ Blank text := dropWhile_eq_nil_iff

theorem trimStart_append (more : List Char) (solid : ¬ Blank text) :
    trimStart (text ++ more) = trimStart text ++ more := by
  rw [trimStart, dropWhile_append, if_neg]
  · rfl
  · rw [List.isEmpty_iff]
    exact fun empty => solid ((trimStart_eq_nil text).mp empty)

theorem trimEnd_append_solid (more : List Char) (solid : ¬ Blank more) :
    trimEnd (text ++ more) = text ++ trimEnd more := by
  obtain ⟨space, whole, blank⟩ := trimEnd_split more
  have nonempty : trimEnd more ≠ [] := fun empty => solid ((trimEnd_eq_nil more).mp empty)
  conv_lhs => rw [whole, ← append_assoc, trimEnd_append_blank _ blank]
  rw [trimEnd, rdropWhile_eq_self_iff]
  intro present
  rw [getLast_append_of_ne_nil present nonempty]
  exact rdropWhile_last_not _ _ nonempty

theorem blank_trimStart : Blank (trimStart text) ↔ Blank text := by
  constructor
  · intro blank
    have split := takeWhile_append_dropWhile (p := isWhitespace) (l := text)
    rw [← split, blank_append]
    exact ⟨fun _ member => mem_takeWhile_imp member, blank⟩
  · intro blank
    rw [(trimStart_eq_nil text).mpr blank]
    exact fun _ member => absurd member not_mem_nil

theorem trim_eq : trim text = trimStart (trimEnd text) := by
  by_cases blank : Blank text
  · rw [trim, (trimStart_eq_nil text).mpr blank, (trimEnd_eq_nil text).mpr blank]
    rfl
  · obtain ⟨space, whole, spaces⟩ := trimEnd_split text
    have solid : ¬ Blank (trimEnd text) := by
      intro front
      rw [whole] at blank
      exact blank ((blank_append _ _).mpr ⟨front, spaces⟩)
    have split := takeWhile_append_dropWhile (p := isWhitespace) (l := trimEnd text)
    have kept : trimEnd (trimStart (trimEnd text)) = trimStart (trimEnd text) := by
      have inner : ¬ Blank (trimStart (trimEnd text)) := fun b => solid ((blank_trimStart _).mp b)
      have again := trimEnd_append_solid ((trimEnd text).takeWhile isWhitespace)
        (trimStart (trimEnd text)) inner
      rw [trimStart, split, trimEnd_idem] at again
      exact (append_cancel_left (split.trans again)).symm
    conv_lhs => rw [trim, whole, trimStart_append _ _ solid, trimEnd_append_blank _ spaces]
    exact kept

theorem trim_append_blank (space : List Char) (blank : Blank space) :
    trim (text ++ space) = trim text := by
  rw [trim_eq, trim_eq, trimEnd_append_blank text blank]

theorem trimStart_blank {lead : List Char} (blank : Blank lead) :
    trimStart (lead ++ text) = trimStart text :=
  dropWhile_append_of_pos blank

theorem trim_blank_append {lead : List Char} (blank : Blank lead) :
    trim (lead ++ text) = trim text := by
  rw [trim, trim, trimStart_blank text blank]

theorem trim_parts :
    ∃ lead trail, text = lead ++ trim text ++ trail ∧ Blank lead ∧ Blank trail := by
  obtain ⟨trail, whole, blank⟩ := trimEnd_split (trimStart text)
  refine ⟨text.takeWhile isWhitespace, trail, ?_, fun _ => mem_takeWhile_imp, blank⟩
  rw [append_assoc, trim, ← whole]
  exact takeWhile_append_dropWhile.symm

theorem trim_ends :
    (∀ ch ∈ (trim text).head?, isWhitespace ch = false) ∧
      ∀ ch ∈ (trim text).getLast?, isWhitespace ch = false := by
  constructor
  · rw [trim_eq]
    intro ch first
    have none := head?_dropWhile_not isWhitespace (trimEnd text)
    rw [show (trimEnd text).dropWhile isWhitespace = trimStart (trimEnd text) from rfl, first] at none
    simpa using none
  · intro ch last
    have filled : trim text ≠ [] := by
      rintro empty
      rw [empty] at last
      cases last
    have other := rdropWhile_last_not isWhitespace (trimStart text) filled
    rw [getLast?_eq_getLast_of_ne_nil filled] at last
    cases last
    exact Bool.eq_false_iff.mpr other

def unlines : List (List Char) → List Char → List Char
  | [], last => last
  | line :: lines, last => line ++ '\n' :: unlines lines last

theorem unlines_consLine (ch : Char) (cut : List (List Char) × List Char) :
    unlines (consLine ch cut).1 (consLine ch cut).2 = ch :: unlines cut.1 cut.2 := by
  rcases cut with ⟨_ | _, _⟩ <;> rfl

theorem unlines_cutLines : unlines (cutLines text).1 (cutLines text).2 = text := by
  induction text with
  | nil => rfl
  | cons ch rest ih =>
    unfold cutLines
    split
    · rename_i newline
      rw [newline]
      exact congrArg (cons '\n') ih
    · rw [unlines_consLine, ih]

def appendCut (left : List (List Char) × List Char) :
    List (List Char) × List Char → List (List Char) × List Char
  | ([], last) => (left.1, left.2 ++ last)
  | (line :: lines, last) => (left.1 ++ (left.2 ++ line) :: lines, last)

theorem cutLines_append (left right : List Char) :
    cutLines (left ++ right) = appendCut (cutLines left) (cutLines right) := by
  induction left with
  | nil =>
    rw [nil_append]
    rcases cutLines right with ⟨_ | _, _⟩ <;> rfl
  | cons ch left ih =>
    rw [cons_append, cutLines, cutLines, ih]
    by_cases newline : ch = '\n'
    · rw [if_pos newline, if_pos newline]
      rcases cutLines right with ⟨_ | _, _⟩ <;> rfl
    · rw [if_neg newline, if_neg newline]
      rcases cutLines right with ⟨_ | _, _⟩ <;> rcases cutLines left with ⟨_ | _, _⟩ <;> rfl

theorem cutLines_unlines (parts : List (List Char)) (last : List Char)
    (plain : ∀ line ∈ parts, '\n' ∉ line) (end_plain : '\n' ∉ last) :
    cutLines (unlines parts last) = (parts, last) := by
  have piece (text : List Char) (free : '\n' ∉ text) : cutLines text = ([], text) := by
    induction text with
    | nil => rfl
    | cons ch text ih =>
      rw [mem_cons, not_or] at free
      rw [cutLines, if_neg (Ne.symm free.1), ih free.2]
      rfl
  induction parts with
  | nil => exact piece last end_plain
  | cons line parts ih =>
    have rest := ih (fun other member => plain other (mem_cons_of_mem _ member))
    rw [unlines, cutLines_append, piece line (plain line mem_cons_self), cutLines, rest]
    simp [appendCut]

theorem cutLines_plain : (∀ line ∈ (cutLines text).1, '\n' ∉ line) ∧ '\n' ∉ (cutLines text).2 := by
  induction text with
  | nil => simp [cutLines]
  | cons ch rest ih =>
    unfold cutLines
    split
    · exact ⟨by simpa using ih.1, ih.2⟩
    · rename_i other
      revert ih
      rcases cutLines rest with ⟨_ | ⟨line, lines⟩, last⟩
      · rintro ⟨-, free⟩
        exact ⟨by simp [consLine], by simpa [consLine, Ne.symm other] using free⟩
      · rintro ⟨plain, free⟩
        refine ⟨?_, free⟩
        intro part member
        rcases mem_cons.mp member with rfl | later
        · have inner := plain line mem_cons_self
          simpa [Ne.symm other] using inner
        · exact plain part (mem_cons_of_mem _ later)

theorem joinLines_concat (front : List (List Char)) (last : List Char) :
    joinLines (front ++ [last]) = unlines front last := by
  induction front with
  | nil => rfl
  | cons line front ih =>
    cases front with
    | nil => rfl
    | cons next front =>
      rw [cons_append, cons_append, joinLines, ← cons_append, ih]
      rfl

end OpenInterpreter.Text
