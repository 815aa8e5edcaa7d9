import Mathlib.Data.List.Basic
import Mathlib.Data.List.DropRight
import Mathlib.Data.List.Induction
import Mathlib.Data.List.Infix

/-! # Characters of a text -/

set_option autoImplicit false

namespace RagPipeline.Text

/-- Equality of texts is decided character by character. -/
scoped instance lawful : LawfulBEq (List Char) := List.instLawfulBEq

/-- `str.isspace`. -/
def isSpace (c : Char) : Bool :=
  c.toNat ∈ [0x09, 0x0A, 0x0B, 0x0C, 0x0D, 0x1C, 0x1D, 0x1E, 0x1F, 0x20, 0x85, 0xA0, 0x1680,
    0x2000, 0x2001, 0x2002, 0x2003, 0x2004, 0x2005, 0x2006, 0x2007, 0x2008, 0x2009, 0x200A,
    0x2028, 0x2029, 0x202F, 0x205F, 0x3000]

/-- `str.strip`. -/
def strip (s : String) : String :=
  String.ofList ((s.toList.dropWhile isSpace).reverse.dropWhile isSpace).reverse

def isControl (c : Char) : Bool := c.toNat < 32 || c.toNat = 127

end RagPipeline.Text

/-! # Words

The pieces of a text between blanks, and what trimming, joining and cutting the
text do to them. -/

namespace RagPipeline.Words

variable {α : Type} {blank : α → Bool} {c : α}

/-- `str.split` with no argument. -/
def words (blank : α → Bool) (l : List α) : List (List α) :=
  (l.splitOnP blank).filter fun w => !w.isEmpty

@[simp] theorem words_nil : words blank [] = [] := rfl

theorem words_mark (hc : blank c = true) (u v : List α) :
    words blank (u ++ c :: v) = words blank u ++ words blank v := by
  rw [words, List.splitOnP_append_cons u v hc, List.filter_append]
  rfl

theorem words_blank_cons (hc : blank c = true) (v : List α) :
    words blank (c :: v) = words blank v := words_mark hc [] v

theorem words_blank_concat (hc : blank c = true) (u : List α) :
    words blank (u ++ [c]) = words blank u := by
  rw [words_mark hc, words_nil, List.append_nil]

theorem words_dropWhile (l : List α) : words blank (l.dropWhile blank) = words blank l := by
  induction l with
  | nil => rfl
  | cons c l ih =>
    by_cases hc : blank c = true
    · rw [List.dropWhile_cons_of_pos hc, ih, words_blank_cons hc]
    · rw [List.dropWhile_cons_of_neg hc]

theorem words_rdropWhile (l : List α) : words blank (l.rdropWhile blank) = words blank l := by
  induction l using List.reverseRecOn with
  | nil => rw [List.rdropWhile_nil]
  | append_singleton l c ih =>
    by_cases hc : blank c = true
    · rw [List.rdropWhile_concat_pos _ _ _ hc, ih, words_blank_concat hc]
    · rw [List.rdropWhile_concat_neg _ _ _ hc]

theorem words_join (hc : blank c = true) (pieces : List (List α)) :
    words blank ([c].intercalate pieces) = pieces.flatMap (words blank) := by
  induction pieces with
  | nil => rfl
  | cons p pieces ih =>
    cases pieces with
    | nil => simp
    | cons q pieces =>
      rw [List.intercalate_cons_cons, List.append_assoc, List.singleton_append, words_mark hc, ih]
      rfl

theorem words_splitOn [DecidableEq α] (hc : blank c = true) (l : List α) :
    (l.splitOn c).flatMap (words blank) = words blank l := by
  rw [← words_join hc, List.intercalate_splitOn]

end RagPipeline.Words

/-! # Cutting a text

Trimming, what stands before a separator, the pieces between two marks, and the
lines after the last one of a kind. -/

namespace RagPipeline.Cut

section
variable {α : Type}

def trim (blank : α → Bool) (l : List α) : List α := (l.dropWhile blank).rdropWhile blank

/-- What follows the last element of a kind. -/
def afterLast (p : α → Bool) : List α → Option (List α)
  | [] => none
  | x :: rest =>
    match afterLast p rest with
    | some tail => some tail
    | none => if p x then some rest else none

variable {blank : α → Bool} {l u : List α} {c : α}

end

section
variable {α : Type} [DecidableEq α] {sep u v : List α} {a b c : α}

def before (sep : List α) : List α → List α
  | [] => []
  | c :: rest => if sep <+: c :: rest then [] else c :: before sep rest

end

end RagPipeline.Cut
