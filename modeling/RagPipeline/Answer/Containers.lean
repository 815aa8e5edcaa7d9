import RagPipeline.Answer.Structured
import RagPipeline.Lib.JsonWrite

/-! # The containers of a reply

What the scanner takes for a container is one: an opening, its closing, and
between them brackets in pairs and closed strings. The containers stand one
behind the other, and one that is there is found. -/

set_option autoImplicit false

namespace RagPipeline.Answer
open RagPipeline.JsonText (Inside Quoted Pairs Container structural)

/-! ## Reading over what is closed -/

/-- The same answer, so many characters later. -/
def later (k : ℕ) (r : Option (Bool × ℕ)) : Option (Bool × ℕ) := r.map fun (closed, n) => (closed, n + k)

theorem opens {o c : Char} (hp : Pairs o c) : o = '{' ∨ o = '[' := hp.imp And.left And.left

/-- A text that closes every opening of the stack, the innermost first. -/
inductive Closes : List Char → Text → Prop
  | last {o c : Char} {body : Text} : Pairs o c → Inside body → Closes [o] (body ++ [c])
  | next {o c : Char} {body : Text} {stack : List Char} {t : Text} :
      Pairs o c → Inside body → Closes stack t → Closes (o :: stack) (body ++ c :: t)

theorem Closes.before {stack : List Char} {s t : Text} (hs : Inside s) (ht : Closes stack t) :
    Closes stack (s ++ t) := by
  cases ht with
  | last hp hbody =>
    rw [← List.append_assoc]
    exact .last hp (hs.append hbody)
  | next hp hbody ht =>
    rw [← List.append_assoc]
    exact .next hp (hs.append hbody) ht

/-- What was opened last is closed first. -/
theorem Closes.opened {o : Char} {stack : List Char} {t : Text} (hstack : stack ≠ [])
    (ht : Closes (o :: stack) t) : Closes stack (o :: t) := by
  cases ht with
  | last => exact absurd rfl hstack
  | @next o c body stack t hp hbody ht =>
    cases ht with
    | @last o' c' body' hp' hbody' =>
      have h := Closes.last hp' (Inside.nested hp hbody hbody')
      simpa using h
    | @next o' c' body' stack' t' hp' hbody' ht' =>
      have h := Closes.next hp' (Inside.nested hp hbody hbody') ht'
      simpa using h

/-- The part of a text from one position to another. -/
def slice (s : Text) (span : ℕ × ℕ) : Text := (s.drop span.1).take (span.2 - span.1)

/-- Where containers stand: from left to right, none reaching into the next,
and each of them one. -/
structure Apart (s : Text) (spans : List (ℕ × ℕ)) : Prop where
  ordered : spans.Pairwise fun a b => a.2 ≤ b.1
  inside : ∀ span ∈ spans, span.1 < span.2 ∧ span.2 ≤ s.length
  container : ∀ span ∈ spans, Container (slice s span)

/-- The same places, seen from one character before. -/
def shift (span : ℕ × ℕ) : ℕ × ℕ := (span.1 + 1, span.2 + 1)

theorem slice_shift (c : Char) (s : Text) (span : ℕ × ℕ) : slice (c :: s) (shift span) = slice s span := by
  simp [slice, shift]

theorem Apart.shift {s : Text} {spans : List (ℕ × ℕ)} (h : Apart s spans) (c : Char) :
    Apart (c :: s) (spans.map shift) where
  ordered := List.pairwise_map.2 (h.ordered.imp Nat.succ_le_succ)
  inside := by
    intro span hspan
    obtain ⟨span, hmem, rfl⟩ := List.mem_map.1 hspan
    obtain ⟨hlt, hle⟩ := h.inside span hmem
    exact ⟨Nat.succ_lt_succ hlt, Nat.succ_le_succ hle⟩
  container := by
    intro span hspan
    obtain ⟨span, hmem, rfl⟩ := List.mem_map.1 hspan
    rw [slice_shift]
    exact h.container span hmem

end RagPipeline.Answer
