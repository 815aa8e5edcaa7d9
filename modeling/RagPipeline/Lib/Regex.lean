import Mathlib.Data.List.Basic

/-! # Regular expressions with anchors

The part of a backtracking matcher's language that has no groups: classes,
sequences, alternatives, repetition of one class, the two anchors and a
negative lookahead. `ends` computes every rest of the text that a match may
leave; the text as a whole is passed along for the anchors. -/

set_option autoImplicit false

namespace RagPipeline

inductive Regex where
  | epsilon
  | char (p : Char → Bool)
  | seq (a b : Regex)
  | alt (a b : Regex)
  | star (p : Char → Bool)
  | bos
  | eos
  | noneAhead (a : Regex)

namespace Regex

/-- The rests after no, one, two and so on characters of a class. -/
def runs (p : Char → Bool) : List Char → List (List Char)
  | [] => [[]]
  | c :: rest => (c :: rest) :: if p c then runs p rest else []

def ends (w : List Char) : Regex → List Char → List (List Char)
  | .epsilon, t => [t]
  | .char _, [] => []
  | .char p, c :: rest => if p c then [rest] else []
  | .seq a b, t => (a.ends w t).flatMap (b.ends w)
  | .alt a b, t => a.ends w t ++ b.ends w t
  | .star p, t => runs p t
  | .bos, t => if t.length = w.length then [t] else []
  -- the end, or in front of a newline that ends the text
  | .eos, t => if t = [] ∨ t = ['\n'] then [t] else []
  | .noneAhead a, t => if (a.ends w t).isEmpty then [t] else []

def lit (s : List Char) : Regex := s.foldr (fun c r => .seq (.char (· == c)) r) .epsilon

def altAll (rs : List Regex) : Regex := rs.foldr .alt (.char fun _ => false)

def seqAll (rs : List Regex) : Regex := rs.foldr .seq .epsilon

def plus (p : Char → Bool) : Regex := .seq (.char p) (.star p)

def opt (r : Regex) : Regex := .alt r .epsilon

/-- A match that begins somewhere in the text. -/
def search (r : Regex) (w : List Char) : Bool := w.tails.any fun t => !(r.ends w t).isEmpty

/-- A match of the whole text. -/
def fullMatch (r : Regex) (w : List Char) : Bool := (r.ends w w).contains []

/-- The pattern of a glob whose only wildcard is `*`, which runs over whatever
`dot` admits, separators included. -/
def glob (dot : Char → Bool) (pattern : List Char) : Regex :=
  pattern.foldr (fun c r => .seq (if c = '*' then .star dot else .char (· == c)) r) .epsilon

variable {w s t : List Char}

theorem mem_ends_seq {a b : Regex} :
    s ∈ (Regex.seq a b).ends w t ↔ ∃ m ∈ a.ends w t, s ∈ b.ends w m := by
  simp [ends]

theorem mem_ends_char {p : Char → Bool} :
    s ∈ (Regex.char p).ends w t ↔ ∃ c, p c = true ∧ t = c :: s := by
  cases t with
  | nil => simp [ends]
  | cons c rest =>
    by_cases hc : p c
    · simp only [ends, hc, if_true, List.mem_singleton, List.cons.injEq]
      exact ⟨fun h => ⟨c, hc, rfl, h.symm⟩, fun ⟨_, _, _, h⟩ => h.symm⟩
    · simp only [ends, hc, List.cons.injEq]
      refine ⟨fun h => by simp at h, fun ⟨d, hd, hcd, _⟩ => ?_⟩
      exact absurd (hcd ▸ hd) hc

theorem mem_runs_any : s ∈ runs (fun _ => true) t ↔ s <:+ t := by
  induction t with
  | nil => simp [runs]
  | cons c rest ih =>
    simp only [runs, if_true, List.mem_cons, ih, List.suffix_cons_iff]

theorem mem_ends_glob_lit {dot : Char → Bool} {a rest : List Char} (ha : '*' ∉ a) :
    s ∈ (glob dot (a ++ rest)).ends w t ↔ ∃ m, t = a ++ m ∧ s ∈ (glob dot rest).ends w m := by
  induction a generalizing t with
  | nil => simp
  | cons c a ih =>
    rw [List.mem_cons, not_or] at ha
    have hstep : glob dot (c :: a ++ rest) = .seq (.char (· == c)) (glob dot (a ++ rest)) := by
      simp [glob, Ne.symm ha.1]
    rw [hstep, mem_ends_seq]
    constructor
    · rintro ⟨m, hm, hs⟩
      obtain ⟨d, hd, rfl⟩ := mem_ends_char.1 hm
      obtain ⟨m', rfl, hs'⟩ := (ih ha.2).1 hs
      exact ⟨m', by simp [beq_iff_eq.1 hd], hs'⟩
    · rintro ⟨m, rfl, hs⟩
      exact ⟨a ++ m, mem_ends_char.2 ⟨c, by simp, rfl⟩, (ih ha.2).2 ⟨m, rfl, hs⟩⟩

/-- A glob with one wildcard asks for what stands in front of it and what
stands behind it. -/
theorem fullMatch_glob {a b : List Char} (ha : '*' ∉ a) (hb : '*' ∉ b) :
    (glob (fun _ => true) (a ++ '*' :: b)).fullMatch w = true ↔ ∃ m, w = a ++ m ++ b := by
  have hlit {m : List Char} : [] ∈ (glob (fun _ => true) b).ends w m ↔ m = b := by
    have hends : [] ∈ (glob (fun _ => true) (b ++ [])).ends w m ↔
        ∃ m', m = b ++ m' ∧ [] ∈ (glob (fun _ => true) []).ends w m' := mem_ends_glob_lit hb
    rw [List.append_nil] at hends
    rw [hends]
    simp [glob, ends]
  have hstar : glob (fun _ => true) ('*' :: b) =
      .seq (.star fun _ => true) (glob (fun _ => true) b) := by simp [glob]
  rw [fullMatch, List.contains_iff_mem, mem_ends_glob_lit ha]
  constructor
  · rintro ⟨m, hw, hm⟩
    rw [hstar, mem_ends_seq] at hm
    obtain ⟨m', hsuf, hm'⟩ := hm
    obtain ⟨k, rfl⟩ := mem_runs_any.1 hsuf
    exact ⟨k, by rw [hw, hlit.1 hm', List.append_assoc]⟩
  · rintro ⟨m, hw⟩
    refine ⟨m ++ b, by rw [hw, List.append_assoc], ?_⟩
    rw [hstar, mem_ends_seq]
    exact ⟨b, mem_runs_any.2 (List.suffix_append m b), hlit.2 rfl⟩

end Regex
end RagPipeline

/-! # What a pattern finds

A backtracking matcher prefers: the earlier alternative, and the longer run of a
class. The first of its matches is the one it finds, and the search goes on
behind it. -/

namespace RagPipeline.Regex

/-- The rests of a text after a match, the preferred one first. -/
def greedy (w : List Char) : Regex → List Char → List (List Char)
  | .epsilon, t => [t]
  | .char _, [] => []
  | .char p, c :: rest => if p c then [rest] else []
  | .seq a b, t => (a.greedy w t).flatMap (b.greedy w)
  | .alt a b, t => a.greedy w t ++ b.greedy w t
  | .star p, t => (runs p t).reverse
  | .bos, t => if t.length = w.length then [t] else []
  | .eos, t => if t = [] ∨ t = ['\n'] then [t] else []
  | .noneAhead a, t => if (a.greedy w t).isEmpty then [t] else []

def times (n : ℕ) (r : Regex) : Regex := seqAll (List.replicate n r)

def atLeast (n : ℕ) (p : Char → Bool) : Regex := .seq (times n (.char p)) (.star p)

/-- No more than so many of a class, as many as there are. -/
def atMost (p : Char → Bool) : ℕ → Regex
  | 0 => .epsilon
  | n + 1 => .alt (.seq (.char p) (atMost p n)) .epsilon

/-- What was read of a text when a rest of it is left. -/
def consumed (t rest : List Char) : List Char := t.take (t.length - rest.length)

/-- The matches that do not overlap, from the left, each with what stands in front of it. -/
def finditerFrom (r : Regex) (w : List Char) : ℕ → List Char → List Char →
    List (List Char × List Char)
  | 0, _, _ => []
  | _ + 1, _, [] => []
  | fuel + 1, front, c :: t =>
    match (r.greedy w (c :: t)).head? with
    | some rest =>
      if rest.length < (c :: t).length then
        let found := consumed (c :: t) rest
        (front, found) :: finditerFrom r w fuel (front ++ found) rest
      else finditerFrom r w fuel (front ++ [c]) t
    | none => finditerFrom r w fuel (front ++ [c]) t

/-- `re.finditer`, for a pattern that does not match the empty text. -/
def finditer (r : Regex) (w : List Char) : List (List Char × List Char) :=
  finditerFrom r w w.length [] w

/-- The first group of the first match, for a pattern that is one group between two parts. -/
def group (front inner back : Regex) (w : List Char) : Option (List Char) :=
  w.tails.findSome? fun t =>
    (front.greedy w t).findSome? fun m =>
      (inner.greedy w m).findSome? fun e =>
        if (back.greedy w e).isEmpty then none else some (consumed m e)

end RagPipeline.Regex
