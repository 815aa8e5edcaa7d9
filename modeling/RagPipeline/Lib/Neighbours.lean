import Mathlib.Data.List.Sort
import Mathlib.Data.List.SplitBy
import Mathlib.Order.Basic
import Mathlib.Algebra.Order.Ring.Rat
import Mathlib.Tactic.Linarith
import Mathlib.Data.List.Chain
import Mathlib.Data.List.Induction
import Mathlib.Data.List.Forall2

/-! # Chains of near positions

Items in the order of a key, and cut wherever the next position is further on than
a gap. -/

set_option autoImplicit false

namespace RagPipeline.Gaps

variable {α κ : Type}

section
variable [LinearOrder κ]

/-- A stable sort by a key. -/
def sortBy (key : α → κ) (l : List α) : List α := l.insertionSort fun a b => key a ≤ key b

theorem sortBy_perm (key : α → κ) (l : List α) : (sortBy key l).Perm l := List.perm_insertionSort _ l

theorem sortBy_sorted (key : α → κ) (l : List α) : (sortBy key l).Pairwise fun a b => key a ≤ key b := by
  have : Std.Total fun a b : α => key a ≤ key b := ⟨fun a b => le_total (key a) (key b)⟩
  have : IsTrans α fun a b => key a ≤ key b := ⟨fun _ _ _ => le_trans⟩
  exact List.pairwise_insertionSort _ l

theorem sortBy_eq {key : α → κ} {l : List α} (h : l.Pairwise fun a b => key a ≤ key b) : sortBy key l = l :=
  h.insertionSort_eq

end

/-- A group ends where the next position is more than `gap` further on. -/
def clusterBy (gap : ℚ) (pos : α → ℚ) (l : List α) : List (List α) :=
  l.splitBy fun a b => decide (pos b - pos a ≤ gap)

theorem clusterBy_flatten (gap : ℚ) (pos : α → ℚ) (l : List α) : (clusterBy gap pos l).flatten = l :=
  List.flatten_splitBy _ l

theorem ne_nil_of_mem_clusterBy {gap : ℚ} {pos : α → ℚ} {l c : List α} (h : c ∈ clusterBy gap pos l) : c ≠ [] :=
  List.ne_nil_of_mem_splitBy h

/-- Between groups whose ends are further apart than the gap, so is everything. -/
theorem separated_of_ends {gap : ℚ} (hgap : 0 ≤ gap) {pos : α → ℚ} {groups : List (List α)}
    (hnil : [] ∉ groups) (hsorted : groups.flatten.Pairwise fun a b => pos a ≤ pos b)
    (hends : groups.IsChain fun a b => ∃ ha hb, gap < pos (b.head hb) - pos (a.getLast ha)) :
    groups.Pairwise fun a b => ∀ x ∈ a, ∀ y ∈ b, pos x < pos y := by
  induction groups with
  | nil => exact List.Pairwise.nil
  | cons a rest ih =>
    rw [List.flatten_cons, List.pairwise_append] at hsorted
    obtain ⟨ha, hrest, hcross⟩ := hsorted
    have hnil' : [] ∉ rest := fun h => hnil (List.mem_cons_of_mem a h)
    apply List.Pairwise.cons
    · cases rest with
      | nil =>
        intro b hb
        cases hb
      | cons next more =>
        obtain ⟨hane, hnext, hend⟩ := (List.isChain_cons_cons.1 hends).1
        intro b hb x hx y hy
        have hlast : pos x ≤ pos (a.getLast hane) := by
          have hsplit := List.dropLast_append_getLast hane
          rw [← hsplit] at hx ha
          cases List.mem_append.1 hx with
          | inl hfront => exact (List.pairwise_append.1 ha).2.2 x hfront _ (List.mem_singleton_self _)
          | inr hsame => rw [List.mem_singleton.1 hsame]
        have hhead : pos (next.head hnext) ≤ pos y := by
          have hy' : y ∈ (next :: more).flatten := List.mem_flatten.2 ⟨b, hb, hy⟩
          have hsplit : (next :: more).flatten = next.head hnext :: (next.tail ++ more.flatten) := by
            rw [List.flatten_cons, ← List.cons_append, List.cons_head_tail]
          rw [hsplit] at hrest hy'
          cases List.mem_cons.1 hy' with
          | inl hsame => rw [hsame]
          | inr hlater => exact (List.pairwise_cons.1 hrest).1 y hlater
        linarith
    · exact ih hnil' hrest (List.IsChain.tail hends)

/-- Of items in the order of their positions, the groups stand one behind the other. -/
theorem clusterBy_separated {gap : ℚ} (hgap : 0 ≤ gap) {pos : α → ℚ} {l : List α}
    (h : l.Pairwise fun a b => pos a ≤ pos b) :
    (clusterBy gap pos l).Pairwise fun a b => ∀ x ∈ a, ∀ y ∈ b, pos x < pos y := by
  apply separated_of_ends hgap (List.nil_notMem_splitBy _ l)
  · rw [List.flatten_splitBy]
    exact h
  · apply (List.isChain_getLast_head_splitBy _ l).imp
    intro a b hab
    obtain ⟨ha, hb, hfalse⟩ := hab
    exact ⟨ha, hb, lt_of_not_ge (of_decide_eq_false hfalse)⟩

end RagPipeline.Gaps

/-! # Absorbing neighbours

One pass over a list in which an element is absorbed by the one last kept where
the two join: what is kept stands for runs of the list, and nothing that is left
joins its neighbour. -/

namespace RagPipeline.Coalesce

section
variable {α : Type} (joins : α → α → Bool) (absorb : α → α → α)

def push (out : List α) (x : α) : List α :=
  match out.getLast? with
  | some last => if joins last x then out.dropLast ++ [absorb last x] else out ++ [x]
  | none => [x]

def coalesce (l : List α) : List α := l.foldl (push joins absorb) []

end

variable {α : Type} {joins : α → α → Bool} {absorb : α → α → α} {a x : α}

theorem push_nil : push joins absorb [] x = [x] := rfl

theorem push_concat (out : List α) :
    push joins absorb (out ++ [a]) x =
      if joins a x then out ++ [absorb a x] else out ++ [a] ++ [x] := by
  rw [push, List.getLast?_concat]
  show (if joins a x then (out ++ [a]).dropLast ++ [absorb a x] else out ++ [a] ++ [x]) = _
  rw [List.dropLast_concat]

theorem coalesce_concat (l : List α) (x : α) :
    coalesce joins absorb (l ++ [x]) = push joins absorb (coalesce joins absorb l) x := by
  rw [coalesce, List.foldl_append]
  rfl

theorem push_apart (hgrows : ∀ a b c, joins a b = false → joins a (absorb b c) = false)
    {out : List α} (h : out.IsChain fun a b => joins a b = false) (x : α) :
    (push joins absorb out x).IsChain fun a b => joins a b = false := by
  induction out using List.reverseRecOn with
  | nil =>
    rw [push_nil]
    exact List.isChain_singleton x
  | append_singleton out a _ =>
    rw [push_concat]
    split_ifs with hjoins
    · apply List.IsChain.append h.left_of_append (List.isChain_singleton _)
      intro b hb c hc
      obtain rfl := Option.some.inj hc
      apply hgrows b a x
      exact (List.isChain_append.1 h).2.2 b hb a rfl
    · apply List.IsChain.append h (List.isChain_singleton x)
      intro b hb c hc
      obtain rfl := Option.some.inj hc
      rw [List.getLast?_concat] at hb
      obtain rfl := Option.some.inj hb
      exact Bool.eq_false_iff.2 hjoins

/-- Nothing that is left joins its neighbour, where absorbing makes no pair join. -/
theorem coalesce_apart (hgrows : ∀ a b c, joins a b = false → joins a (absorb b c) = false)
    (l : List α) : (coalesce joins absorb l).IsChain fun a b => joins a b = false := by
  induction l using List.reverseRecOn with
  | nil => exact List.IsChain.nil
  | append_singleton l x ih =>
    rw [coalesce_concat]
    exact push_apart hgrows ih x

theorem coalesce_of_apart {l : List α} (h : l.IsChain fun a b => joins a b = false) :
    coalesce joins absorb l = l := by
  induction l using List.reverseRecOn with
  | nil => rfl
  | append_singleton l x ih =>
    rw [coalesce_concat, ih h.left_of_append]
    cases l using List.reverseRecOn with
    | nil => rfl
    | append_singleton l a =>
      have hapart : joins a x = false :=
        (List.isChain_append.1 h).2.2 a (List.getLast?_concat ..) x rfl
      rw [push_concat, if_neg (by simp [hapart])]

theorem forall₂_concat {β : Type} {R : α → β → Prop} {out : List α} {l : List β}
    (h : List.Forall₂ R (out ++ [a]) l) :
    ∃ before b, l = before ++ [b] ∧ List.Forall₂ R out before ∧ R a b := by
  induction out generalizing l with
  | nil =>
    obtain ⟨b, rest, hb, hrest, rfl⟩ := List.forall₂_cons_left_iff.1 h
    cases hrest
    exact ⟨[], b, rfl, .nil, hb⟩
  | cons c out ih =>
    obtain ⟨d, rest, hd, hrest, rfl⟩ := List.forall₂_cons_left_iff.1 h
    obtain ⟨before, b, rfl, hbefore, hb⟩ := ih hrest
    exact ⟨d :: before, b, rfl, .cons hd hbefore, hb⟩

/-- Each element that is kept stands for the run it has absorbed. -/
theorem coalesce_runs {stands : α → List α → Prop} (hsingle : ∀ x, stands x [x])
    (habsorb : ∀ a x r, stands a r → joins a x = true → stands (absorb a x) (r ++ [x]))
    (l : List α) : ∃ runs, runs.flatten = l ∧ List.Forall₂ stands (coalesce joins absorb l) runs := by
  induction l using List.reverseRecOn with
  | nil => exact ⟨[], rfl, .nil⟩
  | append_singleton l x ih =>
    obtain ⟨runs, hflat, hstands⟩ := ih
    rw [coalesce_concat]
    cases hout : coalesce joins absorb l using List.reverseRecOn with
    | nil =>
      rw [hout] at hstands
      cases hstands
      rw [push_nil]
      exact ⟨[[x]], by rw [← hflat]; rfl, .cons (hsingle x) .nil⟩
    | append_singleton out a =>
      rw [hout] at hstands
      obtain ⟨before, r, rfl, hbefore, hr⟩ := forall₂_concat hstands
      rw [push_concat]
      split_ifs with hjoins
      · apply Exists.intro (before ++ [r ++ [x]])
        constructor
        · rw [← hflat]
          simp
        · exact List.rel_append hbefore (.cons (habsorb a x r hr hjoins) .nil)
      · apply Exists.intro (before ++ [r] ++ [[x]])
        constructor
        · rw [← hflat]
          simp
        · exact List.rel_append hstands (.cons (hsingle x) .nil)

end RagPipeline.Coalesce
