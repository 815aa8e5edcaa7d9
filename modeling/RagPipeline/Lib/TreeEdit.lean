import Mathlib.Algebra.BigOperators.Group.Finset.Basic
import Mathlib.Algebra.Order.BigOperators.Group.Finset
import Mathlib.Algebra.Order.Field.Basic
import Mathlib.Order.Interval.Finset.Nat
import Mathlib.Data.Nat.Cast.Order.Ring
import Mathlib.Order.Bounds.Basic
import Mathlib.Tactic.Linarith
import Mathlib.Tactic.Ring

/-! # Mappings between numbered forests

The nodes of an ordered forest are numbered in postorder, and `l k` is the number of
the first node below `k`. A stretch of numbers that starts below none of its nodes is
a forest. -/

set_option autoImplicit false

namespace RagPipeline.TreeEdit

/-- Whether node `k` is a proper descendant of node `i`. -/
def Below (l : ℕ → ℕ) (i k : ℕ) : Prop := l i ≤ k ∧ k < i

/-- Postorder numbers: a node's descendants end at it, and two nodes' stretches nest. -/
structure Numbered (l : ℕ → ℕ) : Prop where
  le : ∀ k, l k ≤ k
  nests : ∀ i k, l i ≤ k → k ≤ i → l i ≤ l k

/-- A one-to-one mapping between the nodes numbered `a` to `e` of one forest and `b` to `f`
of the other that keeps the order and who descends from whom. -/
structure Mapping (l₁ l₂ : ℕ → ℕ) (a e b f : ℕ) (M : Finset (ℕ × ℕ)) : Prop where
  left : ∀ p ∈ M, a ≤ p.1 ∧ p.1 < e
  right : ∀ p ∈ M, b ≤ p.2 ∧ p.2 < f
  order : ∀ p ∈ M, ∀ q ∈ M, p.1 < q.1 ↔ p.2 < q.2
  descends : ∀ p ∈ M, ∀ q ∈ M, Below l₁ q.1 p.1 ↔ Below l₂ q.2 p.2

variable {l₁ l₂ : ℕ → ℕ} {a e b f u v : ℕ} {M N : Finset (ℕ × ℕ)}

namespace Mapping

theorem one_to_one (h : Mapping l₁ l₂ a e b f M) {p q : ℕ × ℕ} (hp : p ∈ M) (hq : q ∈ M) :
    p.1 = q.1 ↔ p.2 = q.2 := by
  have hpq := h.order p hp q hq
  have hqp := h.order q hq p hp
  omega

theorem eq_of_fst (h : Mapping l₁ l₂ a e b f M) {p q : ℕ × ℕ} (hp : p ∈ M) (hq : q ∈ M)
    (he : p.1 = q.1) : p = q :=
  Prod.ext he ((h.one_to_one hp hq).mp he)

theorem mono (h : Mapping l₁ l₂ a e b f M) (hN : N ⊆ M) {a' e' b' f' : ℕ}
    (hleft : ∀ p ∈ N, a' ≤ p.1 ∧ p.1 < e') (hright : ∀ p ∈ N, b' ≤ p.2 ∧ p.2 < f') :
    Mapping l₁ l₂ a' e' b' f' N where
  left := hleft
  right := hright
  order := fun p hp q hq => h.order p (hN hp) q (hN hq)
  descends := fun p hp q hq => h.descends p (hN hp) q (hN hq)

theorem empty : Mapping l₁ l₂ a e b f ∅ where
  left := by simp
  right := by simp
  order := by simp
  descends := by simp

theorem widen_left (h : Mapping l₁ l₂ a e b f M) : Mapping l₁ l₂ a (e + 1) b f M := by
  apply h.mono (Finset.Subset.refl M)
  · intro p hp
    have := h.left p hp
    omega
  · exact h.right

theorem widen_right (h : Mapping l₁ l₂ a e b f M) : Mapping l₁ l₂ a e b (f + 1) M := by
  apply h.mono (Finset.Subset.refl M)
  · exact h.left
  · intro p hp
    have := h.right p hp
    omega

theorem narrow_left (h : Mapping l₁ l₂ a (e + 1) b f M) (hfree : ∀ p ∈ M, p.1 ≠ e) :
    Mapping l₁ l₂ a e b f M := by
  apply h.mono (Finset.Subset.refl M)
  · intro p hp
    have hbound := h.left p hp
    have hne := hfree p hp
    omega
  · exact h.right

theorem narrow_right (h : Mapping l₁ l₂ a e b (f + 1) M) (hfree : ∀ p ∈ M, p.2 ≠ f) :
    Mapping l₁ l₂ a e b f M := by
  apply h.mono (Finset.Subset.refl M)
  · exact h.left
  · intro p hp
    have hbound := h.right p hp
    have hne := hfree p hp
    omega

/-- Where the last node of either side is mapped, the two are mapped to each other. -/
theorem last_pair (h : Mapping l₁ l₂ a (e + 1) b (f + 1) M) {p q : ℕ × ℕ} (hp : p ∈ M)
    (hq : q ∈ M) (hpe : p.1 = e) (hqf : q.2 = f) : (e, f) ∈ M := by
  have hpright := h.right p hp
  have hqleft := h.left q hq
  have hqp := h.order p hp q hq
  have hpq := h.order q hq p hp
  have hpf : p.2 = f := by omega
  have : p = (e, f) := Prod.ext hpe hpf
  exact this ▸ hp

/-- Two mappings side by side: nothing of the second starts below nothing of the first. -/
theorem union (hM : Mapping l₁ l₂ a u b v M) (hN : Mapping l₁ l₂ u e v f N)
    (hau : a ≤ u) (hbv : b ≤ v) (hue : u ≤ e) (hvf : v ≤ f)
    (hu : ∀ k, u ≤ k → k < e → u ≤ l₁ k) (hv : ∀ k, v ≤ k → k < f → v ≤ l₂ k) :
    Mapping l₁ l₂ a e b f (M ∪ N) where
  left := by
    intro p hp
    rcases Finset.mem_union.mp hp with hp | hp
    · have := hM.left p hp
      omega
    · have := hN.left p hp
      omega
  right := by
    intro p hp
    rcases Finset.mem_union.mp hp with hp | hp
    · have := hM.right p hp
      omega
    · have := hN.right p hp
      omega
  order := by
    intro p hp q hq
    rcases Finset.mem_union.mp hp with hp | hp <;> rcases Finset.mem_union.mp hq with hq | hq
    · exact hM.order p hp q hq
    · have := hM.left p hp
      have := hM.right p hp
      have := hN.left q hq
      have := hN.right q hq
      omega
    · have := hN.left p hp
      have := hN.right p hp
      have := hM.left q hq
      have := hM.right q hq
      omega
    · exact hN.order p hp q hq
  descends := by
    intro p hp q hq
    rcases Finset.mem_union.mp hp with hp | hp <;> rcases Finset.mem_union.mp hq with hq | hq
    · exact hM.descends p hp q hq
    · have hpl := hM.left p hp
      have hpr := hM.right p hp
      have hql := hN.left q hq
      have hqr := hN.right q hq
      have hul := hu q.1 hql.1 hql.2
      have hvr := hv q.2 hqr.1 hqr.2
      unfold Below
      omega
    · have hpl := hN.left p hp
      have hpr := hN.right p hp
      have hql := hM.left q hq
      have hqr := hM.right q hq
      unfold Below
      omega
    · exact hN.descends p hp q hq

/-- The roots of two trees may be mapped to each other over any mapping of what is below. -/
theorem insert_root (h : Mapping l₁ l₂ a e b f M) (ha : l₁ e = a) (hb : l₂ f = b) (hae : a ≤ e)
    (hbf : b ≤ f) : Mapping l₁ l₂ a (e + 1) b (f + 1) (insert (e, f) M) where
  left := by
    intro p hp
    rcases Finset.mem_insert.mp hp with rfl | hp
    · show a ≤ e ∧ e < e + 1
      omega
    · have := h.left p hp
      omega
  right := by
    intro p hp
    rcases Finset.mem_insert.mp hp with rfl | hp
    · show b ≤ f ∧ f < f + 1
      omega
    · have := h.right p hp
      omega
  order := by
    intro p hp q hq
    rcases Finset.mem_insert.mp hp with rfl | hp <;> rcases Finset.mem_insert.mp hq with rfl | hq
    · simp
    · have := h.left q hq
      have := h.right q hq
      show e < q.1 ↔ f < q.2
      omega
    · have := h.left p hp
      have := h.right p hp
      show p.1 < e ↔ p.2 < f
      omega
    · exact h.order p hp q hq
  descends := by
    intro p hp q hq
    rcases Finset.mem_insert.mp hp with rfl | hp <;> rcases Finset.mem_insert.mp hq with rfl | hq
    · simp [Below]
    · have := h.left q hq
      have := h.right q hq
      show (l₁ q.1 ≤ e ∧ e < q.1) ↔ (l₂ q.2 ≤ f ∧ f < q.2)
      omega
    · have := h.left p hp
      have := h.right p hp
      show (l₁ e ≤ p.1 ∧ p.1 < e) ↔ (l₂ f ≤ p.2 ∧ p.2 < f)
      omega
    · exact h.descends p hp q hq

/-- Beside a mapped last pair, the rest of a mapping falls apart into what is below the
pair and what is before it. -/
theorem below_last (h : Mapping l₁ l₂ a (e + 1) b (f + 1) M) (hlast : (e, f) ∈ M)
    (h₁ : Numbered l₁) (h₂ : Numbered l₂) {p : ℕ × ℕ} (hp : p ∈ M) : l₁ e ≤ p.1 ↔ l₂ f ≤ p.2 := by
  have hbelow := h.descends p hp (e, f) hlast
  have hone := h.one_to_one hp hlast
  have hleft := h.left p hp
  have hright := h.right p hp
  have hle₁ := h₁.le e
  have hle₂ := h₂.le f
  unfold Below at hbelow
  simp only at hbelow hone
  omega

theorem before_last (h : Mapping l₁ l₂ a (e + 1) b (f + 1) M) (hlast : (e, f) ∈ M)
    (h₁ : Numbered l₁) (h₂ : Numbered l₂) :
    Mapping l₁ l₂ a (l₁ e) b (l₂ f) (M.filter fun p => p.1 < l₁ e) := by
  apply h.mono (Finset.filter_subset _ M)
  · intro p hp
    have hp' := Finset.mem_filter.mp hp
    exact ⟨(h.left p hp'.1).1, hp'.2⟩
  · intro p hp
    have hp' := Finset.mem_filter.mp hp
    have hside := h.below_last hlast h₁ h₂ hp'.1
    have hright := h.right p hp'.1
    omega

theorem from_last (h : Mapping l₁ l₂ a (e + 1) b (f + 1) M) (hlast : (e, f) ∈ M)
    (h₁ : Numbered l₁) (h₂ : Numbered l₂) :
    Mapping l₁ l₂ (l₁ e) (e + 1) (l₂ f) (f + 1) (M.filter fun p => ¬ p.1 < l₁ e) := by
  apply h.mono (Finset.filter_subset _ M)
  · intro p hp
    have hp' := Finset.mem_filter.mp hp
    have hleft := h.left p hp'.1
    omega
  · intro p hp
    have hp' := Finset.mem_filter.mp hp
    have hside := h.below_last hlast h₁ h₂ hp'.1
    have hright := h.right p hp'.1
    omega

theorem erase_last (h : Mapping l₁ l₂ a (e + 1) b (f + 1) M) (hlast : (e, f) ∈ M) :
    Mapping l₁ l₂ a e b f (M.erase (e, f)) := by
  have hother : ∀ p ∈ M.erase (e, f), p ∈ M ∧ p.1 ≠ e ∧ p.2 ≠ f := by
    intro p hp
    have hp' := Finset.mem_erase.mp hp
    have hone := h.one_to_one hp'.2 hlast
    have hne : p.1 ≠ e := fun he => hp'.1 (h.eq_of_fst hp'.2 hlast he)
    exact ⟨hp'.2, hne, fun hf => hne (hone.mpr hf)⟩
  apply h.mono (Finset.erase_subset _ M)
  · intro p hp
    have hp' := hother p hp
    have := h.left p hp'.1
    omega
  · intro p hp
    have hp' := hother p hp
    have := h.right p hp'.1
    omega

/-- The same mapping read from the other side. -/
theorem swap (h : Mapping l₁ l₂ a e b f M) :
    Mapping l₂ l₁ b f a e (M.map (Equiv.prodComm ℕ ℕ).toEmbedding) where
  left := by
    intro p hp
    obtain ⟨q, hq, rfl⟩ := Finset.mem_map.mp hp
    exact h.right q hq
  right := by
    intro p hp
    obtain ⟨q, hq, rfl⟩ := Finset.mem_map.mp hp
    exact h.left q hq
  order := by
    intro p hp q hq
    obtain ⟨p', hp', rfl⟩ := Finset.mem_map.mp hp
    obtain ⟨q', hq', rfl⟩ := Finset.mem_map.mp hq
    exact (h.order p' hp' q' hq').symm
  descends := by
    intro p hp q hq
    obtain ⟨p', hp', rfl⟩ := Finset.mem_map.mp hp
    obtain ⟨q', hq', rfl⟩ := Finset.mem_map.mp hq
    exact (h.descends p' hp' q' hq').symm

theorem card_image_fst (h : Mapping l₁ l₂ a e b f M) (hN : N ⊆ M) : (N.image Prod.fst).card = N.card := by
  apply Finset.card_image_of_injOn
  intro p hp q hq he
  exact h.eq_of_fst (hN hp) (hN hq) he

theorem image_fst_subset (h : Mapping l₁ l₂ a e b f M) : M.image Prod.fst ⊆ Finset.Ico a e := by
  intro k hk
  obtain ⟨p, hp, rfl⟩ := Finset.mem_image.mp hk
  exact Finset.mem_Ico.mpr (h.left p hp)

theorem card_le_left (h : Mapping l₁ l₂ a e b f M) : M.card ≤ e - a := by
  have hcard := Finset.card_le_card h.image_fst_subset
  rw [h.card_image_fst (Finset.Subset.refl M), Nat.card_Ico] at hcard
  exact hcard

/-- As many pairs as nodes: no node is left out. -/
theorem image_fst (h : Mapping l₁ l₂ a e b f M) (hcard : M.card = e - a) :
    M.image Prod.fst = Finset.Ico a e := by
  apply Finset.eq_of_subset_of_card_le h.image_fst_subset
  rw [h.card_image_fst (Finset.Subset.refl M), hcard, Nat.card_Ico]

theorem card_le_right (h : Mapping l₁ l₂ a e b f M) : M.card ≤ f - b := by
  have := h.swap.card_le_left
  simpa using this

end Mapping

/-! ## Costs -/

section
variable {K : Type} [Field K] [LinearOrder K] [IsStrictOrderedRing K] {c : ℕ → ℕ → K}

/-- One for every node left out, and what each mapped pair costs. -/
def cost (c : ℕ → ℕ → K) (a e b f : ℕ) (M : Finset (ℕ × ℕ)) : K :=
  ((e : K) - a - M.card) + ((f : K) - b - M.card) + M.sum fun p => c p.1 p.2

/-- What the mappings between two stretches cost. -/
def costs (l₁ l₂ : ℕ → ℕ) (c : ℕ → ℕ → K) (a e b f : ℕ) : Set K :=
  {x | ∃ M, Mapping l₁ l₂ a e b f M ∧ cost c a e b f M = x}

omit [LinearOrder K] [IsStrictOrderedRing K] in
theorem cost_succ_left (M : Finset (ℕ × ℕ)) : cost c a (e + 1) b f M = cost c a e b f M + 1 := by
  unfold cost
  push_cast
  ring

omit [LinearOrder K] [IsStrictOrderedRing K] in
theorem cost_succ_right (M : Finset (ℕ × ℕ)) : cost c a e b (f + 1) M = cost c a e b f M + 1 := by
  unfold cost
  push_cast
  ring

omit [LinearOrder K] [IsStrictOrderedRing K] in
theorem cost_union (hM : Mapping l₁ l₂ a u b v M) (hN : Mapping l₁ l₂ u e v f N) :
    cost c a e b f (M ∪ N) = cost c a u b v M + cost c u e v f N := by
  have hdisjoint : Disjoint M N := by
    rw [Finset.disjoint_left]
    intro p hp hp'
    have := hM.left p hp
    have := hN.left p hp'
    omega
  unfold cost
  rw [Finset.card_union_of_disjoint hdisjoint, Finset.sum_union hdisjoint]
  push_cast
  ring

omit [LinearOrder K] [IsStrictOrderedRing K] in
theorem cost_split (h : Mapping l₁ l₂ a (e + 1) b (f + 1) M) (hlast : (e, f) ∈ M)
    (h₁ : Numbered l₁) (h₂ : Numbered l₂) :
    cost c a (e + 1) b (f + 1) M =
      cost c a (l₁ e) b (l₂ f) (M.filter fun p => p.1 < l₁ e) +
        cost c (l₁ e) (e + 1) (l₂ f) (f + 1) (M.filter fun p => ¬ p.1 < l₁ e) := by
  rw [← cost_union (h.before_last hlast h₁ h₂) (h.from_last hlast h₁ h₂),
    Finset.filter_union_filter_not_eq]

omit [LinearOrder K] [IsStrictOrderedRing K] in
theorem cost_insert_root (hM : Mapping l₁ l₂ a e b f M) :
    cost c a (e + 1) b (f + 1) (insert (e, f) M) = cost c a e b f M + c e f := by
  have hnew : (e, f) ∉ M := by
    intro h
    have := hM.left _ h
    simp only at this
    omega
  unfold cost
  rw [Finset.card_insert_of_notMem hnew, Finset.sum_insert hnew]
  push_cast
  ring

omit [LinearOrder K] [IsStrictOrderedRing K] in
theorem cost_erase_last (h : Mapping l₁ l₂ a (e + 1) b (f + 1) M) (hlast : (e, f) ∈ M) :
    cost c a (e + 1) b (f + 1) M = cost c a e b f (M.erase (e, f)) + c e f := by
  rw [← cost_insert_root (h.erase_last hlast), Finset.insert_erase hlast]

/-! ## The least cost, node by node -/

omit [IsStrictOrderedRing K] in
theorem isLeast_none_left (b f : ℕ) : IsLeast (costs l₁ l₂ c a a b f) ((f : K) - b) := by
  have honly : ∀ M, Mapping l₁ l₂ a a b f M → M = ∅ := by
    intro M hM
    apply Finset.eq_empty_of_forall_notMem
    intro p hp
    have := hM.left p hp
    omega
  constructor
  · exact ⟨∅, Mapping.empty, by simp [cost]⟩
  · rintro x ⟨M, hM, rfl⟩
    simp [honly M hM, cost]

omit [IsStrictOrderedRing K] in
theorem isLeast_none_right (a e : ℕ) : IsLeast (costs l₁ l₂ c a e b b) ((e : K) - a) := by
  have honly : ∀ M, Mapping l₁ l₂ a e b b M → M = ∅ := by
    intro M hM
    apply Finset.eq_empty_of_forall_notMem
    intro p hp
    have := hM.right p hp
    omega
  constructor
  · exact ⟨∅, Mapping.empty, by simp [cost]⟩
  · rintro x ⟨M, hM, rfl⟩
    simp [honly M hM, cost]

/-- A mapping leaves the last node of one side out, or that of the other, or maps the two to
each other. -/
theorem last_cases (h : Mapping l₁ l₂ a (e + 1) b (f + 1) M) :
    Mapping l₁ l₂ a e b (f + 1) M ∨ Mapping l₁ l₂ a (e + 1) b f M ∨ (e, f) ∈ M := by
  by_cases hleft : ∀ p ∈ M, p.1 ≠ e
  · exact .inl (h.narrow_left hleft)
  · by_cases hright : ∀ p ∈ M, p.2 ≠ f
    · exact .inr (.inl (h.narrow_right hright))
    · push Not at hleft hright
      obtain ⟨p, hp, hpe⟩ := hleft
      obtain ⟨q, hq, hqf⟩ := hright
      exact .inr (.inr (h.last_pair hp hq hpe hqf))

/-- Two whole trees: the roots are mapped to each other over a mapping of what is below. -/
theorem isLeast_roots (h₁ : Numbered l₁) (h₂ : Numbered l₂) (ha : l₁ e = a) (hb : l₂ f = b)
    {x y z : K} (hx : IsLeast (costs l₁ l₂ c a e b (f + 1)) x)
    (hy : IsLeast (costs l₁ l₂ c a (e + 1) b f) y) (hz : IsLeast (costs l₁ l₂ c a e b f) z) :
    IsLeast (costs l₁ l₂ c a (e + 1) b (f + 1)) (min (x + 1) (min (y + 1) (z + c e f))) := by
  constructor
  · rcases min_choice (x + 1) (min (y + 1) (z + c e f)) with h | h
    · obtain ⟨M, hM, hcost⟩ := hx.1
      rw [h]
      exact ⟨M, hM.widen_left, by rw [cost_succ_left, hcost]⟩
    · rw [h]
      rcases min_choice (y + 1) (z + c e f) with h' | h'
      · obtain ⟨M, hM, hcost⟩ := hy.1
        rw [h']
        exact ⟨M, hM.widen_right, by rw [cost_succ_right, hcost]⟩
      · obtain ⟨M, hM, hcost⟩ := hz.1
        rw [h']
        have hae : a ≤ e := ha ▸ h₁.le e
        have hbf : b ≤ f := hb ▸ h₂.le f
        exact ⟨_, hM.insert_root ha hb hae hbf, by rw [cost_insert_root hM, hcost]⟩
  · rintro w ⟨M, hM, rfl⟩
    rcases last_cases hM with h | h | h
    · rw [cost_succ_left]
      exact (min_le_left _ _).trans (add_le_add_left (hx.2 ⟨M, h, rfl⟩) 1)
    · rw [cost_succ_right]
      exact ((min_le_right _ _).trans (min_le_left _ _)).trans
        (add_le_add_left (hy.2 ⟨M, h, rfl⟩) 1)
    · rw [cost_erase_last hM h]
      exact ((min_le_right _ _).trans (min_le_right _ _)).trans
        (add_le_add_left (hz.2 ⟨_, hM.erase_last h, rfl⟩) _)

/-- Two forests: the last trees are mapped into each other beside a mapping of the rest. -/
theorem isLeast_forests (h₁ : Numbered l₁) (h₂ : Numbered l₂) (ha : a ≤ l₁ e) (hb : b ≤ l₂ f)
    {x y z t : K} (hx : IsLeast (costs l₁ l₂ c a e b (f + 1)) x)
    (hy : IsLeast (costs l₁ l₂ c a (e + 1) b f) y)
    (hz : IsLeast (costs l₁ l₂ c a (l₁ e) b (l₂ f)) z)
    (ht : IsLeast (costs l₁ l₂ c (l₁ e) (e + 1) (l₂ f) (f + 1)) t) :
    IsLeast (costs l₁ l₂ c a (e + 1) b (f + 1)) (min (x + 1) (min (y + 1) (z + t))) := by
  have hle₁ := h₁.le e
  have hle₂ := h₂.le f
  constructor
  · rcases min_choice (x + 1) (min (y + 1) (z + t)) with h | h
    · obtain ⟨M, hM, hcost⟩ := hx.1
      rw [h]
      exact ⟨M, hM.widen_left, by rw [cost_succ_left, hcost]⟩
    · rw [h]
      rcases min_choice (y + 1) (z + t) with h' | h'
      · obtain ⟨M, hM, hcost⟩ := hy.1
        rw [h']
        exact ⟨M, hM.widen_right, by rw [cost_succ_right, hcost]⟩
      · obtain ⟨M, hM, hcost⟩ := hz.1
        obtain ⟨N, hN, hcost'⟩ := ht.1
        have hunion : Mapping l₁ l₂ a (e + 1) b (f + 1) (M ∪ N) := by
          apply hM.union hN ha hb (by omega) (by omega)
          · intro k hk hke
            exact h₁.nests e k hk (by omega)
          · intro k hk hkf
            exact h₂.nests f k hk (by omega)
        rw [h']
        exact ⟨_, hunion, by rw [cost_union hM hN, hcost, hcost']⟩
  · rintro w ⟨M, hM, rfl⟩
    rcases last_cases hM with h | h | h
    · rw [cost_succ_left]
      exact (min_le_left _ _).trans (add_le_add_left (hx.2 ⟨M, h, rfl⟩) 1)
    · rw [cost_succ_right]
      exact ((min_le_right _ _).trans (min_le_left _ _)).trans
        (add_le_add_left (hy.2 ⟨M, h, rfl⟩) 1)
    · rw [cost_split hM h h₁ h₂]
      exact ((min_le_right _ _).trans (min_le_right _ _)).trans
        (add_le_add (hz.2 ⟨_, hM.before_last h h₁ h₂, rfl⟩) (ht.2 ⟨_, hM.from_last h h₁ h₂, rfl⟩))

/-! ## Both ways, and nothing -/

omit [LinearOrder K] [IsStrictOrderedRing K] in
theorem cost_swap (M : Finset (ℕ × ℕ)) :
    cost (fun i j => c j i) b f a e (M.map (Equiv.prodComm ℕ ℕ).toEmbedding) = cost c a e b f M := by
  unfold cost
  rw [Finset.card_map, Finset.sum_map]
  simp only [Equiv.coe_toEmbedding, Equiv.prodComm_apply, Prod.fst_swap, Prod.snd_swap]
  ring

omit [LinearOrder K] [IsStrictOrderedRing K] in
theorem costs_subset_swap : costs l₁ l₂ c a e b f ⊆ costs l₂ l₁ (fun i j => c j i) b f a e := by
  rintro x ⟨M, hM, rfl⟩
  exact ⟨_, hM.swap, cost_swap M⟩

omit [LinearOrder K] [IsStrictOrderedRing K] in
theorem costs_swap : costs l₂ l₁ (fun i j => c j i) b f a e = costs l₁ l₂ c a e b f :=
  Set.Subset.antisymm costs_subset_swap costs_subset_swap

theorem cost_parts (h : Mapping l₁ l₂ a e b f M) (hae : a ≤ e) (hbf : b ≤ f)
    (hc : ∀ i j, 0 ≤ c i j) :
    0 ≤ (e : K) - a - M.card ∧ 0 ≤ (f : K) - b - M.card ∧ 0 ≤ M.sum fun p => c p.1 p.2 := by
  have hleft : ((a + M.card : ℕ) : K) ≤ (e : K) := by
    have := h.card_le_left
    exact Nat.cast_le.mpr (by omega)
  have hright : ((b + M.card : ℕ) : K) ≤ (f : K) := by
    have := h.card_le_right
    exact Nat.cast_le.mpr (by omega)
  push_cast at hleft hright
  exact ⟨by linarith, by linarith, Finset.sum_nonneg fun p _ => hc p.1 p.2⟩

theorem cost_nonneg (h : Mapping l₁ l₂ a e b f M) (hae : a ≤ e) (hbf : b ≤ f)
    (hc : ∀ i j, 0 ≤ c i j) : 0 ≤ cost c a e b f M := by
  obtain ⟨hleft, hright, hsum⟩ := cost_parts h hae hbf hc
  unfold cost
  linarith

/-- Where no node is left out, the pairs before a pair are as many as the nodes before it. -/
theorem Mapping.rank (h : Mapping l₁ l₂ a e b f M) (hcard : M.card = e - a) {p : ℕ × ℕ}
    (hp : p ∈ M) : (M.filter fun q => q.1 < p.1).card = p.1 - a := by
  have hbefore : (M.filter fun q => q.1 < p.1).image Prod.fst = Finset.Ico a p.1 := by
    ext k
    rw [Finset.mem_image, Finset.mem_Ico]
    constructor
    · rintro ⟨q, hq, rfl⟩
      have hq' := Finset.mem_filter.mp hq
      exact ⟨(h.left q hq'.1).1, hq'.2⟩
    · intro hk
      have hke : k ∈ M.image Prod.fst := by
        rw [h.image_fst hcard, Finset.mem_Ico]
        have := h.left p hp
        omega
      obtain ⟨q, hq, rfl⟩ := Finset.mem_image.mp hke
      exact ⟨q, Finset.mem_filter.mpr ⟨hq, hk.2⟩, rfl⟩
  rw [← h.card_image_fst (Finset.filter_subset _ M), hbefore, Nat.card_Ico]

/-- A mapping that costs nothing takes every node to the node of its own number. -/
theorem diagonal_of_cost_zero (h : Mapping l₁ l₂ a e b f M) (hae : a ≤ e) (hbf : b ≤ f)
    (hc : ∀ i j, 0 ≤ c i j) (hzero : cost c a e b f M = 0) :
    e - a = f - b ∧ ∀ k, k < e - a → c (a + k) (b + k) = 0 := by
  obtain ⟨hleft, hright, hsum⟩ := cost_parts h hae hbf hc
  unfold cost at hzero
  have hl : ((a + M.card : ℕ) : K) = (e : K) := by
    push_cast
    linarith
  have hr : ((b + M.card : ℕ) : K) = (f : K) := by
    push_cast
    linarith
  have hs : (M.sum fun p => c p.1 p.2) = 0 := by linarith
  have hcard₁ : M.card = e - a := by
    have := Nat.cast_injective hl
    omega
  have hcard₂ : M.card = f - b := by
    have := Nat.cast_injective hr
    omega
  constructor
  · omega
  · intro k hk
    have hmem : a + k ∈ M.image Prod.fst := by
      rw [h.image_fst hcard₁, Finset.mem_Ico]
      omega
    obtain ⟨p, hp, hpk⟩ := Finset.mem_image.mp hmem
    have hrank₁ := h.rank hcard₁ hp
    have hswap : p.swap ∈ M.map (Equiv.prodComm ℕ ℕ).toEmbedding :=
      Finset.mem_map_of_mem (Equiv.prodComm ℕ ℕ).toEmbedding hp
    have hrank₂ := h.swap.rank (by rw [Finset.card_map, hcard₂]) hswap
    have hsame : ((M.map (Equiv.prodComm ℕ ℕ).toEmbedding).filter fun q => q.1 < p.swap.1).card =
        (M.filter fun q => q.1 < p.1).card := by
      rw [Finset.filter_map, Finset.card_map]
      congr 1
      apply Finset.filter_congr
      intro q hq
      exact (h.order q hq p hp).symm
    have hleft' := h.left p hp
    have hright' := h.right p hp
    rw [hsame, hrank₁, Prod.fst_swap] at hrank₂
    have hpb : p.2 = b + k := by omega
    have := (Finset.sum_eq_zero_iff_of_nonneg fun q _ => hc q.1 q.2).mp hs p hp
    rwa [hpk, hpb] at this

/-- Every node to itself. -/
theorem isLeast_zero_self (hae : a ≤ e) (hc : ∀ i j, 0 ≤ c i j) (hself : ∀ k, a ≤ k → k < e → c k k = 0) :
    IsLeast (costs l₁ l₁ c a e a e) 0 := by
  constructor
  · have hM : Mapping l₁ l₁ a e a e ((Finset.Ico a e).image fun k => (k, k)) := by
      constructor
      · intro p hp
        obtain ⟨k, hk, rfl⟩ := Finset.mem_image.mp hp
        exact Finset.mem_Ico.mp hk
      · intro p hp
        obtain ⟨k, hk, rfl⟩ := Finset.mem_image.mp hp
        exact Finset.mem_Ico.mp hk
      · intro p hp q hq
        obtain ⟨k, hk, rfl⟩ := Finset.mem_image.mp hp
        obtain ⟨k', hk', rfl⟩ := Finset.mem_image.mp hq
        rfl
      · intro p hp q hq
        obtain ⟨k, hk, rfl⟩ := Finset.mem_image.mp hp
        obtain ⟨k', hk', rfl⟩ := Finset.mem_image.mp hq
        rfl
    have hinj : Function.Injective fun k : ℕ => (k, k) := fun i j h => congrArg Prod.fst h
    refine ⟨_, hM, ?_⟩
    unfold cost
    rw [Finset.card_image_of_injective _ hinj, Nat.card_Ico, Finset.sum_image fun i _ j _ h => hinj h,
      Nat.cast_sub hae]
    have hsum : ((Finset.Ico a e).sum fun k => c k k) = 0 := by
      apply Finset.sum_eq_zero
      intro k hk
      have hk' := Finset.mem_Ico.mp hk
      exact hself k hk'.1 hk'.2
    rw [hsum]
    ring
  · rintro x ⟨M, hM, rfl⟩
    exact cost_nonneg hM hae hae hc

end

end RagPipeline.TreeEdit
