import RagPipeline.Scoring.TableTree
import RagPipeline.Extraction.Finalize
import Mathlib.Data.Finset.Max
import Mathlib.Order.Interval.Finset.Nat

/-! # The distance of two tables

Where the first row of neither table has a cell, the program computes the least cost of a
mapping between the two trees. -/

set_option autoImplicit false

namespace RagPipeline.Scoring
open RagPipeline.Extraction (Unicode latin)
open Edits TreeEdit

/-! ## Loops that may fail -/

theorem foldlM_range {σ : Type} {f : σ → ℕ → Option σ} {P : ℕ → σ → Prop} {a n : ℕ} {s : σ}
    (h : P a s) (step : ∀ k s, a ≤ k → k < a + n → P k s → ∃ s', f s k = some s' ∧ P (k + 1) s') :
    ∃ s', (List.range' a n).foldlM f s = some s' ∧ P (a + n) s' := by
  induction n generalizing a s with
  | zero => exact ⟨s, rfl, h⟩
  | succ n ih =>
    obtain ⟨s₁, hs₁, hP⟩ := step a s (le_refl a) (by omega) h
    obtain ⟨s₂, hs₂, hP₂⟩ := ih hP fun k s hlow hhigh => step k s (by omega) (by omega)
    have hend : a + 1 + n = a + (n + 1) := by omega
    rw [List.range'_succ, List.foldlM_cons, hs₁]
    exact ⟨s₂, hs₂, hend ▸ hP₂⟩

theorem foldlM_list {σ α : Type} {f : σ → α → Option σ} {P : List α → σ → Prop} (done l : List α)
    {s : σ} (h : P done s) (step : ∀ before k after s, done ++ l = before ++ k :: after → P before s →
      ∃ s', f s k = some s' ∧ P (before ++ [k]) s') :
    ∃ s', l.foldlM f s = some s' ∧ P (done ++ l) s' := by
  induction l generalizing done s with
  | nil => exact ⟨s, rfl, by rwa [List.append_nil]⟩
  | cons k l ih =>
    obtain ⟨s₁, hs₁, hP⟩ := step done k l s rfl h
    have happ : done ++ [k] ++ l = done ++ k :: l := by simp
    obtain ⟨s₂, hs₂, hP₂⟩ := ih (done ++ [k]) hP fun before k' after s hsplit => step before k' after s (happ ▸ hsplit)
    rw [List.foldlM_cons, hs₁]
    exact ⟨s₂, hs₂, happ ▸ hP₂⟩

/-! ## The borders -/

theorem Grid.set_same (g : Grid) (i j : ℕ) (v : ℚ) : g.set i j v i j = v := by
  simp [Grid.set]

theorem Grid.set_other (g : Grid) {i j x y : ℕ} (v : ℚ) (h : ¬(x = i ∧ y = j)) :
    g.set i j v x y = g x y := by
  simp [Grid.set, h]

theorem left_border (m : ℕ) {x : ℕ} (hx : x ≤ m) :
    ((List.range' 1 m).foldl (fun (fd : Grid) di => fd.set di 0 (fd (di - 1) 0 + 1)) fun _ _ => 0) x 0
      = x := by
  induction m generalizing x with
  | zero =>
    have : x = 0 := by omega
    simp [this]
  | succ m ih =>
    rw [List.range'_concat, List.foldl_append, List.foldl_cons, List.foldl_nil]
    by_cases hlast : x = 1 + 1 * m
    · rw [hlast, Grid.set_same, Nat.add_sub_cancel_left, Nat.one_mul, ih (le_refl m)]
      push_cast
      ring
    · rw [Grid.set_other _ _ (by omega)]
      exact ih (by omega)

theorem top_border (g : Grid) (hg : g 0 0 = 0) (m : ℕ) :
    (∀ y, y ≤ m → ((List.range' 1 m).foldl
      (fun (fd : Grid) dj => fd.set 0 dj (fd 0 (dj - 1) + 1)) g) 0 y = y) ∧
    ∀ x, ((List.range' 1 m).foldl
      (fun (fd : Grid) dj => fd.set 0 dj (fd 0 (dj - 1) + 1)) g) x 0 = g x 0 := by
  induction m with
  | zero =>
    constructor
    · intro y hy
      have : y = 0 := by omega
      simp [this, hg]
    · intro x
      rfl
  | succ m ih =>
    rw [List.range'_concat, List.foldl_append, List.foldl_cons, List.foldl_nil]
    constructor
    · intro y hy
      by_cases hlast : y = 1 + 1 * m
      · rw [hlast, Grid.set_same, Nat.add_sub_cancel_left, Nat.one_mul, ih.1 m (le_refl m)]
        push_cast
        ring
      · rw [Grid.set_other _ _ (by omega)]
        exact ih.1 y (by omega)
    · intro x
      rw [Grid.set_other _ _ (by omega)]
      exact ih.2 x

theorem border_left {rows cols x : ℕ} (hx : x ≤ rows - 1) : border rows cols x 0 = x := by
  rw [border, (top_border _ (by simpa using left_border (rows - 1) (Nat.zero_le _)) _).2]
  exact left_border (rows - 1) hx

theorem border_top {rows cols y : ℕ} (hy : y ≤ cols - 1) : border rows cols 0 y = y := by
  rw [border]
  exact (top_border _ (by simpa using left_border (rows - 1) (Nat.zero_le _)) _).1 y hy

theorem pyIndex_of_lt {size k : ℕ} (h : k < size) : pyIndex size k = some k := by
  simp [pyIndex, h]

/-! ## The dynamic program -/

/-- What the program relies on in a numbering. -/
structure Numbers (A : Numbering) (l : ℕ → ℕ) (n : ℕ) : Prop where
  numbered : Numbered l
  first : ∀ k, 1 ≤ k → k ≤ n → A.first k = l k
  pos : ∀ k, 1 ≤ k → 1 ≤ l k

def pairCost (A B : Numbering) (i j : ℕ) : ℚ := renameCost (A.label i) (B.label j)

section
variable (A B : Numbering) (l₁ l₂ : ℕ → ℕ)

/-- An entry of `td` is the distance of its two subtrees. -/
def Right (td : Grid) (x y : ℕ) : Prop :=
  IsLeast (costs l₁ l₂ (pairCost A B) (l₁ x) (x + 1) (l₂ y) (y + 1)) (td x y)

/-- The cells of `fd` before `(di, dj)`. -/
def Before (di dj x y : ℕ) : Prop := x = 0 ∨ y = 0 ∨ x < di ∨ x = di ∧ y < dj

/-- What holds while the cells of one `fd` are filled, row by row. -/
structure Filled (i j : ℕ) (td₀ : Grid) (di dj : ℕ) (t : Tables) : Prop where
  fd : ∀ x y, x ≤ i - l₁ i + 1 → y ≤ j - l₂ j + 1 → Before di dj x y →
    IsLeast (costs l₁ l₂ (pairCost A B) (l₁ i) (l₁ i + x) (l₂ j) (l₂ j + y)) (t.fd x y)
  td : ∀ x y, x ≤ i - l₁ i → y ≤ j - l₂ j → Before di dj (x + 1) (y + 1) →
    l₁ (l₁ i + x) = l₁ i → l₂ (l₂ j + y) = l₂ j → Right A B l₁ l₂ t.td (l₁ i + x) (l₂ j + y)
  kept : ∀ x y, Right A B l₁ l₂ td₀ x y → Right A B l₁ l₂ t.td x y

end

section
variable {A B : Numbering} {l₁ l₂ : ℕ → ℕ} {n₁ n₂ i j : ℕ} {td₀ : Grid}

theorem before_next {di dj x y : ℕ} (h : Before di (dj + 1) x y) :
    Before di dj x y ∨ x = di ∧ y = dj := by
  unfold Before at h ⊢
  omega

/-- The cell that is filled holds what it should, whichever of the two branches fills it. -/
theorem filled_set {di dj : ℕ} {t : Tables} (h : Filled A B l₁ l₂ i j td₀ (di + 1) (dj + 1) t)
    {v : ℚ} (hv : IsLeast (costs l₁ l₂ (pairCost A B) (l₁ i) (l₁ i + di + 1) (l₂ j) (l₂ j + dj + 1)) v)
    {td : Grid} (hnew : l₁ (l₁ i + di) = l₁ i → l₂ (l₂ j + dj) = l₂ j →
      Right A B l₁ l₂ td (l₁ i + di) (l₂ j + dj))
    (hold : ∀ x y, Right A B l₁ l₂ t.td x y → Right A B l₁ l₂ td x y) :
    Filled A B l₁ l₂ i j td₀ (di + 1) (dj + 1 + 1) ⟨t.fd.set (di + 1) (dj + 1) v, td⟩ := by
  constructor
  · intro x y hx hy hbefore
    by_cases hcell : x = di + 1 ∧ y = dj + 1
    · obtain ⟨rfl, rfl⟩ := hcell
      show IsLeast _ (Grid.set t.fd _ _ v _ _)
      rw [Grid.set_same]
      exact hv
    · show IsLeast _ (Grid.set t.fd _ _ v _ _)
      rw [Grid.set_other _ _ hcell]
      rcases before_next hbefore with hb | hb
      · exact h.fd x y hx hy hb
      · exact absurd hb hcell
  · intro x y hx hy hbefore hl₁ hl₂
    rcases before_next hbefore with hb | ⟨hx', hy'⟩
    · exact hold _ _ (h.td x y hx hy hb hl₁ hl₂)
    · have hx'' : x = di := by omega
      have hy'' : y = dj := by omega
      subst hx'' hy''
      exact hnew hl₁ hl₂
  · intro x y hr
    exact hold x y (h.kept x y hr)

theorem fillCell_right (hA : Numbers A l₁ n₁) (hB : Numbers B l₂ n₂) (hi : 1 ≤ i) (hin : i ≤ n₁)
    (hj : 1 ≤ j) (hjn : j ≤ n₂) {di dj : ℕ} (hdi : di ≤ i - l₁ i) (hdj : dj ≤ j - l₂ j)
    (htd : ¬(l₁ (l₁ i + di) = l₁ i ∧ l₂ (l₂ j + dj) = l₂ j) →
      Right A B l₁ l₂ td₀ (l₁ i + di) (l₂ j + dj)) {t : Tables}
    (h : Filled A B l₁ l₂ i j td₀ (di + 1) (dj + 1) t) :
    ∃ t', fillCell A B (l₁ i) (l₂ j) (i - l₁ i + 2) (j - l₂ j + 2) (di + 1) t (dj + 1) = some t' ∧
      Filled A B l₁ l₂ i j td₀ (di + 1) (dj + 1 + 1) t' := by
  have hle₁ := hA.numbered.le i
  have hle₂ := hB.numbered.le j
  have hpos₁ := hA.pos i hi
  have hpos₂ := hB.pos j hj
  have hfirst₁ : A.first (l₁ i + di) = l₁ (l₁ i + di) := hA.first _ (by omega) (by omega)
  have hfirst₂ : B.first (l₂ j + dj) = l₂ (l₂ j + dj) := hB.first _ (by omega) (by omega)
  have hnest₁ := hA.numbered.nests i (l₁ i + di) (by omega) (by omega)
  have hnest₂ := hB.numbered.nests j (l₂ j + dj) (by omega) (by omega)
  have hless₁ := hA.numbered.le (l₁ i + di)
  have hless₂ := hB.numbered.le (l₂ j + dj)
  have hup := h.fd di (dj + 1) (by omega) (by omega) (by unfold Before; omega)
  have hback := h.fd (di + 1) dj (by omega) (by omega) (by unfold Before; omega)
  unfold fillCell
  simp only [Nat.add_sub_cancel, ← Nat.add_assoc, hfirst₁, hfirst₂]
  by_cases hboth : l₁ (l₁ i + di) = l₁ i ∧ l₂ (l₂ j + dj) = l₂ j
  · have hcorner := h.fd di dj (by omega) (by omega) (by unfold Before; omega)
    have hv := isLeast_roots hA.numbered hB.numbered hboth.1 hboth.2 hup hback hcorner
    rw [if_pos hboth]
    refine ⟨_, rfl, filled_set h hv ?_ ?_⟩
    · intro _ _
      unfold Right
      rw [hboth.1, hboth.2, Grid.set_same]
      exact hv
    · intro x y hr
      by_cases hcell : x = l₁ i + di ∧ y = l₂ j + dj
      · obtain ⟨rfl, rfl⟩ := hcell
        unfold Right
        rw [hboth.1, hboth.2, Grid.set_same]
        exact hv
      · unfold Right
        rw [Grid.set_other _ _ hcell]
        exact hr
  · rw [if_neg hboth]
    have hrow : ((l₁ (l₁ i + di) : ℕ) : ℤ) - l₁ i = ((l₁ (l₁ i + di) - l₁ i : ℕ) : ℤ) := by omega
    have hcol : ((l₂ (l₂ j + dj) : ℕ) : ℤ) - l₂ j = ((l₂ (l₂ j + dj) - l₂ j : ℕ) : ℤ) := by omega
    have hat : t.fd.at (i - l₁ i + 2) (j - l₂ j + 2) ((l₁ (l₁ i + di) : ℤ) - l₁ i)
        ((l₂ (l₂ j + dj) : ℤ) - l₂ j) =
          some (t.fd (l₁ (l₁ i + di) - l₁ i) (l₂ (l₂ j + dj) - l₂ j)) := by
      rw [Grid.at, hrow, hcol, pyIndex_of_lt (by omega), pyIndex_of_lt (by omega)]
      rfl
    have hrest := h.fd (l₁ (l₁ i + di) - l₁ i) (l₂ (l₂ j + dj) - l₂ j) (by omega) (by omega)
      (by unfold Before; omega)
    rw [Nat.add_sub_cancel' hnest₁, Nat.add_sub_cancel' hnest₂] at hrest
    have hv := isLeast_forests hA.numbered hB.numbered hnest₁ hnest₂ hup hback hrest
      (h.kept _ _ (htd hboth))
    rw [hat]
    refine ⟨_, rfl, filled_set h hv ?_ fun _ _ hr => hr⟩
    intro hl₁ hl₂
    exact absurd ⟨hl₁, hl₂⟩ hboth

theorem Filled.weaken {di dj di' dj' : ℕ} {t : Tables} (h : Filled A B l₁ l₂ i j td₀ di dj t)
    (hfewer : ∀ x y, x ≤ i - l₁ i + 1 → y ≤ j - l₂ j + 1 → Before di' dj' x y → Before di dj x y) :
    Filled A B l₁ l₂ i j td₀ di' dj' t where
  fd := fun x y hx hy hb => h.fd x y hx hy (hfewer x y hx hy hb)
  td := fun x y hx hy hb => h.td x y hx hy (hfewer _ _ (by omega) (by omega) hb)
  kept := h.kept

theorem filled_border : Filled A B l₁ l₂ i j td₀ 1 1 ⟨border (i - l₁ i + 2) (j - l₂ j + 2), td₀⟩ := by
  constructor
  · intro x y hx hy hbefore
    by_cases hzero : y = 0
    · subst hzero
      have h : IsLeast (costs l₁ l₂ (pairCost A B) (l₁ i) (l₁ i + x) (l₂ j) (l₂ j)) _ :=
        isLeast_none_right (l₁ i) (l₁ i + x)
      rw [Nat.cast_add, add_sub_cancel_left] at h
      show IsLeast _ (border _ _ x 0)
      rw [border_left (by omega)]
      exact h
    · have hx' : x = 0 := by
        unfold Before at hbefore
        omega
      subst hx'
      have h : IsLeast (costs l₁ l₂ (pairCost A B) (l₁ i) (l₁ i) (l₂ j) (l₂ j + y)) _ :=
        isLeast_none_left (l₂ j) (l₂ j + y)
      rw [Nat.cast_add, add_sub_cancel_left] at h
      show IsLeast _ (border _ _ 0 y)
      rw [border_top (by omega)]
      exact h
  · intro x y _ _ hbefore
    unfold Before at hbefore
    omega
  · intro x y h
    exact h

/-- One `treedist` is right about every pair of nodes on the two leftmost paths. -/
theorem treedist_right (hA : Numbers A l₁ n₁) (hB : Numbers B l₂ n₂) (hi : 1 ≤ i) (hin : i ≤ n₁)
    (hj : 1 ≤ j) (hjn : j ≤ n₂) (htd : ∀ x y, l₁ i ≤ x → x ≤ i → l₂ j ≤ y → y ≤ j →
      ¬(l₁ x = l₁ i ∧ l₂ y = l₂ j) → Right A B l₁ l₂ td₀ x y) :
    ∃ td, treedist A B i td₀ j = some td ∧
      (∀ x y, Right A B l₁ l₂ td₀ x y → Right A B l₁ l₂ td x y) ∧
      ∀ x y, x ≤ i → y ≤ j → l₁ x = l₁ i → l₂ y = l₂ j → Right A B l₁ l₂ td x y := by
  have hle₁ := hA.numbered.le i
  have hle₂ := hB.numbered.le j
  obtain ⟨t, hrun, hfilled⟩ := foldlM_range (P := fun di t => Filled A B l₁ l₂ i j td₀ di 1 t)
    (f := fun t di => (List.range' 1 (j - l₂ j + 1)).foldlM
      (fillCell A B (l₁ i) (l₂ j) (i - l₁ i + 2) (j - l₂ j + 2) di) t)
    (a := 1) (n := i - l₁ i + 1) filled_border (by
      intro di t hdi hdi' ht
      obtain ⟨d, rfl⟩ := Nat.exists_eq_add_of_le' hdi
      obtain ⟨t', hrow, hdone⟩ := foldlM_range (P := fun dj t => Filled A B l₁ l₂ i j td₀ (d + 1) dj t)
        (f := fillCell A B (l₁ i) (l₂ j) (i - l₁ i + 2) (j - l₂ j + 2) (d + 1))
        (a := 1) (n := j - l₂ j + 1) ht (by
          intro dj t hdj hdj' ht
          obtain ⟨e, rfl⟩ := Nat.exists_eq_add_of_le' hdj
          exact fillCell_right hA hB hi hin hj hjn (by omega) (by omega)
            (htd _ _ (by omega) (by omega) (by omega) (by omega)) ht)
      refine ⟨t', hrow, hdone.weaken ?_⟩
      intro x y _ hy hb
      unfold Before at hb ⊢
      omega)
  refine ⟨t.td, ?_, hfilled.kept, ?_⟩
  · rw [treedist]
    simp only [hA.first i hi hin, hB.first j hj hjn, hrun]
    rfl
  · intro x y hx hy hl₁ hl₂
    have hx' := hA.numbered.le x
    have hy' := hB.numbered.le y
    have h := hfilled.td (x - l₁ i) (y - l₂ j) (by omega) (by omega) (by unfold Before; omega)
    rw [Nat.add_sub_cancel' (by omega), Nat.add_sub_cancel' (by omega)] at h
    exact h hl₁ hl₂

end

/-! ## The key roots -/

/-- Every node has the first node of some key root, the last one that has it; and they are in
order. -/
structure KeyRoots (ks : List ℕ) (l : ℕ → ℕ) (n : ℕ) : Prop where
  sorted : ks.Pairwise (· ≤ ·)
  last : ∀ k ∈ ks, 1 ≤ k ∧ k ≤ n ∧ ∀ x, k < x → x ≤ n → l x ≠ l k
  every : ∀ x, 1 ≤ x → x ≤ n → ∃ k ∈ ks, l k = l x ∧ x ≤ k

/-- What a key root needs of the other nodes below it belongs to an earlier key root. -/
theorem KeyRoots.earlier {ks before after : List ℕ} {l : ℕ → ℕ} {n i x : ℕ} (h : KeyRoots ks l n)
    (hl : Numbered l) (hsplit : ks = before ++ i :: after) (hx : 1 ≤ x) (hxn : x ≤ n) (hlow : l i ≤ x)
    (hhigh : x ≤ i) (hne : l x ≠ l i) : ∃ k ∈ before, l k = l x := by
  obtain ⟨k, hk, hkx, hxk⟩ := h.every x hx hxn
  have hnest := hl.nests i x hlow hhigh
  have hkle := hl.le x
  have hki : k < i := by
    by_contra hge
    have := hl.nests k i (by omega) (by omega)
    omega
  have hsorted := h.sorted
  rw [hsplit] at hk hsorted
  rcases List.mem_append.mp hk with hk | hk
  · exact ⟨k, hk, hkx⟩
  · have hafter := (List.pairwise_append.mp hsorted).2.1
    rcases List.mem_cons.mp hk with rfl | hk
    · omega
    · have := (List.pairwise_cons.mp hafter).1 k hk
      omega

section
variable {A B : Numbering} {l₁ l₂ : ℕ → ℕ} {n₁ n₂ : ℕ}

/-- The entries of `td` for the key roots that are done. -/
def Covered (A B : Numbering) (l₁ l₂ : ℕ → ℕ) (n₁ n₂ : ℕ) (done : List ℕ) (td : Grid) : Prop :=
  ∀ x y, 1 ≤ x → x ≤ n₁ → 1 ≤ y → y ≤ n₂ → (∃ k ∈ done, l₁ k = l₁ x) → Right A B l₁ l₂ td x y

/-- The entries of one row of key roots. -/
def CoveredRow (A B : Numbering) (l₁ l₂ : ℕ → ℕ) (n₁ n₂ i : ℕ) (done : List ℕ) (td : Grid) : Prop :=
  ∀ x y, 1 ≤ x → x ≤ n₁ → 1 ≤ y → y ≤ n₂ → l₁ x = l₁ i → (∃ k ∈ done, l₂ k = l₂ y) →
    Right A B l₁ l₂ td x y

theorem treedist_row (hA : Numbers A l₁ n₁) (hB : Numbers B l₂ n₂) (kA : KeyRoots A.keyroots l₁ n₁)
    (kB : KeyRoots B.keyroots l₂ n₂) {before after : List ℕ} {i : ℕ}
    (hsplit : A.keyroots = before ++ i :: after) {td : Grid} (h : Covered A B l₁ l₂ n₁ n₂ before td) :
    ∃ td', B.keyroots.foldlM (treedist A B i) td = some td' ∧
      Covered A B l₁ l₂ n₁ n₂ (before ++ [i]) td' := by
  have hi := kA.last i (by simp [hsplit])
  obtain ⟨td', hrun, hkept, hrow⟩ := foldlM_list [] B.keyroots (f := treedist A B i)
    (P := fun done td => Covered A B l₁ l₂ n₁ n₂ before td ∧ CoveredRow A B l₁ l₂ n₁ n₂ i done td)
    (s := td) ⟨h, by rintro x y - - - - - ⟨k, hk, -⟩; cases hk⟩ (by
      intro before' j after' td hsplit' ⟨hcovered, hrow⟩
      rw [List.nil_append] at hsplit'
      have hj := kB.last j (by simp [hsplit'])
      have hready : ∀ x y, l₁ i ≤ x → x ≤ i → l₂ j ≤ y → y ≤ j → ¬(l₁ x = l₁ i ∧ l₂ y = l₂ j) →
          Right A B l₁ l₂ td x y := by
        intro x y hxlow hxhigh hylow hyhigh hne
        have hx : 1 ≤ x := (hA.pos i hi.1).trans hxlow
        have hy : 1 ≤ y := (hB.pos j hj.1).trans hylow
        by_cases hlx : l₁ x = l₁ i
        · have hly : l₂ y ≠ l₂ j := fun hly => hne ⟨hlx, hly⟩
          exact hrow x y hx (by omega) hy (by omega) hlx
            (kB.earlier hB.numbered hsplit' hy (by omega) hylow hyhigh hly)
        · exact hcovered x y hx (by omega) hy (by omega)
            (kA.earlier hA.numbered hsplit hx (by omega) hxlow hxhigh hlx)
      obtain ⟨td', hrun, hkept, hnew⟩ := treedist_right hA hB hi.1 hi.2.1 hj.1 hj.2.1 hready
      refine ⟨td', hrun, ?_, ?_⟩
      · intro x y hx hxn hy hyn hdone
        exact hkept x y (hcovered x y hx hxn hy hyn hdone)
      · rintro x y hx hxn hy hyn hlx ⟨k, hk, hky⟩
        rcases List.mem_append.mp hk with hk | hk
        · exact hkept x y (hrow x y hx hxn hy hyn hlx ⟨k, hk, hky⟩)
        · rw [List.mem_singleton.mp hk] at hky
          have hxi : x ≤ i := by
            by_contra hlt
            exact hi.2.2 x (by omega) hxn hlx
          have hyj : y ≤ j := by
            by_contra hlt
            exact hj.2.2 y (by omega) hyn hky.symm
          exact hnew x y hxi hyj hlx hky.symm)
  refine ⟨td', hrun, ?_⟩
  rintro x y hx hxn hy hyn ⟨k, hk, hkx⟩
  rcases List.mem_append.mp hk with hk | hk
  · exact hkept x y hx hxn hy hyn ⟨k, hk, hkx⟩
  · rw [List.mem_singleton.mp hk] at hkx
    obtain ⟨k', hk', hky, -⟩ := kB.every y hy hyn
    exact hrow x y hx hxn hy hyn hkx.symm ⟨k', by simpa using hk', hky⟩

/-- In the end every entry of `td` is the distance of its two subtrees. -/
theorem distances_right (hA : Numbers A l₁ n₁) (hB : Numbers B l₂ n₂) (kA : KeyRoots A.keyroots l₁ n₁)
    (kB : KeyRoots B.keyroots l₂ n₂) : ∃ td, distances A B = some td ∧
      ∀ x y, 1 ≤ x → x ≤ n₁ → 1 ≤ y → y ≤ n₂ → Right A B l₁ l₂ td x y := by
  obtain ⟨td, hrun, hcovered⟩ := foldlM_list [] A.keyroots
    (f := fun td i => B.keyroots.foldlM (treedist A B i) td)
    (P := fun done td => Covered A B l₁ l₂ n₁ n₂ done td) (s := fun _ _ => 0)
    (by rintro x y - - - - ⟨k, hk, -⟩; cases hk) (by
      intro before i after td hsplit h
      rw [List.nil_append] at hsplit
      exact treedist_row hA hB kA kB hsplit h)
  refine ⟨td, hrun, ?_⟩
  intro x y hx hxn hy hyn
  obtain ⟨k, hk, hkx, -⟩ := kA.every x hx hxn
  exact hcovered x y hx hxn hy hyn ⟨k, by simpa using hk, hkx⟩

end

/-! ## The dictionary of last nodes -/

theorem mem_put {d : List (ℕ × ℕ)} {k v : ℕ} {p : ℕ × ℕ} :
    p ∈ put d k v ↔ p.1 ≠ k ∧ p ∈ d ∨ p = (k, v) := by
  simp [put, and_comm]

/-- An entry names the last node with its key. -/
theorem mem_lastOf (lmld : List ℕ) (k v : ℕ) : (k, v) ∈ lastOf lmld ↔
    1 ≤ v ∧ lmld[v - 1]? = some k ∧ ∀ x, v < x → lmld[x - 1]? ≠ some k := by
  induction lmld using List.reverseRecOn with
  | nil => simp [lastOf]
  | append_singleton lmld a ih =>
    have hfold : lastOf (lmld ++ [a]) = put (lastOf lmld) a (lmld.length + 1) := by
      rw [lastOf, List.zipIdx_append, List.foldl_append]
      simp [lastOf, Nat.add_comm]
    have hget : ∀ x, (lmld ++ [a])[x]? = some k ↔
        lmld[x]? = some k ∨ x = lmld.length ∧ a = k := by
      intro x
      by_cases hx : x < lmld.length
      · rw [List.getElem?_append_left hx]
        constructor
        · exact .inl
        · rintro (h | ⟨h, -⟩)
          · exact h
          · omega
      · rw [List.getElem?_append_right (by omega), List.getElem?_eq_none (l := lmld) (by omega)]
        by_cases hlast : x = lmld.length
        · simp [hlast]
        · rw [List.getElem?_eq_none (by simp; omega)]
          simp [hlast]
    have hlt : ∀ {x : ℕ}, lmld[x]? = some k → x < lmld.length := by
      intro x h
      exact (List.getElem?_eq_some_iff.mp h).1
    rw [hfold, mem_put, ih]
    simp only [Prod.mk.injEq, hget, ne_eq]
    by_cases hka : k = a
    · subst hka
      constructor
      · rintro (⟨h, -⟩ | ⟨-, rfl⟩)
        · exact absurd rfl h
        · refine ⟨by omega, .inr ⟨by omega, rfl⟩, ?_⟩
          rintro x hx (h | ⟨h, -⟩)
          · have := hlt h
            omega
          · omega
      · rintro ⟨hv, hvalue, hlater⟩
        right
        refine ⟨rfl, ?_⟩
        by_contra hne
        rcases hvalue with h | ⟨h, -⟩
        · have := hlt h
          exact hlater (lmld.length + 1) (by omega) (.inr ⟨rfl, rfl⟩)
        · omega
    · have hak : ¬ a = k := fun h => hka h.symm
      simp [hka, hak]

theorem keyRoots_of (lmld : List ℕ) (l : ℕ → ℕ) (hl : ∀ k, 1 ≤ k → k ≤ lmld.length → lmld[k - 1]? = some (l k)) :
    KeyRoots (((lastOf lmld).map Prod.snd).insertionSort (· ≤ ·)) l lmld.length := by
  have hmem : ∀ k, k ∈ ((lastOf lmld).map Prod.snd).insertionSort (· ≤ ·) ↔
      ∃ a, (a, k) ∈ lastOf lmld := by
    intro k
    rw [List.mem_insertionSort]
    simp
  constructor
  · exact List.pairwise_insertionSort _ _
  · intro k hk
    obtain ⟨a, ha⟩ := (hmem k).mp hk
    obtain ⟨hpos, hvalue, hlater⟩ := (mem_lastOf lmld a k).mp ha
    have hlt := (List.getElem?_eq_some_iff.mp hvalue).1
    have hak : l k = a := by
      have := hl k hpos (by omega)
      rw [hvalue] at this
      exact (Option.some.inj this).symm
    refine ⟨hpos, by omega, ?_⟩
    intro x hkx hx hsame
    apply hlater x hkx
    rw [hl x (by omega) hx, hsame, hak]
  · intro x hx hxn
    -- the last node whose first node is that of `x`
    have hfinite : ∃ k, x ≤ k ∧ k ≤ lmld.length ∧ l k = l x ∧
        ∀ y, k < y → y ≤ lmld.length → l y ≠ l x := by
      classical
      have hs : ((Finset.Icc x lmld.length).filter fun k => l k = l x).Nonempty :=
        ⟨x, by simp [hxn]⟩
      have hmax := Finset.max'_mem _ hs
      simp only [Finset.mem_filter, Finset.mem_Icc] at hmax
      refine ⟨_, hmax.1.1, hmax.1.2, hmax.2, ?_⟩
      intro y hy hyn hsame
      have hle := Finset.le_max' _ y (by
        simp only [Finset.mem_filter, Finset.mem_Icc]
        exact ⟨⟨by omega, hyn⟩, hsame⟩ :
        y ∈ (Finset.Icc x lmld.length).filter fun k => l k = l x)
      omega
    obtain ⟨k, hxk, hkn, hsame, hlast⟩ := hfinite
    refine ⟨k, (hmem k).mpr ⟨l x, (mem_lastOf _ _ _).mpr ⟨by omega, ?_, ?_⟩⟩, hsame, hxk⟩
    · rw [hl k (by omega) hkn, hsame]
    · intro y hy hvalue
      have hlt := (List.getElem?_eq_some_iff.mp hvalue).1
      have := hl y (by omega) (by omega)
      rw [hvalue] at this
      exact hlast y hy (by omega) (Option.some.inj this).symm

/-! ## The distance of two trees -/

/-- The label of a node, by its number. -/
def Node.label (t : Node) (k : ℕ) : Label := t.labels.getD (k - 1) ⟨.table, []⟩

def Node.size (t : Node) : ℕ := t.labels.length

/-- What the mappings between the nodes of two trees cost: one for a node that is left out, and
`_rename_cost` for a pair. -/
def mappingCosts (t₁ t₂ : Node) : Set ℚ :=
  costs t₁.firstNode t₂.firstNode (fun i j => renameCost (t₁.label i) (t₂.label j))
    1 (t₁.size + 1) 1 (t₂.size + 1)

theorem Node.firstNode_eq (t : Node) {k : ℕ} (hk : 1 ≤ k) (hsize : k ≤ t.sizes.length) :
    (firsts 0 t.sizes)[k - 1]? = some (t.firstNode k) := by
  have hlt : k - 1 < t.sizes.length := by omega
  rw [firsts_getElem?, Node.firstNode, List.getElem?_eq_getElem hlt, Option.map_some,
    List.getD_eq_getElem _ _ hlt]
  congr 1
  omega

theorem Node.firstNode_root (t : Node) : t.firstNode t.size = 1 := by
  cases t with
  | node label children =>
    rw [Node.size, Node.length_labels, Node.firstNode]
    simp [Node.sizes]

theorem postorder_straight {t : Node} (h : t.Straight) :
    (postorder t).nodes = t.labels ∧ (postorder t).lmld = firsts 0 t.sizes := by
  simp [postorder, visit_straight t ⟨[], []⟩ h]

theorem numbers_straight {t : Node} (h : t.Straight) : Numbers (postorder t) t.firstNode t.size where
  numbered := t.numbered
  pos := fun k hk => t.firstNode_pos hk
  first := by
    intro k hk hsize
    rw [Node.size, Node.length_labels] at hsize
    have hget := t.firstNode_eq hk hsize
    rw [Numbering.first, (postorder_straight h).2, List.getD_eq_getElem?_getD, hget]
    rfl

theorem keyRoots_straight {t : Node} (h : t.Straight) :
    KeyRoots (postorder t).keyroots t.firstNode t.size := by
  have hlength : (postorder t).lmld.length = t.size := by
    rw [(postorder_straight h).2, firsts_length, Node.size, Node.length_labels]
  have hread : ∀ k, 1 ≤ k → k ≤ (postorder t).lmld.length →
      (postorder t).lmld[k - 1]? = some (t.firstNode k) := by
    intro k hk hsize
    rw [hlength, Node.size, Node.length_labels] at hsize
    rw [(postorder_straight h).2]
    exact t.firstNode_eq hk hsize
  have hroots := keyRoots_of (postorder t).lmld t.firstNode hread
  rw [hlength] at hroots
  exact hroots

theorem Node.size_pos (t : Node) : 1 ≤ t.size := by
  cases t with
  | node label children => simp [Node.size, Node.labels]

/-- Where the first child of every node is a leaf, the program computes the least cost. -/
theorem treeEditDistance_least {t₁ t₂ : Node} (h₁ : t₁.Straight) (h₂ : t₂.Straight) :
    ∃ d, treeEditDistance t₁ t₂ = some (d, t₁.size, t₂.size) ∧ IsLeast (mappingCosts t₁ t₂) d := by
  obtain ⟨td, hrun, hright⟩ := distances_right (numbers_straight h₁) (numbers_straight h₂)
    (keyRoots_straight h₁) (keyRoots_straight h₂)
  have hlen₁ : (postorder t₁).nodes.length = t₁.size := by rw [(postorder_straight h₁).1, Node.size]
  have hlen₂ : (postorder t₂).nodes.length = t₂.size := by rw [(postorder_straight h₂).1, Node.size]
  refine ⟨td t₁.size t₂.size, ?_, ?_⟩
  · rw [treeEditDistance]
    simp only [hrun, hlen₁, hlen₂]
    rfl
  · have h := hright t₁.size t₂.size t₁.size_pos (le_refl _) t₂.size_pos (le_refl _)
    unfold Right at h
    rw [t₁.firstNode_root, t₂.firstNode_root] at h
    have hcost : pairCost (postorder t₁) (postorder t₂) =
        fun i j => renameCost (t₁.label i) (t₂.label j) := by
      funext i j
      rw [pairCost, Numbering.label, Numbering.label, (postorder_straight h₁).1,
        (postorder_straight h₂).1]
      rfl
    rw [hcost] at h
    exact h

theorem mappingCosts_comm (t₁ t₂ : Node) : mappingCosts t₂ t₁ = mappingCosts t₁ t₂ := by
  have hcost : (fun i j => renameCost (t₂.label i) (t₁.label j)) =
      fun i j => renameCost (t₁.label j) (t₂.label i) := by
    funext i j
    exact renameCost_comm _ _
  rw [mappingCosts, hcost]
  exact costs_swap

theorem isLeast_zero_of_eq (t : Node) : IsLeast (mappingCosts t t) 0 := by
  apply isLeast_zero_self (by omega)
  · intro i j
    exact renameCost_nonneg _ _
  · intro k _ _
    exact renameCost_self _

/-- A mapping that costs nothing: node by node the labels are the same. -/
theorem labels_eq_of_zero {t₁ t₂ : Node} (h₁ : ∀ a ∈ t₁.labels, a.Plain) (h₂ : ∀ a ∈ t₂.labels, a.Plain)
    (h : 0 ∈ mappingCosts t₁ t₂) : t₁.labels = t₂.labels := by
  obtain ⟨M, hM, hcost⟩ := h
  obtain ⟨hsize, hall⟩ := diagonal_of_cost_zero hM (by omega) (by omega)
    (fun i j => renameCost_nonneg _ _) hcost
  simp only [Node.size, Nat.add_sub_cancel] at hsize hall
  apply List.ext_getElem hsize
  intro k hk₁ hk₂
  have hzero := hall k hk₁
  rw [Node.label, Node.label, Nat.add_sub_cancel_left, List.getD_eq_getElem _ _ hk₁,
    List.getD_eq_getElem _ _ hk₂] at hzero
  exact eq_of_renameCost_zero (h₁ _ (List.getElem_mem hk₁)) (h₂ _ (List.getElem_mem hk₂)) hzero

/-! ## Tables -/

/-- The texts of a table that are compared. -/
def Table.folded (U : Unicode) (foldText : Bool) (t : Table) : List Text × List (List Text) :=
  (t.headers.map (cellText U foldText), t.rows.map fun r => r.map (cellText U foldText))

/-- The first row, be it a header or not, has no cell. -/
def Table.FirstRowEmpty (t : Table) : Prop := t.headers = [] ∧ t.rows.head?.getD [] = []

instance (t : Table) : Decidable t.FirstRowEmpty := inferInstanceAs (Decidable (_ ∧ _))

/-- The labels of a row, of which the texts are given. -/
def rowLabels (r : List Text) : List Label := r.map (fun x => ⟨.td, x⟩) ++ [⟨.tr, []⟩]

theorem rowLabels_inj {r r' : List Text} {rest rest' : List Label}
    (h : rowLabels r ++ rest = rowLabels r' ++ rest') : r = r' ∧ rest = rest' := by
  induction r generalizing r' with
  | nil =>
    cases r' with
    | nil => simpa [rowLabels] using h
    | cons x r' => simp [rowLabels] at h
  | cons x r ih =>
    cases r' with
    | nil => simp [rowLabels] at h
    | cons x' r' =>
      simp only [rowLabels, List.map_cons, List.cons_append, List.cons.injEq, Label.mk.injEq,
        true_and] at h
      obtain ⟨hr, hrest⟩ := ih h.2
      exact ⟨by rw [h.1, hr], hrest⟩

theorem rowsLabels_inj {R S : List (List Text)} (h : R.flatMap rowLabels = S.flatMap rowLabels) : R = S := by
  induction R generalizing S with
  | nil =>
    cases S with
    | nil => rfl
    | cons s S => simp [rowLabels] at h
  | cons r R ih =>
    cases S with
    | nil => simp [rowLabels] at h
    | cons s S =>
      rw [List.flatMap_cons, List.flatMap_cons] at h
      obtain ⟨hr, hrest⟩ := rowLabels_inj h
      rw [hr, ih hrest]

section
variable {U : Unicode} {foldText : Bool} {p q : Table}

theorem labelsAll_cells (r : List Text) :
    labelsAll (r.map (cell U foldText .td)) = r.map fun x => ⟨.td, cellText U foldText x⟩ := by
  induction r with
  | nil => rfl
  | cons x r ih =>
    rw [List.map_cons, labelsAll, ih]
    rfl

theorem labels_row (r : List Text) :
    (row U foldText .td r).labels = rowLabels (r.map (cellText U foldText)) := by
  rw [row, Node.labels, labelsAll_cells, rowLabels, List.map_map]
  rfl

theorem labelsAll_rows (R : List (List Text)) : labelsAll (R.map (row U foldText .td)) =
    (R.map fun r => r.map (cellText U foldText)).flatMap rowLabels := by
  induction R with
  | nil => rfl
  | cons r R ih => rw [List.map_cons, labelsAll, ih, labels_row, List.map_cons, List.flatMap_cons]

theorem labels_buildTree (h : p.headers = []) : (buildTree U foldText p).labels =
    (p.folded U foldText).2.flatMap rowLabels ++ [⟨.table, []⟩] := by
  rw [buildTree, if_neg (not_not.mpr h), List.nil_append, Node.labels, labelsAll_rows]
  rfl

theorem buildTree_plain (h : p.headers = []) : ∀ a ∈ (buildTree U foldText p).labels, a.Plain := by
  intro a ha
  rw [labels_buildTree h] at ha
  rcases List.mem_append.mp ha with ha | ha
  · obtain ⟨r, -, ha⟩ := List.mem_flatMap.mp ha
    rcases List.mem_append.mp ha with ha | ha
    · obtain ⟨x, -, rfl⟩ := List.mem_map.mp ha
      exact .inl rfl
    · rw [List.mem_singleton.mp ha]
      exact .inr (.inr rfl)
  · rw [List.mem_singleton.mp ha]
    exact .inr (.inr rfl)

/-- Tables of the same texts are the same tree. -/
theorem buildTree_congr (hp : p.headers = []) (hq : q.headers = [])
    (h : p.folded U foldText = q.folded U foldText) : buildTree U foldText p = buildTree U foldText q := by
  have hrow : ∀ r, row U foldText .td r =
      .node ⟨.tr, []⟩ ((r.map (cellText U foldText)).map fun x => .node ⟨.td, x⟩ []) := by
    intro r
    rw [row, List.map_map]
    rfl
  have hrows : ∀ t : Table, t.rows.map (row U foldText .td) = (t.folded U foldText).2.map
      fun r => .node ⟨.tr, []⟩ (r.map fun x => .node ⟨.td, x⟩ []) := by
    intro t
    rw [Table.folded, List.map_map]
    exact List.map_congr_left fun r _ => hrow r
  rw [buildTree, buildTree, if_neg (not_not.mpr hp), if_neg (not_not.mpr hq), hrows, hrows, h]

theorem straightAll_cells (tag : Tag) (r : List Text) : straightAll (r.map (cell U foldText tag)) := by
  induction r with
  | nil => exact trivial
  | cons x r ih => exact ⟨⟨by simp, trivial⟩, ih⟩

theorem straight_row (tag : Tag) (r : List Text) : (row U foldText tag r).Straight := by
  rw [row, Node.Straight]
  constructor
  · intro c hc
    cases r with
    | nil => cases hc
    | cons x r =>
      cases hc
      rfl
  · exact straightAll_cells tag r

theorem straightAll_rows (R : List (List Text)) : straightAll (R.map (row U foldText .td)) := by
  induction R with
  | nil => exact trivial
  | cons r R ih => exact ⟨straight_row .td r, ih⟩

theorem straight_buildTree (h : p.FirstRowEmpty) : (buildTree U foldText p).Straight := by
  rw [buildTree, if_neg (not_not.mpr h.1), List.nil_append, Node.Straight]
  constructor
  · intro c hc
    have hfirst := h.2
    cases hrows : p.rows with
    | nil =>
      rw [hrows] at hc
      cases hc
    | cons r R =>
      rw [hrows] at hc hfirst
      cases hc
      have hr : r = [] := hfirst
      rw [hr]
      rfl
  · exact straightAll_rows p.rows

end

/-! ## A first row with cells

The root of a table is then numbered as if it began at its first row, after that row's cells:
they are not counted, or the index falls out of the array. -/

/-- The program answers the least cost of a mapping between the trees of two tables, in both
directions, and nothing exactly where the texts are equal. -/
def Exact (U : Unicode) (foldText : Bool) (p q : Table) : Prop :=
  ∃ d, treeEditDistance (buildTree U foldText p) (buildTree U foldText q) =
      some (d, (buildTree U foldText p).size, (buildTree U foldText q).size) ∧
    IsLeast (mappingCosts (buildTree U foldText p) (buildTree U foldText q)) d ∧
    treeEditDistance (buildTree U foldText q) (buildTree U foldText p) =
      some (d, (buildTree U foldText q).size, (buildTree U foldText p).size) ∧
    (d = 0 ↔ p.folded U foldText = q.folded U foldText)

theorem foldlM_kept {σ α : Type} {f : σ → α → Option σ} {P : σ → Prop} {l : List α} {s s' : σ}
    (h : P s) (hrun : l.foldlM f s = some s') (step : ∀ k s s', P s → f s k = some s' → P s') : P s' := by
  induction l generalizing s with
  | nil =>
    cases hrun
    exact h
  | cons k l ih =>
    rw [List.foldlM_cons] at hrun
    obtain ⟨s₁, hs₁, hrest⟩ := Option.bind_eq_some_iff.mp hrun
    exact ih (step k s s₁ h hs₁) hrest

/-- The row above the first is the border. -/
def TopKept (m : ℕ) (t : Tables) : Prop := ∀ y, y ≤ m → t.fd 0 y = y

theorem fillCell_top {A B : Numbering} {li lj rows cols di m : ℕ} {t t' : Tables} {dj : ℕ} (hdi : 1 ≤ di)
    (h : TopKept m t) (hrun : fillCell A B li lj rows cols di t dj = some t') : TopKept m t' := by
  have hset : ∀ (v : ℚ) y, y ≤ m → t.fd.set di dj v 0 y = y := by
    intro v y hy
    rw [Grid.set_other _ _ (by omega)]
    exact h y hy
  unfold fillCell at hrun
  by_cases hboth : A.first (li + di - 1) = li ∧ B.first (lj + dj - 1) = lj
  · rw [if_pos hboth] at hrun
    cases hrun
    exact hset _
  · rw [if_neg hboth] at hrun
    obtain ⟨before, -, hcell⟩ := Option.bind_eq_some_iff.mp hrun
    cases hcell
    exact hset _

/-- The last entry for a single node and a tree is no more than the border before it. -/
theorem treedist_single {A B : Numbering} {n : ℕ} {td td' : Grid} (hA : A.first 1 = 1)
    (hn : B.first n ≤ n) (hpos : 1 ≤ B.first n) (hroot : renameCost (A.label 1) (B.label n) = 0)
    (hrun : treedist A B 1 td n = some td') : td' 1 n ≤ (n - B.first n : ℕ) := by
  unfold treedist at hrun
  simp only [hA, Nat.sub_self, Nat.zero_add] at hrun
  obtain ⟨t, hloops, hlast⟩ := Option.bind_eq_some_iff.mp hrun
  cases hlast
  rw [List.range'_one, List.foldlM_cons] at hloops
  obtain ⟨t₁, hrow, hend⟩ := Option.bind_eq_some_iff.mp hloops
  cases hend
  rw [List.range'_concat, List.foldlM_append] at hrow
  obtain ⟨t₀, hfirst, hcell⟩ := Option.bind_eq_some_iff.mp hrow
  have hborder : TopKept (n - B.first n + 1) ⟨border 2 (n - B.first n + 2), td⟩ :=
    fun y hy => border_top (by omega)
  have htop := foldlM_kept hborder hfirst fun dj s s' hs hrun => fillCell_top (le_refl 1) hs hrun
  rw [List.foldlM_cons] at hcell
  obtain ⟨t₂, hset, hdone⟩ := Option.bind_eq_some_iff.mp hcell
  cases hdone
  have hnode : B.first n + (1 + 1 * (n - B.first n)) - 1 = n := by omega
  unfold fillCell at hset
  rw [hnode, if_pos ⟨hA, rfl⟩] at hset
  cases hset
  show Grid.set _ _ _ _ 1 n ≤ _
  rw [Grid.set_same, hroot, add_zero]
  apply ((min_le_right _ _).trans (min_le_right _ _)).trans
  have hbefore : 1 + 1 * (n - B.first n) - 1 = n - B.first n := by omega
  rw [hbefore, Nat.sub_self, htop _ (by omega)]

/-- The last key root is the root. -/
theorem KeyRoots.root_last {ks : List ℕ} {l : ℕ → ℕ} {n : ℕ} (h : KeyRoots ks l n) (hn : 1 ≤ n) :
    ∃ before, ks = before ++ [n] := by
  obtain ⟨k, hk, -, hnk⟩ := h.every n hn (le_refl n)
  have hkn : k = n := by
    have := (h.last k hk).2.1
    omega
  cases List.eq_nil_or_concat ks with
  | inl hnil =>
    rw [hnil] at hk
    cases hk
  | inr hconcat =>
    obtain ⟨before, last, rfl⟩ := hconcat
    rw [List.concat_eq_append] at h hk ⊢
    have hlast := (h.last last (by simp)).2.1
    have hge : n ≤ last := by
      rcases List.mem_append.mp hk with hk | hk
      · have := (List.pairwise_append.mp h.sorted).2.2 k hk last (List.mem_singleton_self last)
        omega
      · have := List.mem_singleton.mp hk
        omega
    have : last = n := by omega
    exact ⟨before, by rw [this]⟩

section
variable {U : Unicode} {foldText : Bool}

theorem exact_of_firstRowEmpty {p q : Table} (hp : p.FirstRowEmpty) (hq : q.FirstRowEmpty) :
    Exact U foldText p q := by
  have hstraight : ∀ t : Table, t.FirstRowEmpty → (buildTree U foldText t).Straight :=
    fun t h => straight_buildTree h
  obtain ⟨d, hrun, hleast⟩ := treeEditDistance_least (hstraight p hp) (hstraight q hq)
  obtain ⟨d', hrun', hleast'⟩ := treeEditDistance_least (hstraight q hq) (hstraight p hp)
  rw [mappingCosts_comm] at hleast'
  rw [hleast'.unique hleast] at hrun'
  refine ⟨d, hrun, hleast, hrun', ?_⟩
  constructor
  · intro hzero
    have hlabels := labels_eq_of_zero (buildTree_plain hp.1) (buildTree_plain hq.1) (hzero ▸ hleast.1)
    rw [labels_buildTree hp.1, labels_buildTree hq.1] at hlabels
    have hrows := rowsLabels_inj (List.append_cancel_right hlabels)
    apply Prod.ext
    · show p.headers.map _ = q.headers.map _
      rw [hp.1, hq.1]
    · exact hrows
  · intro hsame
    rw [buildTree_congr hp.1 hq.1 hsame] at hleast
    exact hleast.unique (isLeast_zero_of_eq _)

theorem cells_sizes (tag : Tag) (r : List Text) :
    (sizesAll (r.map (cell U foldText tag))).length = r.length := by
  induction r with
  | nil => rfl
  | cons x r ih =>
    rw [List.map_cons, sizesAll, List.length_append, ih, List.length_cons, Nat.add_comm]
    rfl

theorem row_sizes (tag : Tag) (r : List Text) :
    (row U foldText tag r).sizes.length = r.length + 1 := by
  rw [row, Node.sizes, List.length_append, cells_sizes]
  rfl

/-- What `visit` reads of a tree whose root alone may have a first child that is no leaf. -/
theorem postorder_root (label : Label) {children : List Node} (h : straightAll children) :
    (postorder (.node label children)).nodes = (Node.node label children).labels ∧
    (postorder (.node label children)).lmld.length = (Node.node label children).size ∧
    (postorder (.node label children)).first (Node.node label children).size =
      (children.head?.map fun c => c.sizes.length).getD (Node.node label children).size := by
  have hall := visitAll_straight children ⟨[], []⟩ h
  have hsize : (Node.node label children).size = (labelsAll children).length + 1 := by
    simp [Node.size, Node.labels]
  refine ⟨?_, ?_, ?_⟩
  · simp [postorder, visit, hall, Node.labels]
  · simp [postorder, visit, hall, hsize, firsts_length, labelsAll_length]
  · rw [Numbering.first, hsize, Nat.add_sub_cancel]
    simp only [postorder, visit, hall, List.nil_append, List.length_nil, Nat.zero_add]
    rw [List.getD_append_right _ _ _ _ (by rw [firsts_length, labelsAll_length]), firsts_length,
      labelsAll_length, Nat.sub_self]
    rfl

theorem keyRoots_postorder (t : Node) : KeyRoots (postorder t).keyroots
    (fun k => (postorder t).lmld.getD (k - 1) 0) (postorder t).lmld.length := by
  have hread : ∀ k, 1 ≤ k → k ≤ (postorder t).lmld.length →
      (postorder t).lmld[k - 1]? = some ((postorder t).lmld.getD (k - 1) 0) := by
    intro k hk hlen
    have hlt : k - 1 < (postorder t).lmld.length := by omega
    rw [List.getElem?_eq_getElem hlt, List.getD_eq_getElem _ _ hlt]
  exact keyRoots_of (postorder t).lmld _ hread

/-- A first row with a cell: what is no leaf is first. -/
theorem first_row {p : Table} (h : ¬p.FirstRowEmpty) : ∃ children c,
    buildTree U foldText p = .node ⟨.table, []⟩ children ∧ straightAll children ∧
      children.head? = some c ∧ 2 ≤ c.sizes.length := by
  by_cases hheaders : p.headers = []
  · rw [buildTree, if_neg (not_not.mpr hheaders), List.nil_append]
    cases hrows : p.rows with
    | nil => exact absurd ⟨hheaders, by rw [hrows]; rfl⟩ h
    | cons r R =>
      refine ⟨_, row U foldText .td r, rfl, straightAll_rows (r :: R), rfl, ?_⟩
      have hr : r ≠ [] := fun hr => h ⟨hheaders, by rw [hrows]; exact hr⟩
      have := List.length_pos_iff.mpr hr
      rw [row_sizes]
      omega
  · rw [buildTree, if_pos hheaders]
    refine ⟨_, row U foldText .th p.headers, rfl, ?_, rfl, ?_⟩
    · exact ⟨straight_row .th p.headers, straightAll_rows p.rows⟩
    · have := List.length_pos_iff.mpr hheaders
      rw [row_sizes]
      omega

/-- No mapping of a single node is cheaper than to leave out all the nodes but one. -/
theorem single_cost {t₁ t₂ : Node} {d : ℚ} (hsingle : t₁.size = 1) (h : d ∈ mappingCosts t₁ t₂) :
    (t₂.size : ℚ) - 1 ≤ d := by
  obtain ⟨M, hM, rfl⟩ := h
  have hcard := hM.card_le_left
  have hsum : 0 ≤ M.sum fun p => renameCost (t₁.label p.1) (t₂.label p.2) :=
    Finset.sum_nonneg fun p _ => renameCost_nonneg _ _
  have hone : (M.card : ℚ) ≤ 1 := by
    have : M.card ≤ 1 := by omega
    exact_mod_cast this
  unfold cost
  rw [hsingle]
  push_cast
  linarith

/-- The program is wrong about the empty table and a table whose first row has a cell. -/
theorem not_exact {p : Table} (h : ¬p.FirstRowEmpty) : ¬Exact U foldText ⟨[], []⟩ p := by
  rintro ⟨d, hrun, hleast, -⟩
  obtain ⟨children, c, htree, hstraight, hhead, hcells⟩ := first_row (U := U) (p := p) h
  have hroot := postorder_root ⟨.table, []⟩ hstraight
  rw [hhead, Option.map_some, Option.getD_some] at hroot
  rw [htree] at hrun hleast
  have hlow := single_cost rfl hleast.1
  have hkeys : (postorder (buildTree U foldText ⟨[], []⟩)).keyroots = [1] := rfl
  obtain ⟨before, hbefore⟩ := (keyRoots_postorder (.node ⟨.table, []⟩ children)).root_last
    (by rw [hroot.2.1]; exact Node.size_pos _)
  obtain ⟨td, hdist, hend⟩ := Option.bind_eq_some_iff.mp hrun
  rw [distances, hkeys, List.foldlM_cons] at hdist
  obtain ⟨td₁, hrow, hdone⟩ := Option.bind_eq_some_iff.mp hdist
  cases hdone
  rw [hbefore, List.foldlM_append] at hrow
  obtain ⟨td₀, -, hlast⟩ := Option.bind_eq_some_iff.mp hrow
  rw [List.foldlM_cons] at hlast
  obtain ⟨td₂, htreedist, hdone⟩ := Option.bind_eq_some_iff.mp hlast
  cases hdone
  rw [hroot.2.1] at htreedist
  have hlabel : (postorder (.node ⟨.table, []⟩ children)).label (Node.node ⟨.table, []⟩ children).size =
      ⟨.table, []⟩ := by
    rw [Numbering.label, hroot.1, Node.size, Node.labels]
    simp
  have hsizes : c.sizes.length + 1 ≤ (Node.node ⟨.table, []⟩ children).size := by
    rw [Node.size, Node.length_labels, Node.sizes]
    cases children with
    | nil => cases hhead
    | cons c' rest =>
      cases hhead
      simp [sizesAll]
  have hhigh := treedist_single rfl (by omega) (by omega) (by rw [hlabel]; exact renameCost_self _)
    htreedist
  have hd : td 1 (postorder (.node ⟨.table, []⟩ children)).nodes.length = d :=
    congrArg Prod.fst (Option.some.inj hend)
  rw [hroot.1] at hd
  rw [hroot.2.2] at hhigh
  have hcount : ((Node.node ⟨.table, []⟩ children).size - c.sizes.length : ℕ) + 2 ≤
      (Node.node ⟨.table, []⟩ children).size := by omega
  have hcount' : (((Node.node ⟨.table, []⟩ children).size - c.sizes.length : ℕ) : ℚ) + 2 ≤
      (Node.node ⟨.table, []⟩ children).size := by exact_mod_cast hcount
  have hsame : td 1 (Node.node ⟨.table, []⟩ children).size = d := hd
  linarith

/-- Where the first rows of two tables have no cell, the program computes the least cost of a
mapping between their trees; about a table whose first row has a cell it is wrong already
beside the empty one. -/
theorem tree_edit_distance_exact_iff (U : Unicode) (foldText : Bool) :
    (∀ a b : Text, IsLeast {n | EditsIn n a b} (lev a b)) ∧
    ∀ p : Table, (∀ q : Table, q.FirstRowEmpty → Exact U foldText q p) ↔ p.FirstRowEmpty := by
  constructor
  · exact lev_isLeast
  · intro p
    constructor
    · intro h
      by_contra hp
      exact not_exact hp (h ⟨[], []⟩ ⟨rfl, rfl⟩)
    · intro hp q hq
      exact exact_of_firstRowEmpty hq hp

end

theorem tree_edit_distance_exact_sample : Exact latin true ⟨[], [[]]⟩ ⟨[], [[], [['a']]]⟩ :=
  ((tree_edit_distance_exact_iff latin true).2 ⟨[], [[], [['a']]]⟩).mpr ⟨rfl, rfl⟩ ⟨[], [[]]⟩ ⟨rfl, rfl⟩

/-- The empty table and a table of one cell: the cell is not counted. -/
theorem first_row_cell_not_counted :
    treeEditDistance (buildTree latin true ⟨[], []⟩) (buildTree latin true ⟨[], [[['a']]]⟩) =
        some (1, 1, 3) ∧
      ¬IsLeast (mappingCosts (buildTree latin true ⟨[], []⟩) (buildTree latin true ⟨[], [[['a']]]⟩)) 1 := by
  constructor
  · decide +kernel
  · intro h
    have hlow := single_cost rfl h.1
    have hsize : (buildTree latin true ⟨[], [[['a']]]⟩).size = 3 := rfl
    rw [hsize] at hlow
    norm_num at hlow

/-- A row of four cells: the index is out of range. -/
example : treeEditDistance (buildTree latin true ⟨[], [[['a'], ['b'], ['c'], ['d']]]⟩)
    (buildTree latin true ⟨[], [[['a'], ['b'], ['c'], ['d']]]⟩) = none := by decide +kernel

end RagPipeline.Scoring
