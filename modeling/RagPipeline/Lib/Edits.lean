import Mathlib.Data.List.Basic
import Mathlib.Order.Bounds.Basic
import Mathlib.Order.MinMax

/-! # Single-character edits

Two lists and the least number of insertions, deletions and substitutions that take
one to the other. -/

set_option autoImplicit false

namespace RagPipeline.Edits

variable {α : Type}

/-- One insertion, one deletion or one substitution, anywhere. -/
inductive Edit : List α → List α → Prop
  | insert (u v : List α) (x : α) : Edit (u ++ v) (u ++ x :: v)
  | delete (u v : List α) (x : α) : Edit (u ++ x :: v) (u ++ v)
  | substitute (u v : List α) (x y : α) : Edit (u ++ x :: v) (u ++ y :: v)

/-- So many edits, one after the other. -/
inductive EditsIn : ℕ → List α → List α → Prop
  | none (a : List α) : EditsIn 0 a a
  | more {n : ℕ} {a b c : List α} (first : Edit a b) (rest : EditsIn n b c) : EditsIn (n + 1) a c

theorem Edit.cons {a b : List α} (h : Edit a b) (z : α) : Edit (z :: a) (z :: b) := by
  cases h with
  | insert u v x => exact .insert (z :: u) v x
  | delete u v x => exact .delete (z :: u) v x
  | substitute u v x y => exact .substitute (z :: u) v x y

theorem Edit.symm {a b : List α} (h : Edit a b) : Edit b a := by
  cases h with
  | insert u v x => exact .delete u v x
  | delete u v x => exact .insert u v x
  | substitute u v x y => exact .substitute u v y x

theorem Edit.reverse {a b : List α} (h : Edit a b) : Edit a.reverse b.reverse := by
  cases h with
  | insert u v x => simpa using Edit.insert v.reverse u.reverse x
  | delete u v x => simpa using Edit.delete v.reverse u.reverse x
  | substitute u v x y => simpa using Edit.substitute v.reverse u.reverse x y

theorem EditsIn.cons {n : ℕ} {a b : List α} (h : EditsIn n a b) (z : α) :
    EditsIn n (z :: a) (z :: b) := by
  induction h with
  | none a => exact .none _
  | more first rest ih => exact .more (first.cons z) ih

theorem EditsIn.reverse {n : ℕ} {a b : List α} (h : EditsIn n a b) :
    EditsIn n a.reverse b.reverse := by
  induction h with
  | none a => exact .none _
  | more first rest ih => exact .more first.reverse ih

theorem EditsIn.snoc {n : ℕ} {a b c : List α} (h : EditsIn n a b) (last : Edit b c) :
    EditsIn (n + 1) a c := by
  induction h with
  | none a => exact .more last (.none _)
  | more first rest ih => exact .more first (ih last)

theorem EditsIn.symm {n : ℕ} {a b : List α} (h : EditsIn n a b) : EditsIn n b a := by
  induction h with
  | none a => exact .none _
  | more first rest ih => exact ih.snoc first.symm

theorem editsIn_symm_iff {n : ℕ} {a b : List α} : EditsIn n a b ↔ EditsIn n b a :=
  ⟨EditsIn.symm, EditsIn.symm⟩

theorem editsIn_insert_all (b : List α) : EditsIn b.length [] b := by
  induction b with
  | nil => exact .none _
  | cons y b ih => exact ih.snoc (.insert [] b y)

section
variable [DecidableEq α]

/-- The distance, read off the heads of the two lists. -/
def distance : List α → List α → ℕ
  | [], b => b.length
  | a, [] => a.length
  | x :: a, y :: b =>
    min (distance a (y :: b) + 1)
      (min (distance (x :: a) b + 1) (distance a b + if x = y then 0 else 1))
termination_by a b => a.length + b.length

@[simp] theorem distance_nil_left (b : List α) : distance [] b = b.length := by
  rw [distance]

@[simp] theorem distance_nil_right (a : List α) : distance a [] = a.length := by
  cases a with
  | nil => simp
  | cons x a => rw [distance]; simp

theorem distance_cons (x y : α) (a b : List α) :
    distance (x :: a) (y :: b) =
      min (distance a (y :: b) + 1)
        (min (distance (x :: a) b + 1) (distance a b + if x = y then 0 else 1)) := by
  rw [distance]

@[simp] theorem distance_self (a : List α) : distance a a = 0 := by
  induction a with
  | nil => simp
  | cons x a ih => simp [distance_cons, ih]

theorem distance_cons_right_le (a b : List α) (y : α) : distance a (y :: b) ≤ distance a b + 1 := by
  cases a with
  | nil => simp
  | cons x a =>
    rw [distance_cons]
    exact (min_le_right _ _).trans (min_le_left _ _)

theorem distance_cons_left_le (a c : List α) (x : α) : distance (x :: a) c ≤ distance a c + 1 := by
  cases c with
  | nil => simp
  | cons y c =>
    rw [distance_cons]
    exact min_le_left _ _

theorem distance_le_cons_left (a c : List α) (x : α) : distance a c ≤ distance (x :: a) c + 1 := by
  induction c with
  | nil => simp; omega
  | cons y c ih =>
    have hstep := distance_cons_right_le a c y
    rw [distance_cons x y a c]
    split <;> omega

/-- An edit after a common head is an edit. -/
theorem distance_cons_le {a b : List α} (x : α) (h : ∀ c, distance a c ≤ distance b c + 1)
    (c : List α) : distance (x :: a) c ≤ distance (x :: b) c + 1 := by
  induction c with
  | nil => simpa using h []
  | cons y c ih =>
    have hdel := h (y :: c)
    have hsub := h c
    rw [distance_cons x y a c, distance_cons x y b c]
    omega

theorem distance_insert (u v c : List α) (x : α) :
    distance (u ++ v) c ≤ distance (u ++ x :: v) c + 1 := by
  induction u generalizing c with
  | nil => exact distance_le_cons_left v c x
  | cons z u ih => exact distance_cons_le z ih c

theorem distance_delete (u v c : List α) (x : α) :
    distance (u ++ x :: v) c ≤ distance (u ++ v) c + 1 := by
  induction u generalizing c with
  | nil => exact distance_cons_left_le v c x
  | cons z u ih => exact distance_cons_le z ih c

theorem distance_substitute (u v c : List α) (x y : α) :
    distance (u ++ x :: v) c ≤ distance (u ++ y :: v) c + 1 := by
  induction u generalizing c with
  | nil =>
    cases c with
    | nil => simp
    | cons z c =>
      have hdel := distance_cons_left_le v c x
      have hins := distance_le_cons_left v c y
      simp only [List.nil_append, distance_cons]
      split <;> split <;> omega
  | cons z u ih => exact distance_cons_le z ih c

theorem Edit.distance_le {a b : List α} (h : Edit a b) (c : List α) :
    distance a c ≤ distance b c + 1 := by
  cases h with
  | insert u v x => exact distance_insert u v c x
  | delete u v x => exact distance_delete u v c x
  | substitute u v x y => exact distance_substitute u v c x y

theorem EditsIn.distance_le {n : ℕ} {a b : List α} (h : EditsIn n a b) : distance a b ≤ n := by
  induction h with
  | none a => simp
  | more first rest ih => exact (first.distance_le _).trans (Nat.add_le_add_right ih 1)

/-- The distance is attained. -/
theorem editsIn_distance (a b : List α) : EditsIn (distance a b) a b := by
  induction a, b using distance.induct with
  | case1 b => simpa using editsIn_insert_all b
  | case2 a _ => simpa using (editsIn_insert_all a).symm
  | case3 x a y b hdel hins hsub =>
    rw [distance_cons]
    rcases min_choice (distance a (y :: b) + 1)
      (min (distance (x :: a) b + 1) (distance a b + if x = y then 0 else 1)) with h | h
    · rw [h]
      exact .more (.delete [] a x) hdel
    · rw [h]
      rcases min_choice (distance (x :: a) b + 1)
        (distance a b + if x = y then 0 else 1) with h' | h'
      · rw [h']
        exact hins.snoc (.insert [] b y)
      · rw [h']
        by_cases hxy : x = y
        · subst hxy
          simpa using hsub.cons x
        · rw [if_neg hxy]
          exact .more (.substitute [] a x y) (hsub.cons y)

theorem distance_isLeast (a b : List α) : IsLeast {n | EditsIn n a b} (distance a b) :=
  ⟨editsIn_distance a b, fun _ h => h.distance_le⟩

theorem distance_reverse_isLeast (a b : List α) :
    IsLeast {n | EditsIn n a b} (distance a.reverse b.reverse) := by
  constructor
  · simpa using (editsIn_distance a.reverse b.reverse).reverse
  · intro n h
    exact h.reverse.distance_le

theorem distance_comm (a b : List α) : distance a b = distance b a := by
  have hsame : {n | EditsIn n a b} = {n | EditsIn n b a} := by
    ext n
    exact editsIn_symm_iff
  exact (distance_isLeast a b).unique (hsame ▸ distance_isLeast b a)

theorem eq_of_distance_zero {a b : List α} (h : distance a b = 0) : a = b := by
  have hedits := editsIn_distance a b
  rw [h] at hedits
  cases hedits
  rfl

/-! ## Row by row

The row of a prefix of one list holds its distances to every prefix of the other. -/

/-- One row of the table, from the row above it. -/
def fillRow (x : α) : ℕ → List ℕ → List α → List ℕ
  | left, above :: next :: prev, y :: b =>
    let v := min (next + 1) (min (left + 1) (above + if x ≠ y then 1 else 0))
    v :: fillRow x v (next :: prev) b
  | _, _, _ => []

/-- The rows, one for each character. -/
def fillRows (b : List α) : List α → ℕ → List ℕ → List ℕ
  | [], _, prev => prev
  | x :: a, i, prev => fillRows b a (i + 1) (i :: fillRow x i prev b)

/-- The distances of `a` to every prefix of `b`, both read backwards. -/
def levels (a : List α) : List α → List α → List ℕ
  | before, [] => [distance a before]
  | before, y :: b => distance a before :: levels a (y :: before) b

theorem levels_cons (a before b : List α) :
    levels a before b = distance a before :: (levels a before b).tail := by
  cases b with
  | nil => rfl
  | cons y b => rfl

theorem levels_nil (before b : List α) :
    levels [] before b = (List.range (b.length + 1)).map (before.length + ·) := by
  induction b generalizing before with
  | nil => simp [levels]
  | cons y b ih =>
    have hrange : List.range (b.length + 1 + 1) = 0 :: (List.range (b.length + 1)).map Nat.succ :=
      List.range_succ_eq_map
    rw [levels, ih (y :: before)]
    simp only [List.length_cons]
    rw [hrange]
    simp only [distance_nil_left, List.map_cons, Nat.add_zero, List.map_map]
    congr 1
    apply List.map_congr_left
    intro n _
    simp only [Function.comp]
    omega

theorem fillRow_levels (x : α) (a before b : List α) :
    fillRow x (distance (x :: a) before) (levels a before b) b =
      (levels (x :: a) before b).tail := by
  induction b generalizing before with
  | nil => simp [fillRow, levels]
  | cons y b ih =>
    have hv : min (distance a (y :: before) + 1)
        (min (distance (x :: a) before + 1) (distance a before + if x ≠ y then 1 else 0)) =
          distance (x :: a) (y :: before) := by
      rw [distance_cons]
      by_cases hxy : x = y
      · simp [hxy]
      · simp [hxy]
    have hnext := ih (y :: before)
    rw [levels, levels, List.tail_cons, levels_cons a (y :: before) b, fillRow, hv,
      ← levels_cons a (y :: before) b, hnext, ← levels_cons]

theorem fillRows_levels (a done b : List α) :
    fillRows b a (done.length + 1) (levels done [] b) = levels (a.reverse ++ done) [] b := by
  induction a generalizing done with
  | nil => simp [fillRows]
  | cons x a ih =>
    have hrow : (done.length + 1) :: fillRow x (done.length + 1) (levels done [] b) b =
        levels (x :: done) [] b := by
      have h := fillRow_levels x done [] b
      simp only [distance_nil_right, List.length_cons] at h
      rw [h, levels_cons (x :: done) [] b]
      simp
    rw [fillRows, hrow]
    have h := ih (x :: done)
    simpa using h

theorem levels_getLast (a before b : List α) :
    (levels a before b).getLast? = some (distance a (b.reverse ++ before)) := by
  induction b generalizing before with
  | nil => simp [levels]
  | cons y b ih =>
    rw [levels, levels_cons, List.getLast?_cons_cons, ← levels_cons, ih]
    simp

end

end RagPipeline.Edits
