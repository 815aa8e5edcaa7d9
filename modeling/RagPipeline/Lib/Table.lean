import Mathlib.Data.List.Basic
import Mathlib.Data.List.Nodup
import Mathlib.Logic.Function.Iterate

/-! # Tables as lists of rows

The three writes of a table, on lists: an update of the rows that meet a
condition, an insert that skips a key already present, and a delete. -/

set_option autoImplicit false

namespace RagPipeline.Table

variable {ρ κ : Type}

def updateWhere (p : ρ → Prop) [DecidablePred p] (f : ρ → ρ) (l : List ρ) : List ρ :=
  l.map fun r => if p r then f r else r

def deleteWhere (p : ρ → Prop) [DecidablePred p] (l : List ρ) : List ρ :=
  l.filter fun r => ¬ p r

/-- `INSERT … ON CONFLICT (key) DO NOTHING`, one row. -/
def insertNew [DecidableEq κ] (key : ρ → κ) (l : List ρ) (r : ρ) : List ρ :=
  if key r ∈ l.map key then l else l ++ [r]

def insertAll [DecidableEq κ] (key : ρ → κ) (l rows : List ρ) : List ρ :=
  rows.foldl (insertNew key) l

section
variable {p : ρ → Prop} [DecidablePred p] {f : ρ → ρ} {l : List ρ} {r : ρ}

theorem mem_updateWhere :
    r ∈ updateWhere p f l ↔ (∃ a ∈ l, p a ∧ f a = r) ∨ (r ∈ l ∧ ¬ p r) := by
  simp only [updateWhere, List.mem_map]
  constructor
  · rintro ⟨a, ha, h⟩
    by_cases hp : p a
    · exact .inl ⟨a, ha, hp, by rwa [if_pos hp] at h⟩
    · rw [if_neg hp] at h
      subst h
      exact .inr ⟨ha, hp⟩
  · rintro (⟨a, ha, hp, h⟩ | ⟨ha, hp⟩)
    · exact ⟨a, ha, by rwa [if_pos hp]⟩
    · exact ⟨r, ha, if_neg hp⟩

theorem map_updateWhere {g : ρ → κ} (h : ∀ a, p a → g (f a) = g a) :
    (updateWhere p f l).map g = l.map g := by
  simp only [updateWhere, List.map_map]
  refine List.map_congr_left fun a _ => ?_
  by_cases hp : p a
  · simp [hp, h a hp]
  · simp [hp]

theorem updateWhere_of_forall_not (h : ∀ a ∈ l, ¬ p a) : updateWhere p f l = l := by
  rw [updateWhere, List.map_congr_left fun a ha => if_neg (h a ha)]
  exact List.map_id' l

@[simp] theorem mem_deleteWhere : r ∈ deleteWhere p l ↔ r ∈ l ∧ ¬ p r := by
  simp [deleteWhere]

end

section
variable [DecidableEq κ] {key : ρ → κ} {l rows : List ρ} {r b : ρ}

/-- Where keys differ, a row is found under its key. -/
theorem find_key (key : ρ → κ) (h : (l.map key).Nodup) (hr : r ∈ l) : l.find? (fun a => key a = key r) = some r := by
  cases hfind : l.find? fun a => key a = key r with
  | none => exact absurd (List.find?_eq_none.1 hfind r hr) (by simp)
  | some a =>
    have ha : key a = key r := by simpa using List.find?_some hfind
    rw [List.inj_on_of_nodup_map h (List.mem_of_find?_eq_some hfind) hr ha]

theorem mem_insertNew : r ∈ insertNew key l b ↔ r ∈ l ∨ (r = b ∧ key b ∉ l.map key) := by
  by_cases h : key b ∈ l.map key
  · rw [insertNew, if_pos h]
    exact ⟨.inl, fun h' => h'.elim id fun h'' => absurd h h''.2⟩
  · rw [insertNew, if_neg h, List.mem_append, List.mem_singleton]
    exact ⟨fun h' => h'.imp_right fun h'' => ⟨h'', h⟩, fun h' => h'.imp_right fun h'' => h''.1⟩

theorem nodup_insertNew (h : (l.map key).Nodup) : ((insertNew key l b).map key).Nodup := by
  by_cases hb : key b ∈ l.map key
  · rwa [insertNew, if_pos hb]
  · rw [insertNew, if_neg hb, List.map_append]
    exact List.nodup_append.2 ⟨h, List.nodup_singleton _, by
      rintro _ hx _ hy rfl
      simp only [List.map_cons, List.map_nil, List.mem_singleton] at hy
      exact hb (hy ▸ hx)⟩

theorem nodup_insertAll (h : (l.map key).Nodup) : ((insertAll key l rows).map key).Nodup := by
  induction rows generalizing l with
  | nil => exact h
  | cons b rest ih => exact ih (nodup_insertNew h)

theorem subset_insertAll : l ⊆ insertAll key l rows := by
  induction rows generalizing l with
  | nil => exact List.Subset.refl l
  | cons b rest ih => exact fun r hr => ih (mem_insertNew.2 (.inl hr))

theorem mem_insertAll (h : r ∈ insertAll key l rows) : r ∈ l ∨ r ∈ rows ∧ key r ∉ l.map key := by
  induction rows generalizing l with
  | nil => exact .inl h
  | cons b rest ih =>
    rcases ih h with h | ⟨h, hkey⟩
    · rcases mem_insertNew.1 h with h | ⟨rfl, hkey⟩
      · exact .inl h
      · exact .inr ⟨List.mem_cons_self, hkey⟩
    · refine .inr ⟨List.mem_cons_of_mem _ h, fun hmem => hkey ?_⟩
      obtain ⟨a, ha, hak⟩ := List.mem_map.1 hmem
      exact List.mem_map.2 ⟨a, mem_insertNew.2 (.inl ha), hak⟩

/-- Every key that was offered is there afterwards. -/
theorem key_mem_insertAll (h : r ∈ rows) : key r ∈ (insertAll key l rows).map key := by
  induction rows generalizing l with
  | nil => cases h
  | cons b rest ih =>
    rcases List.mem_cons.1 h with rfl | h
    · have hnew : key r ∈ (insertNew key l r).map key := by
        by_cases hr : key r ∈ l.map key
        · rwa [insertNew, if_pos hr]
        · simp [insertNew, hr]
      obtain ⟨a, ha, hak⟩ := List.mem_map.1 hnew
      have hstays : a ∈ insertAll key (insertNew key l r) rest := subset_insertAll ha
      exact List.mem_map.2 ⟨a, hstays, hak⟩
    · exact ih h

end

/-- How one changed row changes a count. -/
theorem countP_set {ρ : Type} {p : ρ → Bool} {l : List ρ} {i : ℕ} {a b : ρ} (h : l[i]? = some a) :
    (l.set i b).countP p + (p a).toNat = l.countP p + (p b).toNat := by
  induction l generalizing i with
  | nil => cases h
  | cons c rest ih =>
    cases i with
    | zero =>
      obtain rfl := Option.some.inj h
      simp only [List.set_cons_zero, List.countP_cons]
      cases p c <;> cases p b <;> rfl
    | succ i =>
      have hrest := ih (i := i) h
      simp only [List.set_cons_succ, List.countP_cons]
      omega

theorem forall_mem_set {ρ : Type} {P : ρ → Prop} {l : List ρ} {i : ℕ} {b : ρ}
    (h : ∀ a ∈ l, P a) (hb : P b) : ∀ a ∈ l.set i b, P a := fun a ha => by
  rcases List.mem_or_eq_of_mem_set ha with ha | rfl
  · exact h a ha
  · exact hb

end RagPipeline.Table

/-! # Recursion in rounds

A recursive query: each round is computed from the rows of the round before it,
and the rows of all rounds are kept, until a round adds nothing. -/

namespace RagPipeline.Rounds

variable {ρ κ : Type} {step : List ρ → List ρ} {rows all : List ρ} {n : ℕ}

/-- The rounds from `rows` on. A recursion that outlasts its fuel does not end. -/
def rounds (step : List ρ → List ρ) : ℕ → List ρ → Option (List ρ)
  | _, [] => some []
  | 0, _ :: _ => none
  | n + 1, r :: rows => (rounds step n (step (r :: rows))).map fun rest => r :: rows ++ rest

theorem iterate_nil (hstep : step [] = []) (k : ℕ) : step^[k] [] = [] := by
  induction k with
  | zero => rfl
  | succ k ih => rw [Function.iterate_succ_apply, hstep, ih]

theorem rounds_some (h : step^[n] rows = []) : ∃ all, rounds step n rows = some all := by
  induction n generalizing rows with
  | zero =>
    obtain rfl : rows = [] := h
    exact ⟨[], rfl⟩
  | succ n ih =>
    cases rows with
    | nil => exact ⟨[], rfl⟩
    | cons r rows =>
      obtain ⟨rest, hrest⟩ := ih (by rwa [Function.iterate_succ_apply] at h)
      exact ⟨r :: rows ++ rest, by rw [rounds, hrest]; rfl⟩

/-- What is kept is what some round has. -/
theorem mem_rounds (hstep : step [] = []) (h : rounds step n rows = some all) {r : ρ} :
    r ∈ all ↔ ∃ k, r ∈ step^[k] rows := by
  induction n generalizing rows all with
  | zero =>
    cases rows with
    | nil =>
      obtain rfl := Option.some.inj h
      simp [iterate_nil hstep]
    | cons a rows => cases h
  | succ n ih =>
    cases rows with
    | nil =>
      obtain rfl := Option.some.inj h
      simp [iterate_nil hstep]
    | cons a rows =>
      rw [rounds, Option.map_eq_some_iff] at h
      obtain ⟨rest, hrest, rfl⟩ := h
      rw [List.mem_append, ih hrest]
      constructor
      · rintro (hr | ⟨k, hk⟩)
        · exact ⟨0, hr⟩
        · exact ⟨k + 1, hk⟩
      · rintro ⟨k, hk⟩
        cases k with
        | zero => exact .inl hk
        | succ k => exact .inr ⟨k, hk⟩

/-- Keys that differ within each round and between rounds differ in all. -/
theorem nodup_rounds {key : ρ → κ} (hstep : step [] = []) (h : rounds step n rows = some all)
    (hround : ∀ k, ((step^[k] rows).map key).Nodup)
    (hlater : ∀ i j, i < j → ∀ a ∈ step^[i] rows, ∀ b ∈ step^[j] rows, key a ≠ key b) :
    (all.map key).Nodup := by
  induction n generalizing rows all with
  | zero =>
    cases rows with
    | nil =>
      obtain rfl := Option.some.inj h
      exact List.nodup_nil
    | cons a rows => cases h
  | succ n ih =>
    cases rows with
    | nil =>
      obtain rfl := Option.some.inj h
      exact List.nodup_nil
    | cons r rows =>
      rw [rounds, Option.map_eq_some_iff] at h
      obtain ⟨rest, hrest, rfl⟩ := h
      have hfirst : ((r :: rows).map key).Nodup := hround 0
      have hrests : (rest.map key).Nodup :=
        ih hrest (fun k => hround (k + 1)) fun i j hij => hlater (i + 1) (j + 1) (by omega)
      rw [List.map_append, List.nodup_append]
      refine ⟨hfirst, hrests, ?_⟩
      intro x hx y hy hxy
      obtain ⟨a, ha, rfl⟩ := List.mem_map.1 hx
      obtain ⟨b, hb, rfl⟩ := List.mem_map.1 hy
      obtain ⟨k, hk⟩ := (mem_rounds hstep hrest).1 hb
      exact hlater 0 (k + 1) (by omega) a ha b hk hxy

end RagPipeline.Rounds
