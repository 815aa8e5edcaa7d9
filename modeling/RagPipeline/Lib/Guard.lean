import Mathlib.Control.Basic

/-! # Guarded computations

A computation that checks its way to a result: `require` goes on only where a
condition holds, `demand` only where a value is there. What such a computation
returned says that every check on the way held, and the lemmas here turn the
one into the other. -/

set_option autoImplicit false

namespace RagPipeline.Guard

variable {ε α β : Type} {e : ε}

def require (p : Prop) [Decidable p] (e : ε) : Except ε Unit :=
  if p then .ok () else .error e

def demand (o : Option α) (e : ε) : Except ε α :=
  match o with
  | some a => .ok a
  | none => .error e

@[simp] theorem ok_bind (a : α) (f : α → Except ε β) : (Except.ok a >>= f) = f a := rfl

@[simp] theorem error_bind (f : α → Except ε β) : (Except.error e >>= f) = .error e := rfl

theorem bind_ok {x : Except ε α} {f : α → Except ε β} {b : β} :
    (x >>= f) = .ok b ↔ ∃ a, x = .ok a ∧ f a = .ok b := by
  cases x with
  | ok a => simp
  | error e => simp

theorem bind_error {x : Except ε α} {f : α → Except ε β} :
    (x >>= f) = .error e ↔ x = .error e ∨ ∃ a, x = .ok a ∧ f a = .error e := by
  cases x <;> simp

theorem mapError_ok {ε' : Type} {g : ε → ε'} {x : Except ε α} {a : α} :
    x.mapError g = .ok a ↔ x = .ok a := by
  cases x <;> simp [Except.mapError]

theorem mapError_error {ε' : Type} {g : ε → ε'} {x : Except ε α} {y : ε'} :
    x.mapError g = .error y ↔ ∃ r, x = .error r ∧ g r = y := by
  cases x <;> simp [Except.mapError]

theorem map_bind {γ : Type} (g : β → γ) (x : Except ε α) (f : α → Except ε β) :
    (x >>= f).map g = x >>= fun a => (f a).map g := by
  cases x <;> rfl

theorem map_ok {g : α → β} {x : Except ε α} {b : β} : x.map g = .ok b ↔ ∃ a, x = .ok a ∧ g a = b := by
  cases x <;> simp [Except.map]

theorem pure_ok {a b : α} : (pure a : Except ε α) = .ok b ↔ a = b :=
  ⟨Except.ok.inj, congrArg Except.ok⟩

theorem toOption_some {x : Except ε α} {a : α} : x.toOption = some a ↔ x = .ok a := by
  cases x with
  | ok b => exact ⟨fun h => congrArg _ (Option.some.inj h), fun h => congrArg _ (Except.ok.inj h)⟩
  | error e => exact ⟨fun h => (nomatch h), fun h => (nomatch h)⟩

theorem exists_unit {p : Unit → Prop} : (∃ u, p u) ↔ p () :=
  ⟨fun ⟨_, h⟩ => h, fun h => ⟨(), h⟩⟩

theorem require_ok {p : Prop} [Decidable p] {u : Unit} : require p e = .ok u ↔ p := by
  by_cases h : p <;> simp [require, h]

theorem require_true {p : Prop} [Decidable p] (h : p) : require p e = .ok () := by
  simp [require, h]

theorem require_false {p : Prop} [Decidable p] (h : ¬ p) : require p e = .error e := by
  simp [require, h]

theorem require_error {p : Prop} [Decidable p] {e' : ε} :
    (require p e : Except ε Unit) = .error e' ↔ ¬ p ∧ e = e' := by
  by_cases h : p <;> simp [require, h]

theorem demand_some (a : α) : demand (some a) e = .ok a := rfl

theorem demand_ok {o : Option α} {a : α} : demand o e = .ok a ↔ o = some a := by
  cases o <;> simp [demand]

theorem demand_error {o : Option α} {e' : ε} :
    demand o e = .error e' ↔ o = none ∧ e = e' := by
  cases o <;> simp [demand]

theorem forM_ok {f : α → Except ε Unit} {l : List α} :
    forM l f = .ok () ↔ ∀ a ∈ l, f a = .ok () := by
  induction l with
  | nil => simp [pure_ok]
  | cons a l ih =>
    rw [List.forM_cons, bind_ok, List.forall_mem_cons, ← ih]
    exact exists_unit

/-- A list of computations that all succeed. -/
theorem mapM_exists {f : α → Except ε β} {l : List α} :
    (∃ bs, l.mapM f = .ok bs) ↔ ∀ a ∈ l, ∃ b, f a = .ok b := by
  induction l with
  | nil => simp [pure_ok]
  | cons a l ih =>
    rw [List.forall_mem_cons, ← ih]
    simp only [List.mapM_cons, bind_ok, pure_ok]
    constructor
    · intro h
      obtain ⟨bs, b, hb, rest, hrest, -⟩ := h
      exact ⟨⟨b, hb⟩, rest, hrest⟩
    · intro h
      obtain ⟨⟨b, hb⟩, rest, hrest⟩ := h
      exact ⟨_, b, hb, rest, hrest, rfl⟩

end RagPipeline.Guard
