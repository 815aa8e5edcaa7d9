import Mathlib.Data.List.Basic

/-! # Deferred checks

Transactions whose statements leave events, each of which is checked before the
transaction ends and not sooner than that unless asked for. What every event checks
holds of what is committed. -/

set_option autoImplicit false

namespace RagPipeline.Deferred

variable {σ δ ε ι : Type}

/-- A state in the middle of a transaction, with what is still to be checked. -/
structure Session (σ ε : Type) where
  state : σ
  pending : List ε

inductive Action (δ ε : Type) where
  | run (d : δ)
  /-- Checks what is pending and meets the condition, at once. -/
  | check (which : ε → Bool)

section
variable (exec : δ → σ → Option (σ × List ε)) (passes : ε → σ → Bool)

def perform (o : Session σ ε) : Action δ ε → Option (Session σ ε)
  | .run d => (exec d o.state).map fun r => ⟨r.1, o.pending ++ r.2⟩
  | .check which =>
    if (o.pending.filter which).all fun e => passes e o.state then
      some ⟨o.state, o.pending.filter fun e => !which e⟩
    else none

def performs : Session σ ε → List (Action δ ε) → Option (Session σ ε)
  | o, [] => some o
  | o, a :: rest => (perform exec passes o a).bind fun o' => performs o' rest

/-- A whole transaction, which ends with the checks that are left. -/
def transact (actions : List (Action δ ε)) (s : σ) : Option σ :=
  (performs exec passes ⟨s, []⟩ actions).bind fun o =>
    if o.pending.all fun e => passes e o.state then some o.state else none

end

/-! ## What is committed -/

/-- Every item is in order, or there is an event left that checks it. -/
def Owed (Ok : ι → σ → Prop) (covers : ε → ι → Prop) (o : Session σ ε) : Prop :=
  ∀ i, Ok i o.state ∨ ∃ e ∈ o.pending, covers e i

variable {exec : δ → σ → Option (σ × List ε)} {passes : ε → σ → Bool} {Inv : σ → Prop}
  {Ok : ι → σ → Prop} {covers : ε → ι → Prop} {o o' : Session σ ε} {s s' : σ}

/-- What is asked of the statements and of the checks: a statement that puts an item out of
order leaves an event that covers it, and a check that passes finds what it covers in order. -/
structure Rules (exec : δ → σ → Option (σ × List ε)) (passes : ε → σ → Bool) (Inv : σ → Prop)
    (Ok : ι → σ → Prop) (covers : ε → ι → Prop) : Prop where
  keeps : ∀ d s s' es, Inv s → exec d s = some (s', es) → Inv s'
  leaves : ∀ d s s' es i, Inv s → exec d s = some (s', es) → Ok i s →
    Ok i s' ∨ ∃ e ∈ es, covers e i
  sound : ∀ e i s, Inv s → covers e i → passes e s = true → Ok i s

theorem perform_owed (h : Rules exec passes Inv Ok covers) {a : Action δ ε} (hinv : Inv o.state)
    (howed : Owed Ok covers o) (ha : perform exec passes o a = some o') :
    Inv o'.state ∧ Owed Ok covers o' := by
  cases a with
  | run d =>
    obtain ⟨⟨s', es⟩, hexec, rfl⟩ := Option.map_eq_some_iff.1 ha
    refine ⟨h.keeps d o.state s' es hinv hexec, fun i => ?_⟩
    cases howed i with
    | inl hok =>
      cases h.leaves d o.state s' es i hinv hexec hok with
      | inl hok' => exact Or.inl hok'
      | inr hnew =>
        obtain ⟨e, he, hcovers⟩ := hnew
        exact Or.inr ⟨e, List.mem_append_right _ he, hcovers⟩
    | inr hold =>
      obtain ⟨e, he, hcovers⟩ := hold
      exact Or.inr ⟨e, List.mem_append_left _ he, hcovers⟩
  | check which =>
    rw [perform] at ha
    split_ifs at ha with hall
    obtain rfl := Option.some.inj ha
    refine ⟨hinv, fun i => ?_⟩
    cases howed i with
    | inl hok => exact Or.inl hok
    | inr hold =>
      obtain ⟨e, he, hcovers⟩ := hold
      by_cases hwhich : which e = true
      · have hpass := List.all_eq_true.1 hall e (List.mem_filter.2 ⟨he, hwhich⟩)
        exact Or.inl (h.sound e i o.state hinv hcovers hpass)
      · right
        refine ⟨e, List.mem_filter.2 ⟨he, ?_⟩, hcovers⟩
        rw [Bool.not_eq_true] at hwhich
        rw [hwhich]
        rfl

theorem performs_owed (h : Rules exec passes Inv Ok covers) {actions : List (Action δ ε)}
    (hinv : Inv o.state) (howed : Owed Ok covers o) (ha : performs exec passes o actions = some o') :
    Inv o'.state ∧ Owed Ok covers o' := by
  induction actions generalizing o with
  | nil =>
    obtain rfl := Option.some.inj ha
    exact ⟨hinv, howed⟩
  | cons a rest ih =>
    obtain ⟨o₁, hfirst, hrest⟩ := Option.bind_eq_some_iff.1 ha
    obtain ⟨hinv', howed'⟩ := perform_owed h hinv howed hfirst
    exact ih hinv' howed' hrest

/-- What a transaction commits is in order. -/
theorem transact_ok (h : Rules exec passes Inv Ok covers) {actions : List (Action δ ε)} (hinv : Inv s)
    (hok : ∀ i, Ok i s) (ha : transact exec passes actions s = some s') : Inv s' ∧ ∀ i, Ok i s' := by
  obtain ⟨o, ho, hcommit⟩ := Option.bind_eq_some_iff.1 ha
  obtain ⟨hinv', howed⟩ := performs_owed h (o := ⟨s, []⟩) hinv (fun i => Or.inl (hok i)) ho
  split_ifs at hcommit with hall
  obtain rfl := Option.some.inj hcommit
  refine ⟨hinv', fun i => ?_⟩
  cases howed i with
  | inl hok' => exact hok'
  | inr hleft =>
    obtain ⟨e, he, hcovers⟩ := hleft
    exact h.sound e i o.state hinv' hcovers (List.all_eq_true.1 hall e he)

/-! ## A fact about two states -/

/-- What every statement keeps from before it to after it, a transaction keeps. -/
theorem transact_keeps {R : σ → σ → Prop} (hrefl : ∀ s, R s s) (htrans : ∀ a b c, R a b → R b c → R a c)
    (hstep : ∀ d s s' es, exec d s = some (s', es) → R s s') {actions : List (Action δ ε)}
    (ha : transact exec passes actions s = some s') : R s s' := by
  obtain ⟨o, ho, hcommit⟩ := Option.bind_eq_some_iff.1 ha
  split_ifs at hcommit
  obtain rfl := Option.some.inj hcommit
  have hrun : ∀ (actions : List (Action δ ε)) (o o' : Session σ ε),
      performs exec passes o actions = some o' → R o.state o'.state := by
    intro actions
    induction actions with
    | nil =>
      intro o o' h
      obtain rfl := Option.some.inj h
      exact hrefl _
    | cons a rest ih =>
      intro o o' h
      obtain ⟨o₁, hfirst, hrest⟩ := Option.bind_eq_some_iff.1 h
      apply htrans _ o₁.state _ _ (ih o₁ o' hrest)
      cases a with
      | run d =>
        obtain ⟨⟨s₁, es⟩, hexec, rfl⟩ := Option.map_eq_some_iff.1 hfirst
        exact hstep d o.state s₁ es hexec
      | check which =>
        rw [perform] at hfirst
        split_ifs at hfirst
        obtain rfl := Option.some.inj hfirst
        exact hrefl _
  exact hrun actions ⟨s, []⟩ o ho

/-! ## Transactions that go through -/

/-- Statements one after the other, with the events they leave. -/
inductive Plays (exec : δ → σ → Option (σ × List ε)) : σ → List δ → σ → List ε → Prop
  | done {s : σ} : Plays exec s [] s []
  | step {s s₁ s' : σ} {d : δ} {rest : List δ} {es more : List ε} :
      exec d s = some (s₁, es) → Plays exec s₁ rest s' more → Plays exec s (d :: rest) s' (es ++ more)

theorem Plays.performs {ds : List δ} {es : List ε} (h : Plays exec s ds s' es) (before : List ε) :
    performs exec passes ⟨s, before⟩ (ds.map .run) = some ⟨s', before ++ es⟩ := by
  induction h generalizing before with
  | done =>
    rw [List.append_nil]
    rfl
  | @step s s₁ s' d rest es more hexec _ ih =>
    rw [List.map_cons, Deferred.performs, perform, hexec]
    show Deferred.performs exec passes ⟨s₁, before ++ es⟩ (rest.map .run) = _
    rw [ih, List.append_assoc]

theorem Plays.commits {ds : List δ} {es : List ε} (h : Plays exec s ds s' es)
    (hpass : ∀ e ∈ es, passes e s' = true) : transact exec passes (ds.map .run) s = some s' := by
  rw [transact, h.performs, List.nil_append, Option.bind_some, if_pos (List.all_eq_true.2 hpass)]

end RagPipeline.Deferred
