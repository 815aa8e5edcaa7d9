import Mathlib.Logic.Relation

/-! # Transition systems

States reached by labelled steps, the rule that carries an invariant over every
run, the rule that carries a fact from one reachable state to every later one,
and the runs all of whose steps meet a condition. -/

set_option autoImplicit false

namespace RagPipeline.Transition

structure System (σ α : Type) where
  initial : σ → Prop
  step : σ → α → σ → Prop

namespace System

variable {σ α : Type} (S : System σ α)

inductive Reachable : σ → Prop where
  | start {s : σ} : S.initial s → Reachable s
  | next {s s' : σ} {a : α} : Reachable s → S.step s a s' → Reachable s'

/-- What some steps, or none, lead to. -/
def Later : σ → σ → Prop := Relation.ReflTransGen fun s s' => ∃ a, S.step s a s'

/-- The runs whose steps all meet a condition on the state before them. -/
def only (allowed : σ → α → Prop) : System σ α where
  initial := S.initial
  step s a s' := allowed s a ∧ S.step s a s'

variable {S} {I : σ → Prop}

theorem invariant (hstart : ∀ s, S.initial s → I s)
    (hstep : ∀ s a s', S.Reachable s → I s → S.step s a s' → I s') {s : σ}
    (h : S.Reachable s) : I s := by
  induction h with
  | start h => exact hstart _ h
  | next hr hs ih => exact hstep _ _ _ hr ih hs

theorem reachable_later {s s' : σ} (h : S.Reachable s) (hl : S.Later s s') : S.Reachable s' := by
  induction hl with
  | refl => exact h
  | tail _ hs ih =>
    obtain ⟨a, ha⟩ := hs
    exact ih.next ha

theorem stable {P : σ → Prop}
    (hstep : ∀ s a s', S.Reachable s → P s → S.step s a s' → P s') {s s' : σ}
    (h : S.Reachable s) (hp : P s) (hl : S.Later s s') : P s' := by
  induction hl with
  | refl => exact hp
  | tail hl hs ih =>
    obtain ⟨a, ha⟩ := hs
    exact hstep _ _ _ (reachable_later h hl) ih ha

/-- Where a step can be computed, a list of them can be played. -/
def play (exec : σ → α → Option σ) (s : σ) : List α → Option σ
  | [] => some s
  | a :: rest => (exec s a).bind fun s' => play exec s' rest

theorem reachable_play {exec : σ → α → Option σ}
    (hexec : ∀ s a s', exec s a = some s' → S.step s a s') {s s' : σ} {l : List α}
    (h : S.Reachable s) (hplay : play exec s l = some s') : S.Reachable s' := by
  induction l generalizing s with
  | nil => exact Option.some.inj hplay ▸ h
  | cons a rest ih =>
    obtain ⟨t, ht, hrest⟩ := Option.bind_eq_some_iff.1 hplay
    exact ih (h.next (hexec s a t ht)) hrest

theorem later_play {exec : σ → α → Option σ} (hexec : ∀ s a s', exec s a = some s' → S.step s a s')
    {s s' : σ} {l : List α} (hplay : play exec s l = some s') : S.Later s s' := by
  induction l generalizing s with
  | nil => exact Option.some.inj hplay ▸ .refl
  | cons a rest ih =>
    obtain ⟨t, ht, hrest⟩ := Option.bind_eq_some_iff.1 hplay
    exact .head ⟨a, hexec s a t ht⟩ (ih hrest)

theorem reachable_of_only {allowed : σ → α → Prop} {s : σ}
    (h : (S.only allowed).Reachable s) : S.Reachable s := by
  induction h with
  | start h => exact .start h
  | next _ hs ih => exact ih.next hs.2

end System

end RagPipeline.Transition
