import RagPipeline.Lib.Transition
import RagPipeline.Lib.Guard
import Mathlib.Logic.Function.Basic

/-! # Transactions statement by statement

A transaction runs its statements one after the other. Each statement takes the
locks it needs one at a time, and a lock is kept until the transaction ends; the
writes of a transaction are seen by others only once it commits. Any number of
transactions run in any order of steps, and each may be cut off at any point. -/

set_option autoImplicit false

namespace RagPipeline.Locks
open Transition

/-- What is left of a transaction. A statement chooses its locks by what it
finds; once it has them all it runs, and yields the change of the rows it
writes. What comes after may depend on what it found. -/
inductive Script (σ ρ ε : Type) where
  | commit
  | abort (e : ε)
  | statement (targets : σ → List ρ) (run : σ → Except ε (σ → σ)) (next : σ → Script σ ρ ε)

namespace Script

variable {σ ρ ε : Type}

/-- A transaction with nothing beside it. -/
def alone : Script σ ρ ε → σ → Except ε σ
  | commit, s => .ok s
  | abort e, _ => .error e
  | statement _ run next, s =>
    match run s with
    | .ok f => (next s).alone (f s)
    | .error e => .error e

/-- The locks it takes where nothing comes between. -/
def rows : Script σ ρ ε → σ → List ρ
  | commit, _ => []
  | abort _, _ => []
  | statement targets run next, s =>
    targets s ++ match run s with
      | .ok f => (next s).rows (f s)
      | .error _ => []

/-- Those that come after the locks of the statement at hand. -/
def after : Script σ ρ ε → σ → List ρ
  | .statement _ run next, s =>
    match run s with
    | .ok f => (next s).rows (f s)
    | .error _ => []
  | _, _ => []

/-- A refusal between two statements. -/
def require (p : Prop) [Decidable p] (e : ε) (rest : Script σ ρ ε) : Script σ ρ ε :=
  if p then rest else .abort e

def demand {α : Type} (o : Option α) (e : ε) (rest : α → Script σ ρ ε) : Script σ ρ ε :=
  match o with
  | some a => rest a
  | none => .abort e

/-- A statement that writes nothing. -/
def read (targets : σ → List ρ) (next : σ → Script σ ρ ε) : Script σ ρ ε :=
  .statement targets (fun _ => .ok id) next

section
variable {p : Prop} [Decidable p] {e : ε} {s : σ} {rest : Script σ ρ ε}

theorem alone_statement {targets : σ → List ρ} {run : σ → Except ε (σ → σ)}
    {next : σ → Script σ ρ ε} :
    (statement targets run next).alone s = run s >>= fun f => (next s).alone (f s) := by
  cases h : run s <;> simp [alone, h]

theorem alone_read {targets : σ → List ρ} {next : σ → Script σ ρ ε} :
    (read targets next).alone s = (next s).alone s := rfl

theorem alone_require :
    (require p e rest).alone s = Guard.require p e >>= fun _ => rest.alone s := by
  by_cases h : p <;> simp [require, Guard.require, alone, h]

theorem alone_demand {α : Type} {o : Option α} {rest : α → Script σ ρ ε} :
    (demand o e rest).alone s = Guard.demand o e >>= fun a => (rest a).alone s := by
  cases o <;> rfl

end

end Script

/-- A transaction at some point of its run. `awaiting` are the locks the
statement at hand has still to take. -/
structure Transaction (σ ρ ε : Type) where
  script : Script σ ρ ε
  awaiting : List ρ
  pending : σ → σ

namespace Transaction

variable {σ ρ ε : Type}

def new (script : Script σ ρ ε) : Transaction σ ρ ε := ⟨script, [], id⟩

/-- The statement at hand has its locks. -/
def ran (x : Transaction σ ρ ε) (run : σ → Except ε (σ → σ)) (next : σ → Script σ ρ ε) (s : σ) :
    Transaction σ ρ ε :=
  match run s with
  | .ok f => ⟨next s, [], fun c => f (x.pending c)⟩
  | .error e => ⟨.abort e, [], x.pending⟩

/-- The locks a transaction has still to take, as things stand. -/
def wants (x : Transaction σ ρ ε) (s : σ) : List ρ :=
  if x.awaiting = [] then x.script.rows s else x.awaiting ++ x.script.after s

end Transaction

/-- Which locks on the same thing exclude each other. -/
class Exclusion (ρ : Type) where
  excludes : ρ → ρ → Bool
  symm : ∀ {r r' : ρ}, excludes r r' → excludes r' r

/-- `locks` is the lock table: who has what. -/
structure World (τ σ ρ ε : Type) where
  committed : σ
  transactions : τ → Transaction σ ρ ε
  locks : List (τ × ρ)

inductive Event (τ : Type) where
  | step (t : τ)
  | cut (t : τ)
deriving DecidableEq, Repr

namespace World

variable {τ σ ρ ε : Type}

/-- What a transaction sees: the committed rows and its own writes. -/
def view (w : World τ σ ρ ε) (t : τ) : σ := (w.transactions t).pending w.committed

def holds (w : World τ σ ρ ε) (t : τ) (r : ρ) : Prop := (t, r) ∈ w.locks

def wants (w : World τ σ ρ ε) (t : τ) : List ρ := (w.transactions t).wants (w.view t)

section
variable [Exclusion ρ]

/-- Nobody else has a lock that excludes it. -/
def free (w : World τ σ ρ ε) (t : τ) (r : ρ) : Prop :=
  ∀ l ∈ w.locks, l.1 ≠ t → ¬ Exclusion.excludes l.2 r

instance [DecidableEq τ] (w : World τ σ ρ ε) (t : τ) (r : ρ) : Decidable (w.free t r) :=
  inferInstanceAs (Decidable (∀ l ∈ w.locks, _))

/-- The next lock of the one is excluded by a lock of the other. -/
def waits (w : World τ σ ρ ε) (t u : τ) : Prop :=
  t ≠ u ∧ ∃ r ∈ (w.transactions t).awaiting.head?, ∃ r', w.holds u r' ∧
    Exclusion.excludes r' r

end

variable [DecidableEq τ]

def set (w : World τ σ ρ ε) (t : τ) (x : Transaction σ ρ ε) : World τ σ ρ ε :=
  { w with transactions := Function.update w.transactions t x }

def lock (w : World τ σ ρ ε) (t : τ) (r : ρ) : World τ σ ρ ε :=
  { w with locks := (t, r) :: w.locks }

/-- A transaction that ends gives its locks back. -/
def release (w : World τ σ ρ ε) (t : τ) : World τ σ ρ ε :=
  { w with
    transactions := Function.update w.transactions t (.new .commit)
    locks := w.locks.filter fun l => l.1 ≠ t }

/-- The next step of a transaction, where it does not wait. -/
def advance [Exclusion ρ] (w : World τ σ ρ ε) (t : τ) : Option (World τ σ ρ ε) :=
  let x := w.transactions t
  match x.script, x.awaiting with
  | .commit, _ => some ({ w with committed := w.view t }.release t)
  | .abort _, _ => some (w.release t)
  | .statement targets run next, [] =>
    match targets (w.view t) with
    | [] => some (w.set t (x.ran run next (w.view t)))
    | r :: rest => some (w.set t { x with awaiting := r :: rest })
  | .statement _ run next, r :: rest =>
    if w.free t r then
      match rest with
      | [] => some ((w.lock t r).set t (x.ran run next (w.view t)))
      | r' :: rest => some ((w.lock t r).set t { x with awaiting := r' :: rest })
    else none

def happen [Exclusion ρ] (w : World τ σ ρ ε) : Event τ → Option (World τ σ ρ ε)
  | .step t => w.advance t
  | .cut t => some (w.release t)

end World

/-- Transactions of some kinds over a store, all of them at their start. -/
def lockSystem (τ : Type) {σ ρ ε : Type} [DecidableEq τ] [Exclusion ρ] (starts : σ → Prop)
    (kinds : Script σ ρ ε → Prop) : System (World τ σ ρ ε) (Event τ) where
  initial w := starts w.committed ∧ w.locks = [] ∧
    ∀ t, ∃ p, kinds p ∧ w.transactions t = .new p
  step w e w' := w.happen e = some w'

section
variable {τ σ ρ ε : Type} [DecidableEq τ] [Exclusion ρ]

/-- What one event does. -/
inductive Moves (w : World τ σ ρ ε) (t : τ) : World τ σ ρ ε → Prop where
  | committed (h : (w.transactions t).script = .commit) :
      Moves w t ({ w with committed := w.view t }.release t)
  | ended : Moves w t (w.release t)
  | issued {targets : σ → List ρ} {run : σ → Except ε (σ → σ)} {next : σ → Script σ ρ ε}
      (hscript : (w.transactions t).script = .statement targets run next)
      (hidle : (w.transactions t).awaiting = []) (hrows : targets (w.view t) ≠ []) :
      Moves w t (w.set t { w.transactions t with awaiting := targets (w.view t) })
  | passed {targets : σ → List ρ} {run : σ → Except ε (σ → σ)} {next : σ → Script σ ρ ε}
      (hscript : (w.transactions t).script = .statement targets run next)
      (hidle : (w.transactions t).awaiting = []) (hrows : targets (w.view t) = []) :
      Moves w t (w.set t ((w.transactions t).ran run next (w.view t)))
  | took {targets : σ → List ρ} {run : σ → Except ε (σ → σ)} {next : σ → Script σ ρ ε}
      {r r' : ρ} {rest : List ρ}
      (hscript : (w.transactions t).script = .statement targets run next)
      (hawaits : (w.transactions t).awaiting = r :: r' :: rest) (hfree : w.free t r) :
      Moves w t ((w.lock t r).set t { w.transactions t with awaiting := r' :: rest })
  | finished {targets : σ → List ρ} {run : σ → Except ε (σ → σ)} {next : σ → Script σ ρ ε} {r : ρ}
      (hscript : (w.transactions t).script = .statement targets run next)
      (hawaits : (w.transactions t).awaiting = [r]) (hfree : w.free t r) :
      Moves w t ((w.lock t r).set t ((w.transactions t).ran run next (w.view t)))

def Event.who : Event τ → τ
  | .step t => t
  | .cut t => t

theorem happen_moves {w w' : World τ σ ρ ε} {e : Event τ} (h : w.happen e = some w') :
    Moves w e.who w' := by
  cases e with
  | cut t =>
    obtain rfl := Option.some.inj h
    exact .ended
  | step t =>
    change w.advance t = some w' at h
    unfold World.advance at h
    simp only at h
    split at h
    case h_1 hscript =>
      obtain rfl := Option.some.inj h
      exact .committed hscript
    case h_2 =>
      obtain rfl := Option.some.inj h
      exact .ended
    case h_3 targets run next hscript hidle =>
      split at h
      case h_1 hrows =>
        obtain rfl := Option.some.inj h
        exact .passed hscript hidle hrows
      case h_2 r rest hrows =>
        obtain rfl := Option.some.inj h
        rw [← hrows]
        exact .issued hscript hidle (hrows ▸ List.cons_ne_nil r rest)
    case h_4 targets run next r rest hscript hawaits =>
      split at h
      case isFalse => cases h
      case isTrue hfree =>
        split at h
        · obtain rfl := Option.some.inj h
          exact .finished hscript hawaits hfree
        · obtain rfl := Option.some.inj h
          exact .took hscript hawaits hfree

/-- Locks that exclude each other have one holder. -/
def World.Exclusive (w : World τ σ ρ ε) : Prop :=
  ∀ t u r r', w.holds t r → w.holds u r' → Exclusion.excludes r r' → t = u

section
variable {w w' : World τ σ ρ ε} {t u : τ} {r : ρ}

omit [Exclusion ρ] in
theorem holds_release : (w.release t).holds u r ↔ w.holds u r ∧ u ≠ t := by
  simp [World.release, World.holds]

omit [DecidableEq τ] [Exclusion ρ] in
theorem holds_lock {r' : ρ} : (w.lock t r).holds u r' ↔ (u = t ∧ r' = r) ∨ w.holds u r' := by
  simp [World.lock, World.holds]

namespace Moves

theorem transactions_other (h : Moves w t w') (hu : u ≠ t) :
    w'.transactions u = w.transactions u := by
  cases h <;> exact Function.update_of_ne hu _ _

theorem holds_other (h : Moves w t w') (hu : u ≠ t) : w'.holds u r ↔ w.holds u r := by
  cases h with
  | committed | ended => exact holds_release.trans (and_iff_left hu)
  | issued | passed => exact Iff.rfl
  | took | finished => exact holds_lock.trans (or_iff_right fun h => hu h.1)

/-- A lock is new only where it was free. -/
theorem holds_self (h : Moves w t w') (hr : w'.holds t r) :
    w.holds t r ∨ w.free t r ∧ r ∈ (w.transactions t).awaiting.head? := by
  cases h with
  | committed | ended => exact .inl (holds_release.1 hr).1
  | issued | passed => exact .inl hr
  | took hscript hawaits hfree | finished hscript hawaits hfree =>
    rcases holds_lock.1 hr with ⟨-, rfl⟩ | hr
    · exact .inr ⟨hfree, by rw [hawaits]; rfl⟩
    · exact .inl hr

theorem exclusive (h : Moves w t w') (hw : w.Exclusive) : w'.Exclusive := by
  have hself : ∀ {u r r'}, u ≠ t → w'.holds t r → w'.holds u r' →
      ¬ Exclusion.excludes r' r := by
    intro u r r' hu ht hr' hex
    rw [h.holds_other hu] at hr'
    rcases h.holds_self ht with ht | ⟨hfree, -⟩
    · exact hu (hw u t r' r hr' ht hex)
    · exact hfree (u, r') hr' hu hex
  intro a b r r' ha hb hex
  by_cases hat : a = t
  · subst hat
    by_contra hab
    exact hself (Ne.symm hab) ha hb (Exclusion.symm hex)
  · by_cases hbt : b = t
    · subst hbt
      exact absurd hex (hself hat hb ha)
    · rw [h.holds_other hat] at ha
      rw [h.holds_other hbt] at hb
      exact hw a b r r' ha hb hex

end Moves

theorem exclusive_of_reachable {starts : σ → Prop} {kinds : Script σ ρ ε → Prop}
    (h : (lockSystem τ starts kinds).Reachable w) : w.Exclusive := by
  refine System.invariant ?_ ?_ h
  · intro w hw t u r r' ht
    rw [World.holds, hw.2.1] at ht
    cases ht
  · exact fun w e w' _ hw hs => (happen_moves hs).exclusive hw

end

omit [Exclusion ρ] in
/-- A statement that has its locks leaves what comes after it. -/
theorem wants_ran {x : Transaction σ ρ ε} {targets : σ → List ρ} {run : σ → Except ε (σ → σ)}
    {next : σ → Script σ ρ ε} {c : σ} (h : x.script = .statement targets run next) :
    (x.ran run next (x.pending c)).wants ((x.ran run next (x.pending c)).pending c) =
      x.script.after (x.pending c) := by
  cases hrun : run (x.pending c) with
  | ok f => simp [Transaction.ran, Transaction.wants, Script.after, h, hrun]
  | error e => simp [Transaction.ran, Transaction.wants, Script.after, Script.rows, h, hrun]

/-- What a transaction has still to lock only shrinks as it goes on. -/
theorem Moves.wants_self {w w' : World τ σ ρ ε} {t : τ} (h : Moves w t w') :
    w'.wants t ⊆ w.wants t := by
  cases h with
  | committed | ended =>
    have hover : ∀ c, Transaction.wants (.new (.commit : Script σ ρ ε)) c = [] := fun _ => rfl
    simp only [World.wants, World.release, Function.update_self, hover, List.nil_subset]
  | issued hscript hidle hrows =>
    simp only [World.wants, World.view, World.set, Function.update_self, Transaction.wants] at hrows ⊢
    rw [if_neg hrows, if_pos hidle, hscript]
    exact List.Subset.refl _
  | passed hscript hidle hrows =>
    simp only [World.wants, World.view, World.set, Function.update_self]
    rw [wants_ran hscript, Transaction.wants, if_pos hidle, hscript]
    exact List.subset_append_right _ _
  | took hscript hawaits hfree =>
    simp only [World.wants, World.view, World.set, World.lock, Function.update_self,
      Transaction.wants, hawaits]
    exact List.subset_cons_self _ _
  | finished hscript hawaits hfree =>
    simp only [World.wants, World.view, World.set, World.lock, Function.update_self]
    rw [wants_ran hscript, Transaction.wants, if_neg (by simp [hawaits])]
    exact List.subset_append_right _ _

/-- A statement under way was issued on something seen before. -/
def Underway (w : World τ σ ρ ε) (t : τ) (P : σ → Prop) : Prop :=
  (w.transactions t).awaiting = [] ∨ ∃ targets run next s₀,
    (w.transactions t).script = .statement targets run next ∧ P s₀ ∧ targets s₀ ≠ [] ∧
      ∀ r ∈ targets s₀, w.holds t r ∨ r ∈ (w.transactions t).awaiting

/-- A statement that ran: on what it saw when it was issued it had chosen its
locks, and it has them all. -/
structure Ran (w : World τ σ ρ ε) (t : τ) (P : σ → Prop) (w' : World τ σ ρ ε)
    (targets : σ → List ρ) (run : σ → Except ε (σ → σ)) (next : σ → Script σ ρ ε) (s₀ : σ) :
    Prop where
  script : (w.transactions t).script = .statement targets run next
  seen : P s₀
  same : targets s₀ = [] → w.view t = s₀
  locked : ∀ r ∈ targets s₀, w'.holds t r
  kept : ∀ r, w.holds t r → w'.holds t r
  committed : w'.committed = w.committed
  after : w'.transactions t = (w.transactions t).ran run next (w.view t)

/-- A transaction ends, goes on waiting, or runs the statement at hand. -/
inductive Goes (w : World τ σ ρ ε) (t : τ) (P : σ → Prop) (w' : World τ σ ρ ε) : Prop where
  | committed (h : (w.transactions t).script = .commit)
      (h' : w' = { w with committed := w.view t }.release t)
  | ended (h : w' = w.release t)
  | waiting (hscript : (w'.transactions t).script = (w.transactions t).script)
      (hpending : (w'.transactions t).pending = (w.transactions t).pending)
      (hcommitted : w'.committed = w.committed) (hkept : ∀ r, w.holds t r → w'.holds t r)
      (hunderway : Underway w' t P)
  | ran {targets : σ → List ρ} {run : σ → Except ε (σ → σ)} {next : σ → Script σ ρ ε} {s₀ : σ}
      (h : Ran w t P w' targets run next s₀)

theorem Moves.goes {w w' : World τ σ ρ ε} {t : τ} {P : σ → Prop} (hm : Moves w t w')
    (hP : P (w.view t)) (hu : Underway w t P) : Goes w t P w' := by
  cases hm with
  | committed h => exact .committed h rfl
  | ended => exact .ended rfl
  | @issued targets run next hscript hidle hrows =>
    refine .waiting ?_ ?_ rfl (fun _ hr => hr)
      (.inr ⟨targets, run, next, w.view t, ?_, hP, hrows, ?_⟩)
    · simp [World.set]
    · simp [World.set]
    · simpa [World.set] using hscript
    · intro r hr
      right
      simpa [World.set] using hr
  | passed hscript hidle hrows =>
    refine .ran ⟨hscript, hP, fun _ => rfl, ?_, fun _ hr => hr, rfl, ?_⟩
    · simp [hrows]
    · simp [World.set]
  | took hscript hawaits hfree =>
    rcases hu with hidle | ⟨targets, run, next, s₀, hscript', hs₀, hne, hrows⟩
    · simp [hawaits] at hidle
    refine .waiting ?_ ?_ rfl (fun _ hr => holds_lock.2 (.inr hr))
      (.inr ⟨targets, run, next, s₀, ?_, hs₀, hne, ?_⟩)
    · simp [World.set, World.lock]
    · simp [World.set, World.lock]
    · simpa [World.set, World.lock] using hscript'
    · intro q hq
      rcases hrows q hq with hq | hq
      · exact .inl (holds_lock.2 (.inr hq))
      · rw [hawaits, List.mem_cons] at hq
        rcases hq with rfl | hq
        · exact .inl (holds_lock.2 (.inl ⟨rfl, rfl⟩))
        · right
          simpa [World.set, World.lock] using hq
  | finished hscript hawaits hfree =>
    rcases hu with hidle | ⟨targets, run, next, s₀, hscript', hs₀, hne, hrows⟩
    · simp [hawaits] at hidle
    obtain ⟨rfl, rfl, rfl⟩ := Script.statement.inj (hscript.symm.trans hscript')
    refine .ran ⟨hscript', hs₀, fun h => absurd h hne, ?_,
      fun _ hr => holds_lock.2 (.inr hr), rfl, ?_⟩
    · intro q hq
      rcases hrows q hq with hq | hq
      · exact holds_lock.2 (.inr hq)
      · rw [hawaits, List.mem_singleton] at hq
        exact holds_lock.2 (.inl ⟨rfl, hq⟩)
    · simp [World.set]

end

end RagPipeline.Locks
