import Mathlib.Control.Basic
import Mathlib.Logic.Function.Basic

/-! # Processes among others

A process runs one transaction after another; each happens at once, at some
time of the clock, and between two of them others may change the state as their
`rely` allows. `Ensures` speaks of every such run: an assertion about the state
is good between transactions only if the others keep it. -/

set_option autoImplicit false

namespace RagPipeline.Processes

/-- `act` changes the state, and goes on as the state before it says. -/
inductive Process (σ τ α : Type) where
  | done (a : α) : Process σ τ α
  | act (commit : τ → σ → σ) (next : τ → σ → Process σ τ α) : Process σ τ α

variable {σ τ ε α β : Type}

protected def Process.bind : Process σ τ α → (α → Process σ τ β) → Process σ τ β
  | .done a, f => f a
  | .act commit next, f => .act commit fun t s => (next t s).bind f

instance : Monad (Process σ τ) where
  pure := .done
  bind := Process.bind

/-- A transaction that may be refused, and then changes nothing. -/
def transact (op : τ → σ → Except ε (σ × α)) : ExceptT ε (Process σ τ) α :=
  ExceptT.mk <| .act
    (fun t s => match op t s with
      | .ok r => r.1
      | .error _ => s)
    fun t s => .done ((op t s).map Prod.snd)

inductive Runs (rely : σ → σ → Prop) : Process σ τ α → σ → α → σ → Prop where
  | done {a : α} {s : σ} : Runs rely (.done a) s a s
  | act {commit : τ → σ → σ} {next : τ → σ → Process σ τ α} {s s' : σ} {a : α} (t : τ) :
      Runs rely (next t s) (commit t s) a s' → Runs rely (.act commit next) s a s'
  | other {p : Process σ τ α} {s u s' : σ} {a : α} :
      rely s u → Runs rely p u a s' → Runs rely p s a s'

variable {rely : σ → σ → Prop}

/-- A process left alone, under one time of the clock. -/
def alone (t : τ) : Process σ τ α → σ → α × σ
  | .done a, s => (a, s)
  | .act commit next, s => alone t (next t s) (commit t s)

theorem runs_alone (t : τ) (p : Process σ τ α) (s : σ) :
    Runs rely p s (alone t p s).1 (alone t p s).2 := by
  induction p generalizing s with
  | done a => exact .done
  | act commit next ih => exact .act t (ih t s (commit t s))

theorem runs_bind {p : Process σ τ α} {f : α → Process σ τ β} {s s' : σ} {b : β}
    (h : Runs rely (p.bind f) s b s') : ∃ a u, Runs rely p s a u ∧ Runs rely (f a) u b s' := by
  generalize hq : p.bind f = q at h
  induction h generalizing p with
  | done =>
    cases p with
    | done a =>
      have hf : f a = _ := hq
      exact ⟨a, _, .done, by rw [hf]; exact .done⟩
    | act commit next => cases hq
  | act t h ih =>
    cases p with
    | done a =>
      have hf : f a = _ := hq
      exact ⟨a, _, .done, by rw [hf]; exact .act t h⟩
    | act commit next =>
      cases hq
      obtain ⟨a, u, hp, hf⟩ := ih rfl
      exact ⟨a, u, .act t hp, hf⟩
  | other hr h ih =>
    obtain ⟨a, u, hp, hf⟩ := ih hq
    exact ⟨a, u, .other hr hp, hf⟩

def Stable (rely : σ → σ → Prop) (P : σ → Prop) : Prop := ∀ s s', P s → rely s s' → P s'

theorem runs_done {a b : α} {s s' : σ} {P : σ → Prop}
    (h : Runs rely (.done a : Process σ τ α) s b s') (hstable : Stable rely P) (hs : P s) :
    b = a ∧ P s' := by
  generalize hp : (.done a : Process σ τ α) = p at h
  induction h with
  | done => exact ⟨(Process.done.inj hp).symm, hs⟩
  | act t h ih => cases hp
  | other hr h ih => exact ih (hstable _ _ hs hr) hp

/-- From a state that meets `P`, a normal end meets `Q` and a raised end `E`. -/
def Ensures (rely : σ → σ → Prop) (P : σ → Prop) (p : ExceptT ε (Process σ τ) α)
    (Q : α → σ → Prop) (E : ε → σ → Prop) : Prop :=
  ∀ s r s', P s → Runs rely p.run s r s' →
    match r with
    | .ok a => Q a s'
    | .error e => E e s'

section
variable {P P' : σ → Prop} {Q Q' : α → σ → Prop} {E E' : ε → σ → Prop}

theorem ensures_pure {a : α} (hstable : Stable rely P) (h : ∀ s, P s → Q a s) :
    Ensures rely P (pure a : ExceptT ε (Process σ τ) α) Q E := by
  intro s r s' hs hrun
  obtain ⟨rfl, hs'⟩ := runs_done hrun hstable hs
  exact h s' hs'

theorem ensures_throw {e : ε} (hstable : Stable rely P) (h : ∀ s, P s → E e s) :
    Ensures rely P (throw e : ExceptT ε (Process σ τ) α) Q E := by
  intro s r s' hs hrun
  obtain ⟨rfl, hs'⟩ := runs_done hrun hstable hs
  exact h s' hs'

theorem lift_ok_bind {a : β} {f : β → ExceptT ε (Process σ τ) α} :
    (liftExcept (Except.ok a : Except ε β) >>= f) = f a := rfl

/-- A transaction is judged where it happens, after whatever the others did. -/
theorem ensures_transact {op : τ → σ → Except ε (σ × α)} (hstable : Stable rely P)
    (hok : ∀ t s s' a, P s → op t s = .ok (s', a) → Q a s')
    (herr : ∀ t s e, P s → op t s = .error e → E e s)
    (hQ : ∀ a, Stable rely (Q a)) (hE : ∀ e, Stable rely (E e)) :
    Ensures rely P (transact op) Q E := by
  intro s r s' hs hrun
  simp only [transact, ExceptT.run_mk] at hrun
  generalize hp : Process.act _ _ = p at hrun
  induction hrun with
  | done => cases hp
  | @act commit next u s' b t h ih =>
    obtain ⟨rfl, rfl⟩ := Process.act.inj hp
    cases hop : op t u with
    | ok x =>
      obtain ⟨v, a⟩ := x
      simp only [hop, Except.map] at h
      obtain ⟨rfl, hv⟩ := runs_done h (hQ a) (hok t u v a hs hop)
      exact hv
    | error e =>
      simp only [hop, Except.map] at h
      obtain ⟨rfl, hv⟩ := runs_done h (hE e) (herr t u e hs hop)
      exact hv
  | other hr h ih => exact ih (hstable _ _ hs hr) hp

theorem ensures_bind {R : β → σ → Prop} {p : ExceptT ε (Process σ τ) β}
    {f : β → ExceptT ε (Process σ τ) α} (hp : Ensures rely P p R E)
    (hf : ∀ b, Ensures rely (R b) (f b) Q E) (hE : ∀ e, Stable rely (E e)) :
    Ensures rely P (p >>= f) Q E := by
  intro s r s' hs hrun
  obtain ⟨b, u, hp', hf'⟩ := runs_bind (p := p.run)
    (f := fun x => (ExceptT.bindCont f x : Process σ τ (Except ε α))) hrun
  have hmid := hp s b u hs hp'
  cases b with
  | ok b => exact hf b u r s' hmid hf'
  | error e =>
    obtain ⟨rfl, hs'⟩ := runs_done hf' (hE e) hmid
    exact hs'

theorem ensures_tryCatch {p : ExceptT ε (Process σ τ) α} {handler : ε → ExceptT ε (Process σ τ) α}
    {F : ε → σ → Prop} (hp : Ensures rely P p Q F)
    (hh : ∀ e, Ensures rely (F e) (handler e) Q E) (hQ : ∀ a, Stable rely (Q a)) :
    Ensures rely P (tryCatch p handler) Q E := by
  intro s r s' hs hrun
  obtain ⟨b, u, hp', hf'⟩ := runs_bind (p := p.run)
    (f := fun x => (match x with
      | .ok a => .done (.ok a)
      | .error e => handler e : Process σ τ (Except ε α))) hrun
  have hmid := hp s b u hs hp'
  cases b with
  | error e => exact hh e u r s' hmid hf'
  | ok a =>
    obtain ⟨rfl, hs'⟩ := runs_done hf' (hQ a) hmid
    exact hs'

theorem ensures_mono {p : ExceptT ε (Process σ τ) α} (h : Ensures rely P p Q E)
    (hP : ∀ s, P' s → P s) (hQ : ∀ a s, Q a s → Q' a s) (hE : ∀ e s, E e s → E' e s) :
    Ensures rely P' p Q' E' := by
  intro s r s' hs hrun
  have hend := h s r s' (hP s hs) hrun
  cases r with
  | ok a => exact hQ a s' hend
  | error e => exact hE e s' hend

theorem ensures_assume {φ : Prop} {p : ExceptT ε (Process σ τ) α}
    (h : φ → Ensures rely P p Q E) : Ensures rely (fun s => φ ∧ P s) p Q E :=
  fun s r s' hs hrun => h hs.1 s r s' hs.2 hrun

end

/-! What every transaction of a process leaves true, whatever came before it. -/

def Process.Keeps (I : σ → Prop) : Process σ τ α → Prop
  | .done _ => True
  | .act commit next => ∀ t s, I s → I (commit t s) ∧ (next t s).Keeps I

section
variable {I : σ → Prop}

theorem keeps_bind {p : Process σ τ α} {f : α → Process σ τ β} (hp : p.Keeps I)
    (hf : ∀ a, (f a).Keeps I) : (p.bind f).Keeps I := by
  induction p with
  | done a => exact hf a
  | act commit next ih =>
    intro t s hs
    exact ⟨(hp t s hs).1, ih t s (hp t s hs).2⟩

theorem runs_keeps {p : Process σ τ α} {s s' : σ} {a : α} (h : Runs rely p s a s')
    (hp : p.Keeps I) (hstable : Stable rely I) (hs : I s) : I s' := by
  induction h with
  | done => exact hs
  | act t _ ih => exact ih (hp t _ hs).2 (hp t _ hs).1
  | other hr _ ih => exact ih hp (hstable _ _ hs hr)

def Keeps (I : σ → Prop) (p : ExceptT ε (Process σ τ) α) : Prop := Process.Keeps I p.run

theorem keeps_ensures {p : ExceptT ε (Process σ τ) α} (hp : Keeps I p)
    (hstable : Stable rely I) : Ensures rely I p (fun _ => I) fun _ => I := by
  intro s r s' hs hrun
  have hend := runs_keeps hrun hp hstable hs
  cases r with
  | ok a => exact hend
  | error e => exact hend

theorem keeps_pure {a : α} : Keeps I (pure a : ExceptT ε (Process σ τ) α) := trivial

theorem keeps_throw {e : ε} : Keeps I (throw e : ExceptT ε (Process σ τ) α) := trivial

theorem keeps_transact {op : τ → σ → Except ε (σ × α)}
    (h : ∀ t s s' a, I s → op t s = .ok (s', a) → I s') : Keeps I (transact op) := by
  intro t s hs
  refine ⟨?_, trivial⟩
  cases hop : op t s with
  | ok x =>
    simp only [hop]
    exact h t s x.1 x.2 hs hop
  | error e =>
    simp only [hop]
    exact hs

theorem Keeps.bind {p : ExceptT ε (Process σ τ) β} {f : β → ExceptT ε (Process σ τ) α}
    (hp : Keeps I p) (hf : ∀ b, Keeps I (f b)) : Keeps I (p >>= f) := by
  refine keeps_bind hp fun b => ?_
  cases b with
  | ok b => exact hf b
  | error e => trivial

theorem Keeps.tryCatch {p : ExceptT ε (Process σ τ) α} {handler : ε → ExceptT ε (Process σ τ) α}
    (hp : Keeps I p) (hh : ∀ e, Keeps I (handler e)) : Keeps I (tryCatch p handler) := by
  refine keeps_bind hp fun b => ?_
  cases b with
  | ok b => trivial
  | error e => exact hh e

end

/-! The states a run passes through: a death of the process leaves one of them. -/

inductive Reaches (rely : σ → σ → Prop) : Process σ τ α → σ → σ → Prop where
  | here {p : Process σ τ α} {s : σ} : Reaches rely p s s
  | act {commit : τ → σ → σ} {next : τ → σ → Process σ τ α} {s u : σ} (t : τ) :
      Reaches rely (next t s) (commit t s) u → Reaches rely (.act commit next) s u
  | other {p : Process σ τ α} {s v u : σ} :
      rely s v → Reaches rely p v u → Reaches rely p s u

theorem reaches_bind {p : Process σ τ α} {f : α → Process σ τ β} {s u : σ}
    (h : Reaches rely (p.bind f) s u) :
    Reaches rely p s u ∨ ∃ a v, Runs rely p s a v ∧ Reaches rely (f a) v u := by
  generalize hq : p.bind f = q at h
  induction h generalizing p with
  | here => exact .inl .here
  | act t h ih =>
    cases p with
    | done a =>
      have hf : f a = _ := hq
      exact .inr ⟨a, _, .done, by rw [hf]; exact .act t h⟩
    | act commit next =>
      cases hq
      obtain hp | ⟨a, v, hp, hf⟩ := ih rfl
      · exact .inl (.act t hp)
      · exact .inr ⟨a, v, .act t hp, hf⟩
  | other hr h ih =>
    obtain hp | ⟨a, v, hp, hf⟩ := ih hq
    · exact .inl (.other hr hp)
    · exact .inr ⟨a, v, .other hr hp, hf⟩

theorem reaches_done {a : α} {s u : σ} {I : σ → Prop}
    (h : Reaches rely (.done a : Process σ τ α) s u) (hstable : Stable rely I) (hs : I s) : I u := by
  generalize hp : (.done a : Process σ τ α) = p at h
  induction h with
  | here => exact hs
  | act t h ih => cases hp
  | other hr h ih => exact ih (hstable _ _ hs hr) hp

/-! One schedule of the others, before each transaction, and of the clock. -/

def among (clock : Nat → τ) (others : Nat → σ → σ) : Nat → Process σ τ α → σ → α × σ
  | _, .done a, s => (a, s)
  | n, .act commit next, s =>
    among clock others (n + 1) (next (clock n) (others n s)) (commit (clock n) (others n s))

theorem runs_among {clock : Nat → τ} {others : Nat → σ → σ}
    (h : ∀ n s, others n s = s ∨ rely s (others n s)) (n : Nat) (p : Process σ τ α) (s : σ) :
    Runs rely p s (among clock others n p s).1 (among clock others n p s).2 := by
  induction p generalizing n s with
  | done a => exact .done
  | act commit next ih =>
    have hnext := ih (clock n) (others n s) (n + 1) (commit (clock n) (others n s))
    obtain hsame | hmoved := h n s
    · rw [hsame] at hnext
      rw [among, hsame]
      exact .act (clock n) hnext
    · exact .other hmoved (.act (clock n) hnext)

theorem Runs.reaches {p : Process σ τ α} {s s' : σ} {a : α} (h : Runs rely p s a s') :
    Reaches rely p s s' := by
  induction h with
  | done => exact .here
  | act t _ ih => exact .act t ih
  | other hr _ ih => exact .other hr ih

/-- Every state of a run from `P` meets `I`. -/
def Always (rely : σ → σ → Prop) (P : σ → Prop) (p : ExceptT ε (Process σ τ) α)
    (I : σ → Prop) : Prop :=
  ∀ s u, P s → Reaches rely p.run s u → I u

section
variable {P I : σ → Prop} {E F : ε → σ → Prop} {Q : α → σ → Prop}

theorem always_bind {R : β → σ → Prop} {p : ExceptT ε (Process σ τ) β}
    {f : β → ExceptT ε (Process σ τ) α} (hp : Always rely P p I) (hends : Ensures rely P p R E)
    (hf : ∀ b, Always rely (R b) (f b) I) (hI : Stable rely I) (hE : ∀ e s, E e s → I s) :
    Always rely P (p >>= f) I := by
  intro s u hs hreach
  obtain hfirst | ⟨b, v, hrun, hrest⟩ := reaches_bind (p := p.run)
    (f := fun x => (ExceptT.bindCont f x : Process σ τ (Except ε α))) hreach
  · exact hp s u hs hfirst
  · have hmid := hends s b v hs hrun
    cases b with
    | ok b => exact hf b v u hmid hrest
    | error e => exact reaches_done hrest hI (hE e v hmid)

theorem always_tryCatch {p : ExceptT ε (Process σ τ) α} {handler : ε → ExceptT ε (Process σ τ) α}
    (hp : Always rely P p I) (hends : Ensures rely P p Q F)
    (hh : ∀ e, Always rely (F e) (handler e) I) (hI : Stable rely I) (hQ : ∀ a s, Q a s → I s) :
    Always rely P (tryCatch p handler) I := by
  intro s u hs hreach
  obtain hfirst | ⟨b, v, hrun, hrest⟩ := reaches_bind (p := p.run)
    (f := fun x => (match x with
      | .ok a => .done (.ok a)
      | .error e => handler e : Process σ τ (Except ε α))) hreach
  · exact hp s u hs hfirst
  · have hmid := hends s b v hs hrun
    cases b with
    | error e => exact hh e v u hmid hrest
    | ok a => exact reaches_done hrest hI (hQ a v hmid)

end

/-! What every transaction leaves true, together with what the process answers. -/

def Process.Yields (I : σ → Prop) (V : α → Prop) : Process σ τ α → Prop
  | .done a => V a
  | .act commit next => ∀ t s, I s → I (commit t s) ∧ (next t s).Yields I V

def Yields (I : σ → Prop) (V : α → Prop) (p : ExceptT ε (Process σ τ) α) : Prop :=
  p.run.Yields I fun r => ∀ a, r = .ok a → V a

section
variable {I : σ → Prop} {V : α → Prop} {U : β → Prop}

theorem yields_process_bind {W : β → Prop} {p : Process σ τ β} {f : β → Process σ τ α}
    (hp : p.Yields I W) (hf : ∀ b, W b → (f b).Yields I V) : (p.bind f).Yields I V := by
  induction p with
  | done b => exact hf b hp
  | act commit next ih =>
    intro t s hs
    exact ⟨(hp t s hs).1, ih t s (hp t s hs).2⟩

theorem yields_runs {p : Process σ τ α} {s s' : σ} {a : α} (h : Runs rely p s a s')
    (hp : p.Yields I V) (hstable : Stable rely I) (hs : I s) : V a ∧ I s' := by
  induction h with
  | done => exact ⟨hp, hs⟩
  | act t _ ih => exact ih (hp t _ hs).2 (hp t _ hs).1
  | other hr _ ih => exact ih hp (hstable _ _ hs hr)

theorem yields_reaches {p : Process σ τ α} {s u : σ} (h : Reaches rely p s u)
    (hp : p.Yields I V) (hstable : Stable rely I) (hs : I s) : I u := by
  induction h with
  | here => exact hs
  | act t _ ih => exact ih (hp t _ hs).2 (hp t _ hs).1
  | other hr _ ih => exact ih hp (hstable _ _ hs hr)

theorem yields_ensures {p : ExceptT ε (Process σ τ) α} (hp : Yields I V p)
    (hstable : Stable rely I) : Ensures rely I p (fun a s => V a ∧ I s) fun _ => I := by
  intro s r s' hs hrun
  obtain ⟨hv, hI⟩ := yields_runs hrun hp hstable hs
  cases r with
  | ok a => exact ⟨hv a rfl, hI⟩
  | error e => exact hI

theorem yields_always {p : ExceptT ε (Process σ τ) α} (hp : Yields I V p)
    (hstable : Stable rely I) : Always rely I p I :=
  fun _ _ hs hreach => yields_reaches hreach hp hstable hs

theorem yields_pure {a : α} (h : V a) : Yields I V (pure a : ExceptT ε (Process σ τ) α) := by
  rintro _ ⟨⟩
  exact h

theorem yields_throw {e : ε} : Yields I V (throw e : ExceptT ε (Process σ τ) α) :=
  fun _ h => nomatch h

theorem yields_transact {op : τ → σ → Except ε (σ × α)}
    (h : ∀ t s s' a, I s → op t s = .ok (s', a) → I s' ∧ V a) : Yields I V (transact op) := by
  intro t s hs
  cases hop : op t s with
  | ok x =>
    obtain ⟨hI, hv⟩ := h t s x.1 x.2 hs hop
    simp only [hop]
    refine ⟨hI, ?_⟩
    rintro _ ⟨⟩
    exact hv
  | error e =>
    simp only [hop]
    exact ⟨hs, fun _ h => nomatch h⟩

theorem Yields.bind {p : ExceptT ε (Process σ τ) β} {f : β → ExceptT ε (Process σ τ) α}
    (hp : Yields I U p) (hf : ∀ b, U b → Yields I V (f b)) : Yields I V (p >>= f) := by
  refine yields_process_bind hp fun b hb => ?_
  cases b with
  | ok b => exact hf b (hb b rfl)
  | error e => exact fun _ h => nomatch h

theorem Yields.tryCatch {p : ExceptT ε (Process σ τ) α} {handler : ε → ExceptT ε (Process σ τ) α}
    (hp : Yields I V p) (hh : ∀ e, Yields I V (handler e)) : Yields I V (tryCatch p handler) := by
  refine yields_process_bind hp fun b hb => ?_
  cases b with
  | ok b => exact hb
  | error e => exact hh e

end

end RagPipeline.Processes
