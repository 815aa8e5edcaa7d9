import Mathlib.Control.Basic
import Mathlib.Data.List.Basic
import Mathlib.Data.List.Induction
import Mathlib.Data.List.Infix

/-! # Programs whose process may die

A program reads and writes a state, may raise, and leaves a trace: every state
in which it has just made something durable, so every state in which a death
of its process is worth asking about. `Ensures` is the judgement used on such
programs. It speaks of the crash states, of the normal end and of the raised
end at once, and its rules follow the constructors of a program. -/

set_option autoImplicit false

namespace RagPipeline.Effects

variable {σ ε α β : Type}

structure Outcome (σ ε α : Type) where
  trace : List σ
  state : σ
  result : Except ε α

def Program (σ ε α : Type) : Type := σ → Outcome σ ε α

namespace Program

protected def pure (a : α) : Program σ ε α := fun s => ⟨[], s, .ok a⟩

protected def bind (p : Program σ ε α) (f : α → Program σ ε β) : Program σ ε β := fun s =>
  match p s with
  | ⟨trace, s', .ok a⟩ =>
    ⟨trace ++ (f a s').trace, (f a s').state, (f a s').result⟩
  | ⟨trace, s', .error e⟩ => ⟨trace, s', .error e⟩

instance : Monad (Program σ ε) where
  pure := Program.pure
  bind := Program.bind

def raise (e : ε) : Program σ ε α := fun s => ⟨[], s, .error e⟩

protected def read : Program σ ε σ := fun s => ⟨[], s, .ok s⟩

def ask (f : σ → Except ε α) : Program σ ε α := fun s => ⟨[], s, f s⟩

/-- A change of the state that a death of the process does not see: a local
variable, or anything else that is not on the disk. -/
def assign (f : σ → σ) : Program σ ε Unit := fun s => ⟨[], f s, .ok ()⟩

/-- One durable effect. It either happens, and the state after it is a state
the process may die in, or it is refused and nothing happened. -/
def commit (f : σ → Except ε σ) : Program σ ε Unit := fun s =>
  match f s with
  | .ok s' => ⟨[s'], s', .ok ()⟩
  | .error e => ⟨[], s, .error e⟩

def rescue (p : Program σ ε α) (handler : ε → Program σ ε α) : Program σ ε α := fun s =>
  match p s with
  | ⟨trace, s', .ok a⟩ => ⟨trace, s', .ok a⟩
  | ⟨trace, s', .error e⟩ =>
    ⟨trace ++ (handler e s').trace, (handler e s').state, (handler e s').result⟩

/-- A program on a part of a larger state. -/
def within {τ : Type} (get : σ → τ) (set : τ → σ → σ) (p : Program τ ε α) : Program σ ε α :=
  fun s => ⟨(p (get s)).trace.map fun t => set t s, set (p (get s)).state s, (p (get s)).result⟩

/-- The same program, its errors renamed. -/
def rename {ε' : Type} (f : ε → ε') (p : Program σ ε α) : Program σ ε' α := fun s =>
  ⟨(p s).trace, (p s).state, (p s).result.mapError f⟩

/-- The host refuses the effect after the first `n`. These stand, and the run
raises `e`. -/
def cut (n : ℕ) (e : ε) (p : Program σ ε α) : Program σ ε α := fun s =>
  if n < (p s).trace.length then ⟨(p s).trace.take n, (s :: (p s).trace)[n]?.getD s, .error e⟩
  else p s

def forEach : List β → (β → Program σ ε Unit) → Program σ ε Unit
  | [], _ => Program.pure ()
  | b :: rest, body => do
    body b
    forEach rest body

/-- Every state the run can be cut at: where it starts, after each durable
effect, and where it ends. -/
def crashes (p : Program σ ε α) (s : σ) : List σ := s :: (p s).trace

/-- From `s`, every crash state meets `C`, a normal end meets `Q` and a raised
end meets `E`. -/
def Ensures (p : Program σ ε α) (s : σ) (C : σ → Prop) (Q : α → σ → Prop)
    (E : ε → σ → Prop) : Prop :=
  (∀ t ∈ (p s).trace, C t) ∧
    match (p s).result with
    | .ok a => Q a (p s).state
    | .error e => E e (p s).state

variable {s : σ} {C C' : σ → Prop} {Q Q' : α → σ → Prop} {E E' : ε → σ → Prop}

theorem ensures_pure (a : α) (h : Q a s) : (Program.pure a : Program σ ε α).Ensures s C Q E :=
  ⟨by simp [Program.pure], h⟩

theorem ensures_return (a : α) (h : Q a s) :
    (Pure.pure a : Program σ ε α).Ensures s C Q E :=
  ensures_pure a h

theorem ensures_raise (e : ε) (h : E e s) : (raise e : Program σ ε α).Ensures s C Q E :=
  ⟨by simp [raise], h⟩

theorem ensures_read {Q : σ → σ → Prop} (h : Q s s) :
    (Program.read : Program σ ε σ).Ensures s C Q E :=
  ⟨by simp [Program.read], h⟩

theorem ensures_ask (f : σ → Except ε α) (hok : ∀ a, f s = .ok a → Q a s)
    (herr : ∀ e, f s = .error e → E e s) : (ask f).Ensures s C Q E := by
  refine ⟨by simp [ask], ?_⟩
  cases h : f s with
  | ok a => simpa [ask, h] using hok a h
  | error e => simpa [ask, h] using herr e h

theorem ensures_assign {Q : Unit → σ → Prop} (f : σ → σ) (h : Q () (f s)) :
    (assign f : Program σ ε Unit).Ensures s C Q E :=
  ⟨by simp [assign], h⟩

theorem ensures_commit {Q : Unit → σ → Prop} (f : σ → Except ε σ)
    (hok : ∀ s', f s = .ok s' → C s' ∧ Q () s')
    (herr : ∀ e, f s = .error e → E e s) : (commit f).Ensures s C Q E := by
  cases h : f s with
  | ok s' => simpa [Ensures, commit, h] using hok s' h
  | error e => simpa [Ensures, commit, h] using herr e h

theorem ensures_mono {R : α → σ → Prop} {p : Program σ ε α} (h : p.Ensures s C Q E)
    (hC : ∀ t, C t → C' t) (hQ : ∀ a t, Q a t → R a t) (hE : ∀ e t, E e t → E' e t) :
    p.Ensures s C' R E' := by
  obtain ⟨htrace, hend⟩ := h
  refine ⟨fun t ht => hC t (htrace t ht), ?_⟩
  cases hr : (p s).result with
  | ok a => exact hQ a _ (by simpa [hr] using hend)
  | error e => exact hE e _ (by simpa [hr] using hend)

theorem ensures_bind {p : Program σ ε α} {f : α → Program σ ε β} {R : α → σ → Prop}
    {Q : β → σ → Prop} (hp : p.Ensures s C R E)
    (hf : ∀ a t, R a t → (f a).Ensures t C Q E) :
    (p >>= f).Ensures s C Q E := by
  obtain ⟨htrace, hend⟩ := hp
  change (Program.bind p f).Ensures s C Q E
  rcases hps : p s with ⟨trace, s', a | a⟩
  · rw [hps] at htrace hend
    exact ⟨by simpa [Program.bind, hps] using htrace, by simpa [Program.bind, hps] using hend⟩
  · rw [hps] at htrace hend
    obtain ⟨htrace', hend'⟩ := hf a s' hend
    refine ⟨?_, by simpa [Program.bind, hps] using hend'⟩
    intro t ht
    simp only [Program.bind, hps, List.mem_append] at ht
    exact ht.elim (htrace t) (htrace' t)

/-- Reading the state and going on with it. -/
theorem ensures_read_bind {f : σ → Program σ ε β} {Q : β → σ → Prop}
    (h : (f s).Ensures s C Q E) : (Program.read >>= f).Ensures s C Q E :=
  ensures_bind (R := fun a t => s = a ∧ s = t) (ensures_read ⟨rfl, rfl⟩)
    (by rintro _ _ ⟨rfl, rfl⟩; exact h)

theorem ensures_rescue {p : Program σ ε α} {handler : ε → Program σ ε α}
    {F : ε → σ → Prop} (hp : p.Ensures s C Q F)
    (hh : ∀ e t, F e t → (handler e).Ensures t C Q E) :
    (rescue p handler).Ensures s C Q E := by
  obtain ⟨htrace, hend⟩ := hp
  rcases hps : p s with ⟨trace, s', e | a⟩
  · rw [hps] at htrace hend
    obtain ⟨htrace', hend'⟩ := hh e s' hend
    refine ⟨?_, by simpa [rescue, hps] using hend'⟩
    intro t ht
    simp only [rescue, hps, List.mem_append] at ht
    exact ht.elim (htrace t) (htrace' t)
  · rw [hps] at htrace hend
    exact ⟨by simpa [rescue, hps] using htrace, by simpa [rescue, hps] using hend⟩

theorem ensures_within {τ : Type} {get : σ → τ} {set : τ → σ → σ} {p : Program τ ε α}
    (h : p.Ensures (get s) (fun t => C (set t s)) (fun a t => Q a (set t s))
      (fun e t => E e (set t s))) : (within get set p).Ensures s C Q E := by
  refine ⟨fun t ht => ?_, h.2⟩
  obtain ⟨u, hu, rfl⟩ := List.mem_map.1 ht
  exact h.1 u hu

theorem ensures_rename {ε' : Type} {f : ε → ε'} {p : Program σ ε α} {E : ε' → σ → Prop}
    (h : p.Ensures s C Q fun e => E (f e)) : (rename f p).Ensures s C Q E := by
  refine ⟨h.1, ?_⟩
  have hend := h.2
  simp only [rename]
  cases hr : (p s).result with
  | ok a => simpa [Except.mapError, hr] using hend
  | error e => simpa [Except.mapError, hr] using hend

/-- What is asked of a program when only the value it ends with matters. -/
theorem ensures_of_result {p : Program σ ε α} (hC : ∀ t, C t)
    (hok : ∀ a, (p s).result = .ok a → Q a (p s).state)
    (herr : ∀ e t, E e t) : p.Ensures s C Q E := by
  refine ⟨fun t _ => hC t, ?_⟩
  cases hr : (p s).result with
  | ok a => exact hok a hr
  | error e => exact herr e _

/-- The loop rule: an invariant indexed by how many elements are done. -/
theorem ensures_forEach {l : List β} {body : β → Program σ ε Unit} {I : ℕ → σ → Prop}
    {E : ε → σ → Prop} (hstart : I 0 s)
    (hbody : ∀ k b, l[k]? = some b → ∀ t, I k t →
      (body b).Ensures t C (fun _ => I (k + 1)) E) :
    (forEach l body).Ensures s C (fun _ => I l.length) E := by
  induction l generalizing s I with
  | nil => exact ensures_pure () hstart
  | cons b rest ih =>
    refine ensures_bind (hbody 0 b rfl s hstart) ?_
    intro _ t ht
    simpa [Nat.add_comm] using
      ih (I := fun k => I (k + 1)) ht (fun k b' hk => hbody (k + 1) b' (by simpa using hk))

/-- The loop rule for a list walked from its end: the invariant is indexed by
what is still to do. -/
theorem ensures_forEach_reverse {l : List β} {body : β → Program σ ε Unit}
    {I : List β → σ → Prop} {E : ε → σ → Prop} (hstart : I l s)
    (hbody : ∀ rest b, rest ++ [b] <+: l → ∀ t, I (rest ++ [b]) t →
      (body b).Ensures t C (fun _ => I rest) E) :
    (forEach l.reverse body).Ensures s C (fun _ => I []) E := by
  induction l using List.reverseRecOn generalizing s with
  | nil => exact ensures_pure () hstart
  | append_singleton rest b ih =>
    rw [List.reverse_append]
    refine ensures_bind (hbody rest b List.prefix_rfl s hstart) ?_
    intro _ t ht
    exact ih ht fun rest' b' hp => hbody rest' b' (hp.trans (List.prefix_append rest [b]))

theorem ensures_both {p : Program σ ε α} (h : p.Ensures s C Q E) (h' : p.Ensures s C' Q' E') :
    p.Ensures s (fun t => C t ∧ C' t) (fun a t => Q a t ∧ Q' a t)
      (fun e t => E e t ∧ E' e t) := by
  refine ⟨fun t ht => ⟨h.1 t ht, h'.1 t ht⟩, ?_⟩
  have h2 := h.2
  have h3 := h'.2
  cases hr : (p s).result with
  | ok a => exact ⟨by simpa [hr] using h2, by simpa [hr] using h3⟩
  | error e => exact ⟨by simpa [hr] using h2, by simpa [hr] using h3⟩

theorem ensures_crashes {p : Program σ ε α} (h : p.Ensures s C Q E) (hs : C s) :
    ∀ t ∈ p.crashes s, C t := by
  intro t ht
  rcases List.mem_cons.1 ht with rfl | ht
  · exact hs
  · exact h.1 t ht

/-- The invariant survives every crash state and either end, from wherever it holds. -/
def Preserves (I : σ → Prop) (p : Program σ ε α) : Prop :=
  ∀ s, I s → p.Ensures s I (fun _ => I) fun _ => I

namespace Preserves

variable {I : σ → Prop}

theorem pure (a : α) : Preserves I (Pure.pure a : Program σ ε α) :=
  fun _ hs => ensures_return a hs

theorem read : Preserves I (Program.read : Program σ ε σ) := fun _ hs => ensures_read hs

theorem ask (f : σ → Except ε α) : Preserves I (Program.ask f) :=
  fun _ hs => ensures_ask f (fun _ _ => hs) fun _ _ => hs

theorem commit (f : σ → Except ε σ) (hf : ∀ s s', I s → f s = .ok s' → I s') :
    Preserves I (Program.commit f) :=
  fun s hs => ensures_commit f (fun s' hok => ⟨hf s s' hs hok, hf s s' hs hok⟩) fun _ _ => hs

theorem bind {p : Program σ ε α} {f : α → Program σ ε β} (hp : Preserves I p)
    (hf : ∀ a, Preserves I (f a)) : Preserves I (p >>= f) :=
  fun s hs => ensures_bind (hp s hs) fun a => hf a

theorem cut {p : Program σ ε α} (n : ℕ) (e : ε) (hp : Preserves I p) :
    Preserves I (Program.cut n e p) := by
  intro s hs
  unfold Program.cut
  by_cases hn : n < (p s).trace.length
  · simp only [Ensures, if_pos hn]
    refine ⟨fun t ht => (hp s hs).1 t (List.mem_of_mem_take ht), ?_⟩
    rw [List.getElem?_eq_getElem (Nat.lt_succ_of_lt hn), Option.getD_some]
    exact ensures_crashes (hp s hs) hs _ (List.getElem_mem _)
  · simp only [Ensures, if_neg hn]
    exact hp s hs

end Preserves

/-- From `s` the run ends normally with `a`, in the state `t`. -/
def Lands (p : Program σ ε α) (s : σ) (a : α) (t : σ) : Prop :=
  (p s).result = .ok a ∧ (p s).state = t

theorem lands_of_result {p : Program σ ε α} {a : α} (h : (p s).result = .ok a) :
    p.Lands s a (p s).state := ⟨h, rfl⟩

/-- What is known of a landing run may be added to its normal end. -/
theorem ensures_landing {p : Program σ ε α} {R : α → σ → Prop} (h : p.Ensures s C Q E)
    (hR : ∀ a t, p.Lands s a t → R a t) : p.Ensures s C R E := by
  refine ⟨h.1, ?_⟩
  have hend := h.2
  cases hr : (p s).result with
  | ok a => exact hR a _ (lands_of_result hr)
  | error e => simpa [hr] using hend

/-- And what is known of a raising run to its raised end. -/
theorem ensures_raising {p : Program σ ε α} {F : ε → σ → Prop} (h : p.Ensures s C Q E)
    (hF : ∀ e, (p s).result = .error e → E e (p s).state → F e (p s).state) :
    p.Ensures s C Q F := by
  refine ⟨h.1, ?_⟩
  have hend := h.2
  cases hr : (p s).result with
  | ok a => simpa [hr] using hend
  | error e => exact hF e hr (by simpa [hr] using hend)

theorem lands_pure {a b : α} {t : σ} :
    (Pure.pure a : Program σ ε α).Lands s b t ↔ a = b ∧ s = t :=
  ⟨fun h => ⟨Except.ok.inj h.1, h.2⟩, fun h => ⟨congrArg Except.ok h.1, h.2⟩⟩

theorem lands_read {a t : σ} : (Program.read : Program σ ε σ).Lands s a t ↔ s = a ∧ s = t :=
  ⟨fun h => ⟨Except.ok.inj h.1, h.2⟩, fun h => ⟨congrArg Except.ok h.1, h.2⟩⟩

theorem lands_ask {f : σ → Except ε α} {a : α} {t : σ} :
    (ask f).Lands s a t ↔ f s = .ok a ∧ s = t := Iff.rfl

theorem lands_commit {f : σ → Except ε σ} {t : σ} :
    (commit f).Lands s () t ↔ f s = .ok t := by
  cases h : f s with
  | ok s' => simp [Lands, commit, h]
  | error e => simp [Lands, commit, h]

/-- A run lands under a refusing host when it has no effect left to refuse. -/
theorem lands_cut {p : Program σ ε α} {n : ℕ} {e : ε} {a : α} {t : σ} :
    (cut n e p).Lands s a t ↔ (p s).trace.length ≤ n ∧ p.Lands s a t := by
  unfold Lands cut
  by_cases hn : n < (p s).trace.length
  · simp [if_pos hn, Nat.not_le.2 hn]
  · simp [if_neg hn, Nat.not_lt.1 hn]

theorem lands_bind {p : Program σ ε α} {f : α → Program σ ε β} {b : β} {u : σ} :
    (p >>= f).Lands s b u ↔ ∃ a t, p.Lands s a t ∧ (f a).Lands t b u := by
  change (Program.bind p f).Lands s b u ↔ _
  rcases hps : p s with ⟨trace, s', e | a⟩
  · simp [Lands, Program.bind, hps]
  · simp [Lands, Program.bind, hps]

theorem trace_bind {p : Program σ ε α} {f : α → Program σ ε β} {a : α} {t : σ}
    (h : p.Lands s a t) : ((p >>= f) s).trace = (p s).trace ++ (f a t).trace := by
  obtain ⟨ha, ht⟩ := h
  change (Program.bind p f s).trace = _
  rcases hps : p s with ⟨trace, s', e | a'⟩
  · rw [hps] at ha
    cases ha
  · rw [hps] at ha ht
    obtain rfl : a' = a := Except.ok.inj ha
    obtain rfl : s' = t := ht
    simp [Program.bind, hps]

theorem mem_trace_left {p : Program σ ε α} {f : α → Program σ ε β} {t : σ}
    (h : t ∈ (p s).trace) : t ∈ ((p >>= f) s).trace := by
  change t ∈ (Program.bind p f s).trace
  rcases hps : p s with ⟨trace, s', e | a⟩
  · rw [hps] at h
    simpa [Program.bind, hps] using h
  · rw [hps] at h
    simp only [Program.bind, hps]
    exact List.mem_append_left _ h

theorem mem_trace_right {p : Program σ ε α} {f : α → Program σ ε β} {a : α} {t u : σ}
    (hp : p.Lands s a t) (h : u ∈ (f a t).trace) : u ∈ ((p >>= f) s).trace := by
  rw [trace_bind hp]
  exact List.mem_append_right _ h

theorem mem_trace_rescue {p : Program σ ε α} {handler : ε → Program σ ε α} {t : σ}
    (h : t ∈ (p s).trace) : t ∈ (rescue p handler s).trace := by
  rcases hps : p s with ⟨trace, s', e | a⟩
  · rw [hps] at h
    simp only [rescue, hps]
    exact List.mem_append_left _ h
  · rw [hps] at h
    simpa [rescue, hps] using h

/-- What is refused before it wrote anything stays where it was. -/
theorem state_bind_of_error {p : Program σ ε α} {f : α → Program σ ε β} {e : ε}
    (h : (p s).result = .error e) :
    ((p >>= f) s).state = (p s).state ∧ ((p >>= f) s).result = .error e := by
  change (Program.bind p f s).state = _ ∧ (Program.bind p f s).result = _
  rcases hps : p s with ⟨trace, s', e' | a'⟩
  · rw [hps] at h
    simpa [Program.bind, hps] using h
  · rw [hps] at h
    cases h

theorem bind_of_lands {p : Program σ ε α} {f : α → Program σ ε β} {a : α} {t : σ}
    (h : p.Lands s a t) :
    ((p >>= f) s).state = (f a t).state ∧ ((p >>= f) s).result = (f a t).result := by
  obtain ⟨ha, ht⟩ := h
  change (Program.bind p f s).state = _ ∧ (Program.bind p f s).result = _
  rcases hps : p s with ⟨trace, s', e | a'⟩
  · rw [hps] at ha
    cases ha
  · rw [hps] at ha ht
    obtain rfl : a' = a := Except.ok.inj ha
    obtain rfl : s' = t := ht
    simp [Program.bind, hps]

end Program

end RagPipeline.Effects
