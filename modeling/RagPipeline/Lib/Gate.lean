import RagPipeline.Lib.Locks

/-! # A row in front of all writes

Where every transaction writes only behind one common row, the gate, and takes
at most one other row before it, two transactions wait for each other only
after one of them was given a row the other had still to lock. -/

set_option autoImplicit false

namespace RagPipeline.Locks
open Transition

variable {τ σ ρ ε : Type}

/-- Up to the gate nothing is written, and a row is locked only by a
transaction that has none yet. Behind the gate everything is allowed. -/
def Script.Gated (gate : ρ) : Bool → Script σ ρ ε → Prop
  | _, .commit => True
  | _, .abort _ => True
  | taken, .statement targets run next => ∀ s,
      targets s = [gate] ∨
      (targets s = [] ∧ ∀ f, run s = .ok f → f = id ∧ (next s).Gated gate taken) ∨
      (taken = false ∧ ∃ r, targets s = [r] ∧
        ∀ s' f, run s' = .ok f → f = id ∧ (next s').Gated gate true)

section
variable {gate : ρ} {taken : Bool}

theorem gated_require {p : Prop} [Decidable p] {e : ε} {rest : Script σ ρ ε}
    (h : p → rest.Gated gate taken) : (Script.require p e rest).Gated gate taken := by
  by_cases hp : p
  · simpa [Script.require, hp] using h hp
  · simp [Script.require, hp, Script.Gated]

end

/-- A transaction that has not locked the gate. -/
structure Before (gate : ρ) (w : World τ σ ρ ε) (t : τ) : Prop where
  unwritten : (w.transactions t).pending = id
  position : ∃ taken, (taken = false → ∀ r, ¬ w.holds t r) ∧
    (((w.transactions t).awaiting = [] ∧ (w.transactions t).script.Gated gate taken) ∨
      (w.transactions t).awaiting = [gate] ∨
      taken = false ∧ ∃ r targets run next, (w.transactions t).awaiting = [r] ∧
        (w.transactions t).script = .statement targets run next ∧
        ∀ s f, run s = .ok f → f = id ∧ (next s).Gated gate true)

section
variable {gate : ρ} {w w' : World τ σ ρ ε} {t u : τ}

theorem Before.view_eq (h : Before gate w t) : w.view t = w.committed := by
  rw [World.view, h.unwritten, id]

/-- One that has a row and waits, waits for the gate. -/
theorem Before.awaiting_eq (h : Before gate w t) {r r' : ρ} (hr : w.holds t r)
    (hr' : r' ∈ (w.transactions t).awaiting.head?) : r' = gate := by
  obtain ⟨taken, hnone, hpos⟩ := h.position
  rcases hpos with ⟨hidle, -⟩ | hgate | ⟨htaken, -⟩
  · rw [hidle] at hr'
    cases hr'
  · rw [hgate] at hr'
    exact (Option.some.inj hr').symm
  · exact absurd hr (hnone htaken r)

theorem head_mem_wants {r : ρ} (hr : r ∈ (w.transactions t).awaiting.head?) :
    r ∈ w.wants t := by
  have hmem : r ∈ (w.transactions t).awaiting := List.mem_of_mem_head? hr
  rw [World.wants, Transaction.wants, if_neg (List.ne_nil_of_mem hmem)]
  exact List.mem_append_left _ hmem

variable [DecidableEq τ] [Exclusion ρ]

theorem Before.other (h : Before gate w u) (hm : Moves w t w') (hu : u ≠ t) :
    Before gate w' u := by
  constructor
  · rw [hm.transactions_other hu]
    exact h.unwritten
  · simp only [hm.transactions_other hu, hm.holds_other hu]
    exact h.position

omit [DecidableEq τ] [Exclusion ρ] in
theorem before_new {p : Script σ ρ ε} (h : w.transactions t = .new p)
    (hp : p.Gated gate false) (hnone : ∀ r, ¬ w.holds t r) : Before gate w t where
  unwritten := by rw [h]; rfl
  position := ⟨false, fun _ => hnone, .inl (by rw [h]; exact ⟨rfl, hp⟩)⟩

omit [DecidableEq τ] [Exclusion ρ] in
/-- A statement that writes nothing leaves a transaction that has written nothing. -/
theorem gated_ran {x : Transaction σ ρ ε} {run : σ → Except ε (σ → σ)}
    {next : σ → Script σ ρ ε} {s : σ} {taken : Bool} (hx : x.pending = id)
    (h : ∀ f, run s = .ok f → f = id ∧ (next s).Gated gate taken) :
    (x.ran run next s).pending = id ∧ (x.ran run next s).awaiting = [] ∧
      (x.ran run next s).script.Gated gate taken := by
  unfold Transaction.ran
  cases hrun : run s with
  | error e => exact ⟨hx, rfl, trivial⟩
  | ok f =>
    obtain ⟨rfl, hnext⟩ := h f hrun
    exact ⟨by simp [hx]; rfl, rfl, hnext⟩

omit [Exclusion ρ] in
theorem before_release (h : w' = { w with committed := w'.committed }.release t) :
    Before gate w' t := by
  rw [h]
  exact before_new (p := .commit) (by simp [World.release]) trivial
    fun r hr => (holds_release.1 hr).2 rfl

/-- The gate is kept until the end. -/
theorem Moves.keeps (hm : Moves w t w') {r : ρ} (h : w.holds t r) :
    w'.holds t r ∨ Before gate w' t := by
  cases hm with
  | committed | ended => exact .inr (before_release rfl)
  | issued | passed => exact .inl h
  | took | finished => exact .inl (holds_lock.2 (.inr h))

/-- A transaction before the gate stays there, or passes it. -/
theorem Before.self (h : Before gate w t) (hm : Moves w t w') :
    w'.holds t gate ∨ Before gate w' t := by
  obtain ⟨taken, hnone, hpos⟩ := h.position
  cases hm with
  | committed | ended =>
    exact .inr (before_release rfl)
  | issued hscript hidle hrows =>
    right
    refine ⟨by simpa [World.set] using h.unwritten, taken, hnone, ?_⟩
    simp only [World.set, Function.update_self]
    rcases hpos with ⟨-, hgated⟩ | hgate | ⟨-, r, _, _, _, hr, -⟩
    · rw [hscript] at hgated
      rcases hgated (w.view t) with hgate | ⟨hempty, -⟩ | ⟨htaken, r, hr, hnext⟩
      · exact .inr (.inl hgate)
      · exact absurd hempty hrows
      · exact .inr (.inr ⟨htaken, r, _, _, _, hr, hscript, hnext⟩)
    · simp [hidle] at hgate
    · simp [hidle] at hr
  | @passed targets run next hscript hidle hrows =>
    right
    have hquiet : ∀ f, run (w.view t) = .ok f → f = id ∧ (next (w.view t)).Gated gate taken := by
      rcases hpos with ⟨-, hgated⟩ | hgate | ⟨-, r, _, _, _, hr, -⟩
      · rw [hscript] at hgated
        rcases hgated (w.view t) with hgate | ⟨-, hquiet⟩ | ⟨-, r, hr, -⟩
        · simp [hrows] at hgate
        · exact hquiet
        · simp [hrows] at hr
      · simp [hidle] at hgate
      · simp [hidle] at hr
    obtain ⟨hpending, hawaits, hnext⟩ := gated_ran h.unwritten hquiet
    refine ⟨by simpa [World.set] using hpending, taken, hnone, .inl ?_⟩
    simpa [World.set] using ⟨hawaits, hnext⟩
  | took hscript hawaits hfree =>
    rcases hpos with ⟨hidle, -⟩ | hgate | ⟨-, r, _, _, _, hr, -⟩
    · simp [hawaits] at hidle
    · simp [hawaits] at hgate
    · simp [hawaits] at hr
  | finished hscript hawaits hfree =>
    rcases hpos with ⟨hidle, -⟩ | hgate | ⟨-, r, targets, run, next, hr, hscript', hquiet⟩
    · simp [hawaits] at hidle
    · left
      rw [hawaits] at hgate
      obtain rfl := (List.cons.inj hgate).1
      exact .head _
    · right
      obtain ⟨rfl, rfl, rfl⟩ := Script.statement.inj (hscript.symm.trans hscript')
      obtain ⟨hpending, hawaits', hnext⟩ := gated_ran h.unwritten (hquiet (w.view t))
      refine ⟨by simpa [World.set] using hpending, true, fun h => absurd h Bool.noConfusion, .inl ?_⟩
      simpa [World.set] using ⟨hawaits', hnext⟩

/-- A lock is given out calmly: the gate to nobody who will want a row that
somebody short of the gate has, and such a row to nobody short of the gate whom
the holder of the gate will want it from. -/
def Calm (gate : ρ) (w : World τ σ ρ ε) : Event τ → Prop
  | .step t => ∀ r ∈ (w.transactions t).awaiting.head?, w.free t r → ∀ u, u ≠ t →
      (r = gate → gate ∈ w.wants u → ∀ r', w.holds u r' → r' ∉ w.wants t) ∧
      (w.holds u gate → gate ∈ w.wants t → r ∉ w.wants u)
  | .cut _ => True

omit [DecidableEq τ] in
/-- Nothing is given out, or nobody else has anything. -/
theorem calm_of_alone {e : Event τ}
    (h : (w.transactions e.who).awaiting = [] ∨ ∀ l ∈ w.locks, l.1 = e.who) :
    Calm gate w e := by
  cases e with
  | cut t => trivial
  | step t =>
    intro r hr _ u hu
    rcases h with hidle | halone
    · rw [Event.who] at hidle
      simp [hidle] at hr
    · exact ⟨fun _ _ r' hr' => absurd (halone _ hr') hu, fun hgate => absurd (halone _ hgate) hu⟩

/-- Nobody short of the gate has a row that the holder of the gate wants. -/
def Uncrossed (gate : ρ) (w : World τ σ ρ ε) : Prop :=
  ∀ t u, t ≠ u → w.holds t gate → gate ∈ w.wants u → ∀ r, w.holds u r → r ∉ w.wants t

/-- Only a transaction that holds the gate changes what is committed. -/
theorem Moves.committed_eq (hm : Moves w t w') (h : Before gate w t) :
    w'.committed = w.committed := by
  cases hm with
  | committed => exact h.view_eq
  | ended | issued | passed | took | finished => rfl

theorem Moves.committed_or (hm : Moves w t w') :
    w'.committed = w.committed ∨ ∀ r, ¬ w'.holds t r := by
  cases hm with
  | committed => exact .inr fun r hr => (holds_release.1 hr).2 rfl
  | ended | issued | passed | took | finished => exact .inl rfl

theorem Moves.wants_other (hm : Moves w t w') (hu : u ≠ t) (h : w'.committed = w.committed) :
    w'.wants u = w.wants u := by
  simp only [World.wants, World.view, hm.transactions_other hu, h]

theorem Uncrossed.step {e : Event τ} (h : Uncrossed gate w) (hcalm : Calm gate w e)
    (hwhere : ∀ t, w.holds t gate ∨ Before gate w t) (hexcl : w.Exclusive)
    (hself : Exclusion.excludes gate gate) (hw : w.happen e = some w') : Uncrossed gate w' := by
  have hm := happen_moves hw
  -- a lock that is new was given out by a step, calmly
  have hnew : ∀ {r}, w'.holds e.who r → w.holds e.who r ∨
      ∀ u, u ≠ e.who → (r = gate → gate ∈ w.wants u → ∀ r', w.holds u r' → r' ∉ w.wants e.who) ∧
        (w.holds u gate → gate ∈ w.wants e.who → r ∉ w.wants u) := by
    intro r hr
    cases e with
    | cut t =>
      obtain rfl := Option.some.inj hw
      exact .inl (holds_release.1 hr).1
    | step t => exact (hm.holds_self hr).imp_right fun ⟨hfree, hhead⟩ => hcalm r hhead hfree
  intro a b hab ha hb r hr hra
  by_cases hat : a = e.who
  · subst hat
    rcases hm.committed_or with hsame | hnone
    · rw [hm.wants_other (Ne.symm hab) hsame] at hb
      rw [hm.holds_other (Ne.symm hab)] at hr
      rcases hnew ha with ha | hgiven
      · exact h _ b hab ha hb r hr (hm.wants_self hra)
      · exact (hgiven b (Ne.symm hab)).1 rfl hb r hr (hm.wants_self hra)
    · exact hnone gate ha
  · rw [hm.holds_other hat] at ha
    by_cases hbt : b = e.who
    · subst hbt
      rcases hm.committed_or with hsame | hnone
      · rw [hm.wants_other hat hsame] at hra
        rcases hnew hr with hr | hgiven
        · exact h a _ hab ha (hm.wants_self hb) r hr hra
        · exact (hgiven a hat).2 ha (hm.wants_self hb) hra
      · exact hnone r hr
    · have hbefore : Before gate w e.who := (hwhere e.who).resolve_left fun ht =>
        hat (hexcl a e.who gate gate ha ht hself)
      have hsame := hm.committed_eq hbefore
      rw [hm.wants_other hat hsame] at hra
      rw [hm.wants_other hbt hsame] at hb
      rw [hm.holds_other hbt] at hr
      exact h a b hab ha hb r hr hra

omit [DecidableEq τ] in
/-- Two that wait for each other are on the two sides of the gate, and the one
behind it wants a row of the other. -/
theorem mutual_wait_crosses (hexact : ∀ r r' : ρ, Exclusion.excludes r r' ↔ r = r')
    (hwhere : ∀ t, w.holds t gate ∨ Before gate w t) (hexcl : w.Exclusive)
    (htu : w.waits t u) (hut : w.waits u t) : ¬ Uncrossed gate w := by
  obtain ⟨hne, r, hr, r', hr', hex⟩ := htu
  obtain rfl := (hexact _ _).1 hex
  obtain ⟨-, q, hq, q', hq', hex⟩ := hut
  obtain rfl := (hexact _ _).1 hex
  intro hun
  rcases hwhere t with ht | ht
  · have hu : Before gate w u := (hwhere u).resolve_left fun hu =>
      hne (hexcl t u gate gate ht hu ((hexact _ _).2 rfl))
    have hgate : gate ∈ w.wants u := hu.awaiting_eq hr' hq ▸ head_mem_wants hq
    exact hun t u hne ht hgate _ hr' (head_mem_wants hr)
  · have hgate := ht.awaiting_eq hq' hr
    rw [hgate] at hr hr'
    exact hun u t (Ne.symm hne) hr' (head_mem_wants hr) _ hq' (head_mem_wants hq)

variable {starts : σ → Prop} {kinds : Script σ ρ ε → Prop}

theorem side_of_reachable (hkinds : ∀ p, kinds p → p.Gated gate false)
    (h : (lockSystem τ starts kinds).Reachable w) (t : τ) :
    w.holds t gate ∨ Before gate w t := by
  revert t
  refine System.invariant (I := fun w => ∀ t, w.holds t gate ∨ Before gate w t) ?_ ?_ h
  · rintro w ⟨-, hlocks, hnew⟩ t
    obtain ⟨p, hp, hx⟩ := hnew t
    exact .inr (before_new hx (hkinds p hp) fun r hr => by simp [World.holds, hlocks] at hr)
  · intro w e w' _ hside hs t
    have hm := happen_moves hs
    by_cases ht : t = e.who
    · subst ht
      rcases hside e.who with hgate | hbefore
      · exact hm.keeps hgate
      · exact hbefore.self hm
    · exact (hside t).imp (hm.holds_other ht).2 fun hb => hb.other hm ht

/-- In a run that gives its locks out calmly no two transactions wait for each
other. -/
theorem no_mutual_wait (hexact : ∀ r r' : ρ, Exclusion.excludes r r' ↔ r = r')
    (hkinds : ∀ p, kinds p → p.Gated gate false)
    (h : ((lockSystem τ starts kinds).only (Calm gate)).Reachable w) :
    ¬ (w.waits t u ∧ w.waits u t) := by
  have hreach := System.reachable_of_only h
  have hun : Uncrossed gate w := by
    refine System.invariant ?_ ?_ h
    · rintro w ⟨-, hlocks, -⟩ t u - ht
      simp [World.holds, hlocks] at ht
    · intro w e w' hr hun hs
      have hr' := System.reachable_of_only hr
      exact hun.step hs.1 (side_of_reachable hkinds hr') (exclusive_of_reachable hr')
        ((hexact _ _).2 rfl) hs.2
  rintro ⟨htu, hut⟩
  exact mutual_wait_crosses hexact (side_of_reachable hkinds hreach)
    (exclusive_of_reachable hreach) htu hut hun

end

end RagPipeline.Locks
