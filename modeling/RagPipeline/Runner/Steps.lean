import RagPipeline.Runner.Course

/-! # What each step of the loop keeps

One lemma for each phase: from which point of the road it starts, at which one
it ends, and that wherever it is cut the history is one of the allowed ones. -/

set_option autoImplicit false

namespace RagPipeline.Runner
open Guard Effects Program
open Acceptance (Candidate Verified Report Refusal)

variable {W α β : Type} {e : Env W} {s t : Loop W} {l : Ledger W} {c c' : Course} {S : State}

structure Sound (e : Env W) (l : Ledger W) (c : Course) : Prop where
  follows : Follows e l.history c
  chain : (persistedStates l.history).IsChain fun b a => b ∈ allowedTransitions a
  document : (persistedStates l.history).head? = l.document.map Document.state
  backup : ∀ d ∈ l.backup, d.state ∈ persistedStates l.history
  licence : c.point = .applied ∨ c.point = .approved → ∃ r, l.receipts.receipt = some r ∧
    r.status = .passed ∧ r.candidateFingerprint = c.fingerprint

/-- The history is one of the allowed ones. -/
def Legal (e : Env W) (t : Loop W) : Prop := ∃ c, Sound e t.ledger c

/-- On the road at `c`, with the state `S` stored and known. -/
structure At (e : Env W) (c : Course) (S : State) (l : Ledger W) : Prop where
  sound : Sound e l c
  stored : l.document.map Document.state = some S
  state : l.state = S
  running : S ∉ terminalStates

/-- An error a step may raise on its own account. -/
def Admissible : Halt → Prop
  | .stop _ target _ => target = .blocked ∨ target = .failed
  | .interrupted => False
  | .flies _ => True

/-- Where an end leaves the run. -/
def Ends (e : Env W) : Halt → Loop W → Prop
  | .stop _ target _, t => (target = .blocked ∨ target = .failed) ∧ ∃ c S, At e c S t.ledger
  | .interrupted, t => ∃ c S, At e c S t.ledger ∧ (c.point = .objected → c.repaired = false) ∧
      c.point ≠ .ended
  | .flies _, t => Legal e t

theorem At.legal (h : At e c S s.ledger) : Legal e s := ⟨c, h.sound⟩

theorem ends_of_admissible {x : Halt} (hx : Admissible x) (h : At e c S t.ledger) :
    Ends e x t := by
  cases x with
  | stop reason target event => exact ⟨hx, c, S, h⟩
  | interrupted => exact hx.elim
  | flies r => exact h.legal

theorem admissible_translate (r : Raised) : Admissible (translate r) := by
  have hterminal (reason : StopReason) :
      terminalFor reason = .blocked ∨ terminalFor reason = .failed := by
    unfold terminalFor
    split
    · exact .inr rfl
    · exact .inl rfl
  cases r with
  | changeSet reason => exact hterminal reason
  | typed reason event => exact hterminal reason
  | untyped => trivial

/-- Time has passed, and if nobody else wrote the workspace is what it was. -/
def Drifts (e : Env W) (s t : Loop W) : Prop :=
  s.clock ≤ t.clock ∧ (Calm e s.clock t.clock → t.content = s.content)

theorem Drifts.rfl : Drifts e s s := ⟨le_rfl, fun _ => Eq.refl _⟩

theorem Drifts.trans {u : Loop W} (h : Drifts e s t) (h' : Drifts e t u) : Drifts e s u :=
  ⟨h.1.trans h'.1, fun hcalm =>
    (h'.2 (hcalm.mono h.1 le_rfl)).trans (h.2 (hcalm.mono le_rfl h'.1))⟩

theorem drifts_later : Drifts e s (s.later e) := by
  refine ⟨Nat.le_succ _, fun hcalm => ?_⟩
  have hnone : e.foreign s.clock = none := hcalm _ le_rfl (Nat.lt_succ_self _)
  simp [Loop.later, Loop.written, hnone]

/-- Nothing was entered, and the workspace drifts. -/
def Stays (e : Env W) (s t : Loop W) : Prop := t.ledger = s.ledger ∧ Drifts e s t

def SameLedger (s t : Loop W) : Prop := t.ledger = s.ledger

/-- A step that enters nothing. -/
def Harmless (e : Env W) (R : Loop W → Loop W → Prop) (p : Step W α) : Prop :=
  ∀ s c S, At e c S s.ledger → p.Ensures s (Legal e) (fun _ t => R s t) (Ends e)

structure Framing (R : Loop W → Loop W → Prop) : Prop where
  ledger : ∀ s t, R s t → t.ledger = s.ledger
  refl : ∀ s, R s s
  trans : ∀ s t u, R s t → R t u → R s u

theorem framing_stays : Framing (Stays e) where
  ledger _ _ h := h.1
  refl _ := ⟨rfl, Drifts.rfl⟩
  trans _ _ _ h h' := ⟨h'.1.trans h.1, h.2.trans h'.2⟩

theorem framing_sameLedger : Framing (SameLedger (W := W)) where
  ledger _ _ h := h
  refl _ := rfl
  trans _ _ _ h h' := Eq.trans h' h

section harmless
variable {R : Loop W → Loop W → Prop}

theorem harmless_bind (hR : Framing R) {p : Step W α} {f : α → Step W β}
    (hp : Harmless e R p) (hf : ∀ a, Harmless e R (f a)) : Harmless e R (p >>= f) := by
  intro s c S hs
  refine ensures_bind (hp s c S hs) fun a t ht => ?_
  have ht' : At e c S t.ledger := by
    rw [hR.ledger s t ht]
    exact hs
  exact ensures_mono (hf a t c S ht') (fun _ h => h) (fun _ u hu => hR.trans s t u ht hu)
    fun _ _ h => h

theorem harmless_pure (hR : Framing R) (a : α) : Harmless e R (pure a : Step W α) :=
  fun s _ _ _ => ensures_return a (hR.refl s)

theorem harmless_ask (hR : Framing R) {f : Loop W → Except Halt α}
    (hf : ∀ s x, f s = .error x → Admissible x) : Harmless e R (Program.ask f) :=
  fun s _ _ hs => ensures_ask f (fun _ _ => hR.refl s) fun x hx => ends_of_admissible (hf s x hx) hs

theorem harmless_require (hR : Framing R) {p : Prop} [Decidable p] {x : Halt} (hx : Admissible x) :
    Harmless e R (Program.ask fun _ => require p x : Step W Unit) := by
  refine harmless_ask hR fun s y hy => ?_
  obtain ⟨-, rfl⟩ := require_error.1 hy
  exact hx

theorem harmless_read (hR : Framing R) : Harmless e R (Program.read : Step W (Loop W)) :=
  fun s _ _ _ => ensures_read (hR.refl s)

theorem harmless_raised (hR : Framing R) {f : Loop W → Except Raised α} :
    Harmless e R (Program.ask fun s => (f s).mapError translate : Step W α) := by
  refine harmless_ask hR fun s x hx => ?_
  obtain ⟨r, -, rfl⟩ := mapError_error.1 hx
  exact admissible_translate r

theorem Harmless.weaken {p : Step W α} (h : Harmless e (Stays e) p) : Harmless e SameLedger p :=
  fun s c S hs => ensures_mono (h s c S hs) (fun _ h => h) (fun _ _ h => h.1) fun _ _ h => h

end harmless

theorem ensures_moment {C : Loop W → Prop} {E : Halt → Loop W → Prop} :
    (moment e).Ensures s C (fun n t => n = s.clock ∧ t = s.later e) E := by
  refine ensures_bind (ensures_read (Q := fun a t => a = s ∧ t = s) ⟨rfl, rfl⟩) ?_
  intro a t ht
  rw [ht.1, ht.2]
  refine ensures_bind (R := fun _ t => t = s.later e) (ensures_assign _ rfl) ?_
  exact fun _ t ht => ensures_return _ ⟨rfl, ht⟩

theorem ensures_flying {f : ℕ → Except Raised α} {C : Loop W → Prop} :
    (flying e f).Ensures s C (fun _ t => Stays e s t)
      (fun x t => (∃ r, x = .flies r) ∧ Stays e s t) := by
  refine ensures_bind ensures_moment fun n t ht => ?_
  have hstays : Stays e s t := by
    rw [ht.2]
    exact ⟨rfl, drifts_later⟩
  refine ensures_ask _ (fun _ _ => hstays) fun x hx => ⟨?_, hstays⟩
  obtain ⟨r, -, rfl⟩ := mapError_error.1 hx
  exact ⟨r, rfl⟩

theorem harmless_moment : Harmless e (Stays e) (moment e) := by
  refine fun s c S _ => ensures_mono ensures_moment (fun _ h => h) (fun _ t ht => ?_) fun _ _ h => h
  rw [ht.2]
  exact ⟨rfl, drifts_later⟩

theorem harmless_answer {f : ℕ → Except Halt α} (hf : ∀ n x, f n = .error x → Admissible x) :
    Harmless e (Stays e) (answer e f) :=
  harmless_bind framing_stays harmless_moment fun n => harmless_ask framing_stays fun _ => hf n

theorem harmless_flying {f : ℕ → Except Raised α} : Harmless e (Stays e) (flying e f) := by
  refine fun s c S hs => ensures_mono ensures_flying (fun _ h => h) (fun _ _ h => h) ?_
  rintro x t ⟨⟨r, rfl⟩, ht⟩
  exact ⟨c, by rw [ht.1]; exact hs.sound⟩

theorem harmless_guarded {f : ℕ → Except Raised α} : Harmless e (Stays e) (guarded e f) :=
  harmless_bind framing_stays harmless_moment fun _ => harmless_raised framing_stays

theorem harmless_event : Harmless e (Stays e) (event e) := harmless_flying

theorem harmless_answer_require {p : ℕ → Prop} [DecidablePred p] {x : Halt} (hx : Admissible x) :
    Harmless e (Stays e) (answer e fun n => require (p n) x) :=
  harmless_bind framing_stays harmless_moment fun _ => harmless_require framing_stays hx

theorem harmless_assertBudget : Harmless e (Stays e) (assertBudget e) :=
  harmless_bind framing_stays harmless_flying fun _ =>
    harmless_bind framing_stays harmless_event fun _ => harmless_require framing_stays (.inl rfl)

theorem harmless_assertClock : Harmless e (Stays e) (assertClock e) :=
  harmless_answer_require (.inl rfl)

theorem harmless_modelSeconds : Harmless e (Stays e) (modelSeconds e) :=
  harmless_answer_require (.inl rfl)

theorem harmless_assertPlanOnly : Harmless e (Stays e) (assertPlanOnly e) := by
  refine harmless_answer fun n x hx => ?_
  cases hp : e.planAuth n with
  | none => rw [hp] at hx; cases hx
  | some reason => rw [hp] at hx; cases hx; exact .inl rfl

theorem harmless_beforeCall : Harmless e (Stays e) (beforeCall e) :=
  harmless_bind framing_stays harmless_assertBudget fun _ =>
    harmless_bind framing_stays harmless_modelSeconds fun _ =>
      harmless_bind framing_stays harmless_assertPlanOnly fun _ => harmless_event

theorem harmless_measure : Harmless e (Stays e) (measure e) :=
  harmless_bind framing_stays (harmless_read framing_stays) fun _ =>
    harmless_bind framing_stays harmless_moment fun _ => harmless_pure framing_stays _

theorem harmless_process {f : ℕ → Except Raised α} : Harmless e SameLedger (process e f) :=
  harmless_bind framing_sameLedger harmless_moment.weaken fun _ =>
    harmless_bind framing_sameLedger (fun _ _ _ _ => ensures_assign _ rfl) fun _ =>
      harmless_pure framing_sameLedger _

theorem harmless_verifiedProcess {delta : Candidate → ℕ → Except Raised (List String)} :
    Harmless e SameLedger (verifiedProcess e delta) :=
  have hF : Framing (SameLedger (W := W)) := framing_sameLedger
  harmless_bind hF harmless_process fun _ =>
  harmless_bind hF harmless_guarded.weaken fun _ =>
  harmless_bind hF harmless_measure.weaken fun _ =>
  harmless_bind hF (harmless_raised hF) fun _ =>
  harmless_bind hF harmless_moment.weaken fun _ =>
  harmless_bind hF (harmless_raised hF) fun _ =>
  harmless_bind hF (harmless_raised hF) fun _ => harmless_raised hF

theorem harmless_runVerifiedImplementation :
    Harmless e SameLedger (runVerifiedImplementation e) :=
  harmless_bind framing_sameLedger harmless_guarded.weaken fun _ => harmless_verifiedProcess

theorem harmless_runVerifiedRepair {previous : Verified} :
    Harmless e SameLedger (runVerifiedRepair e previous) :=
  have hF : Framing (SameLedger (W := W)) := framing_sameLedger
  harmless_bind hF harmless_guarded.weaken fun _ =>
  harmless_bind hF harmless_measure.weaken fun _ =>
  harmless_bind hF (harmless_raised hF) fun _ =>
  harmless_bind hF (harmless_require hF (admissible_translate _)) fun _ =>
  harmless_bind hF harmless_guarded.weaken fun _ => harmless_verifiedProcess

/-! ### The steps that enter something -/

theorem Sound.note {x : Event W} (h : Sound e l c) (hx : x.persists = none)
    (hf : Follows e (x :: l.history) c')
    (hlicence : c'.point = .applied ∨ c'.point = .approved → ∃ r, l.receipts.receipt = some r ∧
      r.status = .passed ∧ r.candidateFingerprint = c'.fingerprint) :
    Sound e (l.note x) c' := by
  have hstates : persistedStates (x :: l.history) = persistedStates l.history := by
    simp [persistedStates, hx]
  exact ⟨hf, hstates ▸ h.chain, hstates ▸ h.document, hstates ▸ h.backup, hlicence⟩

theorem At.note {x : Event W} (h : At e c S l) (hx : x.persists = none)
    (hf : Follows e (x :: l.history) c')
    (hlicence : c'.point = .applied ∨ c'.point = .approved → ∃ r, l.receipts.receipt = some r ∧
      r.status = .passed ∧ r.candidateFingerprint = c'.fingerprint) :
    At e c' S (l.note x) :=
  ⟨h.sound.note hx hf hlicence, h.stored, h.state, h.running⟩

/-- What the run keeps in its own variables only. -/
structure Private (l l' : Ledger W) : Prop where
  history : l'.history = l.history
  document : l'.document = l.document
  backup : l'.backup = l.backup
  receipts : l'.receipts = l.receipts
  state : l'.state = l.state

theorem At.private {l' : Ledger W} (h : At e c S l) (hp : Private l l') : At e c S l' where
  sound :=
    { follows := hp.history ▸ h.sound.follows
      chain := hp.history ▸ h.sound.chain
      document := hp.history ▸ hp.document ▸ h.sound.document
      backup := hp.history ▸ hp.backup ▸ h.sound.backup
      licence := hp.receipts ▸ h.sound.licence }
  stored := hp.document ▸ h.stored
  state := hp.state.trans h.state
  running := h.running

theorem Sound.persist {target : State} {reason : Option StopReason} {d : Document}
    (h : Sound e l c) (hd : l.document = some d) (ht : target ∈ allowedTransitions d.state)
    (hf : Follows e (.persisted target :: l.history) c')
    (hlicence : c'.point = .applied ∨ c'.point = .approved → ∃ r, l.receipts.receipt = some r ∧
      r.status = .passed ∧ r.candidateFingerprint = c'.fingerprint) :
    Sound e (l.persist target reason) c' where
  follows := hf
  chain := by
    refine List.isChain_cons.2 ⟨fun a ha => ?_, h.chain⟩
    have hlast : (persistedStates l.history).head? = some d.state := by
      rw [h.document, hd]
      rfl
    change a ∈ (persistedStates l.history).head? at ha
    rw [hlast] at ha
    obtain rfl := Option.mem_some_iff.1 ha
    exact ht
  document := rfl
  backup b hb := List.mem_cons_of_mem _ (h.backup b hb)
  licence := hlicence

/-- The ledger after a move. -/
def moveTo (target : State) (reason : Option StopReason) (l : Ledger W) : Ledger W :=
  ((l.persist target reason).backUp).enter target

theorem ensures_advance {target : State} {reason : Option StopReason}
    (hs : At e c S s.ledger) (hf : Follows e (.persisted target :: s.ledger.history) c')
    (hlicence : c'.point = .applied ∨ c'.point = .approved → ∃ r,
      s.ledger.receipts.receipt = some r ∧ r.status = .passed ∧
      r.candidateFingerprint = c'.fingerprint) :
    (advance e target reason).Ensures s (Legal e)
      (fun _ t => t.ledger = moveTo target reason s.ledger ∧ Drifts e s t ∧
        Sound e t.ledger c') (fun x t => (∃ r, x = .flies r) ∧ Legal e t) := by
  have hlegal : ∀ u : Loop W, u.ledger = s.ledger → Legal e u := fun u hu =>
    ⟨c, by rw [hu]; exact hs.sound⟩
  refine ensures_bind ensures_moment ?_
  rintro n t ⟨-, ht⟩
  rw [ht]
  -- the document
  refine ensures_bind (R := fun _ u => u.ledger = s.ledger.persist target reason ∧
    Drifts e s u ∧ Sound e u.ledger c') (ensures_commit _ ?_ ?_) ?_
  · intro u hu
    simp only [bind_ok, exists_unit, pure_ok, require_ok, demand_ok] at hu
    obtain ⟨-, d, hd, hallowed, rfl⟩ := hu
    have hsound : Sound e (s.ledger.persist target reason) c' :=
      hs.sound.persist hd hallowed hf hlicence
    exact ⟨⟨c', hsound⟩, rfl, drifts_later, hsound⟩
  · intro x hx
    simp only [bind_error, mapError_error, demand_error, require_error, exists_unit] at hx
    refine ⟨?_, hlegal _ rfl⟩
    rcases hx with ⟨r, -, rfl⟩ | ⟨-, ⟨-, rfl⟩ | ⟨d, -, ⟨-, rfl⟩ | ⟨-, hx⟩⟩⟩
    · exact ⟨r, rfl⟩
    · exact ⟨.untyped, rfl⟩
    · exact ⟨.untyped, rfl⟩
    · cases hx
  rintro - u ⟨hu, hdrift, hsound⟩
  have hlegal' : ∀ v : Loop W, v.ledger = u.ledger → Legal e v := fun v hv =>
    ⟨c', by rw [hv]; exact hsound⟩
  refine ensures_bind ensures_moment ?_
  rintro m v ⟨-, hv⟩
  rw [hv]
  -- its copy
  have hcopied : Sound e u.ledger.backUp c' := by
    refine ⟨hsound.follows, hsound.chain, hsound.document, fun d hd => ?_, hsound.licence⟩
    have hd' : u.ledger.document = some d := hd
    have hlast := hsound.document
    rw [hd'] at hlast
    exact List.mem_of_mem_head? hlast
  refine ensures_bind (R := fun _ v => v.ledger = (s.ledger.persist target reason).backUp ∧
    Drifts e s v ∧ Sound e v.ledger c') (ensures_commit _ ?_ ?_) ?_
  · intro v hv
    simp only [bind_ok, exists_unit, pure_ok] at hv
    obtain ⟨-, rfl⟩ := hv
    exact ⟨⟨c', hcopied⟩, congrArg Ledger.backUp hu, hdrift.trans drifts_later, hcopied⟩
  · intro x hx
    simp only [bind_error, mapError_error, exists_unit] at hx
    refine ⟨?_, hlegal' _ rfl⟩
    rcases hx with ⟨r, -, rfl⟩ | ⟨-, hx⟩
    · exact ⟨r, rfl⟩
    · cases hx
  rintro - w ⟨hw, hdrift', hsound'⟩
  refine ensures_bind (R := fun _ x => x.ledger = moveTo target reason s.ledger ∧
    Drifts e s x ∧ Sound e x.ledger c') (ensures_assign _ ?_) ?_
  · exact ⟨congrArg (Ledger.enter target) hw, hdrift',
      ⟨hsound'.follows, hsound'.chain, hsound'.document, hsound'.backup, hsound'.licence⟩⟩
  rintro - x ⟨hx, hdrift'', hsound''⟩
  refine ensures_mono ensures_flying (fun _ h => h) ?_ ?_
  · rintro - y ⟨hy, hdrift₃⟩
    exact ⟨hy.trans hx, hdrift''.trans hdrift₃, by rw [hy]; exact hsound''⟩
  · rintro z y ⟨hz, hy⟩
    exact ⟨hz, c', by rw [hy.1]; exact hsound''⟩

end RagPipeline.Runner
