import RagPipeline.Runner.Phases

/-! # Whole runs of the loop

The two roads to a repair, the application and the ends of a run. Then what
holds of every run: the order of its gates, and what its approval vouches for. -/

set_option autoImplicit false

namespace RagPipeline.Runner
open Guard Effects Program
open Acceptance (Candidate Verified Report Refusal)

variable {W : Type} {e : Env W} {s t u : Loop W} {c : Course} {S : State}
  {r : Bool} {n since : ℕ} {f : String}

/-- The end of a run that returned a result. -/
def Finished (e : Env W) (result : RunResult) (t : Loop W) : Prop :=
  ∃ c, Sound e t.ledger c ∧ t.ledger.document.map Document.state = some result.state ∧
    (c.point = .ended ∨ c.point = .objected ∧ c.repaired = true →
      result.state = .blocked ∨ result.state = .failed)

theorem ensures_applyAccepted {verified : Verified} {report : Option Report}
    (hs : At e ⟨.agreed, r, n, verified.changeSet.fingerprint, since⟩ S s.ledger) :
    (applyAccepted e verified report).Ensures s (Legal e)
      (fun _ t => At e ⟨.applied, r, n, verified.changeSet.fingerprint, since⟩ S t.ledger)
      (Ends e) := by
  refine ensures_bind (harmless_guarded s _ S hs) ?_
  rintro - s₁ h₁
  have hs₁ := hs.same h₁.1
  refine ensures_bind (harmless_measure s₁ _ S hs₁) ?_
  rintro derived s₂ h₂
  have hs₂ := hs₁.same h₂.1
  refine ensures_bind (ensures_raised hs₂) ?_
  rintro candidate t ⟨-, ht⟩
  rw [ht]
  refine ensures_bind ensures_look ?_
  rintro l t ⟨hl, ht⟩
  rw [ht, hl]
  refine ensures_bind (R := fun _ t => t = s₂ ∧
    verified.changeSet = candidate.changeSet ∧ ∃ r, s₂.ledger.receipts.receipt = some r ∧
      r.status = .passed ∧ r.candidateFingerprint = candidate.changeSet.fingerprint)
    (ensures_ask _ ?_ ?_) ?_
  · intro x hx
    simp only [bind_ok, demand_ok, exists_unit, mapError_ok] at hx
    obtain ⟨report', -, hreceipt, -⟩ := hx
    exact ⟨rfl, Acceptance.receiptCheck_ok hreceipt⟩
  · intro x hx
    refine ends_of_admissible ?_ hs₂
    simp only [bind_error, demand_error, mapError_error, require_error] at hx
    rcases hx with ⟨-, rfl⟩ | ⟨_, -, ⟨_, -, rfl⟩ | ⟨_, -, -, rfl⟩⟩
    · exact admissible_translate _
    · exact admissible_translate _
    · exact admissible_translate _
  rintro - t ⟨ht, hsame, hreceipt⟩
  rw [ht]
  refine ensures_bind (harmless_guarded s₂ _ S hs₂) ?_
  rintro files s₃ h₃
  have hs₃ := hs₂.same h₃.1
  refine ensures_bind ensures_record ?_
  rintro - s₄ h₄
  refine ensures_return _ ?_
  rw [h₄, ← hsame]
  rw [← h₃.1, ← hsame] at hreceipt
  exact hs₃.note rfl (.applied hs₃.sound.follows) fun _ => hreceipt

theorem ensures_approve {verified : Verified} {report : Option Report}
    (hs : At e ⟨.agreed, r, n, verified.changeSet.fingerprint, since⟩ S s.ledger) :
    (approve e verified report).Ensures s (Legal e) (Finished e) (Ends e) := by
  refine ensures_bind (ensures_applyAccepted hs) ?_
  intro files t ht
  refine ensures_bind ensures_record ?_
  rintro - u hu
  have hu' : At e ⟨.applied, r, n, verified.changeSet.fingerprint, since⟩ S u.ledger := by
    rw [hu]
    exact ht.private ⟨rfl, rfl, rfl, rfl, rfl⟩
  refine ensures_bind (ensures_mono (ensures_advance hu' (.approved hu'.sound.follows)
    fun _ => hu'.sound.licence (.inl rfl)) (fun _ h => h) (fun _ _ h => h) ?_) ?_
  · rintro x v ⟨⟨y, rfl⟩, hv⟩
    exact hv
  rintro - v ⟨hv, -, hsound⟩
  refine ensures_bind (ensures_mono ensures_flying (fun _ h => h) (fun _ _ h => h) ?_) ?_
  · rintro x w ⟨⟨y, rfl⟩, hw, -⟩
    exact ⟨_, by rw [hw]; exact hsound⟩
  rintro - w ⟨hw, -⟩
  refine ensures_bind ensures_look ?_
  rintro l x ⟨-, hx⟩
  rw [hx]
  refine ensures_return _ ⟨_, by rw [hw]; exact hsound, by rw [hw, hv]; rfl, ?_⟩
  rintro (hpoint | ⟨hpoint, -⟩) <;> cases hpoint

theorem repairCap_le (t : Task) : t.repairCap ≤ 1 := min_le_left _ _

theorem ensures_repairRoad {p : Point} {previous : Verified} (hp : p = .refused ∨ p = .objected)
    (hs : At e ⟨p, false, n, f, since⟩ S s.ledger) :
    (repairRoad e previous).Ensures s (Legal e) (Finished e) (Ends e) := by
  refine ensures_bind (ensures_walkTo hs (by decide)) ?_
  rintro - s₁ ⟨hs₁, -, -⟩
  refine ensures_bind (ensures_repair hp hs₁) ?_
  rintro verified s₂ ⟨hs₂, hspent⟩
  refine ensures_bind (ensures_checkpoint hs₂ (by simp) (by simp)) ?_
  rintro - t ht
  rw [ht]
  refine ensures_bind (ensures_walkTo hs₂ (by decide)) ?_
  rintro - s₃ ⟨hs₃, hrounds₃, -⟩
  refine ensures_bind (ensures_accept hs₃) ?_
  rintro report s₄ ⟨hrounds₄, h₄⟩
  cases report with
  | none => exact absurd h₄.1 (by decide)
  | some report =>
    obtain ⟨since', hs₄, hc₄⟩ := h₄
    refine ensures_bind (ensures_checkpoint hs₄ (by simp) (by simp)) ?_
    rintro - t ht
    rw [ht]
    refine ensures_bind (ensures_walkTo hs₄ (by decide)) ?_
    rintro - s₅ ⟨hs₅, hrounds₅, hdrift⟩
    refine ensures_bind (ensures_audit hs₅ (hc₄.drifts hdrift)) ?_
    rintro approved s₆ ⟨hrounds₆, h₆⟩
    cases approved with
    | false =>
      -- the repair is spent, so an objection has ended the run
      rw [if_neg (by decide), hrounds₆, hrounds₅, hrounds₄, hrounds₃] at h₆
      have hcap := repairCap_le e.task
      exact absurd h₆.1 (by omega)
    | true =>
      rw [if_pos rfl] at h₆
      refine ensures_bind (ensures_checkpoint h₆ (by simp) (by simp)) ?_
      rintro - t ht
      rw [ht]
      exact ensures_approve h₆

theorem ensures_walk (hs : At e ⟨.fresh, false, n, f, since⟩ S s.ledger) :
    (walk e).Ensures s (Legal e) (Finished e) (Ends e) := by
  refine ensures_bind (ensures_walkTo hs (by decide)) ?_
  rintro - s₁ ⟨hs₁, -, -⟩
  refine ensures_bind (ensures_implement hs₁) ?_
  rintro verified s₂ ⟨hs₂, -⟩
  refine ensures_bind (ensures_checkpoint hs₂ (by simp) (by simp)) ?_
  rintro - t ht
  rw [ht]
  refine ensures_bind (ensures_walkTo hs₂ (by decide)) ?_
  rintro - s₃ ⟨hs₃, -, -⟩
  refine ensures_bind (ensures_accept hs₃) ?_
  rintro report s₄ ⟨-, h₄⟩
  cases report with
  | none =>
    obtain ⟨-, -, hs₄⟩ := h₄
    refine ensures_bind (ensures_checkpoint hs₄ (by simp) (by simp)) ?_
    rintro - t ht
    rw [ht]
    exact ensures_repairRoad (.inl rfl) hs₄
  | some report =>
    obtain ⟨since', hs₄, hc₄⟩ := h₄
    refine ensures_bind (ensures_checkpoint hs₄ (by simp) (by simp)) ?_
    rintro - t ht
    rw [ht]
    refine ensures_bind (ensures_walkTo hs₄ (by decide)) ?_
    rintro - s₅ ⟨hs₅, -, hdrift⟩
    refine ensures_bind (ensures_audit hs₅ (hc₄.drifts hdrift)) ?_
    rintro approved s₆ ⟨-, h₆⟩
    cases approved with
    | true =>
      rw [if_pos rfl] at h₆
      refine ensures_bind (ensures_checkpoint h₆ (by simp) (by simp)) ?_
      rintro - t ht
      rw [ht]
      exact ensures_approve h₆
    | false =>
      rw [if_neg (by decide)] at h₆
      refine ensures_bind (ensures_checkpoint h₆.2 (by simp) (by simp)) ?_
      rintro - t ht
      rw [ht]
      exact ensures_repairRoad (.inr rfl) h₆.2

/-- However a run leaves its road, it ends in order or its exception flies. -/
theorem ensures_halted {x : Halt} (hs : Ends e x s) :
    (halted e x).Ensures s (Legal e) (Finished e) (fun y t => (∃ r, y = .flies r) ∧ Legal e t) := by
  cases x with
  | flies r => exact ensures_raise _ ⟨⟨r, rfl⟩, hs⟩
  | interrupted =>
    obtain ⟨c, S, hat, ho, he⟩ := hs
    refine ensures_bind (ensures_mono ensures_flying (fun _ h => h) (fun _ _ h => h) ?_) ?_
    · rintro y t ⟨hy, ht, -⟩
      exact ⟨hy, c, by rw [ht]; exact hat.sound⟩
    rintro - t ⟨ht, -⟩
    refine ensures_bind ensures_look ?_
    rintro l u ⟨hl, hu⟩
    rw [hl, hu]
    refine ensures_bind ensures_look ?_
    rintro l u ⟨-, hu⟩
    rw [hu]
    refine ensures_return _ ⟨c, by rw [ht]; exact hat.sound, ?_, ?_⟩
    · rw [ht, hat.stored, hat.state]
    · rintro (hpoint | ⟨hpoint, hrepaired⟩)
      · exact absurd hpoint he
      · rw [ho hpoint] at hrepaired
        cases hrepaired
  | stop reason target logged =>
    obtain ⟨htarget, c, S, hat⟩ := hs
    have hlog : (logIf e logged).Ensures s (Legal e) (fun _ t => Stays e s t)
        (fun y t => (∃ r, y = .flies r) ∧ Legal e t) := by
      cases logged with
      | false => exact ensures_return _ (framing_stays.refl s)
      | true =>
        refine ensures_mono ensures_flying (fun _ h => h) (fun _ _ h => h) ?_
        rintro y t ⟨hy, ht, -⟩
        exact ⟨hy, c, by rw [ht]; exact hat.sound⟩
    refine ensures_bind hlog ?_
    rintro - t ⟨ht, -⟩
    have hat' := hat.same ht
    refine ensures_bind ensures_look ?_
    rintro l u ⟨hl, hu⟩
    rw [hl, hu]
    have hne : target ≠ .approved := by
      rcases htarget with rfl | rfl <;> decide
    have hrunning : t.ledger.state ∉ terminalStates := by
      rw [hat'.state]
      exact hat'.running
    have hland : (advance e target (some reason)).Ensures _ _ _ _ := ensures_advance hat'
      (.persisted target hne hat'.sound.follows) hat'.sound.licence
    rw [← show land e t.ledger.state target reason = advance e target (some reason) from
      if_neg hrunning] at hland
    refine ensures_bind hland ?_
    rintro - v ⟨hv, -, hsound⟩
    refine ensures_bind ensures_look ?_
    rintro l u ⟨-, hu⟩
    rw [hu]
    exact ensures_return _ ⟨c, hsound, by rw [hv]; rfl, fun _ => htarget⟩

/-- The loop before its first step. -/
def start (content : W) (receipts : Acceptance.World) : Loop W :=
  ⟨content, 0, ⟨none, none, .preflight, [.preflight], ⟨0, 0, 0⟩, [], [], [], false, [], receipts,
    []⟩⟩

theorem sound_start {content : W} {receipts : Acceptance.World} :
    Sound e (start content receipts).ledger ⟨.fresh, false, 0, "", 0⟩ :=
  ⟨.start, List.isChain_nil, rfl, fun _ h => (nomatch h), by simp⟩

theorem ensures_openState {content : W} {receipts : Acceptance.World}
    (hs : s.ledger = (start content receipts).ledger) :
    (openState e).Ensures s (Legal e)
      (fun _ t => At e ⟨.fresh, false, 0, "", 0⟩ .preflight t.ledger)
      (fun y t => (∃ r, y = .flies r) ∧ Legal e t) := by
  have hsound : Sound e (start content receipts).ledger ⟨.fresh, false, 0, "", 0⟩ := sound_start
  have hopened : Sound e ((start content receipts).ledger.persist .preflight none)
      ⟨.fresh, false, 0, "", 0⟩ :=
    ⟨.persisted _ (by decide) .start, List.isChain_singleton _, rfl, fun _ h => (nomatch h),
      by simp⟩
  have hcopied : Sound e ((start content receipts).ledger.persist .preflight none).backUp
      ⟨.fresh, false, 0, "", 0⟩ :=
    ⟨hopened.follows, hopened.chain, hopened.document,
      fun d hd => (by rw [← Option.some.inj hd]; exact List.mem_cons_self), hopened.licence⟩
  refine ensures_bind ensures_moment ?_
  rintro m t ⟨-, ht⟩
  rw [ht]
  refine ensures_bind (R := fun _ t => t.ledger =
    (start content receipts).ledger.persist .preflight none) (ensures_commit _ ?_ ?_) ?_
  · intro t ht
    simp only [bind_ok, exists_unit, pure_ok] at ht
    obtain ⟨-, rfl⟩ := ht
    have heq : (Loop.onLedger (Ledger.persist .preflight none) (s.later e)).ledger =
        (start content receipts).ledger.persist .preflight none :=
      congrArg (Ledger.persist .preflight none) hs
    exact ⟨⟨_, by rw [heq]; exact hopened⟩, heq⟩
  · intro x hx
    simp only [bind_error, mapError_error, exists_unit] at hx
    refine ⟨?_, _, by rw [show (s.later e).ledger = _ from hs]; exact hsound⟩
    rcases hx with ⟨y, -, rfl⟩ | ⟨-, hx⟩
    · exact ⟨y, rfl⟩
    · cases hx
  rintro - u hu
  refine ensures_bind ensures_moment ?_
  rintro k v ⟨-, hv⟩
  rw [hv]
  refine ensures_bind (R := fun _ t => t.ledger =
    ((start content receipts).ledger.persist .preflight none).backUp) (ensures_commit _ ?_ ?_) ?_
  · intro t ht
    simp only [bind_ok, exists_unit, pure_ok] at ht
    obtain ⟨-, rfl⟩ := ht
    have heq : (Loop.onLedger Ledger.backUp (u.later e)).ledger =
        ((start content receipts).ledger.persist .preflight none).backUp :=
      congrArg Ledger.backUp hu
    exact ⟨⟨_, by rw [heq]; exact hcopied⟩, heq⟩
  · intro x hx
    simp only [bind_error, mapError_error, exists_unit] at hx
    refine ⟨?_, _, by rw [show (u.later e).ledger = _ from hu]; exact hopened⟩
    rcases hx with ⟨y, -, rfl⟩ | ⟨-, hx⟩
    · exact ⟨y, rfl⟩
    · cases hx
  rintro - w hw
  refine ensures_mono ensures_flying (fun _ h => h) ?_ ?_
  · rintro - x ⟨hx, -⟩
    rw [hx, hw]
    exact ⟨hcopied, rfl, rfl, by decide⟩
  · rintro y x ⟨hy, hx, -⟩
    exact ⟨hy, _, by rw [hx, hw]; exact hcopied⟩

/-- Every run: each state it can be cut in has an allowed history, and what it
returns is either a refusal before anything was persisted or the end of a road. -/
theorem ensures_execute (content : W) (receipts : Acceptance.World) :
    (execute e).Ensures (start content receipts) (Legal e)
      (fun result t => Legal e t ∧ (t.ledger.history = [] ∨ Finished e result t))
      (fun y t => (∃ r, y = .flies r) ∧ Legal e t) := by
  have hstart : Sound e (start content receipts).ledger ⟨.fresh, false, 0, "", 0⟩ := sound_start
  refine ensures_bind (ensures_mono ensures_flying (fun _ h => h) (fun _ _ h => h) ?_) ?_
  · rintro y t ⟨hy, ht, -⟩
    exact ⟨hy, _, by rw [ht]; exact hstart⟩
  rintro refusal t ⟨ht, -⟩
  cases refusal with
  | some reason =>
    refine ensures_bind ensures_look ?_
    rintro l u ⟨-, hu⟩
    rw [hu]
    exact ensures_return _ ⟨⟨_, by rw [ht]; exact hstart⟩, .inl (by rw [ht]; rfl)⟩
  | none =>
    refine ensures_bind (ensures_openState ht) ?_
    rintro - u hu
    refine ensures_mono (Q := Finished e) (ensures_rescue (F := Ends e) ?_ fun _ _ h =>
      ensures_halted h) (fun _ h => h) ?_ fun _ _ h => h
    swap
    · rintro result x ⟨c, hsound, hresult⟩
      exact ⟨⟨c, hsound⟩, .inr ⟨c, hsound, hresult⟩⟩
    have hgate : (gateCheck e).Ensures u (Legal e) (fun _ t => t = u) (Ends e) := by
      unfold gateCheck
      split
      · exact ensures_return _ rfl
      · refine ensures_bind (ensures_require hu trivial) ?_
        rintro - v ⟨-, hv⟩
        rw [hv]
        refine ensures_bind (harmless_event u _ _ hu) ?_
        rintro - v ⟨hv, -⟩
        exact ensures_raise _ ⟨.inl rfl, _, _, hu.same hv⟩
    refine ensures_bind hgate ?_
    rintro - v hv
    rw [hv]
    refine ensures_bind (harmless_assertBudget u _ _ hu) ?_
    rintro - s₁ ⟨h₁, -⟩
    refine ensures_bind (harmless_assertClock s₁ _ _ (hu.same h₁)) ?_
    rintro - s₂ ⟨h₂, -⟩
    refine ensures_bind (harmless_guarded s₂ _ _ ((hu.same h₁).same h₂)) ?_
    rintro - s₃ ⟨h₃, -⟩
    exact ensures_walk (((hu.same h₁).same h₂).same h₃)

/-- A state that a run from `content` may be found in. -/
def Seen (e : Env W) (content : W) (receipts : Acceptance.World) (t : Loop W) : Prop :=
  t ∈ (execute e).crashes (start content receipts) ∨
    t = (execute e (start content receipts)).state

theorem legal_of_seen {content : W} {receipts : Acceptance.World}
    (ht : Seen e content receipts t) : Legal e t := by
  have hrun := ensures_execute (e := e) content receipts
  rcases ht with ht | rfl
  · exact ensures_crashes hrun ⟨_, sound_start⟩ t ht
  · have hend := hrun.2
    cases hr : (execute e (start content receipts)).result with
    | error y =>
      rw [hr] at hend
      exact hend.2
    | ok result =>
      rw [hr] at hend
      exact hend.1

/-- The second of two verdicts names a mechanism of the first. -/
def Repeats (h : List (Event W)) : Prop :=
  ∃ r s m, [s, r].Sublist (verdicts h) ∧ m ∈ r.mechanisms ∧ m ∈ s.mechanisms

theorem objects_of_mechanism {r : Reply} {m : String} (h : m ∈ r.mechanisms) : r.objects := by
  cases r with
  | approved => cases h
  | _ => trivial

/-- What is promised of the history of a run. -/
structure GateOrder (e : Env W) (h : List (Event W)) : Prop where
  implementations : h.countP Event.implements ≤ 1
  repairs : h.countP Event.repairs ≤ 1
  audits : h.countP Event.audits ≤ 2
  /-- An approval stands on an acceptance of the latest candidate and on an
  approving verdict after it. -/
  approved : .persisted .approved ∈ h → ∃ since f, Agreed e since f h
  /-- After a repair the candidate meets the acceptance and then the evaluator,
  and no approval comes before it has met both. -/
  repaired : .repairing ∈ h → gatesSinceRepair h <:+ [.evaluator, .acceptance] ∧
    (.persisted .approved ∈ h → gatesSinceRepair h = [.evaluator, .acceptance])
  repeated : Repeats h → .persisted .approved ∉ h
  transitions : (persistedStates h).IsChain fun b a => b ∈ allowedTransitions a

theorem Follows.repaired_of_mem {l : List (Event W)} (h : Follows e l c)
    (hr : .repairing ∈ l) : c.repaired = true := by
  have hpos := List.countP_pos_iff.2 ⟨_, hr, show Event.repairs .repairing = true from rfl⟩
  rw [h.repairs] at hpos
  cases hc : c.repaired with
  | true => rfl
  | false => simp [hc] at hpos

theorem Point.gates_suffix (p : Point) : p.gates <:+ [.evaluator, .acceptance] := by
  cases p <;> decide

theorem gateOrder_of_sound {l : Ledger W} (h : Sound e l c) : GateOrder e l.history where
  implementations := by
    rw [h.follows.implementations]
    exact Bool.toNat_le _
  repairs := by
    rw [h.follows.repairs]
    exact Bool.toNat_le _
  audits := by
    rw [h.follows.audits]
    have hrepaired := Bool.toNat_le c.repaired
    have hread := Bool.toNat_le c.point.read
    have hrounds := h.follows.rounds_le
    omega
  approved ha := by
    have hpoint := h.follows.approved_point ha
    have hreached := h.follows.reached
    unfold Course.Reached at hreached
    rw [hpoint] at hreached
    exact ⟨_, _, hreached⟩
  repaired hr := by
    have hrepaired := h.follows.repaired_of_mem hr
    rw [h.follows.gates hrepaired]
    refine ⟨c.point.gates_suffix, fun ha => ?_⟩
    rw [h.follows.approved_point ha]
    rfl
  repeated := by
    rintro ⟨r, s, m, hsub, hr, hs⟩ ha
    have hend := h.follows.second_objection hsub (objects_of_mechanism hr)
      (objects_of_mechanism hs)
    rw [h.follows.approved_point ha] at hend
    simp at hend
  transitions := h.chain

/-- A repeated mechanism leaves a run no other end than a stop. -/
theorem Finished.stopped {result : RunResult} (h : Finished e result t)
    (hr : Repeats t.ledger.history) : result.state = .blocked ∨ result.state = .failed := by
  obtain ⟨c, hsound, -, hend⟩ := h
  obtain ⟨r, s, m, hsub, hm, hm'⟩ := hr
  obtain ⟨hrepaired, hpoint⟩ := hsound.follows.second_objection hsub (objects_of_mechanism hm)
    (objects_of_mechanism hm')
  exact hend (hpoint.symm.imp id fun ho => ⟨ho, hrepaired⟩)

/-- Reading a run back calls nothing, and names a state that run persisted. -/
theorem ensures_resume (hs : Legal e s) (b : Bool) :
    (resume e b).Ensures s (fun t => t.ledger.history = s.ledger.history)
      (fun result t => t.ledger.history = s.ledger.history ∧
        result.state ∈ persistedStates s.ledger.history)
      (fun _ t => t.ledger.history = s.ledger.history) := by
  obtain ⟨c, hsound⟩ := hs
  have hdocument : ∀ d ∈ s.ledger.document, d.state ∈ persistedStates s.ledger.history := by
    intro d hd
    have hhead := hsound.document
    rw [Option.mem_def.1 hd] at hhead
    exact List.mem_of_mem_head? hhead
  refine ensures_bind (ensures_mono ensures_flying (fun _ h => h) (fun _ _ h => h) ?_) ?_
  · rintro y t ⟨-, ht, -⟩
    rw [ht]
  rintro - t ⟨ht, -⟩
  refine ensures_bind (R := fun _ u => u.ledger.history = s.ledger.history ∧
    ∀ d ∈ u.ledger.document, d.state ∈ persistedStates s.ledger.history) ?_ ?_
  · unfold restoreIf
    split
    · refine ensures_bind ensures_moment ?_
      rintro n u ⟨-, hu⟩
      rw [hu]
      have hledger : (t.later e).ledger = s.ledger := ht
      refine ensures_commit _ ?_ fun _ _ => by rw [hledger]
      intro v hv
      simp only [bind_ok, exists_unit, demand_ok, pure_ok] at hv
      obtain ⟨-, backup, hbackup, rfl⟩ := hv
      rw [hledger] at hbackup
      have hhistory : ((t.later e).onLedger (Ledger.restore backup)).ledger.history =
          s.ledger.history := by
        change (t.later e).ledger.history = _
        rw [hledger]
      refine ⟨hhistory, hhistory, fun d hd => ?_⟩
      obtain rfl := Option.some.inj hd
      exact hsound.backup _ hbackup
    · exact ensures_return _ ⟨by rw [ht], by rw [ht]; exact hdocument⟩
  rintro - u ⟨hu, hstate⟩
  refine ensures_bind ensures_look ?_
  rintro l v ⟨hl, hv⟩
  rw [hl, hv]
  refine ensures_bind (R := fun d w => w = u ∧ d ∈ u.ledger.document)
    (ensures_ask _ (fun d hd => ⟨rfl, demand_ok.1 hd⟩) fun _ _ => hu) ?_
  rintro d w ⟨hw, hd⟩
  rw [hw]
  exact ensures_return _ ⟨hu, hstate d hd⟩

end RagPipeline.Runner

/-! # The order of the gates and what an approval vouches for -/

set_option autoImplicit false

namespace RagPipeline.Runner
open Guard Effects Program
open Acceptance (Candidate Verified Report Refusal)

variable {W : Type} {content : W} {receipts : Acceptance.World} {t : Loop W}

/-- Whatever the implementer, the commands, the evaluator, the clock, the disk
and the other processes do: the history of a run keeps the order of the gates, a
repeated mechanism ends it stopped, and reading it back later calls nothing. -/
theorem run_keeps_gate_order (e : Env W) (content : W) (receipts : Acceptance.World) :
    (∀ t, Seen e content receipts t → GateOrder e t.ledger.history) ∧
    (∀ result, (execute e (start content receipts)).result = .ok result →
      Repeats (execute e (start content receipts)).state.ledger.history →
      result.state = .blocked ∨ result.state = .failed) ∧
    ∀ t b, Seen e content receipts t →
      (∀ u ∈ (resume e b).crashes t, u.ledger.history = t.ledger.history) ∧
      (resume e b t).state.ledger.history = t.ledger.history ∧
      ∀ result, (resume e b t).result = .ok result →
        result.state ∈ persistedStates t.ledger.history := by
  refine ⟨fun t ht => ?_, fun result hr hrepeats => ?_, fun t b ht => ?_⟩
  · obtain ⟨c, hsound⟩ := legal_of_seen ht
    exact gateOrder_of_sound hsound
  · have hend := (ensures_execute (e := e) content receipts).2
    rw [hr] at hend
    rcases hend.2 with hnone | hfinished
    · obtain ⟨r, s, m, hsub, -⟩ := hrepeats
      rw [hnone] at hsub
      cases hsub
    · exact hfinished.stopped hrepeats
  · have hresume := ensures_resume (e := e) (legal_of_seen ht) b
    refine ⟨ensures_crashes hresume rfl, ?_, fun result hr => ?_⟩
    · have hend := hresume.2
      cases hr : (resume e b t).result with
      | ok result => rw [hr] at hend; exact hend.1
      | error x => rw [hr] at hend; exact hend
    · have hend := hresume.2
      rw [hr] at hend
      exact hend.2

/-- No other process wrote between the last acceptance's reading of the
candidate and the reading after the last call of the evaluator. -/
def Undisturbed (e : Env W) (h : List (Event W)) : Prop :=
  ∀ since f start finish shown reply, lastAccepted h = some (since, f) →
    lastReading h = some (start, finish, shown, reply) → Calm e since shown

/-- If nobody disturbed it, what a run approved is what was tested and what was
read: one fingerprint. -/
theorem approved_is_what_was_read {e : Env W} (ht : Seen e content receipts t)
    (ha : .approved ∈ persistedStates t.ledger.history)
    (hu : Undisturbed e t.ledger.history) : ∃ f since start finish shown receipt,
      (∀ g, .applied g ∈ t.ledger.history ↔ g = f) ∧
      t.ledger.receipts.receipt = some receipt ∧ receipt.status = .passed ∧
      receipt.candidateFingerprint = f ∧
      lastAccepted t.ledger.history = some (since, f) ∧
      lastReading t.ledger.history = some (start, finish, shown, .approved) ∧
      fingerprintOf e start = some f ∧ fingerprintOf e finish = some f := by
  obtain ⟨c, hsound⟩ := legal_of_seen ht
  have hmem : .persisted .approved ∈ t.ledger.history := by
    obtain ⟨x, hx, hstate⟩ := List.mem_filterMap.1 ha
    cases x with
    | persisted s =>
      obtain rfl := Option.some.inj hstate
      exact hx
    | _ => cases hstate
  have hpoint := hsound.follows.approved_point hmem
  have haccepted := hsound.follows.lastAccepted (by rw [hpoint]; rfl)
  obtain ⟨start, finish, shown, hreading, hread⟩ :=
    hsound.follows.lastReading (by rw [hpoint]; rfl)
  obtain ⟨receipt, hreceipt, hpassed, hfingerprint⟩ := hsound.licence (.inr hpoint)
  obtain ⟨hstart, hfinish⟩ := hread (hu _ _ _ _ _ _ haccepted hreading)
  refine ⟨c.fingerprint, c.since, start, finish, shown, receipt, fun g => ?_, hreceipt, hpassed,
    hfingerprint, haccepted, hreading, hstart, hfinish⟩
  rw [hsound.follows.applied_iff]
  exact ⟨fun h => h.2, fun h => ⟨.inr hpoint, h⟩⟩

/-! ### Two runs -/

/-- A workspace that is named by the fingerprint of its candidate. -/
def sampleDerive (w : String) : Except Raised Candidate :=
  .ok ⟨⟨["pipeline/a.py"], 0, 1, 0, w⟩, "gorev", [⟨"pytest_full", []⟩]⟩

def sampleIdentity : Acceptance.Identity := ⟨"depo", "kosu-1", "alan-1", "taban", "gorev"⟩

def sampleAttempt (exitCode : ℤ) : Acceptance.Attempt where
  identity := sampleIdentity
  verified := ⟨"kosu-1", "alan-1", "taban", true, ⟨["pipeline/a.py"], 0, 1, 0, "aday"⟩⟩
  limits := .ok ()
  derive := .error .interrupted
  manifest _ := .ok "gorev"
  registered _ := true
  binding := .ok ()
  token := "makbuz"
  writes _ := .ok ()
  reads _ := .ok ()
  prepare := .ok ()
  run _ := .ok (.completed, exitCode)
  remove := .ok ()

/-- Everything goes well, but for what the arguments say. -/
def sampleEnv (foreign : ℕ → Option String) (edits : ℕ → Option String) (exitCode : ℕ → ℤ)
    (diagnostics : ℕ → ℕ) : Env String where
  host := { sha256 := fun s => s, canonicalPath := id }
  identity := sampleIdentity
  task := ⟨1, 1, 5, none⟩
  requestGate := none
  interruptAfter := none
  derive := sampleDerive
  torn _ := .error .untyped
  foreign := foreign
  preflight _ := .ok none
  journal _ := .ok ()
  reads _ := .ok ()
  saved _ := .ok ()
  workspace _ := .ok ()
  remaining _ := 3600
  planAuth _ := none
  seam _ := .ok ()
  edits := edits
  implementer _ := .ok ⟨["pipeline/a.py"], true⟩
  delta _ := ["pipeline/a.py"]
  testEdit _ := .ok ()
  attempt n := sampleAttempt (exitCode n)
  refusal _ := .refused "aday degisiklikler cikarilamadi"
  raised _ := .typed .pathNotAllowed false
  diagnostics := diagnostics
  main _ := .ok false
  evaluator _ := .ok .approved
  application _ := .ok ["pipeline/a.py"]
  release _ := .ok ()

def runOf (e : Env String) : Loop String := (execute e (start "taban" ⟨none, []⟩)).state

/-- The implementer writes `aday` in its moment. -/
def sampleEdits (n : ℕ) : Option String := if n = 17 then some "aday" else none

def calmEnv : Env String := sampleEnv (fun _ => none) sampleEdits (fun _ => 0) fun _ => 0

theorem approved_is_what_was_read_calm : ∃ f since start finish shown receipt,
    (∀ g, .applied g ∈ (runOf calmEnv).ledger.history ↔ g = f) ∧
    (runOf calmEnv).ledger.receipts.receipt = some receipt ∧ receipt.status = .passed ∧
    receipt.candidateFingerprint = f ∧
    lastAccepted (runOf calmEnv).ledger.history = some (since, f) ∧
    lastReading (runOf calmEnv).ledger.history = some (start, finish, shown, .approved) ∧
    fingerprintOf calmEnv start = some f ∧ fingerprintOf calmEnv finish = some f := by
  have hseen : Seen calmEnv "taban" ⟨none, []⟩ (runOf calmEnv) := .inr rfl
  exact approved_is_what_was_read hseen (by decide +kernel) fun _ _ _ _ _ _ _ _ _ _ _ => rfl

/-- After the acceptance another process puts something else in the place of the
candidate, and the candidate back when the evaluator has read it. -/
def strayEnv : Env String :=
  sampleEnv (fun n => if n = 35 then some "baska" else if n = 46 then some "aday" else none)
    sampleEdits (fun _ => 0) fun _ => 0

theorem approved_unread : Seen strayEnv "taban" ⟨none, []⟩ (runOf strayEnv) ∧
    .approved ∈ persistedStates (runOf strayEnv).ledger.history ∧
    .applied "aday" ∈ (runOf strayEnv).ledger.history ∧
    lastReading (runOf strayEnv).ledger.history = some ("baska", "baska", 45, .approved) ∧
    fingerprintOf strayEnv "baska" = some "baska" :=
  ⟨.inr rfl, by decide +kernel⟩

/-- Both acceptances fail, the first in a way that may be repaired. -/
def failingEnv : Env String := sampleEnv (fun _ => none) sampleEdits (fun _ => 1) fun _ => 1

/-- A repair whose acceptance fails is not shown to the evaluator. -/
theorem repaired_unread : Seen failingEnv "taban" ⟨none, []⟩ (runOf failingEnv) ∧
    .repairing ∈ (runOf failingEnv).ledger.history ∧
    gatesSinceRepair (runOf failingEnv).ledger.history = [.acceptance] ∧
    (runOf failingEnv).ledger.state = .blocked ∧
    (runOf failingEnv).ledger.history.countP Event.audits = 0 :=
  ⟨.inr rfl, by decide +kernel⟩

end RagPipeline.Runner
