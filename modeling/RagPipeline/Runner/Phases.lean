import RagPipeline.Runner.Steps

/-! # The phases of the loop

Each phase takes the road from one point to the next, or ends the run on the
way. -/

set_option autoImplicit false

namespace RagPipeline.Runner
open Guard Effects Program
open Acceptance (Candidate Verified Report Refusal)

variable {W : Type} {e : Env W} {s t u : Loop W} {l : Ledger W} {c c' : Course} {S : State}
  {r : Bool} {n since : ℕ} {f : String}

theorem At.same (hs : At e c S s.ledger) (ht : SameLedger s t) : At e c S t.ledger := by
  rw [ht]
  exact hs

theorem ensures_record {g : Ledger W → Ledger W} {C : Loop W → Prop} {E : Halt → Loop W → Prop} :
    (record g).Ensures s C (fun _ t => t = s.onLedger g) E :=
  ensures_assign _ rfl

theorem ensures_look {C : Loop W → Prop} {E : Halt → Loop W → Prop} :
    (look : Step W (Ledger W)).Ensures s C (fun l t => l = s.ledger ∧ t = s) E :=
  ensures_ask _ (fun _ h => ⟨(Except.ok.inj h).symm, rfl⟩) fun _ h => by cases h

/-- A test that goes on only where it holds. -/
theorem ensures_require {p : Prop} [Decidable p] {x : Halt} (hs : At e c S s.ledger)
    (hx : Admissible x) : (Program.ask fun _ => require p x : Step W Unit).Ensures s (Legal e)
      (fun _ t => p ∧ t = s) (Ends e) := by
  refine ensures_ask _ (fun _ h => ⟨require_ok.1 h, rfl⟩) fun y hy => ?_
  obtain ⟨-, rfl⟩ := require_error.1 hy
  exact ends_of_admissible hx hs

theorem ensures_raised {α : Type} {x : Except Raised α} (hs : At e c S s.ledger) :
    (Program.ask fun _ => x.mapError translate : Step W α).Ensures s (Legal e)
      (fun a t => x = .ok a ∧ t = s) (Ends e) := by
  refine ensures_ask _ (fun _ h => ⟨mapError_ok.1 h, rfl⟩) fun y hy => ?_
  obtain ⟨r, -, rfl⟩ := mapError_error.1 hy
  exact ends_of_admissible (admissible_translate r) hs

/-- One move that is not the approval. -/
theorem ensures_walkTo {target : State} (hs : At e c S s.ledger) (ht : target ∉ terminalStates) :
    (advance e target none).Ensures s (Legal e)
      (fun _ t => At e c target t.ledger ∧ t.ledger.rounds = s.ledger.rounds ∧ Drifts e s t)
      (Ends e) := by
  have hne : target ≠ .approved := by
    rintro rfl
    exact ht (by decide)
  refine ensures_mono (ensures_advance hs (.persisted target hne hs.sound.follows)
    hs.sound.licence) (fun _ h => h) ?_ ?_
  · rintro - t ⟨hl, hdrift, hsound⟩
    exact ⟨⟨hsound, by rw [hl]; rfl, by rw [hl]; rfl, ht⟩, by rw [hl]; rfl, hdrift⟩
  · rintro x t ⟨⟨y, rfl⟩, ht⟩
    exact ht

theorem ensures_checkpoint {phase : State} (hs : At e c S s.ledger)
    (ho : c.point = .objected → c.repaired = false) (he : c.point ≠ .ended) :
    (checkpoint e phase).Ensures s (Legal e) (fun _ t => t = s) (Ends e) := by
  unfold checkpoint
  split
  · exact ensures_raise _ ⟨c, S, hs, ho, he⟩
  · exact ensures_return _ rfl

theorem ensures_implement (hs : At e ⟨.fresh, false, n, f, since⟩ S s.ledger) :
    (implement e).Ensures s (Legal e)
      (fun v t => At e ⟨.written, false, n, v.changeSet.fingerprint, since⟩ S t.ledger ∧
        t.ledger.rounds.repair = s.ledger.rounds.repair) (Ends e) := by
  refine ensures_bind ensures_look ?_
  rintro l t ⟨-, ht⟩
  rw [ht]
  refine ensures_bind (ensures_require hs (.inl rfl)) ?_
  rintro - t ⟨-, ht⟩
  rw [ht]
  refine ensures_bind (harmless_beforeCall s _ S hs) ?_
  rintro - t ⟨ht, -⟩
  refine ensures_bind ensures_record ?_
  rintro - u hu
  have hwriting : At e ⟨.writing, false, n, f, since⟩ S u.ledger := by
    rw [hu]
    exact (hs.same ht).note rfl (.implementing (hs.same ht).sound.follows) (by simp)
  have hrounds : u.ledger.rounds = s.ledger.rounds := by
    rw [hu, ← ht]
    rfl
  refine ensures_bind (harmless_runVerifiedImplementation u _ S hwriting) ?_
  intro v x hx
  refine ensures_bind ensures_record ?_
  rintro - y hy
  have hwritten : At e ⟨.written, false, n, v.changeSet.fingerprint, since⟩ S y.ledger := by
    rw [hy]
    exact (hwriting.same hx).note rfl (.candidate _ (hwriting.same hx).sound.follows) (by simp)
  refine ensures_bind (harmless_flying y _ S hwritten) ?_
  rintro - z ⟨hz, -⟩
  refine ensures_bind ensures_record ?_
  rintro - q hq
  have hq' : At e ⟨.written, false, n, v.changeSet.fingerprint, since⟩ S q.ledger := by
    rw [hq]
    exact (hwritten.same hz).private ⟨rfl, rfl, rfl, rfl, rfl⟩
  refine ensures_bind (harmless_event q _ S hq') ?_
  rintro - p ⟨hp, -⟩
  refine ensures_return _ ⟨hq'.same hp, ?_⟩
  rw [hp, hq]
  change z.ledger.rounds.repair = _
  rw [hz, hy]
  change x.ledger.rounds.repair = _
  rw [hx, hrounds]

theorem ensures_repair {p : Point} {previous : Verified} (hp : p = .refused ∨ p = .objected)
    (hs : At e ⟨p, false, n, f, since⟩ S s.ledger) :
    (repair e previous).Ensures s (Legal e)
      (fun v t => At e ⟨.written, true, n, v.changeSet.fingerprint, since⟩ S t.ledger ∧
        0 < t.ledger.rounds.repair) (Ends e) := by
  refine ensures_bind (harmless_beforeCall s _ S hs) ?_
  rintro - t ⟨ht, -⟩
  refine ensures_bind ensures_record ?_
  rintro - u hu
  have hwriting : At e ⟨.writing, true, n, f, since⟩ S u.ledger := by
    rw [hu]
    exact (hs.same ht).note rfl (.repairing hp (hs.same ht).sound.follows) (by simp)
  refine ensures_bind (harmless_runVerifiedRepair u _ S hwriting) ?_
  intro v x hx
  refine ensures_bind ensures_record ?_
  rintro - y hy
  have hwritten : At e ⟨.written, true, n, v.changeSet.fingerprint, since⟩ S y.ledger := by
    rw [hy]
    exact (hwriting.same hx).note rfl (.candidate _ (hwriting.same hx).sound.follows) (by simp)
  refine ensures_bind ensures_record ?_
  rintro - q hq
  have hq' : At e ⟨.written, true, n, v.changeSet.fingerprint, since⟩ S q.ledger := by
    rw [hq]
    exact hwritten.private ⟨rfl, rfl, rfl, rfl, rfl⟩
  refine ensures_bind (harmless_event q _ S hq') ?_
  rintro - z ⟨hz, -⟩
  refine ensures_return _ ⟨hq'.same hz, ?_⟩
  rw [hz, hq]
  exact Nat.succ_pos _

/-- What was tested is still there, if nobody else has written since. -/
def Carried (e : Env W) (since : ℕ) (f : String) (s : Loop W) : Prop :=
  since ≤ s.clock ∧ (Calm e since s.clock → fingerprintOf e s.content = some f)

theorem Carried.drifts (h : Carried e since f s) (hd : Drifts e s t) : Carried e since f t := by
  refine ⟨h.1.trans hd.1, fun hcalm => ?_⟩
  rw [hd.2 (hcalm.mono h.1 le_rfl)]
  exact h.2 (hcalm.mono le_rfl hd.1)

/-- A reading of the workspace, in peace, is a reading of what is there. -/
theorem ensures_measure {C : Loop W → Prop} {E : Halt → Loop W → Prop} :
    (measure e).Ensures s C (fun v t => Stays e s t ∧
      s.clock < t.clock ∧ (Calm e s.clock t.clock → v = e.derive s.content)) E := by
  refine ensures_bind (ensures_read (Q := fun a t => a = s ∧ t = s) ⟨rfl, rfl⟩) ?_
  rintro a t ⟨ha, ht⟩
  rw [ha, ht]
  refine ensures_bind ensures_moment ?_
  rintro m t ⟨hm, ht⟩
  rw [hm, ht]
  refine ensures_return _ ⟨⟨rfl, drifts_later⟩, Nat.lt_succ_self _, fun hcalm => ?_⟩
  have hnone : e.foreign s.clock = none := hcalm _ le_rfl (Nat.lt_succ_self _)
  rw [hnone]

theorem At.withReceipts {w : Acceptance.World} (h : At e c S l) (ha : c.point ≠ .applied)
    (hp : c.point ≠ .approved) : At e c S (l.withReceipts w) :=
  ⟨⟨h.sound.follows, h.sound.chain, h.sound.document, h.sound.backup,
    fun hpoint => (hpoint.elim ha hp).elim⟩, h.stored, h.state, h.running⟩

theorem ensures_runAcceptance {m : ℕ} {verified : Verified} {derived : Except Raised Candidate}
    (hs : At e ⟨.written, r, n, f, since⟩ S s.ledger) :
    (runAcceptance e m verified derived).Ensures s (Legal e)
      (fun report t => (At e ⟨.written, r, n, f, since⟩ S t.ledger ∧
        t.ledger.rounds = s.ledger.rounds ∧ t.clock = s.clock ∧ t.content = s.content) ∧
        ∃ c, derived = .ok c ∧ c.changeSet = verified.changeSet ∧
          report.candidateFingerprint = verified.changeSet.fingerprint) (Ends e) := by
  have hat : ∀ w, At e ⟨.written, r, n, f, since⟩ S (s.ledger.withReceipts w) := fun w =>
    hs.withReceipts (by simp) (by simp)
  refine ensures_rename (ensures_within (ensures_of_result (fun w => ⟨_, (hat w).sound⟩) ?_ ?_))
  · intro report hr
    refine ⟨⟨hat _, rfl, rfl, rfl⟩, ?_⟩
    obtain ⟨c, hgates, hreport⟩ := Acceptance.report_of_result hr
    obtain ⟨hderive, hsame⟩ := Acceptance.gates_ok hgates
    exact ⟨c, mapError_ok.1 hderive, hsame.symm, by rw [hreport, ← hsame]⟩
  · exact fun _ w => ends_of_admissible (admissible_translate _) (hat w)

theorem ensures_accept {verified : Verified} {mayRepair : Bool}
    (hs : At e ⟨.written, r, n, verified.changeSet.fingerprint, since⟩ S s.ledger) :
    (accept e verified mayRepair).Ensures s (Legal e)
      (fun report t => t.ledger.rounds = s.ledger.rounds ∧
        match report with
        | some _ => ∃ u, At e ⟨.tested, r, n, verified.changeSet.fingerprint, u⟩ S t.ledger ∧
            Carried e u verified.changeSet.fingerprint t
        | none => mayRepair = true ∧ t.ledger.rounds.repair < e.task.repairCap ∧
            At e ⟨.refused, r, n, verified.changeSet.fingerprint, since⟩ S t.ledger) (Ends e) := by
  refine ensures_bind ensures_record ?_
  rintro - s₁ h₁
  have hs₁ : At e ⟨.written, r, n, verified.changeSet.fingerprint, since⟩ S s₁.ledger := by
    rw [h₁]
    exact hs.private ⟨rfl, rfl, rfl, rfl, rfl⟩
  refine ensures_bind (harmless_assertClock s₁ _ S hs₁) ?_
  rintro - s₂ ⟨h₂, -⟩
  refine ensures_bind (harmless_event s₂ _ S (hs₁.same h₂)) ?_
  rintro - s₃ ⟨h₃, -⟩
  refine ensures_bind (ensures_read (Q := fun a t => a = s₃ ∧ t = s₃) ⟨rfl, rfl⟩) ?_
  rintro a t ⟨ha, ht⟩
  rw [ha, ht]
  have hs₃ := (hs₁.same h₂).same h₃
  refine ensures_bind ensures_measure ?_
  rintro derived s₄ ⟨h₄, hlt, hderived⟩
  refine ensures_bind (harmless_moment s₄ _ S (hs₃.same h₄.1)) ?_
  rintro m s₅ h₅
  have hs₅ := (hs₃.same h₄.1).same h₅.1
  refine ensures_bind (ensures_runAcceptance hs₅) ?_
  rintro report s₆ ⟨⟨hs₆, hrounds, hclock, hcontent⟩, candidate, hcandidate, hsame, hreport⟩
  have hrounds' : s₆.ledger.rounds = s.ledger.rounds := by
    rw [hrounds, h₅.1, h₄.1, h₃, h₂, h₁]
    rfl
  have hcarried : Carried e s₃.clock verified.changeSet.fingerprint s₆ := by
    have hdrift := h₄.2.trans h₅.2
    refine ⟨by rw [hclock]; exact hdrift.1, fun hcalm => ?_⟩
    rw [hclock] at hcalm
    have hread := hderived (hcalm.mono le_rfl h₅.2.1)
    rw [hcontent, hdrift.2 hcalm, fingerprintOf, ← hread, hcandidate, ← hsame]
  split
  · -- the acceptance passed
    refine ensures_bind ensures_record ?_
    rintro - s₇ h₇
    have hs₇ : At e ⟨.tested, r, n, verified.changeSet.fingerprint, s₃.clock⟩ S s₇.ledger := by
      rw [h₇, hreport]
      exact hs₆.note rfl (.accepted _ hs₆.sound.follows) (by simp)
    refine ensures_bind (harmless_event s₇ _ S hs₇) ?_
    rintro - s₈ ⟨h₈, hdrift₈⟩
    refine ensures_bind ensures_record ?_
    rintro - s₉ h₉
    refine ensures_return _ ⟨?_, s₃.clock, ?_, ?_⟩
    · rw [h₉]
      change s₈.ledger.rounds = _
      rw [h₈, h₇]
      exact hrounds'
    · rw [h₉]
      exact (hs₇.same h₈).private ⟨rfl, rfl, rfl, rfl, rfl⟩
    · have hcarried₇ : Carried e s₃.clock verified.changeSet.fingerprint s₇ := by
        rw [h₇]
        exact hcarried
      rw [h₉]
      exact hcarried₇.drifts hdrift₈
  · -- it failed
    refine ensures_bind ensures_record ?_
    rintro - s₇ h₇
    have hs₇ : At e ⟨.refused, r, n, verified.changeSet.fingerprint, since⟩ S s₇.ledger := by
      rw [h₇]
      exact hs₆.note rfl (.refused hs₆.sound.follows) (by simp)
    refine ensures_bind ensures_look ?_
    rintro l t ⟨hl, ht⟩
    rw [hl, ht]
    refine ensures_bind (harmless_event s₇ _ S hs₇) ?_
    rintro - s₈ ⟨h₈, -⟩
    refine ensures_bind (ensures_require (hs₇.same h₈) (.inl rfl)) ?_
    rintro - t ⟨⟨hdiagnostics, hcap⟩, ht⟩
    rw [ht]
    refine ensures_return _ ⟨?_, ?_, ?_, hs₇.same h₈⟩
    · rw [h₈, h₇]
      exact hrounds'
    · cases mayRepair with
      | true => rfl
      | false => exact absurd hdiagnostics (by simp)
    · rw [h₈]
      exact hcap

theorem ensures_process {α : Type} {answers : ℕ → Except Raised α} {C : Loop W → Prop}
    {E : Halt → Loop W → Prop} :
    (process e answers).Ensures s C (fun _ t => t.ledger = s.ledger ∧ s.clock ≤ t.clock) E := by
  refine ensures_bind ensures_moment ?_
  rintro m t ⟨-, ht⟩
  rw [ht]
  refine ensures_bind (R := fun _ t => t.ledger = s.ledger ∧ s.clock ≤ t.clock)
    (ensures_assign _ ⟨rfl, Nat.le_succ _⟩) ?_
  exact fun _ t ht => ensures_return _ ht

/-- What the two readings around a call have shown, if nobody else wrote. -/
theorem ensures_assertReadOnly {before : Candidate} (hs : At e c S s.ledger) :
    (assertReadOnly e before).Ensures s (Legal e) (fun _ t => t.ledger = s.ledger ∧
      s.clock ≤ t.clock ∧ (Calm e s.clock t.clock →
        fingerprintOf e s.content = some before.changeSet.fingerprint)) (Ends e) := by
  refine ensures_bind ensures_measure ?_
  rintro after t ⟨ht, -, hafter⟩
  refine ensures_bind (harmless_moment t _ S (hs.same ht.1)) ?_
  rintro m u hu
  have hu' := (hs.same ht.1).same hu.1
  refine ensures_bind (R := fun b v => moved before after (e.main m) = .ok b ∧ v = u)
    (ensures_ask _ (fun b hb => ⟨mapError_ok.1 hb, rfl⟩) fun x hx => ?_) ?_
  · obtain ⟨y, -, rfl⟩ := mapError_error.1 hx
    exact hu'.legal
  rintro b v ⟨hb, hv⟩
  rw [hv]
  cases b with
  | true =>
    refine ensures_bind (harmless_event u _ S hu') ?_
    rintro - x ⟨hx, -⟩
    exact ensures_raise _ ⟨.inr rfl, _, S, hu'.same hx⟩
  | false =>
    refine ensures_return _ ⟨hu.1.trans ht.1, ht.2.1.trans hu.2.1, fun hcalm => ?_⟩
    have hread := hafter (hcalm.mono le_rfl hu.2.1)
    unfold moved at hb
    split at hb
    · rename_i a m' _
      have hnot := of_decide_eq_false (Except.ok.inj hb)
      have hsame : a.changeSet.fingerprint = before.changeSet.fingerprint := by
        by_contra hne
        exact hnot (.inl hne)
      rw [fingerprintOf, ← hread]
      exact congrArg some hsame
    · cases hb
    · cases hb
    · cases hb
    · cases hb

def Reply.point : Reply → Point
  | .approved => .agreed
  | .changesRequested _ _ => .objected
  | _ => .ended

theorem Follows.judged {l : List (Event W)} {start finish : W} {shown : ℕ} {reply : Reply}
    (h : Follows e l ⟨.reading, r, n, f, since⟩) (hr : Read e since shown f start finish) :
    Follows e (.judged start finish shown reply :: l) ⟨reply.point, r, n, f, since⟩ := by
  cases reply with
  | approved => exact .agreed start finish shown h hr
  | changesRequested fs hfs => exact .objected start finish shown fs hfs h
  | blocked reason fs => exact .blocked start finish shown reason fs h
  | failed reason fs => exact .failed start finish shown reason fs h

/-- What a reply comes to. A false answer is an objection the budget can pay for. -/
theorem ensures_verdict {reply : Reply} (hs : At e c S s.ledger) :
    (verdict e reply).Ensures s (Legal e) (fun approved t =>
      t.ledger.rounds = s.ledger.rounds ∧ At e c S t.ledger ∧
      if approved then reply.point = .agreed
      else reply.point = .objected ∧ t.ledger.rounds.repair < e.task.repairCap) (Ends e) := by
  refine ensures_bind (harmless_event s _ S hs) ?_
  rintro - t ⟨ht, -⟩
  have ht' := hs.same ht
  cases reply with
  | approved => exact ensures_return _ ⟨by rw [ht], ht', rfl⟩
  | blocked reason fs => exact ensures_raise _ ⟨.inl rfl, c, S, ht'⟩
  | failed reason fs => exact ensures_raise _ ⟨.inl rfl, c, S, ht'⟩
  | changesRequested fs hfs =>
    refine ensures_bind ensures_look ?_
    rintro l u ⟨hl, hu⟩
    rw [hl, hu]
    refine ensures_bind (ensures_require ht' (.inl rfl)) ?_
    rintro - u ⟨-, hu⟩
    rw [hu]
    refine ensures_bind ensures_record ?_
    rintro - v hv
    have hv' : At e c S v.ledger := by
      rw [hv]
      exact ht'.private ⟨rfl, rfl, rfl, rfl, rfl⟩
    refine ensures_bind (ensures_require hv' (.inl rfl)) ?_
    rintro - u ⟨-, hu⟩
    rw [hu]
    refine ensures_bind ensures_record ?_
    rintro - x hx
    have hx' : At e c S x.ledger := by
      rw [hx]
      exact hv'.private ⟨rfl, rfl, rfl, rfl, rfl⟩
    have hrounds : x.ledger.rounds = t.ledger.rounds := by
      rw [hx, hv]
      rfl
    refine ensures_bind (ensures_require hx' (.inl rfl)) ?_
    rintro - u ⟨hcap, hu⟩
    rw [hu]
    refine ensures_return _ ⟨by rw [hrounds, ht], hx', rfl, ?_⟩
    rw [hrounds]
    exact hcap

theorem ensures_audit (hs : At e ⟨.tested, r, n, f, since⟩ S s.ledger)
    (hc : Carried e since f s) :
    (audit e).Ensures s (Legal e) (fun approved t =>
      t.ledger.rounds.repair = s.ledger.rounds.repair ∧
      if approved then At e ⟨.agreed, r, n + 1, f, since⟩ S t.ledger
      else t.ledger.rounds.repair < e.task.repairCap ∧
        At e ⟨.objected, r, n + 1, f, since⟩ S t.ledger) (Ends e) := by
  refine ensures_bind ensures_look ?_
  rintro l t ⟨-, ht⟩
  rw [ht]
  refine ensures_bind (ensures_require hs (.inl rfl)) ?_
  rintro - t ⟨-, ht⟩
  rw [ht]
  refine ensures_bind (harmless_beforeCall s _ S hs) ?_
  rintro - s₁ h₁
  have hs₁ := hs.same h₁.1
  refine ensures_bind (harmless_guarded s₁ _ S hs₁) ?_
  rintro - s₂ h₂
  have hs₂ := hs₁.same h₂.1
  have hc₂ := (hc.drifts h₁.2).drifts h₂.2
  refine ensures_bind ensures_measure ?_
  rintro reading s₃ ⟨h₃, -, hreading⟩
  have hs₃ := hs₂.same h₃.1
  refine ensures_bind (ensures_raised hs₃) ?_
  rintro before t ⟨hbefore, ht⟩
  rw [ht]
  refine ensures_bind (harmless_moment s₃ _ S hs₃) ?_
  rintro m s₄ h₄
  have hs₄ := hs₃.same h₄.1
  have hc₄ := (hc₂.drifts h₃.2).drifts h₄.2
  refine ensures_bind (ensures_read (Q := fun a t => a = s₄ ∧ t = s₄) ⟨rfl, rfl⟩) ?_
  rintro a t ⟨ha, ht⟩
  rw [ha, ht]
  refine ensures_bind ensures_record ?_
  rintro - s₅ h₅
  have hs₅ : At e ⟨.reading, r, n + 1, f, since⟩ S s₅.ledger := by
    rw [h₅]
    exact hs₄.note rfl (.auditing _ hs₄.sound.follows) (by simp)
  refine ensures_bind ensures_process ?_
  rintro outcome s₆ ⟨h₆, hclock₆⟩
  have hs₆ := hs₅.same h₆
  refine ensures_bind (ensures_read (Q := fun a t => a = s₆ ∧ t = s₆) ⟨rfl, rfl⟩) ?_
  rintro a t ⟨ha, ht⟩
  rw [ha, ht]
  refine ensures_bind (ensures_assertReadOnly hs₆) ?_
  rintro - s₇ ⟨h₇, hclock₇, hfinish⟩
  have hs₇ := hs₆.same h₇
  refine ensures_bind (ensures_read (Q := fun a t => a = s₇ ∧ t = s₇) ⟨rfl, rfl⟩) ?_
  rintro a t ⟨ha, ht⟩
  rw [ha, ht]
  have hclock₅ : s₅.clock = s₄.clock := by rw [h₅]; rfl
  have hread : Read e since s₇.clock f s₄.content s₆.content := by
    intro hcalm
    have h₃₇ : s₃.clock ≤ s₇.clock :=
      h₄.2.1.trans ((hclock₅ ▸ hclock₆).trans hclock₇)
    have hstart := hc₄.2 (hcalm.mono le_rfl ((hclock₅ ▸ hclock₆).trans hclock₇))
    have hfound := hc₂.2 (hcalm.mono le_rfl (h₃.2.1.trans h₃₇))
    have hsame := hreading (hcalm.mono hc₂.1 h₃₇)
    rw [fingerprintOf, ← hsame, hbefore] at hfound
    refine ⟨hstart, ?_⟩
    rw [hfinish (hcalm.mono (hc₂.1.trans (h₃.2.1.trans (h₄.2.1.trans (hclock₅ ▸ hclock₆)))) le_rfl)]
    exact hfound
  refine ensures_bind (ensures_raised hs₇) ?_
  rintro reply t ⟨-, ht⟩
  rw [ht]
  refine ensures_bind ensures_record ?_
  rintro - s₈ h₈
  have hs₈ : At e ⟨reply.point, r, n + 1, f, since⟩ S s₈.ledger := by
    rw [h₈]
    exact hs₇.note rfl (hs₇.sound.follows.judged hread) (by cases reply <;> simp [Reply.point])
  refine ensures_bind ensures_record ?_
  rintro - s₉ h₉
  have hs₉ : At e ⟨reply.point, r, n + 1, f, since⟩ S s₉.ledger := by
    rw [h₉]
    exact hs₈.private ⟨rfl, rfl, rfl, rfl, rfl⟩
  have hrounds : s₉.ledger.rounds.repair = s.ledger.rounds.repair := by
    rw [h₉]
    change s₈.ledger.rounds.repair = _
    rw [h₈]
    change s₇.ledger.rounds.repair = _
    rw [h₇, h₆, h₅]
    change s₄.ledger.rounds.repair = _
    rw [h₄.1, h₃.1, h₂.1, h₁.1]
  refine ensures_bind (harmless_event s₉ _ S hs₉) ?_
  rintro - s₁₀ ⟨h₁₀, -⟩
  refine ensures_mono (ensures_verdict (hs₉.same h₁₀)) (fun _ h => h) ?_ fun _ _ h => h
  rintro approved t ⟨hrounds', hat, hpoint⟩
  refine ⟨by rw [hrounds', h₁₀, hrounds], ?_⟩
  cases approved with
  | true =>
    rw [if_pos rfl] at hpoint ⊢
    rw [← hpoint]
    exact hat
  | false =>
    rw [if_neg (by decide)] at hpoint ⊢
    rw [← hpoint.1]
    exact ⟨hpoint.2, hat⟩

end RagPipeline.Runner
