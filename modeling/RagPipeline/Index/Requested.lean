import RagPipeline.Index.OneAttempt

/-! # Where a purge comes from

A worker purges on the strength of a job that may have waited long. Whatever
happened in between, the job was asked for in its time, and no hold was placed
since. -/

set_option autoImplicit false

namespace RagPipeline.Index
open Guard Table Transition

/-- A purge is asked for: nothing stands against it, and the retention of the
document is over. -/
def Action.asksFor (s : Store) (eligibleAt : Time) : Action → Prop
  | .schedule _ _ _ _ now => ∃ d archivedAt, s.document = some d ∧ s.purgeable d ∧
      d.archivedAt = some archivedAt ∧ eligibleAt = s.eligibleAt archivedAt ∧ eligibleAt ≤ now
  | _ => False

def Action.isHold : Action → Bool
  | .hold _ _ _ _ => true
  | _ => false

section
variable [Deployment] {w w' : World}

/-- It was asked for on the way here, and no hold was placed since. -/
def Requested (eligibleAt : Time) (w : World) : Prop :=
  ∃ w₁ a w₂, documentSystem.Reachable w₁ ∧ documentSystem.step w₁ a w₂ ∧
    a.asksFor w₁.store eligibleAt ∧ (documentSystem.only fun _ b => b.isHold = false).Later w₂ w

omit [Deployment] in
/-- What a worker or a hold writes to the jobs never makes one wait. -/
theorem pending_updateWhere {l : List PurgeJobRow} {p : PurgeJobRow → Prop} [DecidablePred p]
    {f : PurgeJobRow → PurgeJobRow} {job : PurgeJobRow} (hf : ∀ row, (f row).state ≠ .pending)
    (hjob : job ∈ updateWhere p f l) (hp : job.state = .pending) : job ∈ l ∧ ¬ p job := by
  rcases mem_updateWhere.1 hjob with ⟨row, -, -, rfl⟩ | h
  · exact absurd hp (hf row)
  · exact h

theorem step_pending {act : Action} {job : PurgeJobRow} (h : documentSystem.step w act w')
    (hjob : job ∈ w'.store.purgeJobs) (hp : job.state = .pending) :
    job ∈ w.store.purgeJobs ∧ act.isHold = false ∨ act.asksFor w.store job.eligibleAt := by
  obtain ⟨-, h⟩ := h
  cases act <;> simp only [Action.perform, bind_ok, pure_ok] at h
  case queue =>
    obtain rfl := Except.ok.inj h
    exact .inl ⟨hjob, rfl⟩
  all_goals obtain ⟨s, h, rfl⟩ := h
  case hold =>
    obtain ⟨d, -, -, -, rfl⟩ := createDocumentLegalHold_ok h
    obtain ⟨-, hnot⟩ := pending_updateWhere (by simp) hjob hp
    exact absurd hp hnot
  case schedule =>
    obtain ⟨d, archivedAt, hd, hlive, harch, hatt, hfree, hheld, hdue, -, rfl⟩ :=
      scheduleDocumentPurge_ok h
    rcases List.mem_append.1 hjob with hold | hnew
    · exact .inl ⟨hold, rfl⟩
    · obtain rfl := List.mem_singleton.1 hnew
      exact .inr ⟨d, archivedAt, hd, ⟨by simp [harch], hlive, hatt, hfree, hheld⟩, harch, rfl, hdue⟩
  all_goals refine .inl ⟨?_, rfl⟩
  case stage =>
    obtain ⟨d, -, -, rfl⟩ := stageCandidate_ok h
    obtain ⟨n, versions, hreg⟩ := @registerVersion_eq (w.store.withDocument d) _ _ rfl
    rwa [World.withStore_store, hreg] at hjob
  case finalize =>
    rcases finalizeCandidatePublication_ok h with ⟨heq, -⟩ | ⟨d, -, -, rfl⟩
    · rwa [heq] at hjob
    · exact hjob
  case begin =>
    obtain ⟨d, candidate, sha, -, -, -, -, -, -, -, -, -, -, hr, -⟩ := beginAttempt_ok h
    rwa [hr] at hjob
  case heartbeat =>
    obtain ⟨d, t, -, rfl⟩ := heartbeatAttempt_ok h
    exact hjob
  case recordOutcome =>
    obtain ⟨d, -, -, rfl⟩ := recordAttemptOutcome_ok h
    exact hjob
  case allocate =>
    obtain ⟨d, -, rfl⟩ := allocateGeneration_ok h
    exact hjob
  case upsert =>
    obtain ⟨d, -, rfl⟩ := upsertChunks_ok h
    exact hjob
  case copy =>
    obtain ⟨d, -, rfl⟩ := copyChunksIntoGeneration_ok h
    exact hjob
  case promote =>
    obtain ⟨-, -, -, -, d, -, -, -, -, -, t, ht, rfl⟩ := promoteGeneration_ok.1 h
    obtain ⟨builds, rfl⟩ := recordVersionActivation_frame ht
    exact hjob
  case activate =>
    rcases activateDocumentVersion_ok h with heq | ⟨d, v, b, t, -, -, -, -, -, -, -, -, -, ht, rfl⟩
    · rwa [heq] at hjob
    · obtain ⟨builds, rfl⟩ := recordVersionActivation_frame ht
      exact hjob
  case archive =>
    rcases setDocumentArchived_ok h with heq | ⟨d, -, -, -, -, -, heq⟩ <;> rwa [heq] at hjob
  case setPolicy => rwa [updateTenantRetentionPolicy_ok h] at hjob
  case release => rwa [releaseDocumentLegalHold_ok h] at hjob
  all_goals
    obtain ⟨r, hclaim, hdone⟩ := claimed_ok.1 h
    obtain ⟨d, claim, -, -, -, -, hr, -⟩ := claimDocumentPurge_some hclaim
    have hclaimed (hmem : job ∈ r.1.purgeJobs) : job ∈ w.store.purgeJobs :=
      (pending_updateWhere (by simp) (hr ▸ hmem) hp).1
  case purge =>
    obtain ⟨-, d', -, -, -, -, -, -, rfl⟩ := completeDocumentPurge_ok.1 hdone
    exact hclaimed (pending_updateWhere (by simp) hjob hp).1
  case failPurge =>
    rw [failDocumentPurge_ok hdone] at hjob
    exact hclaimed (pending_updateWhere (by simp) hjob hp).1

theorem reachable_requested (h : documentSystem.Reachable w) :
    ∀ job ∈ w.store.purgeJobs, job.state = .pending → Requested job.eligibleAt w := by
  induction h with
  | start h =>
    intro job hjob
    rw [h.1.purgeJobs] at hjob
    cases hjob
  | next hr hs ih =>
    intro job hjob hp
    rcases step_pending hs hjob hp with ⟨hmem, hhold⟩ | hasks
    · obtain ⟨w₁, a, w₂, hr₁, hs₁, hasks, hl⟩ := ih job hmem hp
      exact ⟨w₁, a, w₂, hr₁, hs₁, hasks, hl.tail ⟨_, hhold, hs⟩⟩
    · exact ⟨_, _, _, hr, hs, hasks, .refl⟩

/-- A document is purged while nothing stands against it, and on a request whose
time has come. -/
theorem purge_requested {worker : String} {maxAttempts : ℕ} {now : Time}
    (h : documentSystem.Reachable w)
    (hs : documentSystem.step w (.purge worker maxAttempts now) w') :
    ∃ d eligibleAt, w.store.document = some d ∧ w.store.purgeable d ∧ eligibleAt ≤ now ∧
      Requested eligibleAt w := by
  obtain ⟨-, hs⟩ := hs
  simp only [Action.perform, bind_ok, pure_ok] at hs
  obtain ⟨s, hs, rfl⟩ := hs
  obtain ⟨r, hclaim, -⟩ := claimed_ok.1 hs
  obtain ⟨d, job, hd, hjob, ⟨hp, hdue, -⟩, hgate, -, -⟩ := claimDocumentPurge_some hclaim
  exact ⟨d, job.eligibleAt, hd, hgate, hdue, reachable_requested h job hjob hp⟩

end

section
attribute [local instance] sampleDeployment

/-- Archived, and given up a year later. -/
def retiredRun : List Action :=
  [.stage "a.pdf" "pdf" none false true 1 0, .archive true 0,
    .schedule true 5 0 0 (365 * dayMicroseconds)]

def retiredWorld : World := (System.play Action.exec World.empty retiredRun).getD World.empty

def retire : Action := .purge "w" 3 (366 * dayMicroseconds)

theorem purge_requested_retired : ∃ d eligibleAt, retiredWorld.store.document = some d ∧
    retiredWorld.store.purgeable d ∧ eligibleAt ≤ 366 * dayMicroseconds ∧
      Requested eligibleAt retiredWorld :=
  purge_requested (reachable_exec (l := retiredRun) rfl) (exec_step (a := retire) rfl)

end

end RagPipeline.Index
