import RagPipeline.Index.Promote
import RagPipeline.Lib.Transition

/-! # Archive, retention and purge

`set_document_archived` and the operations retention has on a document: its
policy, its legal holds, the scheduling of a purge, and the three calls of the
purge worker. A claim is not committed by itself: it holds the locks of the
document and of the job until the same transaction completes or fails. -/

set_option autoImplicit false

namespace RagPipeline.Index
open Guard Table

def dayMicroseconds : Time := 86400000000

def Store.retentionDays (s : Store) : ℕ :=
  match s.policy with
  | none => 365
  | some policy => policy.archiveRetentionDays

def Store.retentionRevision (s : Store) : ℕ :=
  match s.policy with
  | none => 1
  | some policy => policy.revision

/-- From when on a document archived at this time may be purged. -/
def Store.eligibleAt (s : Store) (archivedAt : Time) : Time :=
  archivedAt + s.retentionDays * dayMicroseconds

section
variable [Deployment]

/-- Returns nothing for a document that is not there. -/
def setDocumentArchived (archived : Bool) (now : Time) (s : Store) :
    Except Refusal (Store × Option (Option Time)) :=
  match s.document with
  | none => .ok (s, none)
  | some d => do
    require (d.purgedAt = none) (.lifecycleConflict "purged belge yasam dongusune geri donemez")
    if d.archivedAt.isSome = archived then return (s, some d.archivedAt)
    else do
      require (¬ s.hasActiveJob) (.lifecycleConflict
        "etkin ingest job varken belge yasam dongusu degisemez")
      require (d.attemptId = none) (.lifecycleConflict
        "aktif ingest denemesi varken belge yasam dongusu degisemez")
      let archivedAt := if archived then some now else none
      let s ← s.updateDocument d { d with archivedAt := archivedAt }
      return (s, some archivedAt)

theorem setDocumentArchived_ok {archived : Bool} {now : Time} {s : Store}
    {r : Store × Option (Option Time)} (h : setDocumentArchived archived now s = .ok r) :
    r.1 = s ∨ ∃ d, s.document = some d ∧ d.purgedAt = none ∧ d.attemptId = none ∧
      ¬ s.hasActiveJob ∧ d.archivedAt.isSome ≠ archived ∧
      r.1 = s.withDocument { d with archivedAt := if archived then some now else none } := by
  unfold setDocumentArchived at h
  cases hd : s.document with
  | none =>
    rw [hd] at h
    exact .inl (by rw [← Except.ok.inj h])
  | some d =>
    simp only [hd, bind_ok, require_ok, exists_unit] at h
    obtain ⟨hp, h⟩ := h
    split at h
    case isTrue => exact .inl (by rw [← Except.ok.inj h])
    case isFalse hne =>
      simp only [bind_ok, require_ok, exists_unit, pure_ok] at h
      obtain ⟨hjob, hatt, s1, hup, rfl⟩ := h
      rw [updateDocument_ok (by rfl)] at hup
      obtain ⟨-, rfl⟩ := hup
      exact .inr ⟨d, rfl, hp, hatt, hjob, hne, rfl⟩

/-- `_lock_retention_architect`: the caller is an active architect of the
tenant, and saw its current policy epoch. -/
def lockRetentionArchitect (architect : Bool) (expectedPolicyEpoch : ℕ) (s : Store) :
    Except Refusal Unit := do
  require (architect = true) (.retentionRefused "retention mimari yetkisi yok")
  require (s.policyEpoch = expectedPolicyEpoch) (.orgPolicyConflict
    "organizasyon politikasi degisti")

def updateTenantRetentionPolicy (architect : Bool) (days expectedRevision expectedPolicyEpoch : ℕ)
    (s : Store) : Except Refusal Store := do
  require (1 ≤ days ∧ days ≤ 3650) (.retentionRefused "archive_retention_days gecersiz")
  lockRetentionArchitect architect expectedPolicyEpoch s
  require (s.retentionRevision = expectedRevision) (.retentionPolicyConflict
    "retention politikasi degisti")
  return { s with
    policy := some ⟨days, expectedRevision + 1⟩
    policyEpoch := s.policyEpoch + 1 }

def createDocumentLegalHold (architect : Bool) (hold : Uuid)
    (expectedRevision expectedPolicyEpoch : ℕ) (s : Store) : Except Refusal Store := do
  lockRetentionArchitect architect expectedPolicyEpoch s
  let d ← demand s.document (.retentionRefused "belge bulunamadi")
  require (d.purgedAt = none) (.retentionRefused "purged belge hold alamaz")
  require (d.revision = expectedRevision) (.versionConflict "belge revizyonu degisti")
  return { s with
    holds := s.holds ++ [⟨hold, .active, 1⟩]
    purgeJobs := updateWhere (fun job => job.state = .pending)
      (fun job => { job with state := .cancelled }) s.purgeJobs
    policyEpoch := s.policyEpoch + 1 }

def releaseDocumentLegalHold (architect : Bool) (hold : Uuid)
    (expectedRevision expectedPolicyEpoch : ℕ) (s : Store) : Except Refusal Store := do
  lockRetentionArchitect architect expectedPolicyEpoch s
  let row ← demand (s.holds.find? fun h => h.id = hold) (.retentionRefused
    "legal hold bulunamadi")
  require (row.state = .active) (.retentionRefused "legal hold aktif degil")
  require (row.revision = expectedRevision) (.versionConflict "legal hold revizyonu degisti")
  return { s with
    holds := updateWhere (fun h => h.id = hold)
      (fun h => { h with state := .released, revision := h.revision + 1 }) s.holds
    policyEpoch := s.policyEpoch + 1 }

def PurgeJobRow.open (job : PurgeJobRow) : Prop := job.state = .pending ∨ job.state = .running

instance (job : PurgeJobRow) : Decidable job.open := inferInstanceAs (Decidable (_ ∨ _))

/-- The last check is the unique index on open jobs. -/
def scheduleDocumentPurge (architect : Bool) (job : Uuid)
    (expectedRevision expectedPolicyEpoch : ℕ) (now : Time) (s : Store) :
    Except Refusal Store := do
  lockRetentionArchitect architect expectedPolicyEpoch s
  let d ← demand s.document (.retentionRefused "belge bulunamadi")
  require (d.revision = expectedRevision) (.versionConflict "belge revizyonu degisti")
  require (d.purgedAt = none) (.retentionRefused "belge zaten purged")
  let archivedAt ← demand d.archivedAt (.retentionRefused "aktif belge purge edilemez")
  require (d.attemptId = none) (.retentionRefused "aktif ingest purge'u engelliyor")
  require (¬ s.hasActiveJob) (.retentionRefused "aktif ingest purge'u engelliyor")
  require (¬ s.held) (.retentionRefused "legal hold purge'u engelliyor")
  require (s.eligibleAt archivedAt ≤ now) (.retentionRefused "retention suresi dolmadi")
  require (∀ other ∈ s.purgeJobs, ¬ other.open) (.databaseError "document_purge_jobs_open_idx")
  return { s with
    purgeJobs := s.purgeJobs ++ [⟨job, .pending, s.eligibleAt archivedAt, s.retentionRevision,
      s.policyEpoch, d.revision, 0, none, none⟩] }

/-- The gates of a claim, on the document and beside it. -/
def Store.purgeable (s : Store) (d : DocumentRow) : Prop :=
  d.archivedAt ≠ none ∧ d.purgedAt = none ∧ d.attemptId = none ∧ ¬ s.hasActiveJob ∧ ¬ s.held

instance (s : Store) (d : DocumentRow) : Decidable (s.purgeable d) := by
  unfold Store.purgeable
  infer_instance

def PurgeJobRow.due (job : PurgeJobRow) (maxAttempts : ℕ) (now : Time) : Prop :=
  job.state = .pending ∧ job.eligibleAt ≤ now ∧ job.attemptCount < maxAttempts

instance (job : PurgeJobRow) (maxAttempts : ℕ) (now : Time) :
    Decidable (job.due maxAttempts now) := by
  unfold PurgeJobRow.due
  infer_instance

/-- What the worker gets: the job, and what it is to remove. -/
structure PurgeClaim where
  jobId : Uuid
  worker : String
  filename : String
  versionIds : List Uuid
deriving DecidableEq, Repr

/-- One due job. A document has one open job at most, so their order does not
matter. -/
def claimDocumentPurge (worker : String) (maxAttempts : ℕ) (now : Time) (s : Store) :
    Option (Store × PurgeClaim) := do
  let d ← s.document
  let job ← s.purgeJobs.find? fun job => job.due maxAttempts now ∧ s.purgeable d
  let purgeJobs := updateWhere (fun other => other.id = job.id)
    (fun other => { other with
      state := .running
      attemptCount := other.attemptCount + 1
      workerId := some worker
      failureCode := none }) s.purgeJobs
  return ({ s with purgeJobs := purgeJobs },
    ⟨job.id, worker, d.filename, s.versions.map VersionRow.id⟩)

omit [Deployment] in
theorem claimDocumentPurge_some {worker : String} {maxAttempts : ℕ} {now : Time} {s : Store}
    {r : Store × PurgeClaim} (h : claimDocumentPurge worker maxAttempts now s = some r) :
    ∃ d job, s.document = some d ∧ job ∈ s.purgeJobs ∧ job.due maxAttempts now ∧ s.purgeable d ∧
      r.1 = { s with
        purgeJobs := updateWhere (fun other => other.id = job.id)
          (fun other => { other with
            state := .running
            attemptCount := other.attemptCount + 1
            workerId := some worker
            failureCode := none }) s.purgeJobs } ∧
      r.2 = ⟨job.id, worker, d.filename, s.versions.map VersionRow.id⟩ := by
  simp only [claimDocumentPurge, Option.bind_eq_bind, Option.bind_eq_some_iff, Option.pure_def,
    Option.some.injEq] at h
  obtain ⟨d, hd, job, hjob, rfl⟩ := h
  have hgate := List.find?_some hjob
  simp only [decide_eq_true_eq] at hgate
  exact ⟨d, job, hd, List.mem_of_find?_eq_some hjob, hgate.1, hgate.2, rfl, rfl⟩

def DocumentRow.purged (d : DocumentRow) (now : Time) : DocumentRow :=
  { d with
    filename := "purged-" ++ Deployment.documentId
    fileType := "purged"
    status := "purged"
    statusNote := none
    contentSha256 := none
    candidateId := none
    candidateState := none
    activeContentSha := none
    activeVersionId := none
    activeGeneration := 0
    attemptId := none
    attemptOwner := none
    attemptExpiresAt := none
    purgedAt := some now
    revision := d.revision + 1 }

def runningPurge (job : Uuid) (worker : String) (s : Store) : Except Refusal Unit :=
  require (∃ row ∈ s.purgeJobs, row.id = job ∧ row.state = .running ∧ row.workerId = some worker)
    (.purgeJobOwnershipLost "purge isi bu worker'a ait degil")

def completeDocumentPurge (job : Uuid) (worker : String) (now : Time) (s : Store) :
    Except Refusal Store := do
  runningPurge job worker s
  let d ← demand s.document (.retentionRefused "purge belge kapisi degisti")
  require (d.archivedAt ≠ none ∧ d.purgedAt = none ∧ d.attemptId = none)
    (.retentionRefused "purge belge kapisi degisti")
  require (¬ s.held ∧ ¬ s.hasActiveJob) (.retentionRefused "purge kapisi yeniden kapandi")
  let s := { s with chunks := [] }
  let s ← s.updateDocument d (d.purged now)
  let s ← recordVersionActivation d (d.purged now) s
  return { s with
    purgeJobs := updateWhere (fun row => row.id = job ∧ row.workerId = some worker)
      (fun row => { row with state := .completed, failureCode := none }) s.purgeJobs }

theorem recordVersionActivation_purged {d : DocumentRow} {now : Time} {s : Store}
    (h : d.purgedAt = none) : recordVersionActivation d (d.purged now) s = .ok s := by
  unfold recordVersionActivation
  split
  · rfl
  · rw [if_pos ⟨by simp [DocumentRow.purged], h, rfl⟩]

theorem tombstone_purged {d : DocumentRow} {now : Time} (h : d.archivedAt ≠ none) :
    (d.purged now).tombstone :=
  ⟨h, rfl, rfl, rfl, rfl, rfl, rfl, rfl, rfl, rfl, rfl, rfl⟩

theorem completeDocumentPurge_ok {job : Uuid} {worker : String} {now : Time} {s s' : Store} :
    completeDocumentPurge job worker now s = .ok s' ↔
      runningPurge job worker s = .ok () ∧ ∃ d, s.document = some d ∧ d.archivedAt ≠ none ∧
        d.purgedAt = none ∧ d.attemptId = none ∧ ¬ s.held ∧ ¬ s.hasActiveJob ∧
        s' = { s with
          document := some (d.purged now)
          chunks := []
          purgeJobs := updateWhere (fun row => row.id = job ∧ row.workerId = some worker)
            (fun row => { row with state := .completed, failureCode := none }) s.purgeJobs } := by
  have hup {t : Store} {d : DocumentRow} (harch : d.archivedAt ≠ none) (hp : d.purgedAt = none) :
      t.updateDocument d (d.purged now) = .ok (t.withDocument (d.purged now)) := by
    rw [Store.updateDocument, require_true (.inl hp),
      require_true (.inr (.inr (tombstone_purged harch)))]
    rfl
  simp only [completeDocumentPurge, bind_ok, demand_ok, require_ok, exists_unit, pure_ok]
  constructor
  · rintro ⟨hrun, d, hd, ⟨harch, hp, hatt⟩, ⟨hheld, hjob⟩, s1, h1, s2, h2, rfl⟩
    rw [hup harch hp, Except.ok.injEq] at h1
    subst h1
    rw [recordVersionActivation_purged hp, Except.ok.injEq] at h2
    subst h2
    exact ⟨hrun, d, hd, harch, hp, hatt, hheld, hjob, rfl⟩
  · rintro ⟨hrun, d, hd, harch, hp, hatt, hheld, hjob, rfl⟩
    exact ⟨hrun, d, hd, ⟨harch, hp, hatt⟩, ⟨hheld, hjob⟩, _, hup harch hp, _,
      recordVersionActivation_purged hp, rfl⟩

def failDocumentPurge (job : Uuid) (worker failureCode : String) (s : Store) :
    Except Refusal Store := do
  require (failureCode ∈ ["storage_refused", "storage_unavailable"])
    (.retentionRefused "purge hata kodu gecersiz")
  runningPurge job worker s
  return { s with
    purgeJobs := updateWhere (fun row => row.id = job)
      (fun row => { row with state := .failed, failureCode := some failureCode }) s.purgeJobs }

end

section
variable {s s' : Store}

theorem updateTenantRetentionPolicy_ok {architect : Bool}
    {days expectedRevision expectedPolicyEpoch : ℕ}
    (h : updateTenantRetentionPolicy architect days expectedRevision expectedPolicyEpoch s =
      .ok s') : s' = { s with
        policy := some ⟨days, expectedRevision + 1⟩
        policyEpoch := s.policyEpoch + 1 } := by
  simp only [updateTenantRetentionPolicy, bind_ok, require_ok, exists_unit, pure_ok] at h
  exact h.2.2.2.symm

theorem createDocumentLegalHold_ok {architect : Bool} {hold : Uuid}
    {expectedRevision expectedPolicyEpoch : ℕ}
    (h : createDocumentLegalHold architect hold expectedRevision expectedPolicyEpoch s = .ok s') :
    ∃ d, s.document = some d ∧ d.purgedAt = none ∧ d.revision = expectedRevision ∧
      s' = { s with
        holds := s.holds ++ [⟨hold, .active, 1⟩]
        purgeJobs := updateWhere (fun job => job.state = .pending)
          (fun job => { job with state := .cancelled }) s.purgeJobs
        policyEpoch := s.policyEpoch + 1 } := by
  simp only [createDocumentLegalHold, bind_ok, demand_ok, require_ok, exists_unit, pure_ok] at h
  obtain ⟨-, d, hd, hp, hrev, rfl⟩ := h
  exact ⟨d, hd, hp, hrev, rfl⟩

theorem releaseDocumentLegalHold_ok {architect : Bool} {hold : Uuid}
    {expectedRevision expectedPolicyEpoch : ℕ}
    (h : releaseDocumentLegalHold architect hold expectedRevision expectedPolicyEpoch s = .ok s') :
    s' = { s with
      holds := updateWhere (fun h => h.id = hold)
        (fun h => { h with state := .released, revision := h.revision + 1 }) s.holds
      policyEpoch := s.policyEpoch + 1 } := by
  simp only [releaseDocumentLegalHold, bind_ok, demand_ok, require_ok, exists_unit, pure_ok] at h
  obtain ⟨-, row, -, -, -, rfl⟩ := h
  rfl

theorem scheduleDocumentPurge_ok {architect : Bool} {job : Uuid}
    {expectedRevision expectedPolicyEpoch : ℕ} {now : Time}
    (h : scheduleDocumentPurge architect job expectedRevision expectedPolicyEpoch now s = .ok s') :
    ∃ d archivedAt, s.document = some d ∧ d.purgedAt = none ∧ d.archivedAt = some archivedAt ∧
      d.attemptId = none ∧ ¬ s.hasActiveJob ∧ ¬ s.held ∧ s.eligibleAt archivedAt ≤ now ∧
      (∀ other ∈ s.purgeJobs, ¬ other.open) ∧
      s' = { s with
        purgeJobs := s.purgeJobs ++ [⟨job, .pending, s.eligibleAt archivedAt, s.retentionRevision,
          s.policyEpoch, d.revision, 0, none, none⟩] } := by
  simp only [scheduleDocumentPurge, bind_ok, demand_ok, require_ok, exists_unit, pure_ok] at h
  obtain ⟨-, d, hd, -, hp, archivedAt, harch, hatt, hjob, hheld, hdue, hopen, rfl⟩ := h
  exact ⟨d, archivedAt, hd, hp, harch, hatt, hjob, hheld, hdue, hopen, rfl⟩

theorem failDocumentPurge_ok {job : Uuid} {worker failureCode : String}
    (h : failDocumentPurge job worker failureCode s = .ok s') :
    s' = { s with
      purgeJobs := updateWhere (fun row => row.id = job)
        (fun row => { row with state := .failed, failureCode := some failureCode })
        s.purgeJobs } := by
  simp only [failDocumentPurge, bind_ok, require_ok, exists_unit, pure_ok] at h
  exact h.2.2.symm

end

end RagPipeline.Index

/-! # The transactions of a document

Every committed transaction that touches a document, as a labelled step. Each
of them takes the lock of the document row before it writes, so a run is some
order of whole transactions. What a run handed out and promoted is recorded
beside the store. -/

namespace RagPipeline.Index
open Guard Table Transition

inductive Action where
  | stage (filename fileType : String) (sha : Option String) (allowReplace fresh : Bool)
      (candidate : Uuid) (now : Time)
  | finalize (candidate : Uuid)
  | begin (owner : String) (job : Option (Uuid × String)) (attempt : Uuid) (now : Time)
  | heartbeat (a : IngestAttempt) (now : Time)
  | recordOutcome (a : IngestAttempt) (status : AttemptOutcome) (note : Option String) (now : Time)
  | allocate (a : IngestAttempt)
  | upsert (rows : List (PreparedRow × Vectors)) (a : IngestAttempt)
  | copy (rows : List PreparedRow) (a : IngestAttempt)
  | promote (generation expectedActive : ℕ) (manifestIds : List String) (sha : String)
      (candidate attempt : Uuid) (now : Time)
  | activate (version : Uuid) (expectedRevision : ℕ) (sha : String)
  | archive (archived : Bool) (now : Time)
  | setPolicy (architect : Bool) (days expectedRevision expectedPolicyEpoch : ℕ)
  | hold (architect : Bool) (id : Uuid) (expectedRevision expectedPolicyEpoch : ℕ)
  | release (architect : Bool) (id : Uuid) (expectedRevision expectedPolicyEpoch : ℕ)
  | schedule (architect : Bool) (job : Uuid) (expectedRevision expectedPolicyEpoch : ℕ) (now : Time)
  | purge (worker : String) (maxAttempts : ℕ) (now : Time)
  | failPurge (worker failureCode : String) (maxAttempts : ℕ) (now : Time)
  /-- The queue is served elsewhere; here it may change in any way. -/
  | queue (jobs : List IngestJobRow)

/-- What a promotion was asked to serve. -/
structure Promotion where
  version : Uuid
  generation : ℕ
  manifest : Finset String
deriving DecidableEq

structure World where
  store : Store
  /-- Every generation handed out, and to which attempt. -/
  allocated : List (Uuid × ℕ)
  promoted : List Promotion

namespace World

def empty : World := ⟨⟨none, [], [], [], [], [], [], [], none, 0⟩, [], []⟩

def withStore (w : World) (s : Store) : World := { w with store := s }

@[simp] theorem withStore_store (w : World) (s : Store) : (w.withStore s).store = s := rfl

end World

section
variable [Deployment]

/-- A worker claims the job of this document and, in the same transaction, ends it. -/
def claimed {α : Type} (worker : String) (maxAttempts : ℕ) (now : Time) (s : Store)
    (finish : Store → PurgeClaim → Except Refusal α) : Except Refusal α := do
  let r ← demand (claimDocumentPurge worker maxAttempts now s)
    (.purgeJobOwnershipLost "no due purge job")
  finish r.1 r.2

omit [Deployment] in
theorem claimed_ok {α : Type} {worker : String} {maxAttempts : ℕ} {now : Time} {s : Store}
    {finish : Store → PurgeClaim → Except Refusal α} {x : α} :
    claimed worker maxAttempts now s finish = .ok x ↔
      ∃ r, claimDocumentPurge worker maxAttempts now s = some r ∧ finish r.1 r.2 = .ok x := by
  simp only [claimed, bind_ok, demand_ok]

namespace Action

def perform : Action → World → Except Refusal World
  | .stage filename fileType sha allowReplace fresh candidate now, w => do
    let r ← stageCandidate filename fileType sha allowReplace fresh candidate now w.store
    return w.withStore r.1
  | .finalize candidate, w => do
    let r ← finalizeCandidatePublication candidate w.store
    return w.withStore r.1
  | .begin owner job attempt now, w => do
    let r ← beginAttempt owner job attempt now w.store
    return w.withStore r.1
  | .heartbeat a now, w => do
    let s ← heartbeatAttempt a now w.store
    return w.withStore s
  | .recordOutcome a status note now, w => do
    let s ← recordAttemptOutcome a status note now w.store
    return w.withStore s
  | .allocate a, w => do
    let r ← allocateGeneration a w.store
    return { w with store := r.1, allocated := w.allocated ++ [(a.attemptId, r.2)] }
  | .upsert rows a, w => do
    let s ← upsertChunks rows a w.store
    return w.withStore s
  | .copy rows a, w => do
    let s ← copyChunksIntoGeneration rows a w.store
    return w.withStore s
  | .promote generation expectedActive manifestIds sha candidate attempt now, w => do
    let s ← promoteGeneration generation expectedActive manifestIds sha candidate attempt now
      w.store
    return { w with
      store := s
      promoted := w.promoted ++ [⟨candidate, generation, manifestIds.toFinset⟩] }
  | .activate version expectedRevision sha, w => do
    let r ← activateDocumentVersion version expectedRevision sha w.store
    return w.withStore r.1
  | .archive archived now, w => do
    let r ← setDocumentArchived archived now w.store
    return w.withStore r.1
  | .setPolicy architect days expectedRevision expectedPolicyEpoch, w => do
    let s ← updateTenantRetentionPolicy architect days expectedRevision expectedPolicyEpoch w.store
    return w.withStore s
  | .hold architect id expectedRevision expectedPolicyEpoch, w => do
    let s ← createDocumentLegalHold architect id expectedRevision expectedPolicyEpoch w.store
    return w.withStore s
  | .release architect id expectedRevision expectedPolicyEpoch, w => do
    let s ← releaseDocumentLegalHold architect id expectedRevision expectedPolicyEpoch w.store
    return w.withStore s
  | .schedule architect job expectedRevision expectedPolicyEpoch now, w => do
    let s ← scheduleDocumentPurge architect job expectedRevision expectedPolicyEpoch now w.store
    return w.withStore s
  | .purge worker maxAttempts now, w => do
    let s ← claimed worker maxAttempts now w.store fun s claim =>
      completeDocumentPurge claim.jobId worker now s
    return w.withStore s
  | .failPurge worker failureCode maxAttempts now, w => do
    let s ← claimed worker maxAttempts now w.store fun s claim =>
      failDocumentPurge claim.jobId worker failureCode s
    return w.withStore s
  | .queue jobs, w => .ok (w.withStore { w.store with jobs := jobs })

/-- The attempt in whose name a transaction writes. -/
def actor : Action → Option Uuid
  | .heartbeat a _ => some a.attemptId
  | .recordOutcome a _ _ _ => some a.attemptId
  | .allocate a => some a.attemptId
  | .upsert _ a => some a.attemptId
  | .copy _ a => some a.attemptId
  | .promote _ _ _ _ _ attempt _ => some attempt
  | _ => none

/-- A candidate is minted by `uuid4`: no row names it yet. -/
def minted (s : Store) : Action → Prop
  | .stage _ _ _ _ _ candidate _ => ¬ s.hasVersion candidate ∧
      ∀ d, s.document = some d → d.candidateId ≠ some candidate
  | _ => True

instance (s : Store) (a : Action) : Decidable (a.minted s) := by
  cases a <;> unfold Action.minted <;> infer_instance

/-- The step as a function. -/
def exec (w : World) (a : Action) : Option World :=
  if a.minted w.store then (a.perform w).toOption else none

end Action

/-- No document yet, or one the migration left: its rows carry no version, no
attempt is running, and every candidate whose bytes are known is a version. An
id of today's form was made for a generation the counter has passed. -/
structure Migrated (s : Store) : Prop where
  idle : ∀ d, s.document = some d →
    d.attemptId = none ∧ d.activeVersionId = none ∧ d.purgedAt = none
  known : ∀ d candidate sha, s.document = some d → d.candidateId = some candidate →
    d.contentSha256 = some sha → ∃ v ∈ s.versions, v.id = candidate ∧ v.contentSha256 = sha
  absent : s.document = none → s.versions = [] ∧ s.attempts = [] ∧ s.chunks = []
  versionIds : (s.versions.map VersionRow.id).Nodup
  digests : ∀ v ∈ s.versions, isDigest v.contentSha256
  attemptIds : (s.attempts.map AttemptRow.attemptId).Nodup
  closed : ∀ a ∈ s.attempts, a.status ≠ none
  candidates : ∀ a ∈ s.attempts, s.hasVersion a.candidateId
  unversioned : ∀ c ∈ s.chunks, c.versionId = none
  ids : ∀ row ∈ s.chunks, ∀ c index generation, row.id = chunkId c index generation →
    ∀ d, s.document = some d → generation ≤ d.lastGeneration
  chunkIds : (s.chunks.map ChunkRow.id).Nodup
  builds : s.builds = []
  holds : s.holds = []
  purgeJobs : s.purgeJobs = []

def documentSystem : System World Action where
  initial w := Migrated w.store ∧ w.allocated = [] ∧ w.promoted = []
  step w a w' := a.minted w.store ∧ a.perform w = .ok w'

theorem exec_step {w w' : World} {a : Action} (h : a.exec w = some w') :
    documentSystem.step w a w' := by
  unfold Action.exec at h
  split at h
  case isTrue hminted =>
    refine ⟨hminted, ?_⟩
    cases hp : a.perform w with
    | ok t =>
      rw [hp] at h
      exact congrArg Except.ok (Option.some.inj h)
    | error e =>
      rw [hp] at h
      cases h
  case isFalse => cases h

theorem empty_initial : documentSystem.initial World.empty := by
  refine ⟨?_, rfl, rfl⟩
  constructor <;> simp [World.empty]

/-- What a run of computed steps reaches from nothing. -/
theorem reachable_exec {w : World} {l : List Action}
    (h : System.play Action.exec World.empty l = some w) : documentSystem.Reachable w :=
  System.reachable_play (fun _ _ _ => exec_step) (.start empty_initial) h

end

end RagPipeline.Index
