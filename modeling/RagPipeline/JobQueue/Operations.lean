import RagPipeline.Index.Store
import RagPipeline.Lib.Text
import Mathlib.Data.Int.Order.Basic
import Mathlib.Data.List.MinMax
import Mathlib.Data.Prod.Lex

/-! # The rows of the job queue

A row carries the checks of its table, so that every rewrite of one shows that
it keeps them. -/

set_option autoImplicit false

namespace RagPipeline.JobQueue
open Index

def terminal (status : JobStatus) : Bool :=
  status ∈ [.succeeded, .partially, .failed, .cancelled]

abbrev Digest := { s : String // s.length = 64 }

abbrev JobNote := { s : String // 1 ≤ s.length ∧ s.length ≤ 100 }

structure JobRow where
  id : Uuid
  documentId : Uuid
  candidateId : Uuid
  versionId : Uuid
  candidateSha : Digest
  idempotencyKey : Digest
  status : JobStatus
  attemptCount : ℕ
  workerId : Option String
  leaseExpiresAt : Option Time
  createdAt : Time
  startedAt : Option Time
  finishedAt : Option Time
  outcomeNote : Option JobNote
  owned : status = .running ↔ workerId.isSome ∧ leaseExpiresAt.isSome
  ended : terminal status = true ↔ finishedAt.isSome
deriving DecidableEq

namespace JobRow

variable {j : JobRow}

def active (j : JobRow) : Prop := j.status = .queued ∨ j.status = .running

instance (j : JobRow) : Decidable j.active := inferInstanceAs (Decidable (_ ∨ _))

theorem active_iff : j.active ↔ terminal j.status = false := by
  unfold active
  cases j.status <;> decide

def leaseLive (j : JobRow) (now : Time) : Prop := ∃ t ∈ j.leaseExpiresAt, now < t

instance (j : JobRow) (now : Time) : Decidable (j.leaseLive now) :=
  inferInstanceAs (Decidable (∃ t ∈ j.leaseExpiresAt, now < t))

/-- The guard of everything a worker does to its job. -/
def heldBy (j : JobRow) (worker : String) (now : Time) : Prop :=
  j.status = .running ∧ j.workerId = some worker ∧ j.leaseLive now

instance (j : JobRow) (worker : String) (now : Time) : Decidable (j.heldBy worker now) :=
  inferInstanceAs (Decidable (_ ∧ _))

/-- A running job whose lease is over. -/
def expired (j : JobRow) (now : Time) : Prop :=
  j.status = .running ∧ ∃ t ∈ j.leaseExpiresAt, t ≤ now

instance (j : JobRow) (now : Time) : Decidable (j.expired now) :=
  inferInstanceAs (Decidable (_ ∧ ∃ t ∈ j.leaseExpiresAt, t ≤ now))

/-- A row as it is inserted. -/
def queued (id documentId candidateId : Uuid) (candidateSha idempotencyKey : Digest)
    (now : Time) : JobRow where
  id := id
  documentId := documentId
  candidateId := candidateId
  versionId := candidateId
  candidateSha := candidateSha
  idempotencyKey := idempotencyKey
  status := .queued
  attemptCount := 0
  workerId := none
  leaseExpiresAt := none
  createdAt := now
  startedAt := none
  finishedAt := none
  outcomeNote := none
  owned := by simp
  ended := by decide

def claimed (j : JobRow) (worker : String) (lease now : Time) : JobRow :=
  { j with
    status := .running
    workerId := some worker
    attemptCount := j.attemptCount + 1
    startedAt := j.startedAt.or (some now)
    finishedAt := none
    outcomeNote := none
    leaseExpiresAt := some (now + lease)
    owned := by simp
    ended := by decide }

/-- Closed with one of the terminal values. -/
def closed (j : JobRow) (status : JobStatus) (hterminal : terminal status = true)
    (note : Option JobNote) (now : Time) : JobRow :=
  { j with
    status := status
    finishedAt := some now
    workerId := none
    leaseExpiresAt := none
    outcomeNote := note
    owned := by cases status <;> simp_all [terminal]
    ended := by simp [hterminal] }

def requeued (j : JobRow) (note : Option JobNote) : JobRow :=
  { j with
    status := .queued
    finishedAt := none
    workerId := none
    leaseExpiresAt := none
    outcomeNote := note
    owned := by simp
    ended := by decide }

/-- The lease of a running job is moved. -/
def renewed (j : JobRow) (t : Time) : JobRow :=
  if h : j.status = .running then
    { j with
      leaseExpiresAt := some t
      owned := by simpa [h] using (j.owned.1 h).1 }
  else j

/-- `cancel` leaves the worker and the lease of a queued row as they are. -/
def cancelled (j : JobRow) (note : JobNote) (now : Time) : JobRow :=
  if h : j.status = .running then j
  else { j with
    status := .cancelled
    finishedAt := some now
    outcomeNote := some note
    owned := by simpa [h] using mt j.owned.2 h
    ended := by simp [terminal] }

end JobRow

end RagPipeline.JobQueue

/-! # The operations of the job queue -/

namespace RagPipeline.JobQueue
open Guard Table Index Text

/-- What the queue reads of a document. -/
structure DocumentRow where
  id : Uuid
  filename : String
  candidateId : Option Uuid
  contentSha256 : Option String
  candidateState : Option CandidateState
  archivedAt : Option Time
  attemptId : Option Uuid
  versions : List Uuid
deriving DecidableEq

structure Store where
  jobs : List JobRow
  documents : List DocumentRow

/-- `_job_key_digest`. -/
def jobKeyDigest (sha256 : String → Digest) (value : String) : Except Refusal Digest := do
  require (value ≠ "" ∧ value = strip value ∧ value.toList.length ≤ 200 ∧
    ¬ value.toList.any isControl) (.valueError "idempotency key gecersiz")
  return sha256 value

/-- `_job_note`. -/
def jobNote : Option String → Except Refusal (Option JobNote)
  | none => .ok none
  | some value =>
    if h : (1 ≤ value.length ∧ value.length ≤ 100) ∧ ¬ value.toList.any isControl then
      .ok (some ⟨value, h.1⟩)
    else .error (.valueError "job outcome note gecersiz")

/-- The label of a worker. -/
def canonicalLabel (value : String) : Except Refusal String := do
  let display := strip value
  require (display ≠ "") (.valueError "worker_id bos olmayan bir metin olmali")
  require (¬ display.toList.any isControl) (.valueError "worker_id kontrol karakteri iceremez")
  return display

def seconds (n : ℤ) : Time := n * 1000000

def requireLease (leaseSeconds : ℤ) : Except Refusal Unit :=
  require (30 ≤ leaseSeconds ∧ leaseSeconds ≤ 7200) (.valueError "job lease 30..7200 saniye olmali")

def requireBudget (maxAttempts : ℕ) : Except Refusal Unit :=
  require (1 ≤ maxAttempts ∧ maxAttempts ≤ 20) (.valueError "max_attempts 1..20 olmali")

/-- The insert, behind the constraints of the table. -/
def insertJob (s : Store) (d : DocumentRow) (candidate : Uuid) (sha : String) (key : Digest)
    (id : Uuid) (now : Time) : Except Refusal (Store × JobRow) :=
  if h : sha.length = 64 then do
    require (candidate ∈ d.versions) (.databaseError "ingest_jobs_version_fk")
    require (∀ j ∈ s.jobs, j.id ≠ id) (.databaseError "ingest_jobs_pkey")
    let row := JobRow.queued id d.id candidate ⟨sha, h⟩ key now
    return ({ s with jobs := s.jobs ++ [row] }, row)
  else .error (.databaseError "ingest_jobs_candidate_sha_check")

/-- The gates of a new job. -/
def admitJob (d : DocumentRow) (s : Store) : Except Refusal (Uuid × String) := do
  require (d.archivedAt = none) (.lifecycleConflict "arsivlenmis belge kuyruga alinamaz")
  require (d.candidateState = some .published) (.candidateNotPublished
    "yayimlanmis aday olmadan job olusmaz")
  let candidate ← demand d.candidateId (.candidateNotPublished
    "yayimlanmis aday olmadan job olusmaz")
  let sha ← demand d.contentSha256 (.candidateNotPublished "yayimlanmis aday olmadan job olusmaz")
  require (sha ≠ "") (.candidateNotPublished "yayimlanmis aday olmadan job olusmaz")
  require (d.attemptId = none) (.ingestJobConflict "belgenin canli ingest denemesi var")
  require (∀ j ∈ s.jobs, ¬ (j.documentId = d.id ∧ j.active)) (.ingestJobConflict
    "belgenin etkin ingest job'i var")
  return (candidate, sha)

/-- `none` where there is no such document. A job of this key is given back as
it is. -/
def enqueueIngestJob (sha256 : String → Digest) (documentId : Uuid) (idempotencyKey : String)
    (id : Uuid) (now : Time) (s : Store) : Except Refusal (Store × Option JobRow) := do
  let key ← jobKeyDigest sha256 idempotencyKey
  match s.documents.find? fun d => d.id = documentId with
  | none => return (s, none)
  | some d =>
    match s.jobs.find? fun j => j.documentId = documentId ∧ j.idempotencyKey = key with
    | some existing => return (s, some existing)
    | none => do
      let bound ← admitJob d s
      let r ← insertJob s d bound.1 bound.2 key id now
      return (r.1, some r.2)

def exhaustedNote : JobNote := ⟨"attempts_exhausted", by decide⟩

def cancelledNote : JobNote := ⟨"cancelled_by_user", by decide⟩

/-- The first statement of a claim. -/
def failExhausted (maxAttempts : ℕ) (now : Time) (jobs : List JobRow) : List JobRow :=
  updateWhere (fun j => j.expired now ∧ maxAttempts ≤ j.attemptCount)
    (fun j => j.closed .failed rfl (some exhaustedNote) now) jobs

def JobRow.claimable (j : JobRow) (maxAttempts : ℕ) (now : Time) : Prop :=
  (j.status = .queued ∨ j.expired now) ∧ j.attemptCount < maxAttempts

instance (j : JobRow) (maxAttempts : ℕ) (now : Time) : Decidable (j.claimable maxAttempts now) :=
  inferInstanceAs (Decidable (_ ∧ _))

/-- Jobs go by age, those of one age by id. -/
abbrev jobOrder : LinearOrder (Time ×ₗ Uuid) :=
  @Prod.Lex.instLinearOrder Time Uuid Int.instLinearOrder Nat.instLinearOrder

/-- The oldest job to take, past the rows that others have locked. -/
def nextJob (maxAttempts : ℕ) (locked : List Uuid) (now : Time) (jobs : List JobRow) :
    Option JobRow :=
  @List.argmin _ _ jobOrder.toPreorder jobOrder.toDecidableLT
    (fun j => toLex (j.createdAt, j.id))
    (jobs.filter fun j => j.claimable maxAttempts now ∧ j.id ∉ locked)

/-- A claimed job, with what the worker is told about its document. -/
structure Claimed where
  job : JobRow
  document : Option DocumentRow

def claimIngestJob (workerId : String) (leaseSeconds : ℤ) (maxAttempts : ℕ) (locked : List Uuid)
    (now : Time) (s : Store) : Except Refusal (Store × Option Claimed) := do
  let worker ← canonicalLabel workerId
  requireLease leaseSeconds
  requireBudget maxAttempts
  let jobs := failExhausted maxAttempts now s.jobs
  match nextJob maxAttempts locked now jobs with
  | none => return ({ s with jobs := jobs }, none)
  | some job =>
    let row := job.claimed worker (seconds leaseSeconds) now
    let document := s.documents.find? fun d => d.id = job.documentId
    let taken := updateWhere (fun j => j.id = job.id)
      (fun j => j.claimed worker (seconds leaseSeconds) now) jobs
    return ({ s with jobs := taken }, some ⟨row, document⟩)

/-- What a worker may do to a row it holds. -/
def updateHeld (id : Uuid) (worker : String) (now : Time) (f : JobRow → JobRow)
    (jobs : List JobRow) : List JobRow :=
  updateWhere (fun j => j.id = id ∧ j.heldBy worker now) f jobs

def Store.holds (s : Store) (id : Uuid) (worker : String) (now : Time) : Bool :=
  s.jobs.any fun j => j.id = id ∧ j.heldBy worker now

def heartbeatIngestJob (id : Uuid) (worker : String) (leaseSeconds : ℤ) (now : Time) (s : Store) :
    Except Refusal (Store × Bool) := do
  requireLease leaseSeconds
  let jobs := updateHeld id worker now (fun j => j.renewed (now + seconds leaseSeconds)) s.jobs
  return ({ s with jobs := jobs }, s.holds id worker now)

theorem terminal_finished {status : JobStatus}
    (h : status ∈ [JobStatus.succeeded, .partially, .failed]) : terminal status = true := by
  revert h
  cases status <;> decide

def finishIngestJob (id : Uuid) (worker : String) (status : JobStatus) (note : Option String)
    (now : Time) (s : Store) : Except Refusal (Store × Bool) :=
  if h : status ∈ [JobStatus.succeeded, .partially, .failed] then do
    let note ← jobNote note
    let jobs := updateHeld id worker now (fun j => j.closed status (terminal_finished h) note now)
      s.jobs
    return ({ s with jobs := jobs }, s.holds id worker now)
  else .error (.valueError "job terminal status gecersiz")

/-- Requeued while the budget lasts, closed otherwise. -/
def JobRow.retried (j : JobRow) (maxAttempts : ℕ) (note : Option JobNote) (now : Time) : JobRow :=
  if j.attemptCount < maxAttempts then j.requeued note else j.closed .failed rfl note now

def retryIngestJob (id : Uuid) (worker : String) (note : Option String) (maxAttempts : ℕ)
    (now : Time) (s : Store) : Except Refusal (Store × JobStatus) := do
  let note ← jobNote note
  requireBudget maxAttempts
  let job ← demand (s.jobs.find? fun j => j.id = id ∧ j.heldBy worker now)
    (.ingestJobOwnershipLost "ingest job lease artik bu worker'in degil")
  let jobs := updateHeld id worker now (fun j => j.retried maxAttempts note now) s.jobs
  return ({ s with jobs := jobs }, (job.retried maxAttempts note now).status)

/-- A job that ended keeps its end. -/
def cancelIngestJob (id : Uuid) (now : Time) (s : Store) :
    Except Refusal (Store × Option JobRow) :=
  match s.jobs.find? fun j => j.id = id with
  | none => .ok (s, none)
  | some j => do
    require (j.status ≠ .running) (.ingestJobConflict "calisan job iptal edilemez")
    if j.status = .queued then
      let jobs := updateWhere (fun j => j.id = id) (fun j => j.cancelled cancelledNote now) s.jobs
      return ({ s with jobs := jobs }, some (j.cancelled cancelledNote now))
    else return (s, some j)

end RagPipeline.JobQueue
