import RagPipeline.Lib.Guard
import RagPipeline.Lib.Table
import Mathlib.Data.Int.Basic
import Mathlib.Logic.Function.Basic

/-! # The rows of one document

Every statement of the index names its document, so the tables are modelled as
the rows of one document: its own row, its versions, attempts, chunks, build
receipts and queue entries, and the rows retention keeps about it. Ids minted
by `uuid4` are numbers; chunk ids and content keys are the text `uuid5` returns.
Times are microseconds on the database clock. -/

set_option autoImplicit false

namespace RagPipeline.Index
open Guard

abbrev Uuid := ℕ

abbrev Time := ℤ

inductive CandidateState where
  | staged
  | published
deriving DecidableEq, Repr

/-- The terminal values of `attempts.status`. -/
inductive AttemptOutcome where
  | done
  | error
  | partially
  | superseded
deriving DecidableEq, Repr

namespace AttemptOutcome

/-- `WORKER_WRITABLE_OUTCOMES`. -/
def workerWritable : List AttemptOutcome := [error, partially]

end AttemptOutcome

inductive JobStatus where
  | queued
  | running
  | succeeded
  | partially
  | failed
  | cancelled
deriving DecidableEq, Repr

structure DocumentRow where
  filename : String
  fileType : String
  status : String
  statusNote : Option String
  contentSha256 : Option String
  candidateId : Option Uuid
  candidateState : Option CandidateState
  attemptId : Option Uuid
  attemptOwner : Option String
  attemptExpiresAt : Option Time
  activeVersionId : Option Uuid
  activeGeneration : ℕ
  activeContentSha : Option String
  lastGeneration : ℕ
  lastVersionNumber : ℕ
  revision : ℕ
  archivedAt : Option Time
  purgedAt : Option Time
deriving DecidableEq, Repr

structure VersionRow where
  id : Uuid
  versionNumber : ℕ
  contentSha256 : String
deriving DecidableEq, Repr

/-- `attempts.version_id` is written from the candidate and left out. -/
structure AttemptRow where
  attemptId : Uuid
  candidateId : Uuid
  candidateSha : String
  observedActive : ℕ
  owner : String
  status : Option AttemptOutcome
  note : Option String
  endedAt : Option Time
deriving DecidableEq, Repr

structure Vectors where
  dense : String
  sparse : String
deriving DecidableEq, Repr

structure ChunkRow where
  id : String
  versionId : Option Uuid
  text : String
  sourceTag : String
  vectors : Vectors
  generation : ℕ
  contentKey : Option String
  embeddingFingerprint : Option String
deriving DecidableEq, Repr

structure BuildRow where
  versionId : Uuid
  generation : ℕ
  contentSha256 : String
  attemptId : Uuid
  chunkCount : ℕ
deriving DecidableEq, Repr

structure IngestJobRow where
  id : Uuid
  status : JobStatus
  workerId : Option String
  leaseExpiresAt : Option Time
deriving DecidableEq, Repr

namespace IngestJobRow

def active (job : IngestJobRow) : Prop := job.status = .queued ∨ job.status = .running

instance (job : IngestJobRow) : Decidable job.active :=
  inferInstanceAs (Decidable (_ ∨ _))

end IngestJobRow

inductive HoldState where
  | active
  | released
deriving DecidableEq, Repr

structure HoldRow where
  id : Uuid
  state : HoldState
  revision : ℕ
deriving DecidableEq, Repr

inductive PurgeState where
  | pending
  | running
  | completed
  | failed
  | cancelled
deriving DecidableEq, Repr

structure PurgeJobRow where
  id : Uuid
  state : PurgeState
  eligibleAt : Time
  policyRevision : ℕ
  policyEpoch : ℕ
  documentRevision : ℕ
  attemptCount : ℕ
  workerId : Option String
  failureCode : Option String
deriving DecidableEq, Repr

structure RetentionPolicy where
  archiveRetentionDays : ℕ
  revision : ℕ
deriving DecidableEq, Repr

structure Store where
  document : Option DocumentRow
  versions : List VersionRow
  attempts : List AttemptRow
  chunks : List ChunkRow
  builds : List BuildRow
  jobs : List IngestJobRow
  holds : List HoldRow
  purgeJobs : List PurgeJobRow
  policy : Option RetentionPolicy
  policyEpoch : ℕ

/-- The exceptions, with the sentences they carry. A constraint or a trigger
that refuses a statement is a `databaseError`; an `interrupt` is a
`BaseException` that is no `Exception`. -/
inductive Refusal where
  | candidateConflict (message : String)
  | candidateNotPublished (message : String)
  | candidateSuperseded (message : String)
  | lifecycleConflict (message : String)
  | ingestJobConflict (message : String)
  | ingestJobOwnershipLost (message : String)
  | attemptAlreadyRunning (message : String)
  | attemptFenced (message : String)
  | attemptLeaseLost (message : String)
  | attemptOutcomeNotWritable (message : String)
  | attemptRecordInconsistent (message : String)
  | versionConflict (message : String)
  | retentionRefused (message : String)
  | retentionPolicyConflict (message : String)
  | orgPolicyConflict (message : String)
  | purgeJobOwnershipLost (message : String)
  | valueError (message : String)
  | runtimeError (message : String)
  | databaseError (message : String)
  | interrupt (name : String)
deriving DecidableEq, Repr

/-- What `except Exception` catches. -/
def Refusal.isException : Refusal → Bool
  | .interrupt _ => false
  | _ => true

/-- What is fixed for one document and one deployment. `uuid5` is taken to name
different texts differently. -/
class Deployment where
  documentId : String
  attemptLeaseSeconds : ℤ
  uuid5 : String → String
  uuid5_injective : Function.Injective uuid5

/-- A deployment to compute with: every text names itself. -/
@[reducible] def sampleDeployment : Deployment where
  documentId := "belge"
  attemptLeaseSeconds := 300
  uuid5 := id
  uuid5_injective := Function.injective_id

namespace Store

/-- The name of a version is a version of this document. -/
def hasVersion (s : Store) (id : Uuid) : Prop := ∃ v ∈ s.versions, v.id = id

instance (s : Store) (id : Uuid) : Decidable (s.hasVersion id) :=
  inferInstanceAs (Decidable (∃ v ∈ s.versions, v.id = id))

def hasActiveJob (s : Store) : Prop := ∃ job ∈ s.jobs, job.active

instance (s : Store) : Decidable s.hasActiveJob :=
  inferInstanceAs (Decidable (∃ job ∈ s.jobs, job.active))

def held (s : Store) : Prop := ∃ hold ∈ s.holds, hold.state = .active

instance (s : Store) : Decidable s.held :=
  inferInstanceAs (Decidable (∃ hold ∈ s.holds, hold.state = .active))

/-- The rows of one version under one generation. -/
def build (s : Store) (version : Uuid) (generation : ℕ) : List ChunkRow :=
  s.chunks.filter fun c => c.versionId = some version ∧ c.generation = generation

def withDocument (s : Store) (d : DocumentRow) : Store := { s with document := some d }

end Store

section
variable [Deployment]

/-- What `rag_guard_document_purge_state` asks of the row a purge writes. -/
def DocumentRow.tombstone (d : DocumentRow) : Prop :=
  d.archivedAt ≠ none ∧ d.filename = "purged-" ++ Deployment.documentId ∧
    d.fileType = "purged" ∧ d.status = "purged" ∧ d.contentSha256 = none ∧
    d.candidateId = none ∧ d.candidateState = none ∧ d.activeContentSha = none ∧
    d.activeVersionId = none ∧ d.attemptId = none ∧ d.attemptOwner = none ∧
    d.attemptExpiresAt = none

instance (d : DocumentRow) : Decidable d.tombstone := by
  unfold DocumentRow.tombstone
  infer_instance

/-- An update of the document row, behind its trigger: a purged row is changed
by nothing, and only a tombstone is purged. -/
def Store.updateDocument (s : Store) (old new : DocumentRow) : Except Refusal Store := do
  require (old.purgedAt = none ∨ new = old) (.databaseError "purged document is immutable")
  require (old.purgedAt ≠ none ∨ new.purgedAt = none ∨ new.tombstone)
    (.databaseError "purge tombstone is incomplete")
  return s.withDocument new

theorem updateDocument_ok {s s' : Store} {old new : DocumentRow}
    (h : new.purgedAt = old.purgedAt) :
    s.updateDocument old new = .ok s' ↔
      (old.purgedAt = none ∨ new = old) ∧ s' = s.withDocument new := by
  have hguard : old.purgedAt ≠ none ∨ new.purgedAt = none ∨ new.tombstone := by
    by_cases hp : old.purgedAt = none
    · exact .inr (.inl (h.trans hp))
    · exact .inl hp
  simp only [Store.updateDocument, bind_ok, require_ok, exists_unit, pure_ok, hguard, true_and]
  rw [eq_comm (a := s')]

end

theorem mem_build {s : Store} {version : Uuid} {generation : ℕ} {c : ChunkRow} :
    c ∈ s.build version generation ↔
      c ∈ s.chunks ∧ c.versionId = some version ∧ c.generation = generation := by
  simp [Store.build]

end RagPipeline.Index
