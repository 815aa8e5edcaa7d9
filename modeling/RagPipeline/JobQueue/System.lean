import RagPipeline.JobQueue.Operations
import RagPipeline.Lib.Transition

/-! # Runs of the job queue

Every worker, client and canceller, under one clock that never goes back. -/

set_option autoImplicit false

namespace RagPipeline.JobQueue
open Guard Table Index Transition

inductive Action where
  | enqueue (documentId : Uuid) (idempotencyKey : String) (id : Uuid)
  | claim (workerId : String) (leaseSeconds : ℤ) (maxAttempts : ℕ) (locked : List Uuid)
  | heartbeat (id : Uuid) (worker : String) (leaseSeconds : ℤ)
  | finish (id : Uuid) (worker : String) (status : JobStatus) (note : Option String)
  | retry (id : Uuid) (worker : String) (note : Option String) (maxAttempts : ℕ)
  | cancel (id : Uuid)
  /-- The clock goes on. -/
  | tick (elapsed : ℕ)
  /-- Documents are staged, ingested and archived elsewhere. -/
  | documents (rows : List DocumentRow)

structure World where
  store : Store
  clock : Time

namespace Action

def perform (sha256 : String → Digest) : Action → World → Except Refusal World
  | .enqueue documentId idempotencyKey id, w => do
    let r ← enqueueIngestJob sha256 documentId idempotencyKey id w.clock w.store
    return { w with store := r.1 }
  | .claim workerId leaseSeconds maxAttempts locked, w => do
    let r ← claimIngestJob workerId leaseSeconds maxAttempts locked w.clock w.store
    return { w with store := r.1 }
  | .heartbeat id worker leaseSeconds, w => do
    let r ← heartbeatIngestJob id worker leaseSeconds w.clock w.store
    return { w with store := r.1 }
  | .finish id worker status note, w => do
    let r ← finishIngestJob id worker status note w.clock w.store
    return { w with store := r.1 }
  | .retry id worker note maxAttempts, w => do
    let r ← retryIngestJob id worker note maxAttempts w.clock w.store
    return { w with store := r.1 }
  | .cancel id, w => do
    let r ← cancelIngestJob id w.clock w.store
    return { w with store := r.1 }
  | .tick elapsed, w => .ok { w with clock := w.clock + elapsed }
  | .documents rows, w => .ok { w with store := { w.store with documents := rows } }

/-- In whose name a job is written. A claim is no write of a worker that has it. -/
def worker : Action → Option String
  | .heartbeat _ worker _ => some worker
  | .finish _ worker _ _ => some worker
  | .retry _ worker _ _ => some worker
  | _ => none

/-- The job a claim takes, for which worker and under which maximum. -/
structure Taking where
  job : Uuid
  worker : String
  maxAttempts : ℕ
deriving DecidableEq

def takes (w : World) : Action → Option Taking
  | .claim workerId leaseSeconds maxAttempts locked =>
    match claimIngestJob workerId leaseSeconds maxAttempts locked w.clock w.store with
    | .ok (_, some claimed) => claimed.job.workerId.map fun worker =>
        ⟨claimed.job.id, worker, maxAttempts⟩
    | _ => none
  | _ => none

/-- The step takes another job than this, or none. -/
def Untaken (w : World) (act : Action) (j : JobRow) : Prop :=
  ∀ taking, act.takes w = some taking → taking.job ≠ j.id

end Action

/-- What the unique constraints of the table say. -/
structure Unique (jobs : List JobRow) : Prop where
  ids : (jobs.map JobRow.id).Nodup
  keys : ∀ j ∈ jobs, ∀ k ∈ jobs, j.documentId = k.documentId →
    j.idempotencyKey = k.idempotencyKey → j = k
  active : ∀ j ∈ jobs, ∀ k ∈ jobs, j.documentId = k.documentId → j.active → k.active → j = k

def queueSystem (sha256 : String → Digest) : System World Action where
  initial w := Unique w.store.jobs
  step w act w' := act.perform sha256 w = .ok w'

/-- Everything that can become of a row in one step. -/
inductive Moved (w : World) (act : Action) (j : JobRow) : JobRow → Prop where
  | same (untaken : act.Untaken w j) : Moved w act j j
  | exhausted {workerId : String} {leaseSeconds : ℤ} {maxAttempts : ℕ} {locked : List Uuid}
      (claim : act = .claim workerId leaseSeconds maxAttempts locked) (expired : j.expired w.clock)
      (untaken : act.Untaken w j) : Moved w act j (j.closed .failed rfl (some exhaustedNote) w.clock)
  | claimed {worker : String} {leaseSeconds : ℤ} {maxAttempts : ℕ}
      (takes : act.takes w = some ⟨j.id, worker, maxAttempts⟩)
      (claimable : j.claimable maxAttempts w.clock) :
      Moved w act j (j.claimed worker (seconds leaseSeconds) w.clock)
  | renewed {worker : String} {t : Time} (by_worker : act.worker = some worker)
      (held : j.heldBy worker w.clock) : Moved w act j (j.renewed t)
  | closed {worker : String} {status : JobStatus} {note : Option JobNote}
      (hterminal : terminal status = true) (by_worker : act.worker = some worker)
      (held : j.heldBy worker w.clock) : Moved w act j (j.closed status hterminal note w.clock)
  | requeued {worker : String} {note : Option JobNote} (by_worker : act.worker = some worker)
      (held : j.heldBy worker w.clock) : Moved w act j (j.requeued note)
  | cancelled (cancel : act = .cancel j.id) (queued : j.status = .queued) :
      Moved w act j (j.cancelled cancelledNote w.clock)

/-- What a step does to the table: every row is moved, and an enqueue may add one
to a document that has no active job and none of this key. -/
structure Rewritten (w : World) (act : Action) (w' : World) : Prop where
  rows : ∃ f new, w'.store.jobs = w.store.jobs.map f ++ new ∧
    (∀ j ∈ w.store.jobs, Moved w act j (f j)) ∧
    (new = [] ∨ ∃ row, new = [row] ∧ (∀ j ∈ w.store.jobs, j.id ≠ row.id) ∧
      (∀ j ∈ w.store.jobs, j.documentId = row.documentId →
        j.idempotencyKey ≠ row.idempotencyKey ∧ ¬ j.active))
  clock : w.clock ≤ w'.clock

section
variable {sha256 : String → Digest} {w w' : World} {act : Action} {j j' : JobRow}

theorem Rewritten.of_map {f : JobRow → JobRow}
    (hjobs : w'.store.jobs = w.store.jobs.map f) (hrows : ∀ j ∈ w.store.jobs, Moved w act j (f j))
    (hclock : w'.clock = w.clock) : Rewritten w act w' :=
  ⟨⟨f, [], by rw [hjobs, List.append_nil], hrows, .inl rfl⟩, le_of_eq hclock.symm⟩

theorem untaken_of_none (h : act.takes w = none) : act.Untaken w j := fun taking ht => by
  cases h.symm.trans ht

theorem Rewritten.of_same (htakes : act.takes w = none) (hjobs : w'.store.jobs = w.store.jobs)
    (hclock : w.clock ≤ w'.clock) : Rewritten w act w' :=
  ⟨⟨id, [], by rw [hjobs, List.map_id, List.append_nil], fun _ _ => .same (untaken_of_none htakes),
    .inl rfl⟩, hclock⟩

end

end RagPipeline.JobQueue
