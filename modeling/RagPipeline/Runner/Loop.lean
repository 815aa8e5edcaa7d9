import RagPipeline.Runner.Contract
import RagPipeline.Acceptance.Latest
import Mathlib.Data.List.Dedup
import Mathlib.Data.Rat.Init

/-! # The bounded loop

One implementation, the acceptance commands, a read-only audit, at most one
repair and the same gates again, then the application. The program takes from
its environment what the model processes, the commands, the clock and the disk
answer, and what other processes leave in the candidate workspace: time is
counted in moments, and between any two readings of the workspace there is one. -/

set_option autoImplicit false

namespace RagPipeline.Runner
open Guard Effects
open Acceptance (Candidate Verified Report Refusal Attempt)

structure Finding where
  mechanismId : String
  file : Option String
deriving DecidableEq

/-- What the evaluator's schema lets through: an objection names a finding, an
approval none, and the other two name a reason. -/
inductive Reply where
  | approved
  | changesRequested (findings : List Finding) (some : findings ≠ [])
  | blocked (stopReason : StopReason) (findings : List Finding)
  | failed (stopReason : StopReason) (findings : List Finding)
deriving DecidableEq

def Reply.findings : Reply → List Finding
  | .approved => []
  | .changesRequested findings _ => findings
  | .blocked _ findings => findings
  | .failed _ findings => findings

def Reply.mechanisms (r : Reply) : List String := r.findings.map Finding.mechanismId

structure ImplementerReply where
  changedFiles : List String
  implemented : Bool

/-- What a lower layer raises. -/
inductive Raised where
  /-- A `ChangeSetError`, which fixes a reason and no event. -/
  | changeSet (reason : StopReason)
  /-- Any other error with a closed reason. -/
  | typed (reason : StopReason) (event : Bool)
  | untyped
deriving DecidableEq

/-- `_FAILED_REASONS`. -/
def failedReasons : List StopReason :=
  [.modelProcessFailed, .schemaViolation, .evaluatorModifiedWorkspace, .pathNotAllowed,
    .controlPlaneModified, .timeout]

def terminalFor (reason : StopReason) : State :=
  if reason ∈ failedReasons then .failed else .blocked

/-- The keys of `_EVENT_FOR_REASON`. -/
def eventReasons : List StopReason :=
  [.preflightFailed, .schemaViolation, .modelProcessFailed, .controlPlaneModified,
    .evaluatorModifiedWorkspace, .timeout, .interrupted, .budgetExhausted]

/-- How the run leaves its road. -/
inductive Halt where
  | stop (reason : StopReason) (state : State) (event : Bool)
  | interrupted
  | flies (e : Raised)
deriving DecidableEq

/-- `_guard`: a refusal with a closed reason stops the run, anything else flies. -/
def translate : Raised → Halt
  | .changeSet reason => .stop reason (terminalFor reason) (reason ∈ eventReasons)
  | .typed reason event => .stop reason (terminalFor reason) (event || reason ∈ eventReasons)
  | .untyped => .flies .untyped

structure Rounds where
  implementation : ℕ
  repair : ℕ
  evaluator : ℕ
deriving DecidableEq

/-- `state.json`. -/
structure Document where
  state : State
  rounds : Rounds
  mechanismsSeen : List (List String)
  stopReason : Option StopReason
deriving DecidableEq

structure Task where
  maxImplementationRounds : ℕ
  maxRepairRounds : ℕ
  maxBudgetUsd : ℚ
  modelCallTimeoutSeconds : Option ℤ

/-- What has happened, for the record. -/
inductive Event (W : Type) where
  | persisted (state : State)
  | implementing
  | repairing
  | candidate (fingerprint : String)
  /-- The acceptance passed, on what was measured from the moment `since`. -/
  | accepted (since : ℕ) (fingerprint : String)
  | refused
  | auditing (start : W)
  /-- The evaluator found `start`, left `finish`, and was shown to have left it
  alone by the moment `shown`. -/
  | judged (start finish : W) (shown : ℕ) (reply : Reply)
  | applied (fingerprint : String)
deriving DecidableEq

structure Ledger (W : Type) where
  document : Option Document
  backup : Option Document
  state : State
  visited : List State
  rounds : Rounds
  mechanismsSeen : List (List String)
  seenMechanisms : List String
  candidateFiles : List String
  acceptancePassed : Bool
  appliedFiles : List String
  receipts : Acceptance.World
  /-- The newest first. -/
  history : List (Event W)

/-- The run, the candidate workspace it works in and the moment. -/
structure Loop (W : Type) where
  content : W
  clock : ℕ
  ledger : Ledger W

/-- What a run is given and what it meets. A function of a number answers at
that moment. -/
structure Env (W : Type) where
  host : Acceptance.Host
  identity : Acceptance.Identity
  task : Task
  requestGate : Option String
  interruptAfter : Option State
  /-- The candidate that a workspace left in peace is derived to. -/
  derive : W → Except Raised Candidate
  /-- What a derivation comes to while another process writes. -/
  torn : ℕ → Except Raised Candidate
  /-- What another process has written by this moment, if one wrote. -/
  foreign : ℕ → Option W
  preflight : ℕ → Except Raised (Option StopReason)
  journal : ℕ → Except Raised Unit
  reads : ℕ → Except Raised Unit
  saved : ℕ → Except Raised Unit
  workspace : ℕ → Except Raised Unit
  remaining : ℕ → ℤ
  planAuth : ℕ → Option StopReason
  /-- The bindings that are proven around a model call. -/
  seam : ℕ → Except Raised Unit
  /-- What a model process leaves in the workspace, if it writes. -/
  edits : ℕ → Option W
  implementer : ℕ → Except Raised ImplementerReply
  /-- The paths a repair is seen to have changed. -/
  delta : ℕ → List String
  testEdit : ℕ → Except Raised Unit
  attempt : ℕ → Attempt
  refusal : Raised → Refusal
  raised : Refusal → Raised
  diagnostics : ℕ → ℕ
  /-- Whether the operator's checkout moved across the evaluator's call. -/
  main : ℕ → Except Raised Bool
  evaluator : ℕ → Except Raised Reply
  application : ℕ → Except Raised (List String)
  release : ℕ → Except Raised Unit

structure RunResult where
  state : State
  stopReason : StopReason
  visited : List State
  rounds : Rounds
  acceptancePassed : Bool
  appliedFiles : List String
deriving DecidableEq

def maxEvaluatorRounds : ℕ := 2

/-- The smaller of the contract's cap and the manifest's. -/
def Task.implementationCap (t : Task) : ℕ := min 1 t.maxImplementationRounds

def Task.repairCap (t : Task) : ℕ := min 1 t.maxRepairRounds

def minModelSeconds : ℤ := 30

def Task.callSeconds (t : Task) : ℤ := t.modelCallTimeoutSeconds.getD 1800

/-- `USER_APPROVAL_REQUIRED`. -/
def userApprovalRequired : List String :=
  ["git_add", "git_commit", "git_push", "branch_delete", "history_rewrite", "contract_change",
    "golden_set_change", "locked_holdout_change", "gpu_or_pod_rental", "paid_service_start",
    "dependency_install", "network_write", "production_deploy", "migration_apply",
    "data_or_index_change", "scope_widening", "destructive_operation"]

variable {W : Type} {α : Type}

abbrev Step (W α : Type) := Program (Loop W) Halt α

def Loop.onLedger (f : Ledger W → Ledger W) (s : Loop W) : Loop W := { s with ledger := f s.ledger }

def Loop.written (w : Option W) (s : Loop W) : Loop W := { s with content := w.getD s.content }

/-- A moment later, other processes having had their turn. -/
def Loop.later (e : Env W) (s : Loop W) : Loop W :=
  { s.written (e.foreign s.clock) with clock := s.clock + 1 }

def Ledger.note (x : Event W) (l : Ledger W) : Ledger W := { l with history := x :: l.history }

def Ledger.persist (target : State) (reason : Option StopReason) (l : Ledger W) : Ledger W :=
  { l.note (.persisted target) with document := some ⟨target, l.rounds, l.mechanismsSeen, reason⟩ }

def Ledger.backUp (l : Ledger W) : Ledger W := { l with backup := l.document }

def Ledger.enter (target : State) (l : Ledger W) : Ledger W :=
  { l with state := target, visited := l.visited ++ [target] }

def Ledger.implemented (v : Verified) (l : Ledger W) : Ledger W :=
  { l with
    rounds := ⟨l.rounds.implementation + 1, l.rounds.repair, l.rounds.evaluator⟩
    candidateFiles := v.changeSet.changedFiles }

def Ledger.repaired (v : Verified) (l : Ledger W) : Ledger W :=
  { l with
    rounds := ⟨l.rounds.implementation, l.rounds.repair + 1, l.rounds.evaluator⟩
    candidateFiles := v.changeSet.changedFiles }

def Ledger.evaluated (l : Ledger W) : Ledger W :=
  { l with rounds := ⟨l.rounds.implementation, l.rounds.repair, l.rounds.evaluator + 1⟩ }

def Ledger.withPassed (b : Bool) (l : Ledger W) : Ledger W := { l with acceptancePassed := b }

def Ledger.withApplied (files : List String) (l : Ledger W) : Ledger W :=
  { l with appliedFiles := files }

def Ledger.withReceipts (w : Acceptance.World) (l : Ledger W) : Ledger W := { l with receipts := w }

def Ledger.blame (mechanisms : List String) (l : Ledger W) : Ledger W :=
  { l with mechanismsSeen :=
      l.mechanismsSeen ++ [mechanisms.dedup.mergeSort fun a b => decide (a ≤ b)] }

def Ledger.remember (mechanisms : List String) (l : Ledger W) : Ledger W :=
  { l with seenMechanisms := l.seenMechanisms ++ mechanisms }

section
variable (e : Env W)

def moment : Step W ℕ := do
  let s ← Program.read
  Program.assign (Loop.later e)
  return s.clock

/-- What the environment answers at this moment. -/
def answer (f : ℕ → Except Halt α) : Step W α := do
  let n ← moment e
  Program.ask fun _ => f n

def flying (f : ℕ → Except Raised α) : Step W α := answer e fun n => (f n).mapError Halt.flies

def guarded (f : ℕ → Except Raised α) : Step W α := answer e fun n => (f n).mapError translate

def record (f : Ledger W → Ledger W) : Step W Unit := Program.assign (Loop.onLedger f)

def look : Step W (Ledger W) := Program.ask fun s => .ok s.ledger

def event : Step W Unit := flying e e.journal

/-- `derive_candidate_changes`: the value, or what it raises. -/
def measure : Step W (Except Raised Candidate) := do
  let s ← Program.read
  let n ← moment e
  return match e.foreign n with
    | none => e.derive s.content
    | some _ => e.torn n

/-- `_advance`: the document first, the copy of it after the move, and only then
the run's own variables. -/
def advance (target : State) (reason : Option StopReason) : Step W Unit := do
  let n ← moment e
  Program.commit fun s => do
    (e.saved n).mapError Halt.flies
    let document ← demand s.ledger.document (.flies .untyped)
    require (target ∈ allowedTransitions document.state) (.flies .untyped)
    return s.onLedger (Ledger.persist target reason)
  let m ← moment e
  Program.commit fun s => do
    (e.saved m).mapError Halt.flies
    return s.onLedger Ledger.backUp
  record (Ledger.enter target)
  event e

def openState : Step W Unit := do
  let n ← moment e
  Program.commit fun s => do
    (e.saved n).mapError Halt.flies
    return s.onLedger (Ledger.persist .preflight none)
  let m ← moment e
  Program.commit fun s => do
    (e.saved m).mapError Halt.flies
    return s.onLedger Ledger.backUp
  event e

def checkpoint (phase : State) : Step W Unit :=
  if e.interruptAfter = some phase then Program.raise .interrupted else pure ()

def gateCheck : Step W Unit :=
  match e.requestGate with
  | none => pure ()
  | some gate => do
    Program.ask fun _ => require (gate ∈ userApprovalRequired) (.flies .untyped)
    event e
    Program.raise (.stop .userApprovalRequired .blocked false)

/-- Nothing is ever spent on the ledger, so what is left is the ceiling. -/
def assertBudget : Step W Unit := do
  flying e e.reads
  event e
  Program.ask fun _ => require (0 < e.task.maxBudgetUsd) (.stop .budgetExhausted .blocked false)

def assertClock : Step W Unit :=
  answer e fun n => require (0 < e.remaining n) (.stop .wallClockExceeded .blocked false)

def modelSeconds : Step W Unit :=
  answer e fun n => require (minModelSeconds ≤ min e.task.callSeconds (e.remaining n))
    (.stop .wallClockExceeded .blocked false)

def assertPlanOnly : Step W Unit :=
  answer e fun n =>
    match e.planAuth n with
    | none => .ok ()
    | some reason => .error (.stop reason .blocked true)

/-- What every model call is asked for before it starts. -/
def beforeCall : Step W Unit := do
  assertBudget e
  modelSeconds e
  assertPlanOnly e
  event e

/-- A model process: what it leaves in the workspace, and what its adapter
answers or raises. -/
def process (answers : ℕ → Except Raised α) : Step W (Except Raised α) := do
  let n ← moment e
  Program.assign (Loop.written (e.edits n))
  return answers n

def sameFiles (fold : String → String) (a b : List String) : Prop :=
  (∀ x ∈ a, fold x ∈ b.map fold) ∧ ∀ x ∈ b, fold x ∈ a.map fold

instance (fold : String → String) (a b : List String) : Decidable (sameFiles fold a b) :=
  inferInstanceAs (Decidable (_ ∧ _))

/-- The declaration is compared with the evidence; what comes back speaks of the
whole candidate. -/
def settle (reply : ImplementerReply) (delta : List String) (total : Candidate) :
    Except Raised Verified := do
  require (reply.changedFiles.map e.host.canonicalPath).Nodup (.changeSet .schemaViolation)
  require (sameFiles e.host.canonicalPath reply.changedFiles delta) (.changeSet .schemaViolation)
  require (reply.implemented ∨ delta = []) (.changeSet .schemaViolation)
  return ⟨e.identity.runId, e.identity.workspaceId, e.identity.baselineSha, reply.implemented,
    total.changeSet⟩

/-- The process and the proof of what it changed. A violation outranks the
failure that hid it. -/
def verifiedProcess (delta : Candidate → ℕ → Except Raised (List String)) : Step W Verified := do
  let outcome ← process e e.implementer
  guarded e e.seam
  let after ← measure e
  let total ← Program.ask fun _ => after.mapError translate
  let n ← moment e
  let changed ← Program.ask fun _ => (delta total n).mapError translate
  let reply ← Program.ask fun _ => outcome.mapError translate
  Program.ask fun _ => (settle e reply changed total).mapError translate

def runVerifiedImplementation : Step W Verified := do
  guarded e e.seam
  verifiedProcess e fun total _ => .ok total.changeSet.changedFiles

/-- The repair is bound to the candidate that was judged, and may only touch the
files of that candidate. -/
def runVerifiedRepair (previous : Verified) : Step W Verified := do
  guarded e e.seam
  let before ← measure e
  let prior ← Program.ask fun _ => before.mapError translate
  Program.ask fun _ => require
    (prior.changeSet.fingerprint = previous.changeSet.fingerprint ∧
      sameFiles e.host.canonicalPath prior.changeSet.changedFiles previous.changeSet.changedFiles)
    (translate (.changeSet .pathNotAllowed))
  guarded e e.seam
  verifiedProcess e fun _ n => do
    require (∀ x ∈ e.delta n,
        e.host.canonicalPath x ∈ previous.changeSet.changedFiles.map e.host.canonicalPath)
      (.changeSet .pathNotAllowed)
    return e.delta n

def implement : Step W Verified := do
  let l ← look
  Program.ask fun _ => require (l.rounds.implementation < e.task.implementationCap)
    (.stop .repairRoundsExhausted .blocked false)
  beforeCall e
  record (Ledger.note .implementing)
  let verified ← runVerifiedImplementation e
  record (Ledger.note (.candidate verified.changeSet.fingerprint))
  flying e e.testEdit
  record (Ledger.implemented verified)
  event e
  return verified

def repair (previous : Verified) : Step W Verified := do
  beforeCall e
  record (Ledger.note .repairing)
  let verified ← runVerifiedRepair e previous
  record (Ledger.note (.candidate verified.changeSet.fingerprint))
  record (Ledger.repaired verified)
  event e
  return verified

/-- `run_acceptance` on a derivation, its refusals translated. -/
def runAcceptance (n : ℕ) (verified : Verified) (derived : Except Raised Candidate) :
    Step W Report :=
  Program.rename (fun r => translate (e.raised r)) <|
    Program.within (fun s => s.ledger.receipts) (fun w => Loop.onLedger (Ledger.withReceipts w)) <|
      Acceptance.runAcceptance e.host { e.attempt n with
        identity := e.identity, verified := verified, derive := derived.mapError e.refusal }

/-- `_accept`: the report of a passed acceptance, or nothing when its failure is
to be repaired. -/
def accept (verified : Verified) (mayRepair : Bool) : Step W (Option Report) := do
  record (Ledger.withPassed false)
  assertClock e
  event e
  let s ← Program.read
  let derived ← measure e
  let n ← moment e
  let report ← runAcceptance e n verified derived
  if report.passed then
    record (Ledger.note (.accepted s.clock report.candidateFingerprint))
    event e
    record (Ledger.withPassed true)
    return some report
  else
    record (Ledger.note .refused)
    let l ← look
    let diagnostics := if mayRepair then e.diagnostics n else 0
    event e
    Program.ask fun _ => require (0 < diagnostics ∧ l.rounds.repair < e.task.repairCap)
      (.stop .acceptanceFailed .blocked false)
    return none

/-- Whether the call moved anything, from the readings around it. A refusal of
the second reading counts as a modification. -/
def moved (before : Candidate) (after : Except Raised Candidate) (main : Except Raised Bool) :
    Except Raised Bool :=
  match after, main with
  | .ok a, .ok m => .ok (a.changeSet.fingerprint ≠ before.changeSet.fingerprint ∨ m)
  | .error (.changeSet _), _ => .ok true
  | .error r, _ => .error r
  | .ok _, .error (.changeSet _) => .ok true
  | .ok _, .error r => .error r

def assertReadOnly (before : Candidate) : Step W Unit := do
  let after ← measure e
  let n ← moment e
  let touched ← Program.ask fun _ => (moved before after (e.main n)).mapError Halt.flies
  if touched then
    event e
    Program.raise (.stop .evaluatorModifiedWorkspace .failed false)
  else pure ()

/-- `_assert_in_scope`: a finding may only cite a file of the candidate. -/
def inScope (files : List String) (findings : List Finding) : Prop :=
  ∀ f ∈ findings, ∀ cited ∈ f.file,
    e.host.canonicalPath cited ∈ files.map e.host.canonicalPath

instance (files : List String) (findings : List Finding) : Decidable (inScope e files findings) :=
  List.decidableBAll _ _

def verdict (reply : Reply) : Step W Bool := do
  event e
  match reply with
  | .approved => return true
  | .blocked reason _ => Program.raise (.stop reason .blocked false)
  | .failed reason _ => Program.raise (.stop reason .blocked false)
  | .changesRequested findings _ => do
    let l ← look
    Program.ask fun _ => require (inScope e l.candidateFiles findings)
      (.stop .outOfScopeFinding .blocked false)
    let mechanisms := findings.map Finding.mechanismId
    record (Ledger.blame mechanisms)
    Program.ask fun _ => require (∀ m ∈ mechanisms, m ∉ l.seenMechanisms)
      (.stop .repeatedMechanismFailure .blocked false)
    record (Ledger.remember mechanisms)
    Program.ask fun _ => require (l.rounds.repair < e.task.repairCap)
      (.stop .repairRoundsExhausted .blocked false)
    return false

def audit : Step W Bool := do
  let l ← look
  Program.ask fun _ => require (l.rounds.evaluator < maxEvaluatorRounds)
    (.stop .repairRoundsExhausted .blocked false)
  beforeCall e
  guarded e e.seam
  let reading ← measure e
  let before ← Program.ask fun _ => reading.mapError translate
  let _ ← moment e
  let s ← Program.read
  record (Ledger.note (.auditing s.content))
  let outcome ← process e e.evaluator
  let t ← Program.read
  assertReadOnly e before
  let u ← Program.read
  let reply ← Program.ask fun _ => outcome.mapError translate
  record (Ledger.note (.judged s.content t.content u.clock reply))
  record Ledger.evaluated
  event e
  verdict e reply

/-- `apply_accepted_candidate`: the candidate is derived afresh and held against
the report and the receipt. -/
def applyAccepted (verified : Verified) (report : Option Report) : Step W (List String) := do
  guarded e e.seam
  let derived ← measure e
  let candidate ← Program.ask fun _ => derived.mapError translate
  let l ← look
  Program.ask fun _ => do
    let report ← demand report (translate (.typed .pathNotAllowed false))
    (Acceptance.receiptCheck e.host e.identity verified report candidate l.receipts).mapError
      fun r => translate (e.raised r)
    require (candidate.changeSet.changedFiles ≠ []) (translate (.typed .preflightFailed false))
  let files ← guarded e e.application
  record (Ledger.note (.applied candidate.changeSet.fingerprint))
  return files

def result (state : State) (reason : StopReason) : Step W RunResult := do
  let l ← look
  return ⟨state, reason, l.visited, l.rounds, l.acceptancePassed, l.appliedFiles⟩

def approve (verified : Verified) (report : Option Report) : Step W RunResult := do
  let files ← applyAccepted e verified report
  record (Ledger.withApplied files)
  advance e .approved (some .completed)
  flying e e.release
  result .approved .completed

def repairRoad (previous : Verified) : Step W RunResult := do
  advance e .repairing none
  let verified ← repair e previous
  checkpoint e .repairing
  advance e .acceptance2 none
  let report ← accept e verified false
  checkpoint e .acceptance2
  advance e .finalAuditing none
  let _ ← audit e
  checkpoint e .finalAuditing
  approve e verified report

def walk : Step W RunResult := do
  advance e .implementing none
  let verified ← implement e
  checkpoint e .implementing
  advance e .acceptance none
  let report ← accept e verified true
  checkpoint e .acceptance
  match report with
  | none => repairRoad e verified
  | some report => do
    advance e .auditing none
    let approved ← audit e
    checkpoint e .auditing
    if approved then approve e verified (some report) else repairRoad e verified

def logIf (logged : Bool) : Step W Unit := if logged then event e else pure ()

/-- The terminal state a stop lands in, unless the run is in one already. -/
def land (current target : State) (reason : StopReason) : Step W Unit :=
  if current ∈ terminalStates then pure () else advance e target (some reason)

/-- The end of a run that left its road. -/
def halted : Halt → Step W RunResult
  | .stop reason state logged => do
    logIf e logged
    let l ← look
    land e l.state state reason
    result state reason
  | .interrupted => do
    event e
    let l ← look
    result l.state .interrupted
  | .flies r => Program.raise (.flies r)

/-- `execute`. A preflight that fails leaves no document. -/
def execute : Step W RunResult := do
  let refusal ← flying e e.preflight
  match refusal with
  | some reason => result .blocked reason
  | none => do
    openState e
    Program.rescue (do
      gateCheck e
      assertBudget e
      assertClock e
      guarded e e.workspace
      walk e) (halted e)

def Ledger.restore (backup : Document) (l : Ledger W) : Ledger W := { l with document := some backup }

/-- `restore_state_backup`, for a document that does not parse. -/
def restoreIf (unreadable : Bool) : Step W Unit :=
  if unreadable then do
    let n ← moment e
    Program.commit fun s => do
      (e.saved n).mapError Halt.flies
      let backup ← demand s.ledger.backup (.flies .untyped)
      return s.onLedger (Ledger.restore backup)
  else pure ()

/-- `resume`: what the last run left is read back. The loop is not continued. -/
def resume (unreadable : Bool) : Step W RunResult := do
  flying e e.reads
  restoreIf e unreadable
  let l ← look
  let document ← Program.ask fun _ => demand l.document (.flies .untyped)
  return ⟨document.state, document.stopReason.getD .interrupted, [document.state],
    document.rounds, false, []⟩

end

end RagPipeline.Runner
