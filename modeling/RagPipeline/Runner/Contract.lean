import Mathlib.Data.List.Basic

/-! # The states of the loop and why it stops -/

set_option autoImplicit false

namespace RagPipeline.Runner

inductive State where
  | preflight
  | implementing
  | acceptance
  | auditing
  | repairing
  | acceptance2
  | finalAuditing
  | approved
  | blocked
  | failed
deriving DecidableEq, Repr

def terminalStates : List State := [.approved, .blocked, .failed]

/-- `ALLOWED_TRANSITIONS`. Nothing leads back from the second acceptance to a
repair, so there is no second patch. -/
def allowedTransitions : State → List State
  | .preflight => [.implementing, .blocked, .failed]
  | .implementing => [.acceptance, .blocked, .failed]
  | .acceptance => [.auditing, .repairing, .blocked, .failed]
  | .auditing => [.approved, .repairing, .blocked, .failed]
  | .repairing => [.acceptance2, .blocked, .failed]
  | .acceptance2 => [.finalAuditing, .blocked, .failed]
  | .finalAuditing => [.approved, .blocked, .failed]
  | .approved => []
  | .blocked => []
  | .failed => []

inductive StopReason where
  | completed
  | preflightFailed
  | modelProcessFailed
  | dirtyWorktree
  | stagedChanges
  | baselineMismatch
  | pathNotAllowed
  | evaluatorModifiedWorkspace
  | schemaViolation
  | repeatedMechanismFailure
  | repairRoundsExhausted
  | outOfScopeFinding
  | budgetExhausted
  | wallClockExceeded
  | timeout
  | userApprovalRequired
  | leakScanHardFinding
  | acceptanceFailed
  | lockHeld
  | interrupted
  | controlPlaneModified
deriving DecidableEq, Repr

end RagPipeline.Runner
