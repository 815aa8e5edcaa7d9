import RagPipeline.Control.Store
import RagPipeline.Lib.Sliced
import Mathlib.Data.List.Dedup

/-! # The operations on service accounts

The functions of the control plane that write accounts and approvals, each a
transaction of its own, statement by statement. What an `IF` of the source
refuses when it is true is here required when it is not: a comparison with NULL
refuses nothing. Rows that only the holder of the account's advisory lock
touches are locked without being named. -/

set_option autoImplicit false

namespace RagPipeline.Control
open Guard Locks

/-- The operator who calls, by its digest. -/
structure OperatorKey where
  keyVersion : Int4
  digest : Bytes
deriving DecidableEq, Repr

/-! ## Statements several of them share -/

/-- `control_require_platform_security`. -/
def requirePlatformSecurity (o : OperatorKey) (rest : Uuid → ControlScript) : ControlScript :=
  .read (fun _ => []) fun s =>
  match s.platformSecurity o.keyVersion o.digest with
  | [operator] => rest operator
  | _ => .abort (.raised "42501" "service_account_management_refused")

/-- `control_lock_service_account`. -/
def lockServiceAccount (k : Uuid) (rest : ControlScript) : ControlScript :=
  .read (fun _ => [lock (.account k)]) fun _ => rest

/-- The policy revision of an active tenant, `FOR SHARE`. -/
def readTenant (t : Uuid) (rest : Option ℕ → ControlScript) : ControlScript :=
  .read (fun s => if (s.activeTenant t).isSome then [share (.tenant t)] else []) fun s =>
  rest ((s.activeTenant t).map TenantRow.policyRevision)

def ApprovalRow.event (a : ApprovalRow) (action : ApprovalAction) (reasonCode : String)
    (actor : Actor) : ApprovalEvent where
  approvalId := a.approvalId
  tenantId := a.tenantId
  serviceAccountId := a.serviceAccountId
  action := action
  reasonCode := reasonCode
  actor := actor
  approvalCreatedAt := a.createdAt
  approvalExpiresAt := a.expiresAt

/-- `UPDATE control_service_account_approvals`. It changes the rows it finds, and
what follows sees them. -/
def updateApprovals (p : ApprovalRow → Prop) [DecidablePred p] (state : ApprovalState)
    (next : List ApprovalRow → ControlScript) : ControlScript :=
  .statement (fun s => (s.approvals.filter p).map fun a => lock (.approvalRow a.approvalId))
    (fun s => .ok (Store.setApprovals (s.approvals.filter p) state))
    fun s => next (s.approvals.filter p)

/-- One statement that cancels approvals and records each. -/
def cancelApprovals (p : ApprovalRow → Prop) [DecidablePred p] (reasonCode : String)
    (actor : Actor) (rest : ControlScript) : ControlScript :=
  .statement (fun s => (s.approvals.filter p).map fun a => lock (.approvalRow a.approvalId))
    (fun s => .ok fun c => (c.setApprovals (s.approvals.filter p) .cancelled).addApprovalEvents
      ((s.approvals.filter p).map fun a => a.event .cancelled reasonCode actor))
    fun _ => rest

/-- `control_expire_service_account_approval`. -/
def expireServiceAccountApproval (now : Time) (k : Uuid) (rest : ControlScript) : ControlScript :=
  cancelApprovals (fun a => a.serviceAccountId = k ∧ a.state = .approved ∧ a.expiresAt ≤ now)
    "approval_expired" .system rest

/-- `INSERT INTO control_service_account_approvals`, with the primary key and the
index of the open ones. -/
def insertApproval (a : ApprovalRow) (rest : ControlScript) : ControlScript :=
  .statement (fun _ => [lock (.approvalKey a.approvalId)])
    (fun s => do
      require (∀ b ∈ s.approvals, b.approvalId ≠ a.approvalId)
        (.uniqueViolation "control_service_account_approvals_pkey")
      require (∀ b ∈ s.approvals, b.serviceAccountId = a.serviceAccountId → b.state ≠ .approved)
        (.uniqueViolation "control_one_pending_account_approval")
      return Store.addApproval a)
    fun _ => rest

def insertApprovalEvent (e : ApprovalEvent) (rest : ControlScript) : ControlScript :=
  .statement (fun _ => []) (fun _ => .ok (Store.addApprovalEvents [e])) fun _ => rest

def insertEvent (e : AccountEvent) (rest : ControlScript) : ControlScript :=
  .statement (fun _ => []) (fun _ => .ok (Store.addEvent e)) fun _ => rest

def insertAccount (a : AccountRow) (rest : ControlScript) : ControlScript :=
  .statement (fun _ => [])
    (fun s => do
      require (s.account a.serviceAccountId = none)
        (.uniqueViolation "control_service_accounts_pkey")
      return Store.addAccount a)
    fun _ => rest

def insertScopes (k : Uuid) (scopes : List String) (rest : ControlScript) : ControlScript :=
  .statement (fun _ => [])
    (fun s => do
      require (scopes.Nodup ∧ ∀ row ∈ s.scopes, row.serviceAccountId = k → row.scopeCode ∉ scopes)
        (.uniqueViolation "control_service_account_scopes_pkey")
      return Store.addScopes k scopes)
    fun _ => rest

/-- `INSERT INTO control_service_account_credentials`, an active one. -/
def insertCredential (k : Uuid) (version : ℕ) (digest : Bytes) (now expiresAt : Time)
    (rest : ControlScript) : ControlScript :=
  .statement (fun _ => [lock (.credentialDigest digest)])
    (fun s => do
      require (version ≤ 2147483647) (.outOfRange "integer out of range")
      require (now < expiresAt) (.checkViolation "control_service_account_credentials_check")
      require (∀ c ∈ s.credentials, ¬ (c.serviceAccountId = k ∧ c.credentialVersion = version))
        (.uniqueViolation "control_service_account_credentials_pkey")
      require (∀ c ∈ s.credentials, c.digest ≠ digest)
        (.uniqueViolation "control_service_account_credentials_digest_key")
      require (∀ c ∈ s.credentials, ¬ (c.serviceAccountId = k ∧ c.state = .active))
        (.uniqueViolation "control_one_active_service_credential")
      return Store.addCredential ⟨k, version, digest, .active, now, expiresAt⟩)
    fun _ => rest

/-- The active credentials of an account leave that state; `IF NOT FOUND` refuses. -/
def endCredentials (k : Uuid) (state : CredentialState) (e : Refusal) (rest : ControlScript) :
    ControlScript :=
  .statement (fun _ => []) (fun _ => .ok (Store.retireCredentials k state)) fun s =>
  .require (∃ c ∈ s.credentials, c.serviceAccountId = k ∧ c.state = .active) e rest

def updateAccount (k : Uuid) (f : AccountRow → AccountRow) (rest : ControlScript) :
    ControlScript :=
  .statement (fun _ => [lock (.accountRow k)]) (fun _ => .ok (Store.setAccount k f)) fun _ => rest

/-- An active account of a tenant, `FOR UPDATE`. -/
def readAccount (t k : Uuid) (rest : Option AccountRow → ControlScript) : ControlScript :=
  .read (fun s => if (s.activeAccount t k).isSome then [lock (.accountRow k)] else []) fun s =>
  rest (s.activeAccount t k)

/-- An approval, `FOR UPDATE`. -/
def readApproval (id t k : Uuid) (rest : Option ApprovalRow → ControlScript) : ControlScript :=
  .read (fun s => if (s.approval id t k).isSome then [lock (.approvalRow id)] else []) fun s =>
  rest (s.approval id t k)

/-! ## Approving -/

def scopeCodes : List String :=
  ["rag.query", "documents.read", "documents.write", "documents.lifecycle", "collections.manage",
    "tables.extract"]

/-- `array_agg(scope ORDER BY scope)` over the distinct ones. -/
def canonicalScopes (scopes : List String) : List String :=
  scopes.dedup.mergeSort fun x y => x ≤ y

def checkScopes (scopes : List String) : Prop :=
  canonicalScopes scopes ≠ [] ∧ scopes = canonicalScopes scopes ∧ scopes ⊆ scopeCodes

instance (scopes : List String) : Decidable (checkScopes scopes) :=
  inferInstanceAs (Decidable (_ ∧ _))

/-- `requested_control_policy_revision` and `requested_expected_revision` may be
NULL: then they are compared with nothing. -/
structure ApproveIssue where
  operator : OperatorKey
  approvalId : Uuid
  tenantId : Uuid
  accountId : Uuid
  scopes : List String
  accountExpiresAt : Time
  credentialExpiresAt : Time
  controlPolicyRevision : Option ℤ
  reasonCode : String
  requestDigest : Bytes
  resultingFactDigest : Bytes

def approvalInvalid : Refusal := .raised "22023" "service_account_approval_invalid"

def approvalConflict : Refusal := .raised "40001" "service_account_approval_conflict"

def requestInvalid : Refusal := .raised "22023" "service_account_request_invalid"

def revisionConflict : Refusal := .raised "40001" "service_account_revision_conflict"

/-- The approval of an issue, as it is inserted. -/
def ApproveIssue.row (r : ApproveIssue) (now : Time) (operator : Uuid) (policy : ℕ) :
    ApprovalRow where
  approvalId := r.approvalId
  tenantId := r.tenantId
  serviceAccountId := r.accountId
  terms := .issue r.scopes r.accountExpiresAt
  state := .approved
  platformOperatorId := operator
  reasonCode := r.reasonCode
  credentialExpiresAt := r.credentialExpiresAt
  controlPolicyRevision := policy
  expiresAt := now + minutes 15
  createdAt := now
  requestDigest := r.requestDigest
  resultingFactDigest := r.resultingFactDigest

/-- `control_approve_service_account_issue`. -/
def approveIssue (now : Time) (r : ApproveIssue) : ControlScript :=
  requirePlatformSecurity r.operator fun operator =>
  readTenant r.tenantId fun policy =>
  lockServiceAccount r.accountId <|
  expireServiceAccountApproval now r.accountId <|
  .read (fun _ => []) fun s =>
  .require (checkScopes r.scopes) approvalInvalid <|
  .demand policy approvalInvalid fun policy =>
  .require (∀ q ∈ r.controlPolicyRevision, (policy : ℤ) = q) approvalInvalid <|
  .require (s.tenantFacts r.tenantId).isSome approvalInvalid <|
  .require (now < r.accountExpiresAt ∧ now < r.credentialExpiresAt ∧
    r.credentialExpiresAt ≤ r.accountExpiresAt ∧ r.accountExpiresAt ≤ now + days 366)
    approvalInvalid <|
  .require (r.reasonCode ∈ ["security_provisioning", "incident_response"]) approvalInvalid <|
  .require (r.requestDigest.length = 32 ∧ r.resultingFactDigest.length = 32) approvalInvalid <|
  .require (s.account r.accountId = none) approvalInvalid <|
  insertApproval (r.row now operator policy) <|
  insertApprovalEvent
    ((r.row now operator policy).event .created r.reasonCode (.platformSecurity operator)) .commit

structure ApproveRotation where
  operator : OperatorKey
  approvalId : Uuid
  tenantId : Uuid
  accountId : Uuid
  expectedAccountRevision : Option ℤ
  credentialExpiresAt : Time
  controlPolicyRevision : Option ℤ
  reasonCode : String
  requestDigest : Bytes
  resultingFactDigest : Bytes

def ApproveRotation.row (r : ApproveRotation) (now : Time) (operator : Uuid) (policy : ℕ)
    (expected : ℤ) : ApprovalRow where
  approvalId := r.approvalId
  tenantId := r.tenantId
  serviceAccountId := r.accountId
  terms := .rotate expected
  state := .approved
  platformOperatorId := operator
  reasonCode := r.reasonCode
  credentialExpiresAt := r.credentialExpiresAt
  controlPolicyRevision := policy
  expiresAt := now + minutes 15
  createdAt := now
  requestDigest := r.requestDigest
  resultingFactDigest := r.resultingFactDigest

/-- `control_approve_service_account_rotation`. -/
def approveRotation (now : Time) (r : ApproveRotation) : ControlScript :=
  requirePlatformSecurity r.operator fun operator =>
  readTenant r.tenantId fun policy =>
  lockServiceAccount r.accountId <|
  expireServiceAccountApproval now r.accountId <|
  readAccount r.tenantId r.accountId fun account =>
  .read (fun _ => []) fun s =>
  .demand account approvalConflict fun account =>
  .require (∀ q ∈ r.expectedAccountRevision, (account.revision : ℤ) = q) approvalConflict <|
  .demand policy approvalConflict fun policy =>
  .require (∀ q ∈ r.controlPolicyRevision, (policy : ℤ) = q) approvalConflict <|
  .require (s.tenantFacts r.tenantId).isSome approvalConflict <|
  .require (now < r.credentialExpiresAt ∧ r.credentialExpiresAt ≤ account.expiresAt)
    approvalConflict <|
  .require (r.reasonCode ∈ ["scheduled_rotation", "suspected_compromise"]) approvalConflict <|
  .require (r.requestDigest.length = 32 ∧ r.resultingFactDigest.length = 32) approvalConflict <|
  .demand r.expectedAccountRevision
    (.checkViolation "control_service_account_approvals_check2") fun expected =>
  insertApproval (r.row now operator policy expected) <|
  insertApprovalEvent
    ((r.row now operator policy expected).event .created r.reasonCode (.platformSecurity operator))
    .commit

structure CancelApproval where
  operator : OperatorKey
  approvalId : Uuid
  tenantId : Uuid
  accountId : Uuid
  expectedApprovalRevision : ℤ
  reasonCode : String

/-- The rows `control_cancel_service_account_approval` updates. -/
def CancelApproval.selects (r : CancelApproval) (a : ApprovalRow) : Prop :=
  a.approvalId = r.approvalId ∧ a.tenantId = r.tenantId ∧ a.serviceAccountId = r.accountId ∧
    a.state = .approved ∧ (a.state.revision : ℤ) = r.expectedApprovalRevision ∧
    r.expectedApprovalRevision = 1 ∧
    r.reasonCode ∈ ["approval_cancelled", "security_response", "tenant_suspension",
      "access_removed"]

instance (r : CancelApproval) : DecidablePred r.selects :=
  fun _ => inferInstanceAs (Decidable (_ ∧ _))

/-- `control_cancel_service_account_approval`. -/
def cancelApproval (r : CancelApproval) : ControlScript :=
  requirePlatformSecurity r.operator fun operator =>
  lockServiceAccount r.accountId <|
  updateApprovals r.selects .cancelled fun found =>
  .demand found.head? approvalConflict fun cancelled =>
  insertApprovalEvent (cancelled.event .cancelled r.reasonCode (.platformSecurity operator)) .commit

/-! ## Redeeming -/

/-- What both redeem functions are called with. -/
structure Redeem where
  moment : Moment
  assertionVersion : BitVec 16
  keyVersion : Int4
  tenantId : Uuid
  tenantActorDigest : Bytes
  orgPolicyEpoch : Int8
  approvalId : Uuid
  expectedApprovalRevision : Int8
  accountId : Uuid
  credentialDigest : Bytes
  issuedAt : Int8
  expiresAt : Int8
  nonce : Bytes
  mac : Bytes
  requestDigest : Bytes
  resultingFactDigest : Bytes

def Redeem.coordinates (r : Redeem) (purpose : Purpose) : Coordinates where
  purpose := purpose
  keyVersion := r.keyVersion
  tenantId := r.tenantId
  tenantActorDigest := r.tenantActorDigest
  orgPolicyEpoch := r.orgPolicyEpoch
  approvalId := some r.approvalId
  approvalRevision := some r.expectedApprovalRevision
  serviceAccountId := some r.accountId
  credentialDigest := some r.credentialDigest
  limit := none
  issuedAt := r.issuedAt
  expiresAt := r.expiresAt
  nonce := r.nonce

/-- The part of the check both of them make of the approval and the arguments. -/
def Redeem.admits (r : Redeem) (policy : Option ℕ) (a : ApprovalRow) : Prop :=
  a.state = .approved ∧ (a.state.revision : ℤ) = r.expectedApprovalRevision.toInt ∧
    r.expectedApprovalRevision.toInt = 1 ∧ r.moment.now < a.expiresAt ∧
    (∀ p ∈ policy, a.controlPolicyRevision = p) ∧ 1 ≤ r.orgPolicyEpoch.toInt ∧
    r.tenantActorDigest.length = 32 ∧ r.credentialDigest.length = 32 ∧
    r.requestDigest.length = 32 ∧ r.resultingFactDigest.length = 32

instance (r : Redeem) (policy : Option ℕ) : DecidablePred (r.admits policy) :=
  fun _ => inferInstanceAs (Decidable (_ ∧ _))

def Redeem.actor (r : Redeem) : Actor := .tenantOrgAdmin r.tenantActorDigest r.orgPolicyEpoch

/-- The statements both of them end with. -/
def redeemed (r : Redeem) (a : ApprovalRow) (action : AccountAction) (expected : Option ℤ)
    (resulting : ℕ) : ControlScript :=
  updateApprovals (fun b => b.approvalId = r.approvalId) (.redeemed r.moment.now) fun _ =>
  insertEvent ⟨a.platformOperatorId, r.actor, r.tenantId, r.accountId, action, a.reasonCode,
    expected, resulting, r.requestDigest, r.resultingFactDigest⟩ <|
  insertApprovalEvent (a.event .redeemed "approval_redeemed" r.actor) .commit

/-- From the `IF` of `control_asserted_redeem_service_account_issue` on. -/
def redeemIssueChecked (r : Redeem) (policy : Option ℕ) (approved : Option ApprovalRow) :
    ControlScript :=
  .read (fun _ => []) fun s =>
  .demand approved approvalConflict fun a =>
  match a.terms with
  | .rotate _ => .abort approvalConflict
  | .issue scopes accountExpiresAt =>
    .require (r.admits policy a) approvalConflict <|
    .require (r.moment.now < accountExpiresAt ∧ r.moment.now < a.credentialExpiresAt ∧
      a.credentialExpiresAt ≤ accountExpiresAt) approvalConflict <|
    .require (s.tenantFacts r.tenantId).isSome approvalConflict <|
    .require (s.account r.accountId = none) approvalConflict <|
    insertAccount ⟨r.accountId, r.tenantId, .active, accountExpiresAt, 1⟩ <|
    insertScopes r.accountId scopes <|
    insertCredential r.accountId 1 r.credentialDigest r.moment.now a.credentialExpiresAt <|
    redeemed r a .issue none 1

/-- `control_asserted_redeem_service_account_issue`. -/
def redeemIssue (hmac : Bytes → Bytes → Bytes) (r : Redeem) : ControlScript :=
  consumeAssertion hmac r.moment r.assertionVersion (r.coordinates .approvalRedeemIssue) r.mac <|
  readTenant r.tenantId fun policy =>
  lockServiceAccount r.accountId <|
  readApproval r.approvalId r.tenantId r.accountId fun approved =>
  redeemIssueChecked r policy approved

/-- From the `IF` of `control_asserted_redeem_service_account_rotation` on. -/
def redeemRotationChecked (r : Redeem) (policy : Option ℕ) (approved : Option ApprovalRow)
    (account : Option AccountRow) : ControlScript :=
  .read (fun _ => []) fun s =>
  .demand approved approvalConflict fun a =>
  match a.terms with
  | .issue _ _ => .abort approvalConflict
  | .rotate expected =>
    .require (r.admits policy a) approvalConflict <|
    .demand account approvalConflict fun account =>
    .require ((account.revision : ℤ) = expected ∧ r.moment.now < account.expiresAt ∧
      a.credentialExpiresAt ≤ account.expiresAt) approvalConflict <|
    .require (s.tenantFacts r.tenantId).isSome approvalConflict <|
    endCredentials r.accountId .retired approvalConflict <|
    insertCredential r.accountId (account.revision + 1) r.credentialDigest r.moment.now
      a.credentialExpiresAt <|
    updateAccount r.accountId (fun row => { row with revision := account.revision + 1 }) <|
    redeemed r a .rotate (some account.revision) (account.revision + 1)

/-- `control_asserted_redeem_service_account_rotation`. -/
def redeemRotation (hmac : Bytes → Bytes → Bytes) (r : Redeem) : ControlScript :=
  consumeAssertion hmac r.moment r.assertionVersion (r.coordinates .approvalRedeemRotate) r.mac <|
  readTenant r.tenantId fun policy =>
  lockServiceAccount r.accountId <|
  readApproval r.approvalId r.tenantId r.accountId fun approved =>
  readAccount r.tenantId r.accountId fun account =>
  redeemRotationChecked r policy approved account

/-! ## The direct road -/

structure IssueAccount where
  operator : OperatorKey
  tenantId : Uuid
  accountId : Uuid
  digest : Bytes
  scopes : List String
  accountExpiresAt : Time
  credentialExpiresAt : Time
  reasonCode : String
  requestDigest : Bytes
  resultingFactDigest : Bytes

/-- `control_issue_service_account`. -/
def issueAccount (now : Time) (r : IssueAccount) : ControlScript :=
  requirePlatformSecurity r.operator fun operator =>
  lockServiceAccount r.accountId <|
  .read (fun _ => []) fun s =>
  .require (checkScopes r.scopes) requestInvalid <|
  .require (r.digest.length = 32 ∧ r.requestDigest.length = 32 ∧
    r.resultingFactDigest.length = 32) requestInvalid <|
  .require (r.reasonCode ∈ ["security_provisioning", "incident_response"]) requestInvalid <|
  .require (now < r.credentialExpiresAt ∧ r.credentialExpiresAt ≤ r.accountExpiresAt ∧
    r.accountExpiresAt ≤ now + days 366) requestInvalid <|
  .require (s.tenantFacts r.tenantId).isSome requestInvalid <|
  insertAccount ⟨r.accountId, r.tenantId, .active, r.accountExpiresAt, 1⟩ <|
  insertScopes r.accountId r.scopes <|
  insertCredential r.accountId 1 r.digest now r.credentialExpiresAt <|
  insertEvent ⟨operator, .platformSecurity operator, r.tenantId, r.accountId, .issue, r.reasonCode,
    none, 1, r.requestDigest, r.resultingFactDigest⟩ .commit

structure RotateAccount where
  operator : OperatorKey
  tenantId : Uuid
  accountId : Uuid
  expectedRevision : Option ℤ
  digest : Bytes
  credentialExpiresAt : Time
  reasonCode : String
  requestDigest : Bytes
  resultingFactDigest : Bytes

/-- `control_rotate_service_account`. -/
def rotateAccount (now : Time) (r : RotateAccount) : ControlScript :=
  requirePlatformSecurity r.operator fun operator =>
  lockServiceAccount r.accountId <|
  readAccount r.tenantId r.accountId fun account =>
  .demand account revisionConflict fun account =>
  .require (∀ q ∈ r.expectedRevision, (account.revision : ℤ) = q) revisionConflict <|
  .require (r.digest.length = 32 ∧ r.requestDigest.length = 32 ∧
    r.resultingFactDigest.length = 32) revisionConflict <|
  .require (r.reasonCode ∈ ["scheduled_rotation", "suspected_compromise"]) revisionConflict <|
  .require (now < r.credentialExpiresAt ∧ r.credentialExpiresAt ≤ account.expiresAt)
    revisionConflict <|
  endCredentials r.accountId .retired revisionConflict <|
  insertCredential r.accountId (account.revision + 1) r.digest now r.credentialExpiresAt <|
  updateAccount r.accountId (fun row => { row with revision := account.revision + 1 }) <|
  insertEvent ⟨operator, .platformSecurity operator, r.tenantId, r.accountId, .rotate,
    r.reasonCode, r.expectedRevision, account.revision + 1, r.requestDigest,
    r.resultingFactDigest⟩ .commit

structure RevokeAccount where
  operator : OperatorKey
  tenantId : Uuid
  accountId : Uuid
  expectedRevision : Option ℤ
  reasonCode : String
  requestDigest : Bytes
  resultingFactDigest : Bytes

/-- `control_revoke_service_account`. -/
def revokeAccount (r : RevokeAccount) : ControlScript :=
  requirePlatformSecurity r.operator fun operator =>
  lockServiceAccount r.accountId <|
  readAccount r.tenantId r.accountId fun account =>
  .demand account revisionConflict fun account =>
  .require (∀ q ∈ r.expectedRevision, (account.revision : ℤ) = q) revisionConflict <|
  .require (r.requestDigest.length = 32 ∧ r.resultingFactDigest.length = 32) revisionConflict <|
  .require (r.reasonCode ∈ ["suspected_compromise", "tenant_suspension", "security_response",
    "access_removed"]) revisionConflict <|
  endCredentials r.accountId .revoked revisionConflict <|
  updateAccount r.accountId
    (fun row => { row with state := .revoked, revision := account.revision + 1 }) <|
  cancelApprovals (fun a => a.tenantId = r.tenantId ∧ a.serviceAccountId = r.accountId ∧
      a.state = .approved) "service_account_revoked" (.platformSecurity operator) <|
  insertEvent ⟨operator, .platformSecurity operator, r.tenantId, r.accountId, .revoke,
    r.reasonCode, r.expectedRevision, account.revision + 1, r.requestDigest,
    r.resultingFactDigest⟩ .commit

end RagPipeline.Control
