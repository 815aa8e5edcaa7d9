import RagPipeline.Lib.Table
import Mathlib.Data.Int.Notation
import RagPipeline.Lib.Locks
import Mathlib.Data.List.Sort

/-! # The control plane's tables

Of `rag_control`, the tables that the service accounts rest on: tenants with
what makes them servable, platform operators, accounts with their scopes and
credentials, approvals, the two ledgers of events, and the keys and nonces of
assertions. Times are microseconds of the database clock. -/

set_option autoImplicit false

namespace RagPipeline.Control

abbrev Uuid := BitVec 128

abbrev Int4 := BitVec 32

abbrev Int8 := BitVec 64

abbrev Time := ℤ

abbrev Bytes := List UInt8

def second : Time := 1000000

def minutes (n : ℤ) : Time := n * 60 * second

def days (n : ℤ) : Time := n * 24 * minutes 60

/-! ## Tenants and operators -/

inductive Lifecycle where
  | provisioning
  | active
  | suspended
  | decommissioning
  | decommissioned
deriving DecidableEq, Repr

structure TenantRow where
  tenantId : Uuid
  lifecycle : Lifecycle
  policyRevision : ℕ
deriving DecidableEq, Repr

inductive RouteState where
  | pending
  | active
  | draining
  | retired
deriving DecidableEq, Repr

structure RouteRow where
  tenantId : Uuid
  regionCode : String
  state : RouteState
deriving DecidableEq, Repr

inductive RegionState where
  | active
  | draining
  | disabled
deriving DecidableEq, Repr

structure RegionRow where
  regionCode : String
  state : RegionState
deriving DecidableEq, Repr

inductive OperatorRole where
  | platformReader
  | platformOperator
  | platformSecurity
deriving DecidableEq, Repr

inductive OperatorState where
  | active
  | suspended
  | revoked
deriving DecidableEq, Repr

structure OperatorRow where
  operatorId : Uuid
  role : OperatorRole
  state : OperatorState
deriving DecidableEq, Repr

/-- `state` says whether the digest is active or retired. -/
structure OperatorDigestRow where
  operatorId : Uuid
  keyVersion : Int4
  digest : Bytes
  active : Bool
deriving DecidableEq, Repr

/-! ## Accounts -/

inductive AccountState where
  | active
  | revoked
deriving DecidableEq, Repr

structure AccountRow where
  serviceAccountId : Uuid
  tenantId : Uuid
  state : AccountState
  expiresAt : Time
  revision : ℕ
deriving DecidableEq, Repr

structure ScopeRow where
  serviceAccountId : Uuid
  scopeCode : String
deriving DecidableEq, Repr

inductive CredentialState where
  | active
  | retired
  | revoked
deriving DecidableEq, Repr

structure CredentialRow where
  serviceAccountId : Uuid
  credentialVersion : ℕ
  digest : Bytes
  state : CredentialState
  notBefore : Time
  expiresAt : Time
deriving DecidableEq, Repr

/-- Who acted. Each kind has the columns its check asks for, and no others. -/
inductive Actor where
  | platformSecurity (operator : Uuid)
  | tenantOrgAdmin (digest : Bytes) (epoch : Int8)
  | system
deriving DecidableEq, Repr

inductive AccountAction where
  | issue
  | rotate
  | revoke
deriving DecidableEq, Repr

structure AccountEvent where
  operatorId : Uuid
  actor : Actor
  tenantId : Uuid
  serviceAccountId : Uuid
  action : AccountAction
  reasonCode : String
  expectedRevision : Option ℤ
  resultingRevision : ℕ
  requestDigest : Bytes
  resultingFactDigest : Bytes
deriving DecidableEq, Repr

/-! ## Approvals -/

/-- What is approved, with the columns each action has. -/
inductive Terms where
  | issue (scopes : List String) (accountExpiresAt : Time)
  | rotate (expectedAccountRevision : ℤ)
deriving DecidableEq, Repr

/-- Only a redeemed approval has the time it was redeemed at. -/
inductive ApprovalState where
  | approved
  | redeemed (redeemedAt : Time)
  | cancelled
deriving DecidableEq, Repr

/-- `approval_revision`, which the check ties to the state. -/
def ApprovalState.revision : ApprovalState → ℕ
  | .approved => 1
  | .redeemed _ => 2
  | .cancelled => 2

structure ApprovalRow where
  approvalId : Uuid
  tenantId : Uuid
  serviceAccountId : Uuid
  terms : Terms
  state : ApprovalState
  platformOperatorId : Uuid
  reasonCode : String
  credentialExpiresAt : Time
  controlPolicyRevision : ℕ
  expiresAt : Time
  createdAt : Time
  requestDigest : Bytes
  resultingFactDigest : Bytes
deriving DecidableEq, Repr

inductive ApprovalAction where
  | created
  | redeemed
  | cancelled
deriving DecidableEq, Repr

structure ApprovalEvent where
  approvalId : Uuid
  tenantId : Uuid
  serviceAccountId : Uuid
  action : ApprovalAction
  reasonCode : String
  actor : Actor
  approvalCreatedAt : Time
  approvalExpiresAt : Time
deriving DecidableEq, Repr

/-! ## Assertions -/

inductive Purpose where
  | approvalList
  | approvalGet
  | approvalRedeemIssue
  | approvalRedeemRotate
deriving DecidableEq, Repr

inductive KeyState where
  | staged
  | active
  | verifyOnly
  | retired
deriving DecidableEq, Repr

structure AssertionKeyRow where
  keyVersion : Int4
  secret : Bytes
  state : KeyState
  notBefore : Time
  verifyStartedAt : Option Time
  verifyUntil : Option Time
deriving DecidableEq, Repr

structure NonceRow where
  keyVersion : Int4
  purpose : Purpose
  nonce : Bytes
  tenantId : Uuid
  approvalId : Option Uuid
  expiresAt : Time
  consumedAt : Time
deriving DecidableEq, Repr

structure Store where
  tenants : List TenantRow
  routes : List RouteRow
  regions : List RegionRow
  /-- The tenants that have declared quotas. -/
  quotas : List Uuid
  operators : List OperatorRow
  operatorDigests : List OperatorDigestRow
  accounts : List AccountRow
  scopes : List ScopeRow
  credentials : List CredentialRow
  events : List AccountEvent
  approvals : List ApprovalRow
  approvalEvents : List ApprovalEvent
  assertionKeys : List AssertionKeyRow
  nonces : List NonceRow

/-- The exceptions a function raises, and what the database refuses by itself. -/
inductive Refusal where
  | raised (errcode message : String)
  | uniqueViolation (constraint : String)
  | checkViolation (constraint : String)
  | outOfRange (message : String)
deriving DecidableEq, Repr

namespace Store

def empty : Store := ⟨[], [], [], [], [], [], [], [], [], [], [], [], [], []⟩

/-- The tenant, where it is active. -/
def activeTenant (s : Store) (t : Uuid) : Option TenantRow :=
  s.tenants.find? fun row => row.tenantId = t ∧ row.lifecycle = .active

/-- `control_tenant_facts`, of which its callers read the policy revision. -/
def tenantFacts (s : Store) (t : Uuid) : Option ℕ :=
  (s.tenants.find? fun row => row.tenantId = t ∧ row.lifecycle = .active ∧ t ∈ s.quotas ∧
    ∃ r ∈ s.routes, r.tenantId = t ∧ r.state = .active ∧
      ∃ g ∈ s.regions, g.regionCode = r.regionCode ∧ g.state = .active).map
    TenantRow.policyRevision

/-- The operators `control_require_platform_security` selects. -/
def platformSecurity (s : Store) (keyVersion : Int4) (digest : Bytes) : List Uuid :=
  s.operators.flatMap fun o =>
    (s.operatorDigests.filter fun d => d.operatorId = o.operatorId ∧ d.keyVersion = keyVersion ∧
      d.digest = digest ∧ d.active = true ∧ o.role = .platformSecurity ∧ o.state = .active ∧
        digest.length = 32).map fun _ => o.operatorId

def account (s : Store) (k : Uuid) : Option AccountRow :=
  s.accounts.find? fun a => a.serviceAccountId = k

/-- The account, where it is this tenant's and active. -/
def activeAccount (s : Store) (t k : Uuid) : Option AccountRow :=
  s.accounts.find? fun a => a.serviceAccountId = k ∧ a.tenantId = t ∧ a.state = .active

def approval (s : Store) (id t k : Uuid) : Option ApprovalRow :=
  s.approvals.find? fun a => a.approvalId = id ∧ a.tenantId = t ∧ a.serviceAccountId = k

/-! ## Rows as they are written -/

def addAccount (a : AccountRow) (s : Store) : Store := { s with accounts := s.accounts ++ [a] }

def addScopes (k : Uuid) (scopes : List String) (s : Store) : Store :=
  { s with scopes := s.scopes ++ scopes.map fun code => ⟨k, code⟩ }

def addCredential (c : CredentialRow) (s : Store) : Store :=
  { s with credentials := s.credentials ++ [c] }

/-- `UPDATE … SET state WHERE service_account_id AND state = 'active'`. -/
def retireCredentials (k : Uuid) (state : CredentialState) (s : Store) : Store :=
  { s with
    credentials := Table.updateWhere (fun c => c.serviceAccountId = k ∧ c.state = .active)
      (fun c => { c with state := state }) s.credentials }

def setAccount (k : Uuid) (f : AccountRow → AccountRow) (s : Store) : Store :=
  { s with accounts := Table.updateWhere (fun a => a.serviceAccountId = k) f s.accounts }

def addEvent (e : AccountEvent) (s : Store) : Store := { s with events := s.events ++ [e] }

def addApproval (a : ApprovalRow) (s : Store) : Store := { s with approvals := s.approvals ++ [a] }

def setApprovals (l : List ApprovalRow) (state : ApprovalState) (s : Store) : Store :=
  { s with
    approvals := Table.updateWhere (fun a => a ∈ l) (fun a => { a with state := state })
      s.approvals }

def addApprovalEvents (l : List ApprovalEvent) (s : Store) : Store :=
  { s with approvalEvents := s.approvalEvents ++ l }

def addNonce (n : NonceRow) (s : Store) : Store := { s with nonces := s.nonces ++ [n] }

def deleteNonces (l : List NonceRow) (s : Store) : Store :=
  { s with nonces := s.nonces.filter fun n => n ∉ l }

end Store

end RagPipeline.Control

/-! # Assertions and how they are consumed

`control_service_account_assertion_payload` and
`control_consume_service_account_assertion`, statement by statement. The keyed
hash is a parameter. An argument that is NULL where none may be is refused at
once and is left out. -/

namespace RagPipeline.Control
open Guard Locks

/-- What can be locked. The advisory lock of an account is taken on a hash of its
id; the keys stand for rows of that key, also where there is none yet. -/
inductive Thing where
  | tenant (t : Uuid)
  | account (k : Uuid)
  | accountRow (k : Uuid)
  | approvalRow (id : Uuid)
  | approvalKey (id : Uuid)
  | credentialDigest (digest : Bytes)
  | assertionKey (version : Int4)
  | nonce (version : Int4) (nonce : Bytes)
deriving DecidableEq, Repr

structure Row where
  thing : Thing
  shared : Bool
deriving DecidableEq, Repr

def Row.excludes (r r' : Row) : Bool := r.thing = r'.thing ∧ ¬ (r.shared ∧ r'.shared)

instance : Exclusion Row where
  excludes := Row.excludes
  symm := by
    intro r r' h
    simp only [Row.excludes, decide_eq_true_eq] at h ⊢
    exact ⟨h.1.symm, fun hs => h.2 hs.symm⟩

abbrev ControlScript := Script Store Row Refusal

def share (x : Thing) : Row := ⟨x, true⟩

def lock (x : Thing) : Row := ⟨x, false⟩

/-! ## The payload -/

def Purpose.code : Purpose → String
  | .approvalList => "approval_list"
  | .approvalGet => "approval_get"
  | .approvalRedeemIssue => "approval_redeem_issue"
  | .approvalRedeemRotate => "approval_redeem_rotate"

/-- What an assertion is minted for. -/
structure Coordinates where
  purpose : Purpose
  keyVersion : Int4
  tenantId : Uuid
  tenantActorDigest : Bytes
  orgPolicyEpoch : Int8
  approvalId : Option Uuid
  approvalRevision : Option Int8
  serviceAccountId : Option Uuid
  credentialDigest : Option Bytes
  limit : Option Int4
  issuedAt : Int8
  expiresAt : Int8
  nonce : Bytes
deriving DecidableEq, Repr

/-- `convert_to(…, 'UTF8')`. -/
def utf8 (text : String) : Bytes := text.toUTF8.data.toList

/-- `int4send`, `int8send` and `uuid_send`: the bytes from the highest down. -/
def send (n : ℕ) (x : BitVec (8 * n)) : Bytes :=
  (List.range n).reverse.map fun i => ⟨x.extractLsb' (8 * i) 8⟩

/-- A byte that tells whether a value follows. -/
def tagged {α : Type} (bytes : α → Bytes) : Option α → Bytes
  | none => [0]
  | some a => 1 :: bytes a

/-- Which of the optional coordinates a purpose has. -/
def Coordinates.shaped (a : Coordinates) : Prop :=
  match a.purpose with
  | .approvalList => a.approvalId = none ∧ a.approvalRevision = none ∧
      a.serviceAccountId = none ∧ a.credentialDigest = none ∧
      ∃ n ∈ a.limit, 1 ≤ n.toInt ∧ n.toInt ≤ 100
  | .approvalGet => a.approvalId.isSome ∧ (∃ n ∈ a.approvalRevision, 1 ≤ n.toInt) ∧
      a.serviceAccountId.isSome ∧ a.credentialDigest = none ∧ a.limit = none
  | .approvalRedeemIssue | .approvalRedeemRotate =>
      a.approvalId.isSome ∧ (∃ n ∈ a.approvalRevision, 1 ≤ n.toInt) ∧
      a.serviceAccountId.isSome ∧ (∃ d ∈ a.credentialDigest, d.length = 32) ∧ a.limit = none

instance (a : Coordinates) : Decidable a.shaped := by
  unfold Coordinates.shaped
  cases a.purpose <;> exact inferInstance

def Coordinates.valid (a : Coordinates) : Prop :=
  1 ≤ a.keyVersion.toInt ∧ a.tenantActorDigest.length = 32 ∧ 1 ≤ a.orgPolicyEpoch.toInt ∧
    a.expiresAt.toInt - a.issuedAt.toInt = 30 ∧ a.nonce.length = 16 ∧ a.shaped

instance (a : Coordinates) : Decidable a.valid := inferInstanceAs (Decidable (_ ∧ _))

def Coordinates.bytes (a : Coordinates) : Bytes :=
  utf8 "ragtest.service-account.assertion.v1" ++
  send 4 (BitVec.ofNat _ (utf8 a.purpose.code).length) ++ utf8 a.purpose.code ++
  send 4 a.keyVersion ++ send 16 a.tenantId ++ a.tenantActorDigest ++ send 8 a.orgPolicyEpoch ++
  tagged (send 16) a.approvalId ++ tagged (send 8) a.approvalRevision ++
  tagged (send 16) a.serviceAccountId ++ tagged id a.credentialDigest ++
  tagged (send 4) a.limit ++ send 8 a.issuedAt ++ send 8 a.expiresAt ++ a.nonce

/-- `control_service_account_assertion_payload`. -/
def assertionPayload (a : Coordinates) : Except Refusal Bytes := do
  require a.valid (.raised "22023" "service_account_assertion_invalid")
  return a.bytes

/-- `control_secure_bytea_equal`. -/
def secureByteaEqual (left right : Bytes) : Bool :=
  left.length = 32 ∧ right.length = 32 ∧
    (List.zipWith (fun x y => x ^^^ y) left right).foldl (fun x y => x ||| y) 0 = 0

/-! ## Consuming -/

/-- The key an assertion is verified with by a statement that started at `now`. -/
def Store.verificationKey (s : Store) (version : Int4) (now : Time) : Option AssertionKeyRow :=
  s.assertionKeys.find? fun key => key.keyVersion = version ∧
    (key.state = .active ∨ key.state = .verifyOnly) ∧ key.notBefore ≤ now ∧
    (∀ t ∈ key.verifyStartedAt, t ≤ now) ∧ ∀ t ∈ key.verifyUntil, now < t

def NonceRow.before (n m : NonceRow) : Bool :=
  n.expiresAt < m.expiresAt ∨ (n.expiresAt = m.expiresAt ∧
    (n.keyVersion.toInt < m.keyVersion.toInt ∨
      (n.keyVersion = m.keyVersion ∧ n.nonce ≤ m.nonce)))

/-- The expired nonces a call collects; which ones it finds locked and skips is
not its choice. -/
def Store.expiredNonces (s : Store) (now : Time) (skips : NonceRow → Bool) : List NonceRow :=
  ((s.nonces.filter fun n => n.expiresAt ≤ now ∧ skips n = false).mergeSort NonceRow.before).take 128

def Store.nonceUsed (s : Store) (version : Int4) (nonce : Bytes) : Prop :=
  ∃ n ∈ s.nonces, n.keyVersion = version ∧ n.nonce = nonce

instance (s : Store) (version : Int4) (nonce : Bytes) : Decidable (s.nonceUsed version nonce) :=
  inferInstanceAs (Decidable (∃ n ∈ s.nonces, _))

/-- A call: when its statement started, and which locked nonces it passes over. -/
structure Moment where
  now : Time
  skips : NonceRow → Bool

/-- `floor(extract(epoch FROM statement_timestamp()))`. -/
def Moment.epoch (m : Moment) : ℤ := m.now / second

def assertionInvalid : Refusal := .raised "42501" "service_account_assertion_invalid"

def Coordinates.nonceRow (a : Coordinates) (m : Moment) : NonceRow where
  keyVersion := a.keyVersion
  purpose := a.purpose
  nonce := a.nonce
  tenantId := a.tenantId
  approvalId := a.approvalId
  expiresAt := a.expiresAt.toInt * second
  consumedAt := m.now

/-- `control_consume_service_account_assertion`. -/
def consumeAssertion (hmac : Bytes → Bytes → Bytes) (m : Moment) (version : BitVec 16)
    (a : Coordinates) (mac : Bytes) (rest : ControlScript) : ControlScript :=
  .require (version = 1 ∧ mac.length = 32 ∧ a.issuedAt.toInt ≤ m.epoch + 5 ∧
    m.epoch < a.expiresAt.toInt) assertionInvalid <|
  match assertionPayload a with
  | .error e => .abort e
  | .ok payload =>
    .read (fun s => if (s.verificationKey a.keyVersion m.now).isSome then
      [share (.assertionKey a.keyVersion)] else []) fun s =>
    .demand (s.verificationKey a.keyVersion m.now) assertionInvalid fun key =>
    .require (secureByteaEqual (hmac payload key.secret) mac) assertionInvalid <|
    .read (fun _ => []) fun s =>
    .statement
      (fun _ => (s.expiredNonces m.now m.skips).map fun n => lock (.nonce n.keyVersion n.nonce))
      (fun _ => .ok (Store.deleteNonces (s.expiredNonces m.now m.skips)))
      fun _ =>
    .statement (fun _ => [lock (.nonce a.keyVersion a.nonce)])
      (fun s => .ok (if s.nonceUsed a.keyVersion a.nonce then id else Store.addNonce (a.nonceRow m)))
      fun s =>
    .require (¬ s.nonceUsed a.keyVersion a.nonce)
      (.raised "40001" "service_account_assertion_replayed") <|
    rest

end RagPipeline.Control
