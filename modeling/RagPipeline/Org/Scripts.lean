import RagPipeline.Org.Store
import RagPipeline.Lib.Locks

/-! # The transactions of the organisation

`bootstrap_org_tenant`, `update_org_member` and `replace_org_topology`,
statement by statement, with the triggers that claim and release the binding of
an identity and the foreign keys that are checked by a share lock. A connection
acts for one tenant; `service` is its access beyond the row policies. -/

set_option autoImplicit false

namespace RagPipeline.Org
open Guard Locks

/-- `FOR UPDATE` on a tenant is excluded by the share lock of a foreign key. The
keys stand for rows that are not there yet: who inserts one waits for another
insert of the same key. -/
inductive Row where
  | tenant (t : Uuid)
  | tenantShare (t : Uuid)
  | tenantKey (t : Uuid)
  | identityKey (issuer subject : String)
  | binding (x : Uuid)
  | membership (t x : Uuid)
  | architect (t x : Uuid)
deriving DecidableEq, Repr

def Row.excludes : Row → Row → Bool
  | .tenantShare _, .tenantShare _ => false
  | .tenantShare t, .tenant t' => t = t'
  | .tenant t, .tenantShare t' => t = t'
  | r, r' => r = r'

instance : Exclusion Row where
  excludes := Row.excludes
  symm := by
    intro r r' h
    cases r <;> cases r' <;> simp_all [Row.excludes]

abbrev OrgScript := Script Store Row Refusal

/-! ## Triggers -/

/-- `rag_claim_identity_tenant`, of a row that gives active authority. A binding
that is new is checked against the tenant it names. -/
def claim (x t : Uuid) (rest : OrgScript) : OrgScript :=
  .statement (fun _ => [.binding x])
    (fun s => match s.binding x with
      | none => .ok (Store.bind x t)
      | some u => if u = t then .ok id else .error (.uniqueViolation "identity is active in another tenant"))
    fun s => if s.binding x = none then .read (fun _ => [.tenantShare t]) fun _ => rest else rest

/-- `rag_release_identity_tenant`, of a row that was updated or deleted. -/
def release (x t : Uuid) (rest : OrgScript) : OrgScript :=
  .read (fun _ => []) fun s =>
  if s.authority x t then rest
  else .statement (fun s => if s.bound x t then [.binding x] else [])
    (fun s => .ok (if s.bound x t then Store.unbind x t else id)) fun _ => rest

/-- `rag_guard_org_audit_identity`. -/
def auditGuard (row : AuditRow) (s : Store) : Except Refusal Unit := do
  require (s.bound row.actorId row.tenantId) (.foreignKeyViolation "audit identity is outside tenant")
  require (∀ x ∈ row.subjectId, s.bound x row.tenantId ∨
      (∃ m ∈ s.memberships, m.identityId = x ∧ m.tenantId = row.tenantId) ∨
      ∃ a ∈ s.architects, a.identityId = x ∧ a.tenantId = row.tenantId)
    (.foreignKeyViolation "audit identity is outside tenant")

def insertAudit (row : AuditRow) : OrgScript :=
  .statement (fun _ => [])
    (fun s => do
      auditGuard row s
      require (8 ≤ row.requestId.length ∧ row.requestId.length ≤ 64)
        (.checkViolation "org_audit_events_request_id_check")
      return fun c => { c with audits := c.audits ++ [row] })
    fun _ => .commit

/-! ## Statements several of them share -/

/-- `INSERT INTO org_identities … ON CONFLICT (issuer, subject) DO NOTHING`. -/
def insertIdentity (new : Uuid) (issuer subject : String) (rest : OrgScript) : OrgScript :=
  .statement
    (fun s => if s.identity issuer subject = none then [.identityKey issuer subject] else [])
    (fun s => if s.identity issuer subject = none then do
        require (textual issuer ∧ textual subject) nulRefusal
        require (1 ≤ issuer.length ∧ issuer.length ≤ 100)
          (.checkViolation "org_identities_issuer_check")
        require (1 ≤ subject.length ∧ subject.length ≤ 200)
          (.checkViolation "org_identities_subject_check")
        require (∀ row ∈ s.identities, row.id ≠ new) (.uniqueViolation "org_identities_pkey")
        return fun c => { c with identities := c.identities ++ [⟨new, issuer, subject, .active⟩] }
      else .ok id)
    fun _ => rest

/-- The identity of a subject, where it is active. -/
def activeIdentity (issuer subject message : String) (rest : Uuid → OrgScript) : OrgScript :=
  .read (fun _ => []) fun s =>
  .demand (s.identity issuer subject) (.identityConflict message) fun row =>
  .require (row.state = .active) (.identityConflict message) <|
  rest row.id

/-- `SELECT … FROM org_tenants … FOR UPDATE`. -/
def lockTenant (t : Uuid) (rest : TenantRow → OrgScript) : OrgScript :=
  .read (fun s => if s.tenant t = none then [] else [.tenant t]) fun s =>
  .demand (s.tenant t) (.identityConflict "organizasyon tenant'i bulunamadi") rest

/-- `UPDATE org_tenants`, of a row that is locked. -/
def updateTenant (t : Uuid) (check : Except Refusal Unit) (f : TenantRow → TenantRow)
    (rest : OrgScript) : OrgScript :=
  .statement (fun _ => [])
    (fun _ => do
      check
      return fun c => { c with tenants := Table.updateWhere (fun row => row.id = t) f c.tenants })
    fun _ => rest

/-- What a name of a tenant has to be. -/
def checkName (name : String) : Except Refusal Unit := do
  require (textual name) nulRefusal
  require (1 ≤ name.length ∧ name.length ≤ 200) (.checkViolation "org_tenants_name_check")

/-! ## `bootstrap_org_tenant` -/

/-- `INSERT INTO org_architects … ON CONFLICT … DO UPDATE SET active = true`. The
trigger before the insert has run in both cases. -/
def insertArchitect (x t : Uuid) : OrgScript :=
  claim x t <|
  .statement (fun _ => [.architect t x])
    (fun s => .ok (if s.architect t x = none then Store.putArchitect ⟨t, x, true⟩ else id))
    fun s =>
  if s.architect t x = none then .read (fun _ => [.tenantShare t]) fun _ => .commit
  else
    claim x t <|
    .statement (fun _ => [.architect t x]) (fun _ => .ok (Store.putArchitect ⟨t, x, true⟩)) fun _ =>
    release x t .commit

def bootstrapScript (t : Uuid) (name issuer subject : String) (new : Uuid) : OrgScript :=
  .statement (fun s => if s.tenant t = none then [.tenantKey t] else [])
    (fun s => if s.tenant t = none then do
        checkName name
        return fun c => { c with tenants := c.tenants ++ [⟨t, name, 1, 1⟩] }
      else .ok id)
    fun _ =>
  .read (fun _ => []) fun s =>
  .require ((s.tenant t).map TenantRow.name = some name)
    (.identityConflict "tenant kimligi baska ada bagli") <|
  insertIdentity new issuer subject <|
  activeIdentity issuer subject "bootstrap kimligi aktif degil" fun x =>
  .read (fun _ => []) fun s =>
  .require (¬ s.authorityElsewhere true x t)
    (.identityConflict "bootstrap kimligi baska tenant'a bagli") <|
  insertArchitect x t

/-! ## `update_org_member` -/

/-- `_coerce_org_transition`. -/
def transitionAllowed (current next : Standing) : Prop :=
  current = next ∨ (current = .pending ∧ next = .active) ∨
    (current = .active ∧ next = .suspended) ∨ (current = .suspended ∧ next = .active)

instance (current next : Standing) : Decidable (transitionAllowed current next) :=
  inferInstanceAs (Decidable (_ ∨ _))

/-- `UPDATE org_memberships`, with the trigger before and the trigger after it.
A violation of uniqueness, the position's or the claim's, is reported as one. -/
def updateMembership (m : MembershipRow) (rest : OrgScript) : OrgScript :=
  let updated : OrgScript :=
    .statement (fun _ => [.membership m.tenantId m.identityId])
      (fun s => do
        require (m.state = .active → ∀ row ∈ s.memberships, row.tenantId = m.tenantId →
            row.identityId ≠ m.identityId → row.state = .active → row.positionId ≠ m.positionId)
          (.identityConflict "pozisyon zaten aktif uyeye atanmis")
        return Store.putMembership m)
      fun _ => release m.identityId m.tenantId rest
  if m.state = .active then
    .statement (fun _ => [.binding m.identityId])
      (fun s => match s.binding m.identityId with
        | none => .ok (Store.bind m.identityId m.tenantId)
        | some u => if u = m.tenantId then .ok id
          else .error (.identityConflict "pozisyon zaten aktif uyeye atanmis"))
      fun s => if s.binding m.identityId = none then
          .read (fun _ => [.tenantShare m.tenantId]) fun _ => updated
        else updated
  else updated

structure MemberUpdate where
  actor : Uuid
  target : Uuid
  expectedArchitectureVersion : ℕ
  expectedPolicyEpoch : ℕ
  state : Option Standing
  appRole : Option AppRole
  positionId : Option Uuid
  requestId : String

/-- The row as it is asked to become. -/
def MemberUpdate.apply (u : MemberUpdate) (m : MembershipRow) : MembershipRow :=
  { m with
    state := u.state.getD m.state
    appRole := u.appRole.getD m.appRole
    positionId := u.positionId.or m.positionId }

def updateScript (t : Uuid) (effectiveActor : Option Uuid) (u : MemberUpdate) : OrgScript :=
  .require (u.state ≠ none ∨ u.appRole ≠ none ∨ u.positionId ≠ none)
    (.membershipStateRefused "uyelik degisikligi belirtilmedi") <|
  .require (1 ≤ u.expectedArchitectureVersion ∧ 1 ≤ u.expectedPolicyEpoch)
    (.policyConflict "organizasyon politikasi bilgisi gecersiz") <|
  .require (u.positionId ≠ some 0) (.membershipStateRefused "pozisyon gecersiz") <|
  .require (8 ≤ u.requestId.length ∧ u.requestId.length ≤ 64)
    (.identityConflict "talep kimligi eksik") <|
  lockTenant t fun tenant =>
  .require (tenant.architectureVersion = u.expectedArchitectureVersion)
    (.versionConflict "organizasyon mimarisi degisti") <|
  .require (tenant.policyEpoch = u.expectedPolicyEpoch)
    (.policyConflict "organizasyon politikasi degisti") <|
  .read (fun _ => []) fun s =>
  .require (s.architectOf u.actor t ∧
      (∃ row ∈ s.identities, row.id = u.actor ∧ row.state = .active) ∧
      effectiveActor = some u.actor)
    (.identityConflict "islemci mimari yetkisine sahip degil") <|
  .read (fun _ => []) fun s =>
  .require (∃ row ∈ s.identities, row.id = u.target ∧ row.state = .active)
    (.identityConflict "hedef kimlik aktif degil") <|
  .read (fun _ => []) fun s =>
  .require (∀ bound ∈ s.binding u.target, bound = t)
    (.identityConflict "hedef kimlik baska tenant'a aktif") <|
  .read (fun s => if s.membership t u.target = none then [] else [.membership t u.target]) fun s =>
  .demand (s.membership t u.target) (.identityConflict "hedef uyelik bulunamadi") fun m =>
  .require (transitionAllowed m.state (u.apply m).state)
    (.membershipStateRefused "uyelik durumu gecersiz") <|
  .read (fun _ => []) fun s =>
  .require (∀ p ∈ (u.apply m).positionId, ∃ row ∈ s.positionsOf t, row.id = p)
    (.identityConflict "pozisyon bu tenant'ta bulunamadi") <|
  .require ((u.apply m).state = .active → (u.apply m).positionId ≠ none)
    (.membershipStateRefused "aktif uyelik icin pozisyon zorunlu") <|
  .require (u.apply m ≠ m) (.membershipStateRefused "uyelik degisikligi etkisiz") <|
  updateMembership { u.apply m with tenantId := t, identityId := u.target } <|
  updateTenant t (.ok ()) (fun row => { row with
    architectureVersion := row.architectureVersion + 1, policyEpoch := row.policyEpoch + 1 }) <|
  insertAudit ⟨t, u.actor, some u.target, .membershipChange, u.requestId⟩

/-! ## `replace_org_topology` -/

structure PositionRequest where
  id : Uuid
  parentId : Option Uuid
  title : String
  kind : Kind
  canMonitorDescendants : Bool
  protectedFromMonitoring : Bool
deriving DecidableEq, Repr

def PositionRequest.row (p : PositionRequest) (t : Uuid) : PositionRow :=
  ⟨p.id, t, p.parentId, p.title, p.kind, p.canMonitorDescendants, p.protectedFromMonitoring⟩

structure MemberRequest where
  issuer : String
  subject : String
  positionId : Uuid
  displayLabel : String
  appRole : AppRole
  state : Standing
deriving DecidableEq, Repr

def MemberRequest.row (m : MemberRequest) (t x : Uuid) : MembershipRow :=
  ⟨t, x, some m.positionId, m.displayLabel, m.appRole, m.state⟩

/-- `DELETE FROM org_memberships`: the reference of an evaluation dataset
restricts it, and each row deleted fires the trigger. -/
def deleteMembershipsScript (t : Uuid) (rest : OrgScript) : OrgScript :=
  .statement
    (fun s => (s.memberships.filter fun m => m.tenantId = t).map fun m => .membership t m.identityId)
    (fun s => do
      require (∀ m ∈ s.memberships, m.tenantId = t → ∀ d ∈ s.datasets,
          ¬ (d.tenantId = t ∧ d.ownerIdentityId = m.identityId))
        (.foreignKeyViolation "eval_datasets_tenant_id_owner_identity_id_fkey")
      return Store.deleteMemberships t)
    fun s => (s.memberships.filter fun m => m.tenantId = t).foldr
      (fun m rest => release m.identityId t rest) rest

/-- `DELETE FROM org_positions`. A membership that names a position restricts it. -/
def deletePositionsScript (t : Uuid) (rest : OrgScript) : OrgScript :=
  .statement (fun _ => [])
    (fun s => do
      require (∀ m ∈ s.memberships, m.tenantId = t → m.positionId = none)
        (.foreignKeyViolation "org_memberships_tenant_id_position_id_fkey")
      return Store.deletePositions t)
    fun _ => rest

def insertPositionsScript (t : Uuid) (rest : OrgScript) : List PositionRequest → OrgScript
  | [] => rest
  | p :: positions =>
    .statement (fun _ => [])
      (fun s => do
        let s ← insertPosition (p.row t) s
        return fun c => { c with
          positions := c.positions ++ [p.row t]
          closure := c.closure.filter (fun r => r.tenantId ≠ t) ++ s.closureOf t })
      fun _ => insertPositionsScript t rest positions

/-- What a new membership is checked for. -/
def insertMembershipRow (m : MembershipRow) (s : Store) : Except Refusal (Store → Store) := do
  require (textual m.displayLabel) nulRefusal
  require (1 ≤ m.displayLabel.length ∧ m.displayLabel.length ≤ 200)
    (.checkViolation "org_memberships_display_label_check")
  require (m.state = .active → m.positionId ≠ none) (.checkViolation "org_memberships_check")
  require (s.membership m.tenantId m.identityId = none) (.uniqueViolation "org_memberships_pkey")
  require (m.state = .active → ∀ row ∈ s.memberships, row.tenantId = m.tenantId →
      row.state = .active → row.positionId ≠ m.positionId)
    (.uniqueViolation "org_memberships_active_position_idx")
  require (∀ p ∈ m.positionId, ∃ row ∈ s.positionsOf m.tenantId, row.id = p)
    (.foreignKeyViolation "org_memberships_tenant_id_position_id_fkey")
  return Store.putMembership m

def insertedMembership (m : MembershipRow) (rest : OrgScript) : OrgScript :=
  .statement (fun _ => [.membership m.tenantId m.identityId]) (insertMembershipRow m) fun _ => rest

/-- `INSERT INTO org_memberships`, behind the claim of an active one. -/
def insertMembership (m : MembershipRow) (rest : OrgScript) : OrgScript :=
  if m.state = .active then claim m.identityId m.tenantId (insertedMembership m rest)
  else insertedMembership m rest

/-- The ids beside the members are those `uuid4` offers for new identities. -/
def insertMembersScript (t : Uuid) (service : Bool) (rest : OrgScript) :
    List (MemberRequest × Uuid) → OrgScript
  | [] => rest
  | (m, new) :: members =>
    insertIdentity new m.issuer m.subject <|
    activeIdentity m.issuer m.subject "organizasyon kimligi aktif degil" fun x =>
    .read (fun _ => []) fun s =>
    .require (m.state = .active → ¬ s.authorityElsewhere service x t)
      (.identityConflict "kimlik baska tenant'a aktif bagli") <|
    insertMembership (m.row t x) <|
    insertMembersScript t service rest members

def replaceScript (t : Uuid) (service : Bool) (expectedVersion : ℕ) (name : String)
    (positions : List PositionRequest) (members : List (MemberRequest × Uuid))
    (actor : Uuid) (requestId : String) : OrgScript :=
  lockTenant t fun tenant =>
  .require (tenant.architectureVersion = expectedVersion)
    (.versionConflict "organizasyon mimarisi degisti") <|
  deleteMembershipsScript t <|
  deletePositionsScript t <|
  insertPositionsScript t
    (insertMembersScript t service
      (updateTenant t (checkName name) (fun row => { row with
        name := name
        architectureVersion := row.architectureVersion + 1
        policyEpoch := row.policyEpoch + 1 }) <|
      insertAudit ⟨t, actor, none, .topologyChange, requestId⟩)
      members)
    positions

inductive Call where
  | bootstrap (t : Uuid) (name issuer subject : String) (new : Uuid)
  | update (t : Uuid) (effectiveActor : Option Uuid) (u : MemberUpdate)
  | replace (t : Uuid) (service : Bool) (expectedVersion : ℕ) (name : String)
      (positions : List PositionRequest) (members : List (MemberRequest × Uuid))
      (actor : Uuid) (requestId : String)

def Call.script : Call → OrgScript
  | bootstrap t name issuer subject new => bootstrapScript t name issuer subject new
  | update t effectiveActor u => updateScript t effectiveActor u
  | replace t service expectedVersion name positions members actor requestId =>
    replaceScript t service expectedVersion name positions members actor requestId

end RagPipeline.Org
