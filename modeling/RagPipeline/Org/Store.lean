import RagPipeline.Lib.Guard
import RagPipeline.Lib.Table
import Mathlib.Data.List.Nodup

/-! # The organisation tables

Tenants, identities, positions with their closure, memberships, architects and
the bindings of identities to tenants; of the evaluation datasets, what their
foreign key asks for. Ids minted by `uuid4` are numbers. -/

set_option autoImplicit false

namespace RagPipeline.Org
open Guard

abbrev Uuid := ℕ

/-- The states of an identity, and of a membership. -/
inductive Standing where
  | active
  | pending
  | suspended
deriving DecidableEq, Repr

inductive Kind where
  | root
  | manager
  | member
deriving DecidableEq, Repr

inductive AppRole where
  | reader
  | editor
  | admin
deriving DecidableEq, Repr

structure TenantRow where
  id : Uuid
  name : String
  architectureVersion : ℕ
  policyEpoch : ℕ
deriving DecidableEq, Repr

structure IdentityRow where
  id : Uuid
  issuer : String
  subject : String
  state : Standing
deriving DecidableEq, Repr

structure PositionRow where
  id : Uuid
  tenantId : Uuid
  parentId : Option Uuid
  title : String
  kind : Kind
  canMonitorDescendants : Bool
  protectedFromMonitoring : Bool
deriving DecidableEq, Repr

structure ClosureRow where
  tenantId : Uuid
  ancestorId : Uuid
  descendantId : Uuid
  depth : ℕ
deriving DecidableEq, Repr

structure MembershipRow where
  tenantId : Uuid
  identityId : Uuid
  positionId : Option Uuid
  displayLabel : String
  appRole : AppRole
  state : Standing
deriving DecidableEq, Repr

structure ArchitectRow where
  tenantId : Uuid
  identityId : Uuid
  active : Bool
deriving DecidableEq, Repr

structure BindingRow where
  identityId : Uuid
  tenantId : Uuid
deriving DecidableEq, Repr

/-- `eval_datasets`, its owner. -/
structure DatasetRow where
  id : Uuid
  tenantId : Uuid
  ownerIdentityId : Uuid
deriving DecidableEq, Repr

inductive AuditAction where
  | topologyChange
  | membershipChange
deriving DecidableEq, Repr

structure AuditRow where
  tenantId : Uuid
  actorId : Uuid
  subjectId : Option Uuid
  action : AuditAction
  requestId : String
deriving DecidableEq, Repr

structure Store where
  tenants : List TenantRow
  identities : List IdentityRow
  positions : List PositionRow
  closure : List ClosureRow
  memberships : List MembershipRow
  architects : List ArchitectRow
  bindings : List BindingRow
  datasets : List DatasetRow
  audits : List AuditRow

/-- The exceptions. What a constraint or a trigger of the database refuses is
named by it. -/
inductive Refusal where
  | identityConflict (message : String)
  | versionConflict (message : String)
  | policyConflict (message : String)
  | membershipStateRefused (message : String)
  | uniqueViolation (constraint : String)
  | foreignKeyViolation (constraint : String)
  | checkViolation (constraint : String)
  | dataError (message : String)
  | raised (message : String)
deriving DecidableEq, Repr

/-- What the driver takes as text. -/
def textual (text : String) : Prop := Char.ofNat 0 ∉ text.toList

instance (text : String) : Decidable (textual text) := inferInstanceAs (Decidable (_ ∉ _))

def nulRefusal : Refusal := .dataError "PostgreSQL text fields cannot contain NUL (0x00) bytes"

namespace Store

def empty : Store := ⟨[], [], [], [], [], [], [], [], []⟩

def tenant (s : Store) (t : Uuid) : Option TenantRow := s.tenants.find? fun row => row.id = t

def identity (s : Store) (issuer subject : String) : Option IdentityRow :=
  s.identities.find? fun row => row.issuer = issuer ∧ row.subject = subject

def membership (s : Store) (t x : Uuid) : Option MembershipRow :=
  s.memberships.find? fun m => m.tenantId = t ∧ m.identityId = x

def architect (s : Store) (t x : Uuid) : Option ArchitectRow :=
  s.architects.find? fun a => a.tenantId = t ∧ a.identityId = x

def bound (s : Store) (x t : Uuid) : Prop := ⟨x, t⟩ ∈ s.bindings

instance (s : Store) (x t : Uuid) : Decidable (s.bound x t) :=
  inferInstanceAs (Decidable (_ ∈ s.bindings))

/-- The tenant an identity is bound to. -/
def binding (s : Store) (x : Uuid) : Option Uuid :=
  (s.bindings.find? fun b => b.identityId = x).map BindingRow.tenantId

/-- An active business membership. -/
def memberOf (s : Store) (x t : Uuid) : Prop :=
  ∃ m ∈ s.memberships, m.tenantId = t ∧ m.identityId = x ∧ m.state = .active

def architectOf (s : Store) (x t : Uuid) : Prop :=
  ∃ a ∈ s.architects, a.tenantId = t ∧ a.identityId = x ∧ a.active = true

/-- Active authority of either kind. -/
def authority (s : Store) (x t : Uuid) : Prop := s.memberOf x t ∨ s.architectOf x t

instance (s : Store) (x t : Uuid) : Decidable (s.memberOf x t) :=
  inferInstanceAs (Decidable (∃ m ∈ s.memberships, _))

instance (s : Store) (x t : Uuid) : Decidable (s.architectOf x t) :=
  inferInstanceAs (Decidable (∃ a ∈ s.architects, _))

instance (s : Store) (x t : Uuid) : Decidable (s.authority x t) :=
  inferInstanceAs (Decidable (_ ∨ _))

/-- Active authority in a tenant other than this one, among the rows the row
policies show: a connection without service access sees its own tenant only. -/
def authorityElsewhere (s : Store) (service : Bool) (x t : Uuid) : Prop :=
  service = true ∧
    ((∃ m ∈ s.memberships, m.identityId = x ∧ m.state = .active ∧ m.tenantId ≠ t) ∨
      ∃ a ∈ s.architects, a.identityId = x ∧ a.active = true ∧ a.tenantId ≠ t)

instance (s : Store) (service : Bool) (x t : Uuid) :
    Decidable (s.authorityElsewhere service x t) :=
  inferInstanceAs (Decidable (_ ∧ (_ ∨ _)))

/-! ## Rows as they are written -/

def putMembership (m : MembershipRow) (s : Store) : Store :=
  { s with
    memberships := m :: s.memberships.filter fun row =>
      ¬ (row.tenantId = m.tenantId ∧ row.identityId = m.identityId) }

def deleteMemberships (t : Uuid) (s : Store) : Store :=
  { s with memberships := s.memberships.filter fun row => row.tenantId ≠ t }

def putArchitect (a : ArchitectRow) (s : Store) : Store :=
  { s with
    architects := a :: s.architects.filter fun row =>
      ¬ (row.tenantId = a.tenantId ∧ row.identityId = a.identityId) }

def bind (x t : Uuid) (s : Store) : Store :=
  { s with bindings := ⟨x, t⟩ :: s.bindings.filter fun b => b.identityId ≠ x }

def unbind (x t : Uuid) (s : Store) : Store :=
  { s with bindings := s.bindings.filter fun b => ¬ (b.identityId = x ∧ b.tenantId = t) }

section
variable {s : Store} {x y t u : Uuid} {m : MembershipRow} {a : ArchitectRow}

theorem authority_def : s.authority x t ↔ s.memberOf x t ∨ s.architectOf x t := Iff.rfl

theorem memberOf_putMembership : (s.putMembership m).memberOf x t ↔
    if m.tenantId = t ∧ m.identityId = x then m.state = .active else s.memberOf x t := by
  simp only [memberOf, putMembership, List.mem_cons, List.mem_filter, decide_eq_true_eq]
  split
  case isTrue h =>
    constructor
    · rintro ⟨row, rfl | ⟨-, hne⟩, ht, hx, hstate⟩
      · exact hstate
      · exact absurd ⟨ht.trans h.1.symm, hx.trans h.2.symm⟩ hne
    · exact fun hstate => ⟨m, .inl rfl, h.1, h.2, hstate⟩
  case isFalse h =>
    constructor
    · rintro ⟨row, rfl | ⟨hrow, -⟩, ht, hx, hstate⟩
      · exact absurd ⟨ht, hx⟩ h
      · exact ⟨row, hrow, ht, hx, hstate⟩
    · rintro ⟨row, hrow, ht, hx, hstate⟩
      refine ⟨row, .inr ⟨hrow, fun hkey => h ⟨?_, ?_⟩⟩, ht, hx, hstate⟩
      · exact hkey.1.symm.trans ht
      · exact hkey.2.symm.trans hx

theorem memberOf_deleteMemberships :
    (s.deleteMemberships u).memberOf x t ↔ t ≠ u ∧ s.memberOf x t := by
  simp only [memberOf, deleteMemberships, List.mem_filter, decide_eq_true_eq]
  constructor
  · rintro ⟨row, ⟨hrow, hne⟩, rfl, hx, hstate⟩
    exact ⟨hne, row, hrow, rfl, hx, hstate⟩
  · rintro ⟨hne, row, hrow, rfl, hx, hstate⟩
    exact ⟨row, ⟨hrow, hne⟩, rfl, hx, hstate⟩

theorem architectOf_putArchitect : (s.putArchitect a).architectOf x t ↔
    if a.tenantId = t ∧ a.identityId = x then a.active = true else s.architectOf x t := by
  simp only [architectOf, putArchitect, List.mem_cons, List.mem_filter, decide_eq_true_eq]
  split
  case isTrue h =>
    constructor
    · rintro ⟨row, rfl | ⟨-, hne⟩, ht, hx, hactive⟩
      · exact hactive
      · exact absurd ⟨ht.trans h.1.symm, hx.trans h.2.symm⟩ hne
    · exact fun hactive => ⟨a, .inl rfl, h.1, h.2, hactive⟩
  case isFalse h =>
    constructor
    · rintro ⟨row, rfl | ⟨hrow, -⟩, ht, hx, hactive⟩
      · exact absurd ⟨ht, hx⟩ h
      · exact ⟨row, hrow, ht, hx, hactive⟩
    · rintro ⟨row, hrow, ht, hx, hactive⟩
      refine ⟨row, .inr ⟨hrow, fun hkey => h ⟨?_, ?_⟩⟩, ht, hx, hactive⟩
      · exact hkey.1.symm.trans ht
      · exact hkey.2.symm.trans hx

theorem bound_bind : (s.bind x t).bound y u ↔ if y = x then u = t else s.bound y u := by
  simp only [bound, bind, List.mem_cons, List.mem_filter, decide_eq_true_eq, BindingRow.mk.injEq]
  by_cases h : y = x <;> simp [h]

theorem bound_unbind : (s.unbind x t).bound y u ↔ s.bound y u ∧ ¬ (y = x ∧ u = t) := by
  simp only [bound, unbind, List.mem_filter, decide_eq_true_eq]

theorem binding_eq_none : s.binding x = none ↔ ∀ t, ¬ s.bound x t := by
  simp only [binding, Option.map_eq_none_iff, List.find?_eq_none, decide_eq_true_eq, bound]
  constructor
  · exact fun h t hb => h ⟨x, t⟩ hb rfl
  · rintro h ⟨y, t⟩ hb rfl
    exact h t hb

theorem bound_of_binding (h : s.binding x = some t) : s.bound x t := by
  obtain ⟨⟨y, u⟩, hb, rfl⟩ := Option.map_eq_some_iff.1 h
  have hy : y = x := by simpa using List.find?_some hb
  exact hy ▸ List.mem_of_find?_eq_some hb

end

end Store

end RagPipeline.Org

/-! # Positions and their closure

What an insert into `org_positions` goes through: the cycle guard, the
constraints of the table, and the trigger that computes the closure of the
tenant anew, by a recursion that joins one child level at a time. -/

namespace RagPipeline.Org
open Guard

namespace Store

def positionsOf (s : Store) (t : Uuid) : List PositionRow :=
  s.positions.filter fun p => p.tenantId = t

def closureOf (s : Store) (t : Uuid) : List ClosureRow :=
  s.closure.filter fun r => r.tenantId = t

/-- All positions of a tenant, and their closure with them. -/
def deletePositions (t : Uuid) (s : Store) : Store :=
  { s with
    positions := s.positions.filter fun p => p.tenantId ≠ t
    closure := s.closure.filter fun r => r.tenantId ≠ t }

end Store

/-- One round of the recursion: every row joined to the children of its
descendant. -/
def joinChildren (ps : List PositionRow) (rows : List ClosureRow) : List ClosureRow :=
  rows.flatMap fun r => (ps.filter fun p => p.parentId = some r.descendantId).map fun p =>
    ⟨r.tenantId, r.ancestorId, p.id, r.depth + 1⟩

def ClosureRow.key (r : ClosureRow) : Uuid × Uuid := (r.ancestorId, r.descendantId)

/-- `rag_rebuild_org_closure`. -/
def rebuildClosure (t : Uuid) (s : Store) : Except Refusal Store := do
  let ps := s.positionsOf t
  let rows ← demand
    (Rounds.rounds (joinChildren ps) (ps.length + 1) (ps.map fun p => ⟨t, p.id, p.id, 0⟩))
    (.raised "recursion without end")
  require (rows.map ClosureRow.key).Nodup (.uniqueViolation "org_closure_pkey")
  require (∀ r ∈ rows, r.ancestorId = r.descendantId ↔ r.depth = 0)
    (.checkViolation "org_closure_check")
  return { s with closure := s.closure.filter (fun r => r.tenantId ≠ t) ++ rows }

/-- The lineage of a position, upwards, itself included. -/
def lineage (ps : List PositionRow) : ℕ → Uuid → List Uuid
  | 0, _ => []
  | n + 1, id => match ps.find? fun p => p.id = id with
    | none => []
    | some p => id :: (p.parentId.elim [] (lineage ps n))

/-- `rag_guard_org_position`. -/
def guardPosition (p : PositionRow) (s : Store) : Except Refusal Unit := do
  require (p.parentId ≠ some p.id) (.raised "org cycle refused")
  let ps := s.positionsOf p.tenantId
  require (∀ parent ∈ p.parentId, p.id ∉ lineage ps ps.length parent)
    (.raised "org cycle refused")

def insertPosition (p : PositionRow) (s : Store) : Except Refusal Store := do
  require (textual p.title) nulRefusal
  guardPosition p s
  require (1 ≤ p.title.length ∧ p.title.length ≤ 200) (.checkViolation "org_positions_title_check")
  require (p.parentId = none ↔ p.kind = .root) (.checkViolation "org_positions_check")
  require (p.kind = .root → p.canMonitorDescendants = true ∧ p.protectedFromMonitoring = true)
    (.checkViolation "org_positions_check1")
  require (p.kind = .member → p.canMonitorDescendants = false)
    (.checkViolation "org_positions_check2")
  require (∀ q ∈ s.positions, q.id ≠ p.id) (.uniqueViolation "org_positions_pkey")
  require (p.parentId = none → ∀ q ∈ s.positionsOf p.tenantId, q.parentId ≠ none)
    (.uniqueViolation "org_positions_one_root_idx")
  require (∀ parent ∈ p.parentId, ∃ q ∈ s.positionsOf p.tenantId, q.id = parent)
    (.foreignKeyViolation "org_positions_tenant_id_parent_id_fkey")
  rebuildClosure p.tenantId { s with positions := s.positions ++ [p] }

end RagPipeline.Org
