import RagPipeline.Org.Joined
import RagPipeline.Org.Bindings

/-! # Replacing a topology

When `replace_org_topology` commits a topology that `ordered_topology` accepted,
and what the closure is afterwards. -/

set_option autoImplicit false

namespace RagPipeline.Org
open Guard Locks

/-- What stands in the way of no replacement: no evaluation dataset has a member
of the tenant for its owner, no other tenant has one of the positions, and the
texts and the identities are what the columns and the guards take. -/
structure Replaceable (s : Store) (t : Uuid) (name : String) (positions : List PositionRequest)
    (members : List MemberRequest) : Prop where
  datasets : ∀ d ∈ s.datasets, d.tenantId ≠ t
  positions : ∀ p ∈ positions, p.Fits s t
  members : ∀ m ∈ members, m.Fits s t
  textual : textual name
  length : 1 ≤ name.length ∧ name.length ≤ 200

section
variable {s b out : Store} {t actor : Uuid} {name requestId : String}
  {f : TenantRow → TenantRow} {positions ordered : List PositionRequest}
  {members ms : List MemberRequest} {ids : List Uuid}

/-! ## The last two statements -/

theorem alone_last (htextual : textual name) (hlength : 1 ≤ name.length ∧ name.length ≤ 200)
    (hactor : s.bound actor t) (hrequest : 8 ≤ requestId.length ∧ requestId.length ≤ 64) :
    (updateTenant t (checkName name) f
      (insertAudit ⟨t, actor, none, .topologyChange, requestId⟩)).alone s = .ok { s with
        tenants := Table.updateWhere (fun row => row.id = t) f s.tenants
        audits := s.audits ++ [⟨t, actor, none, .topologyChange, requestId⟩] } := by
  have hguard : auditGuard ⟨t, actor, none, .topologyChange, requestId⟩
      { s with tenants := Table.updateWhere (fun row => row.id = t) f s.tenants } = .ok () := by
    have hbound : ({ s with tenants := Table.updateWhere (fun row => row.id = t) f s.tenants } :
        Store).bound actor t := hactor
    simp only [auditGuard, require_true hbound, ok_bind]
    exact require_true (by simp)
  simp only [updateTenant, Script.alone_statement, checkName, require_true htextual,
    require_true hlength, insertAudit, hguard, require_true hrequest, ok_bind, pure_bind]
  rfl

theorem of_alone_last (h : (updateTenant t (checkName name) f
      (insertAudit ⟨t, actor, none, .topologyChange, requestId⟩)).alone s = .ok out) :
    textual name ∧ 1 ≤ name.length ∧ name.length ≤ 200 := by
  simp only [updateTenant, checkName, Script.alone_statement, bind_ok, require_ok,
    exists_unit] at h
  obtain ⟨_, ⟨htexts, -⟩, -⟩ := h
  exact htexts

/-! ## The whole -/

/-- The store once the positions are in: the tenant's memberships are gone, and
with them the bindings no architect keeps. -/
structure Cleared (t : Uuid) (ordered : List PositionRequest) (s b : Store) : Prop where
  vacant : Vacant t b
  identities : b.identities = s.identities
  bound : ∀ x u, u ≠ t → (b.bound x u ↔ s.bound x u)
  architect : ∀ x, s.architectOf x t → b.bound x t
  positions : b.positionsOf t = ordered.map (·.row t)
  closure : ClosureOf t (ordered.map (·.row t)) (b.closureOf t)

/-- The members who may join are the same. -/
theorem Cleared.fits_iff (h : Cleared t ordered s b) {m : MemberRequest} :
    m.Fits b t ↔ m.Fits s t := by
  have hidentity : b.identity m.issuer m.subject = s.identity m.issuer m.subject := by
    rw [Store.identity, h.identities]
    rfl
  have hbound : ∀ x, (∀ u, b.bound x u → u = t) ↔ ∀ u, s.bound x u → u = t := by
    intro x
    refine forall_congr' fun u => ?_
    by_cases hu : u = t
    · simp [hu]
    · rw [h.bound x u hu]
  constructor
  · rintro ⟨htextual, hlength, hnew, hknown⟩
    rw [hidentity] at hnew
    simp only [hidentity, hbound] at hknown
    exact ⟨htextual, hlength, hnew, hknown⟩
  · rintro ⟨htextual, hlength, hnew, hknown⟩
    rw [← hidentity] at hnew
    simp only [← hidentity, ← hbound] at hknown
    exact ⟨htextual, hlength, hnew, hknown⟩

theorem positionsOf_deletePositions : (s.deletePositions t).positionsOf t = [] := by
  simp [Store.positionsOf, Store.deletePositions]

theorem fits_deletePositions {p : PositionRequest} :
    p.Fits (s.deletePositions t) t ↔ p.Fits s t := by
  have hid : (∀ q ∈ (s.deletePositions t).positions, q.tenantId ≠ t → q.id ≠ p.id) ↔
      ∀ q ∈ s.positions, q.tenantId ≠ t → q.id ≠ p.id := by
    simp only [Store.deletePositions, List.mem_filter, decide_eq_true_eq]
    constructor
    · exact fun h q hq ht => h q ⟨hq, ht⟩ ht
    · exact fun h q hq ht => h q hq.1 ht
  constructor
  · exact fun ⟨htextual, hlength, h⟩ => ⟨htextual, hlength, hid.1 h⟩
  · exact fun ⟨htextual, hlength, h⟩ => ⟨htextual, hlength, hid.2 h⟩

theorem Released.fits_iff {s₁ : Store} (h : Released t (s.deleteMemberships t) s₁)
    {p : PositionRequest} : p.Fits (s₁.deletePositions t) t ↔ p.Fits s t := by
  rw [fits_deletePositions]
  obtain ⟨bs, rfl⟩ := h.only
  exact ⟨fun h => ⟨h.textual, h.length, h.id⟩, fun h => ⟨h.textual, h.length, h.id⟩⟩

theorem laid_nil : Laid t [] (s.deletePositions t) (s.deletePositions t) where
  only := ⟨(s.deletePositions t).closure, by simp⟩
  closure := by
    intro r
    have hnone : (s.deletePositions t).closureOf t = [] := by
      simp [Store.closureOf, Store.deletePositions]
    constructor
    · intro hr
      rw [hnone] at hr
      cases hr
    · rintro ⟨-, h⟩
      obtain ⟨p, hp, -⟩ := h.mem
      cases hp

theorem alone_deletePositions (h : ∀ m ∈ s.memberships, m.tenantId ≠ t) (rest : OrgScript) :
    (deletePositionsScript t rest).alone s = rest.alone (s.deletePositions t) := by
  have hcheck : ∀ m ∈ s.memberships, m.tenantId = t → m.positionId = none :=
    fun m hm ht => absurd ht (h m hm)
  rw [deletePositionsScript, Script.alone_statement, require_true hcheck]
  rfl

/-- The deletions, as far as they are allowed. -/
theorem alone_deletions (hdatasets : ∀ d ∈ s.datasets, d.tenantId ≠ t) :
    ∃ s₁, Released t (s.deleteMemberships t) s₁ ∧ ∀ rest,
      (deleteMembershipsScript t (deletePositionsScript t rest)).alone s =
        rest.alone (s₁.deletePositions t) := by
  obtain ⟨s₁, hreleased, hdelete⟩ := alone_deleteMemberships hdatasets
  refine ⟨s₁, hreleased, fun rest => ?_⟩
  rw [hdelete, alone_deletePositions]
  obtain ⟨bs, rfl⟩ := hreleased.only
  intro m hm
  simpa [Store.deleteMemberships] using (List.mem_filter.1 hm).2

theorem cleared (hs : Settled s) (hc : Constrained s) {s₁ : Store}
    (hreleased : Released t (s.deleteMemberships t) s₁)
    (hlaid : Laid t ordered (s₁.deletePositions t) b) : Cleared t ordered s b := by
  obtain ⟨c, hb⟩ := hlaid.only
  have hbound : ∀ x u, b.bound x u ↔ s₁.bound x u := by
    intro x u
    rw [hb]
    exact Iff.rfl
  have helsewhere : ∀ x u, u ≠ t → (b.bound x u ↔ s.bound x u) :=
    fun x u hu => (hbound x u).trans (hreleased.elsewhere x u hu)
  have hfewer : ∀ x u, b.bound x u → s.bound x u :=
    fun x u h => hreleased.fewer x u ((hbound x u).1 h)
  have hauthority : ∀ x u, u ≠ t → (b.authority x u ↔ s.authority x u) := by
    intro x u hu
    have hkeep : s₁.authority x u ↔ s.authority x u := by
      rw [hreleased.authority, Store.authority_def, Store.memberOf_deleteMemberships,
        Store.authority_def, and_iff_right hu]
      rfl
    rw [← hkeep, hb]
    exact Iff.rfl
  have hidentities : b.identities = s.identities := by
    obtain ⟨bs, rfl⟩ := hreleased.only
    rw [hb]
    rfl
  refine ⟨⟨?_, ?_, ?_, ?_, ?_⟩, hidentities, helsewhere, ?_, ?_, hlaid.closure⟩
  · rw [hidentities]
    exact hc.identities
  · exact fun x u v hu hv => hs.sole x u v (hfewer x u hu) (hfewer x v hv)
  · exact fun x u hu => (helsewhere x u hu).trans ((hs.exact x u).trans (hauthority x u hu).symm)
  · intro x u hu
    rw [hidentities]
    exact hc.bindings x u (hfewer x u hu)
  · obtain ⟨bs, rfl⟩ := hreleased.only
    intro r hr
    rw [hb] at hr
    simpa [Store.deleteMemberships] using (List.mem_filter.1 hr).2
  · intro x hx
    have hkept := hreleased.kept x (.inr hx) ((hs.exact x t).2 (.inr hx))
    exact (hbound x t).2 hkept
  · exact hlaid.positionsOf positionsOf_deletePositions

theorem roster {members : List MemberRequest} (hseated : Seated ordered members)
    (hcleared : Cleared t ordered s b) (hnodup : ids.Nodup) (hlength : ids.length = members.length)
    (hnew : ∀ x ∈ ids, ∀ row ∈ s.identities, row.id ≠ x) : Roster t b (members.zip ids) := by
  have hfst : (members.zip ids).map Prod.fst = members := List.map_fst_zip hlength.ge
  have hsnd : (members.zip ids).map Prod.snd = ids := List.map_snd_zip hlength.le
  constructor
  · intro m hm row hrow
    rw [hcleared.identities] at hrow
    exact hnew m.2 (List.of_mem_zip hm).2 row hrow
  · rwa [hsnd]
  · have h := hseated.subjects
    rwa [← hfst, List.map_map] at h
  · have h := hseated.positions
    rwa [← hfst, List.map_map] at h
  · intro m hm
    obtain ⟨p, hp, hid⟩ := hseated.position m.1 (List.of_mem_zip hm).1
    rw [hcleared.positions]
    exact ⟨p.row t, List.mem_map_of_mem (f := (·.row t)) hp, hid⟩

/-- A topology that is accepted is replaced exactly where nothing in the rows
stands in its way; the closure is then that of the new positions. -/
theorem topology_replaced_iff {tenant : TenantRow} {service : Bool} {expectedVersion : ℕ}
    (hs : Settled s) (hc : Constrained s)
    (haccepted : orderedTopology positions members = .ok (ordered, ms))
    (htenant : s.tenant t = some tenant) (hversion : tenant.architectureVersion = expectedVersion)
    (hactor : s.architectOf actor t) (hrequest : 8 ≤ requestId.length ∧ requestId.length ≤ 64)
    (hnodup : ids.Nodup) (hlength : ids.length = ms.length)
    (hnew : ∀ x ∈ ids, ∀ row ∈ s.identities, row.id ≠ x) :
    (∃ out, (Call.replace t service expectedVersion name ordered (ms.zip ids) actor
        requestId).script.alone s = .ok out ∧ out.positionsOf t = ordered.map (·.row t) ∧
          ClosureOf t (ordered.map (·.row t)) (out.closureOf t)) ↔
      Replaceable s t name ordered ms := by
  obtain ⟨htree, hseated, -, -⟩ := orderedTopology_ok haccepted
  have hfst : (ms.zip ids).map Prod.fst = ms := List.map_fst_zip hlength.ge
  have hstart : ∀ rest : TenantRow → OrgScript, (lockTenant t rest).alone s = (rest tenant).alone s := by
    intro rest
    rw [lockTenant, Script.alone_read, Script.alone_demand, htenant]
    rfl
  simp only [Call.script, replaceScript, hstart, Script.alone_require, require_true hversion,
    ok_bind]
  constructor
  · rintro ⟨out, halone, -⟩
    have hdatasets := datasets_of_alone hc halone
    obtain ⟨s₁, hreleased, hdelete⟩ := alone_deletions hdatasets
    rw [hdelete] at halone
    have hpositions := fits_of_insertPositions positionsOf_deletePositions laid_nil htree halone
    obtain ⟨b, hlaid, hinsert⟩ :=
      alone_insertPositions positionsOf_deletePositions laid_nil htree hpositions
    rw [hinsert] at halone
    have hcleared := cleared hs hc hreleased hlaid
    have hroster : Roster t b ([] ++ ms.zip ids) := roster hseated hcleared hnodup hlength hnew
    have hmembers : ∀ m ∈ ms.zip ids, m.1.Fits b t :=
      fits_of_insertMembers hcleared.vacant.joined hcleared.vacant hroster halone
    obtain ⟨s₂, -, hjoin⟩ :=
      alone_insertMembers hcleared.vacant.joined hcleared.vacant hroster hmembers
    rw [hjoin] at halone
    obtain ⟨htextual, hname⟩ := of_alone_last halone
    refine ⟨hdatasets, fun p hp => ?_, fun m hm => ?_, htextual, hname⟩
    · exact hreleased.fits_iff.1 (hpositions p hp)
    · rw [← hfst] at hm
      obtain ⟨m', hm', rfl⟩ := List.mem_map.1 hm
      exact hcleared.fits_iff.1 (hmembers m' hm')
  · intro h
    obtain ⟨s₁, hreleased, hdelete⟩ := alone_deletions h.datasets
    have hpositions : ∀ p ∈ ordered, p.Fits (s₁.deletePositions t) t :=
      fun p hp => hreleased.fits_iff.2 (h.positions p hp)
    obtain ⟨b, hlaid, hinsert⟩ :=
      alone_insertPositions positionsOf_deletePositions laid_nil htree hpositions
    have hcleared := cleared hs hc hreleased hlaid
    have hroster : Roster t b ([] ++ ms.zip ids) := roster hseated hcleared hnodup hlength hnew
    have hmembers : ∀ m ∈ ms.zip ids, m.1.Fits b t :=
      fun m hm => hcleared.fits_iff.2 (h.members m.1 (List.of_mem_zip hm).1)
    obtain ⟨s₂, hjoined, hjoin⟩ :=
      alone_insertMembers hcleared.vacant.joined hcleared.vacant hroster hmembers
    have hbound := hjoined.kept actor (hcleared.architect actor hactor)
    obtain ⟨i, m, bs, hframe⟩ := hjoined.frame
    refine ⟨_, (hdelete _).trans ((hinsert _).trans ((hjoin _ _).trans
      (alone_last h.textual h.length hbound hrequest))), ?_, ?_⟩
    · rw [hframe]
      exact hcleared.positions
    · rw [hframe]
      exact hcleared.closure

end

/-! ## A team -/

/-- `INSERT INTO eval_datasets`, as far as the owner goes. -/
def insertDataset (d : DatasetRow) (s : Store) : Except Refusal Store := do
  require (∃ m ∈ s.memberships, m.tenantId = d.tenantId ∧ m.identityId = d.ownerIdentityId)
    (.foreignKeyViolation "eval_datasets_tenant_id_owner_identity_id_fkey")
  return { s with datasets := s.datasets ++ [d] }

def teamPositions : List PositionRequest :=
  [⟨10, none, "kok", .root, true, true⟩, ⟨11, some 10, "uzman", .member, false, false⟩]

def teamMembers : List MemberRequest := [⟨"open-webui", "uye", 11, "Uye", .editor, .active⟩]

/-- The first topology of a tenant that has just been founded. -/
theorem topology_replaced_founded :
    (∃ out, (Call.replace 1 false 1 "a" teamPositions (teamMembers.zip [9]) 7
        "deadbeef").script.alone foundedWorld.committed = .ok out ∧
          out.positionsOf 1 = teamPositions.map (·.row 1) ∧
            ClosureOf 1 (teamPositions.map (·.row 1)) (out.closureOf 1)) ↔
      Replaceable foundedWorld.committed 1 "a" teamPositions teamMembers := by
  have hs : Settled foundedWorld.committed :=
    (settled_of_reachable (fun p ⟨c, hc⟩ => hc ▸ c.role) foundedWorld_reachable).1
  have hc : Constrained foundedWorld.committed := by
    refine ⟨by decide, fun x t h => ?_, fun d hd => ?_⟩
    · have hkey : (⟨x, t⟩ : BindingRow) ∈ [(⟨7, 1⟩ : BindingRow)] := h
      rw [List.mem_singleton, BindingRow.mk.injEq] at hkey
      rw [hkey.1]
      decide
    · cases hd
  have haccepted : orderedTopology teamPositions teamMembers = .ok (teamPositions, teamMembers) :=
    rfl
  exact topology_replaced_iff hs hc haccepted rfl rfl (by decide) (by decide) (by decide) rfl (by decide)

/-- The same tenant, once a member has made an evaluation dataset. -/
def teamStore : Except Refusal Store := do
  let s ← (Call.bootstrap 1 "a" "open-webui" "kurucu" 7).script.alone Store.empty
  let s ← (Call.replace 1 true 1 "a" teamPositions (teamMembers.zip [8]) 7 "deadbeef").script.alone s
  insertDataset ⟨20, 1, 8⟩ s

/-- Replacing its topology by the very same one is refused. -/
theorem dataset_blocks_topology : ∃ s, teamStore = .ok s ∧
    (s.tenant 1).map TenantRow.architectureVersion = some 2 ∧
      orderedTopology teamPositions teamMembers = .ok (teamPositions, teamMembers) ∧
        (Call.replace 1 true 2 "a" teamPositions (teamMembers.zip [9]) 7
          "deadbee0").script.alone s =
            .error (.foreignKeyViolation "eval_datasets_tenant_id_owner_identity_id_fkey") :=
  ⟨_, rfl, rfl, rfl, rfl⟩

end RagPipeline.Org
