import RagPipeline.Org.Roles

/-! # One identity, one tenant

The scripts of the organisation each keep to one of the two roles, so in every
interleaving exactly the identities with active authority are bound, each to
the one tenant it has authority in. -/

set_option autoImplicit false

namespace RagPipeline.Org
open Guard Locks Transition

/-- Everybody with authority is bound, and whoever is bound without authority is
still to be released. -/
def Slice.Due (p : Slice) (S : Uuid → Prop) : Prop :=
  (∀ x, x ∈ p.members ∨ x ∈ p.architects → x ∈ p.bound) ∧
    ∀ x, x ∈ p.bound → (x ∈ p.members ∨ x ∈ p.architects) ∨ S x

theorem due_iff_exact {p : Slice} : p.Due (fun _ => False) ↔ p.Exact := by
  unfold Slice.Due Slice.Exact
  constructor
  · rintro ⟨hauth, hbound⟩ x
    exact ⟨fun hx => (hbound x hx).resolve_right id, hauth x⟩
  · exact fun h => ⟨fun x => (h x).2, fun x hx => .inl ((h x).1 hx)⟩

theorem Slice.Due.mono {p : Slice} {S T : Uuid → Prop} (h : p.Due S) (hST : ∀ x, S x → T x) :
    p.Due T :=
  ⟨h.1, fun x hx => (h.2 x hx).imp_right (hST x)⟩

/-! ## Managers -/

section
variable {t : Uuid} {p : Slice} {S : Uuid → Prop} {rest : OrgScript}

/-- A statement that leaves the tables of authority as they are. -/
theorem managed_same {targets : Store → List Row} {run : Store → Except Refusal (Store → Store)}
    {next : Store → OrgScript} (hrun : ∀ s f, run s = .ok f → Same f)
    (hnext : ∀ s, s.slice t = p → Managed t p (next s)) :
    Managed t p (.statement targets run next) := by
  intro s₀ s₁ _ _ hs₁ _ f hf
  have hsame := hrun s₁ f hf
  refine ⟨fun _ => False, hsame.confined, nofun, ?_⟩
  rw [hsame.slice, hs₁]
  exact hnext s₁ hs₁

theorem managed_read {targets : Store → List Row} {next : Store → OrgScript}
    (h : ∀ s, s.slice t = p → Managed t p (next s)) : Managed t p (.read targets next) :=
  managed_same (fun _ _ hf => Except.ok.inj hf ▸ same_id) h

theorem managed_require {q : Prop} [Decidable q] {e : Refusal} (h : q → Managed t p rest) :
    Managed t p (.require q e rest) := by
  by_cases hq : q
  · simpa [Script.require, hq] using h hq
  · simp [Script.require, hq, Managed]

theorem managed_demand {α : Type} {o : Option α} {e : Refusal} {next : α → OrgScript}
    (h : ∀ a, o = some a → Managed t p (next a)) : Managed t p (.demand o e next) := by
  cases o with
  | none => trivial
  | some a => exact h a rfl

/-- A claim binds the identity, or finds it bound. `e` is how it refuses. -/
theorem managed_claim {x : Uuid} {e : Refusal} (hp : p.Due S)
    (h : ∀ p' : Slice, p'.Due (fun y => S y ∨ y = x) → x ∈ p'.bound → Managed t p' rest) :
    Managed t p (.statement (fun _ => [.binding x])
      (fun s => match s.binding x with
        | none => .ok (Store.bind x t)
        | some u => if u = t then .ok id else .error e)
      fun s => if s.binding x = none then .read (fun _ => [.tenantShare t]) fun _ => rest
        else rest) := by
  intro s₀ s₁ hsole _ hs₁ _ f hf
  subst hs₁
  cases hb : s₁.binding x with
  | none =>
    simp only [hb] at hf
    obtain rfl := Except.ok.inj hf
    have hnone := Store.binding_eq_none.1 hb
    refine ⟨(· = x), confined_bind x, ?_, ?_⟩
    · rintro y rfl
      exact ⟨List.mem_singleton_self _, fun u hu => absurd hu (hnone u)⟩
    · simp only [hb, if_true]
      have hx : x ∈ ((s₁.bind x t).slice t).bound := Store.bound_bind.2 (by simp)
      refine managed_read fun _ _ => h _ ⟨fun y hy => ?_, fun y hy => ?_⟩ hx
      · refine Store.bound_bind.2 ?_
        split
        · rfl
        · exact hp.1 y hy
      · by_cases hyx : y = x
        · exact .inr (.inr hyx)
        · have hy' : s₁.bound y t := by simpa [Store.slice, Store.bound_bind, hyx] using hy
          exact (hp.2 y hy').imp_right .inl
  | some u =>
    simp only [hb] at hf
    split at hf
    case isFalse => cases hf
    case isTrue hu =>
      obtain rfl := Except.ok.inj hf
      refine ⟨fun _ => False, same_id.confined, nofun, ?_⟩
      simp only [hb, reduceCtorEq, if_false]
      exact h _ (hp.mono fun y hy => .inl hy) (hu ▸ Store.bound_of_binding hb)

theorem managed_release {x : Uuid} (hp : p.Due S)
    (h : ∀ p' : Slice, p'.Due (fun y => S y ∧ y ≠ x) → Managed t p' rest) :
    Managed t p (release x t rest) := by
  refine managed_read fun s hs => ?_
  subst hs
  split
  case isTrue hauth =>
    refine h _ ⟨hp.1, fun y hy => ?_⟩
    by_cases hyx : y = x
    · exact .inl (hyx ▸ hauth)
    · exact (hp.2 y hy).imp_right fun hS => ⟨hS, hyx⟩
  case isFalse hauth =>
    intro s₀ s₁ hsole hs₀ hs₁ hsame f hf
    obtain rfl := Except.ok.inj hf
    have hauth₁ : ¬ s₁.authority x t := fun ha => hauth ((authority_of_slice hs₁ x).1 ha)
    have hp₁ : (s₁.slice t).Due S := hs₁ ▸ hp
    by_cases hb : s₁.bound x t
    · rw [if_pos hb]
      have hb₀ : s₀.bound x t := (bound_of_slice (hs₁.trans hs₀.symm) x).1 hb
      refine ⟨(· = x), confined_unbind x, ?_, h _ ⟨fun y hy => ?_, fun y hy => ?_⟩⟩
      · rintro y rfl
        exact ⟨by simp [hb₀], fun u hu => hsole y u t hu hb⟩
      · exact Store.bound_unbind.2 ⟨hp₁.1 y hy, fun hyx => hauth₁ (hyx.1 ▸ hy)⟩
      · have hy' := Store.bound_unbind.1 hy
        exact (hp₁.2 y hy'.1).imp_right fun hS => ⟨hS, fun hyx => hy'.2 ⟨hyx, rfl⟩⟩
    · rw [if_neg hb]
      refine ⟨fun _ => False, same_id.confined, nofun, h _ ⟨hp₁.1, fun y hy => ?_⟩⟩
      refine (hp₁.2 y hy).imp_right fun hS => ⟨hS, ?_⟩
      rintro rfl
      exact hb hy

/-- A membership is written behind its claim, where it is active. -/
theorem managed_putMembership {m : MembershipRow} {targets : Store → List Row}
    {run : Store → Except Refusal (Store → Store)} {next : Store → OrgScript}
    (hm : m.tenantId = t) (hp : p.Due S) (hclaimed : m.state = .active → m.identityId ∈ p.bound)
    (hrun : ∀ s f, run s = .ok f → f = Store.putMembership m)
    (h : ∀ s f (p' : Slice), run s = .ok f → s.slice t = p →
      p'.Due (fun y => (S y ∧ ¬ (m.state = .active ∧ y = m.identityId)) ∨
        (m.state ≠ .active ∧ y = m.identityId ∧ y ∈ p.members)) →
      Managed t p' (next s)) : Managed t p (.statement targets run next) := by
  intro s₀ s₁ _ _ hs₁ _ f hf
  subst hs₁
  obtain rfl := hrun s₁ f hf
  refine ⟨fun _ => False, confined_putMembership hm, nofun,
    h _ _ _ hf rfl ⟨fun y hy => ?_, fun y hy => ?_⟩⟩
  · show s₁.bound y t
    rcases hy with hy | hy
    · have hmem := Store.memberOf_putMembership.1 hy
      split at hmem
      case isTrue hkey => exact hkey.2 ▸ hclaimed hmem
      case isFalse => exact hp.1 y (.inl hmem)
    · exact hp.1 y (.inr hy)
  · show ((s₁.putMembership m).memberOf y t ∨ s₁.architectOf y t) ∨ _
    rw [Store.memberOf_putMembership]
    rcases hp.2 y hy with (hmem | harch) | hS
    · by_cases hkey : m.tenantId = t ∧ m.identityId = y
      · rw [if_pos hkey]
        by_cases hactive : m.state = .active
        · exact .inl (.inl hactive)
        · exact .inr (.inr ⟨hactive, hkey.2.symm, hmem⟩)
      · rw [if_neg hkey]
        exact .inl (.inl hmem)
    · exact .inl (.inr harch)
    · by_cases hself : m.state = .active ∧ y = m.identityId
      · rw [if_pos ⟨hm, hself.2.symm⟩]
        exact .inl (.inl hself.1)
      · exact .inr (.inl ⟨hS, hself⟩)

theorem managed_updateTenant {check : Except Refusal Unit} {f : TenantRow → TenantRow}
    (h : Managed t p rest) : Managed t p (updateTenant t check f rest) := by
  refine managed_same (fun s g hg => ?_) fun _ _ => h
  simp only [bind_ok, pure_ok] at hg
  obtain ⟨_, -, rfl⟩ := hg
  exact fun _ => ⟨rfl, rfl, rfl⟩

theorem managed_insertAudit {row : AuditRow} (hp : p.Exact) :
    Managed t p (insertAudit row) := by
  refine managed_same (fun s g hg => ?_) fun _ _ => hp
  simp only [bind_ok, pure_ok] at hg
  obtain ⟨_, -, _, -, rfl⟩ := hg
  exact fun _ => ⟨rfl, rfl, rfl⟩

theorem managed_insertIdentity {new : Uuid} {issuer subject : String} (h : Managed t p rest) :
    Managed t p (insertIdentity new issuer subject rest) := by
  refine managed_same (fun s g hg => ?_) fun _ _ => h
  split at hg
  · simp only [bind_ok, pure_ok] at hg
    obtain ⟨_, -, _, -, _, -, _, -, rfl⟩ := hg
    exact fun _ => ⟨rfl, rfl, rfl⟩
  · obtain rfl := Except.ok.inj hg
    exact same_id

theorem managed_activeIdentity {issuer subject message : String} {next : Uuid → OrgScript}
    (h : ∀ x, Managed t p (next x)) :
    Managed t p (activeIdentity issuer subject message next) :=
  managed_read fun _ _ => managed_demand fun _ _ => managed_require fun _ => h _

theorem managed_updateMembership {m : MembershipRow} (hm : m.tenantId = t) (hp : p.Exact)
    (h : ∀ p' : Slice, p'.Exact → Managed t p' rest) : Managed t p (updateMembership m rest) := by
  subst hm
  have hupdated : ∀ {p : Slice}, p.Due (fun y => y = m.identityId) →
      (m.state = .active → m.identityId ∈ p.bound) →
      Managed m.tenantId p (.statement (fun _ => [.membership m.tenantId m.identityId])
        (fun s => do
          require (m.state = .active → ∀ row ∈ s.memberships, row.tenantId = m.tenantId →
              row.identityId ≠ m.identityId → row.state = .active → row.positionId ≠ m.positionId)
            (.identityConflict "pozisyon zaten aktif uyeye atanmis")
          return Store.putMembership m)
        fun _ => release m.identityId m.tenantId rest) := by
    intro p hp hclaimed
    refine managed_putMembership rfl hp hclaimed (fun s f hf => ?_) fun _ _ p' _ _ hp' => ?_
    · simp only [bind_ok, pure_ok] at hf
      obtain ⟨_, -, rfl⟩ := hf
      rfl
    · refine managed_release hp' fun p'' hp'' => h p'' (due_iff_exact.1 (hp''.mono ?_))
      rintro y ⟨hy | hy, hne⟩
      · exact hne hy.1
      · exact hne hy.2.1
  have hdue := due_iff_exact.2 hp
  unfold updateMembership
  split
  case isTrue hactive =>
    refine managed_claim hdue fun p' hp' hx => hupdated (hp'.mono ?_) fun _ => hx
    exact fun y hy => hy.resolve_left id
  case isFalse hactive => exact hupdated (hdue.mono nofun) fun ha => absurd ha hactive

theorem not_memberOf {s : Store} {x : Uuid} (h : s.membership t x = none) : ¬ s.memberOf x t := by
  rintro ⟨m, hm, ht, hx, -⟩
  exact List.find?_eq_none.1 h m hm (by simpa using ⟨ht, hx⟩)

theorem managed_insertMembership {m : MembershipRow} (hm : m.tenantId = t) (hp : p.Exact)
    (h : ∀ p' : Slice, p'.Exact → Managed t p' rest) : Managed t p (insertMembership m rest) := by
  subst hm
  have hinserted : ∀ {p : Slice}, p.Due (fun y => m.state = .active ∧ y = m.identityId) →
      (m.state = .active → m.identityId ∈ p.bound) →
      Managed m.tenantId p (insertedMembership m rest) := by
    intro p hp hclaimed
    have hrun : ∀ s f, insertMembershipRow m s = .ok f →
        f = Store.putMembership m ∧ s.membership m.tenantId m.identityId = none := by
      intro s f hf
      simp only [insertMembershipRow, bind_ok, require_ok, exists_unit, pure_ok] at hf
      obtain ⟨-, -, -, hnew, -, -, rfl⟩ := hf
      exact ⟨rfl, hnew⟩
    refine managed_putMembership rfl hp hclaimed (fun s f hf => (hrun s f hf).1)
      fun s f p' hf hs hp' => h p' (due_iff_exact.1 (hp'.mono ?_))
    -- no row of the identity was there, so none that was active is replaced
    rintro y (⟨hself, hnot⟩ | ⟨-, rfl, hy⟩)
    · exact hnot hself
    · subst hs
      exact not_memberOf (hrun s f hf).2 hy
  have hdue := due_iff_exact.2 hp
  unfold insertMembership
  split
  case isTrue hactive =>
    exact managed_claim hdue fun p' hp' hx => hinserted
      (hp'.mono fun y hy => ⟨hactive, hy.resolve_left id⟩) fun _ => hx
  case isFalse hactive => exact hinserted (hdue.mono nofun) fun ha => absurd ha hactive

theorem managed_insertMembers {service : Bool} {members : List (MemberRequest × Uuid)}
    (hp : p.Exact) (h : ∀ p' : Slice, p'.Exact → Managed t p' rest) :
    Managed t p (insertMembersScript t service rest members) := by
  induction members generalizing p with
  | nil => exact h p hp
  | cons m members ih =>
    obtain ⟨m, new⟩ := m
    refine managed_insertIdentity (managed_activeIdentity fun x => managed_read fun _ _ =>
      managed_require fun _ => ?_)
    exact managed_insertMembership rfl hp fun p' hp' => ih hp'

theorem managed_insertPositions {positions : List PositionRequest} (h : Managed t p rest) :
    Managed t p (insertPositionsScript t rest positions) := by
  induction positions with
  | nil => exact h
  | cons q positions ih =>
    refine managed_same (fun s g hg => ?_) fun _ _ => ih
    simp only [bind_ok, pure_ok] at hg
    obtain ⟨_, -, rfl⟩ := hg
    exact fun _ => ⟨rfl, rfl, rfl⟩

/-- The rows deleted are released one after the other. -/
theorem managed_releases {rows : List MembershipRow}
    (hp : p.Due fun y => ∃ m ∈ rows, m.identityId = y)
    (h : ∀ p' : Slice, p'.Exact → Managed t p' rest) :
    Managed t p (rows.foldr (fun m rest => release m.identityId t rest) rest) := by
  induction rows generalizing p with
  | nil => exact h p (due_iff_exact.1 (hp.mono fun y hy => by obtain ⟨_, hm, -⟩ := hy; cases hm))
  | cons m rows ih =>
    refine managed_release hp fun p' hp' => ih (hp'.mono ?_)
    rintro y ⟨⟨row, hrow, rfl⟩, hne⟩
    rcases List.mem_cons.1 hrow with rfl | hrow
    · exact absurd rfl hne
    · exact ⟨row, hrow, rfl⟩

theorem managed_deleteMemberships (hp : p.Exact)
    (h : ∀ p' : Slice, p'.Exact → Managed t p' rest) :
    Managed t p (deleteMembershipsScript t rest) := by
  intro s₀ s₁ _ _ hs₁ _ f hf
  subst hs₁
  simp only [bind_ok, pure_ok] at hf
  obtain ⟨_, -, rfl⟩ := hf
  refine ⟨fun _ => False, confined_deleteMemberships, nofun,
    managed_releases ⟨fun y hy => ?_, fun y hy => ?_⟩ h⟩
  · refine (hp y).2 (hy.imp_left fun hy => ?_)
    exact (Store.memberOf_deleteMemberships.1 hy).2
  · rcases (hp y).1 hy with ⟨m, hm, ht, hy, -⟩ | harch
    · exact .inr ⟨m, by simpa using ⟨hm, ht⟩, hy⟩
    · exact .inl (.inr harch)

/-! ## Each call in its role -/

theorem entering_require {q : Prop} [Decidable q] {e : Refusal} (h : q → Entering t rest) :
    Entering t (.require q e rest) := by
  by_cases hq : q
  · simpa [Script.require, hq] using h hq
  · simp [Script.require, hq, Entering]

theorem entering_lockTenant {next : TenantRow → OrgScript}
    (h : ∀ row (p : Slice), p.Exact → Managed t p (next row)) :
    Entering t (lockTenant t next) := by
  intro s₀ s₁ hsame f hf
  refine ⟨(Except.ok.inj hf).symm, ?_⟩
  cases hrow : s₁.tenant t with
  | none => exact .inl ⟨_, by simp [Script.demand, hrow]; rfl⟩
  | some row =>
    refine .inr ⟨?_, fun hp => ?_⟩
    · by_cases h₀ : s₀.tenant t = none
      · have : s₁ = s₀ := hsame (if_pos h₀)
        rw [this, h₀] at hrow
        cases hrow
      · simp [h₀]
    · simpa [Script.demand, hrow] using h row _ hp

theorem entering_update (effectiveActor : Option Uuid) (u : MemberUpdate) :
    Entering t (updateScript t effectiveActor u) := by
  refine entering_require fun _ => entering_require fun _ => entering_require fun _ =>
    entering_require fun _ => entering_lockTenant fun tenant p hp => ?_
  refine managed_require fun _ => managed_require fun _ => managed_read fun _ _ =>
    managed_require fun _ => managed_read fun _ _ => managed_require fun _ => managed_read fun _ _ =>
    managed_require fun _ => managed_read fun _ _ => managed_demand fun m _ =>
    managed_require fun _ => managed_read fun _ _ => managed_require fun _ =>
    managed_require fun _ => managed_require fun _ => ?_
  exact managed_updateMembership rfl hp fun p' hp' =>
    managed_updateTenant (managed_insertAudit hp')

theorem entering_replace (service : Bool) (expectedVersion : ℕ) (name : String)
    (positions : List PositionRequest) (members : List (MemberRequest × Uuid)) (actor : Uuid)
    (requestId : String) :
    Entering t (replaceScript t service expectedVersion name positions members actor requestId) := by
  refine entering_lockTenant fun tenant p hp => managed_require fun _ =>
    managed_deleteMemberships hp fun p hp => ?_
  refine managed_same (fun s g hg => ?_) fun _ _ => managed_insertPositions
    (managed_insertMembers hp fun p hp => managed_updateTenant (managed_insertAudit hp))
  simp only [bind_ok, pure_ok] at hg
  obtain ⟨_, -, rfl⟩ := hg
  exact fun _ => ⟨rfl, rfl, rfl⟩

/-! ## Founders -/

/-- A statement that leaves the tables of authority, and the stage, as they are. -/
theorem founding_same {stage : Stage} {targets : Store → List Row}
    {run : Store → Except Refusal (Store → Store)} {next : Store → OrgScript}
    (hrun : ∀ s f, run s = .ok f → Same f)
    (hnext : ∀ s, stage.sees t s → Founding t stage (next s)) :
    Founding t stage (.statement targets run next) := by
  cases stage <;> exact fun _ s _ hs _ f hf => ⟨_, .quiet (hrun s f hf), hnext s hs⟩

theorem founding_read {stage : Stage} {targets : Store → List Row} {next : Store → OrgScript}
    (h : ∀ s, stage.sees t s → Founding t stage (next s)) :
    Founding t stage (.read targets next) :=
  founding_same (fun _ _ hf => Except.ok.inj hf ▸ same_id) h

theorem founding_abort {stage : Stage} {e : Refusal} : Founding t stage (.abort e) := by
  cases stage <;> trivial

theorem founding_require {stage : Stage} {q : Prop} [Decidable q] {e : Refusal}
    (h : q → Founding t stage rest) : Founding t stage (.require q e rest) := by
  by_cases hq : q
  · simpa [Script.require, hq] using h hq
  · simpa [Script.require, hq] using founding_abort

theorem founding_demand {stage : Stage} {α : Type} {o : Option α} {e : Refusal}
    {next : α → OrgScript} (h : ∀ a, o = some a → Founding t stage (next a)) :
    Founding t stage (.demand o e next) := by
  cases o with
  | none => exact founding_abort
  | some a => exact h a rfl

/-- The share lock of a foreign key covers the seat. -/
theorem founding_share {x : Uuid} {seated covered : Bool} {next : Store → OrgScript}
    (h : ∀ s, Founding t (.held x seated true) (next s)) :
    Founding t (.held x seated covered) (.read (fun _ => [.tenantShare t]) next) := by
  intro s₀ s₁ _ _ _ f hf
  obtain rfl := Except.ok.inj hf
  exact ⟨_, .share (List.mem_singleton_self _) same_id, h s₁⟩

theorem founding_claim {x : Uuid} (h : ∀ covered, Founding t (.held x false covered) rest) :
    Founding t .idle (claim x t rest) := by
  intro s₀ s₁ _ hs _ f hf
  cases hb : s₁.binding x with
  | none =>
    simp only [hb] at hf
    obtain rfl := Except.ok.inj hf
    refine ⟨_, .claim (List.mem_singleton_self _) (fun u hu => ?_) (.inl rfl), ?_⟩
    · exact absurd hu (Store.binding_eq_none.1 hb u)
    · simp only [hb, if_true]
      exact founding_share fun _ => h true
  | some u =>
    simp only [hb] at hf
    split at hf
    case isFalse => cases hf
    case isTrue hu =>
      subst hu
      obtain rfl := Except.ok.inj hf
      have hbound := Store.bound_of_binding hb
      refine ⟨_, .claim (List.mem_singleton_self _) (fun v hv => hs.2 x v u hv hbound)
        (.inr ⟨rfl, hbound⟩), ?_⟩
      simp only [hb, reduceCtorEq, if_false]
      exact h false

/-- A second claim finds what the first left. -/
theorem founding_claim_again {x : Uuid} {seated covered : Bool}
    (h : Founding t (.held x seated covered) rest) :
    Founding t (.held x seated covered) (claim x t rest) := by
  intro s₀ s₁ _ hs _ f hf
  obtain ⟨-, hbound, hsole, -⟩ := hs
  cases hb : s₁.binding x with
  | none => exact absurd hbound (Store.binding_eq_none.1 hb t)
  | some u =>
    simp only [hb, hsole u (Store.bound_of_binding hb), if_true] at hf
    obtain rfl := Except.ok.inj hf
    refine ⟨_, .quiet same_id, ?_⟩
    simp only [hb, reduceCtorEq, if_false]
    exact h

theorem founding_insertArchitect (x : Uuid) : Founding t .idle (insertArchitect x t) := by
  refine founding_claim fun covered => ?_
  intro s₀ s₁ _ hs _ f hf
  obtain rfl := Except.ok.inj hf
  by_cases hnone : s₁.architect t x = none
  · rw [if_pos hnone]
    refine ⟨.held x true covered, .seat rfl, ?_⟩
    beta_reduce
    rw [if_pos hnone]
    exact founding_share fun _ => ⟨rfl, rfl⟩
  · -- the row is there, and active, so the seat is covered
    have hknown := architectOf_of_architect hs.1 hnone
    rw [if_neg hnone]
    refine ⟨.held x false true, ?_, ?_⟩
    · cases covered with
      | false => exact .known hknown same_id
      | true => exact .quiet same_id
    · beta_reduce
      rw [if_neg hnone]
      refine founding_claim_again fun _ s₁ _ _ _ f hf => ?_
      obtain rfl := Except.ok.inj hf
      refine ⟨.held x true true, .seat rfl, founding_read fun s hs => ?_⟩
      have hauth : s.authority x t := .inr (hs.2.2.2 rfl)
      rw [if_pos hauth]
      exact ⟨rfl, rfl⟩

theorem founding_bootstrap (name issuer subject : String) (new : Uuid) :
    Founding t .idle (bootstrapScript t name issuer subject new) := by
  refine founding_same (fun s f hf => ?_) fun _ _ => founding_read fun _ _ =>
    founding_require fun _ => founding_same (fun s f hf => ?_) fun _ _ => founding_read fun _ _ =>
    founding_demand fun _ _ => founding_require fun _ => founding_read fun _ _ =>
    founding_require fun _ => founding_insertArchitect _
  · split at hf
    · simp only [bind_ok, pure_ok] at hf
      obtain ⟨_, -, rfl⟩ := hf
      exact fun _ => ⟨rfl, rfl, rfl⟩
    · obtain rfl := Except.ok.inj hf
      exact same_id
  · split at hf
    · simp only [bind_ok, pure_ok] at hf
      obtain ⟨_, -, _, -, _, -, _, -, rfl⟩ := hf
      exact fun _ => ⟨rfl, rfl, rfl⟩
    · obtain rfl := Except.ok.inj hf
      exact same_id

end

theorem Call.role (c : Call) : ∃ t, Entering t c.script ∨ Founding t .idle c.script := by
  cases c with
  | bootstrap t name issuer subject new => exact ⟨t, .inr (founding_bootstrap name issuer subject new)⟩
  | update t effectiveActor u => exact ⟨t, .inl (entering_update effectiveActor u)⟩
  | replace t service expectedVersion name positions members actor requestId =>
    exact ⟨t, .inl (entering_replace service expectedVersion name positions members actor requestId)⟩

/-- Any number of calls over any settled store, such as the empty one. -/
def orgLocks (τ : Type) [DecidableEq τ] : System (World τ Store Row Refusal) (Event τ) :=
  lockSystem τ Settled fun p => ∃ c : Call, p = c.script

theorem empty_settled : Settled Store.empty where
  sole _ _ _ h := by cases h
  exact x t := by
    constructor
    · intro h
      cases h
    · rintro (⟨_, h, -⟩ | ⟨_, h, -⟩) <;> cases h
  active _ h := by cases h

theorem one_identity_one_tenant {τ : Type} [DecidableEq τ] {w : World τ Store Row Refusal}
    (h : (orgLocks τ).Reachable w) :
    (∀ x t u, w.committed.authority x t → w.committed.authority x u → t = u) ∧
      ∀ x t, w.committed.bound x t ↔ w.committed.authority x t := by
  have hsettled := (settled_of_reachable (fun p ⟨c, hc⟩ => hc ▸ c.role) h).1
  refine ⟨fun x t u ht hu => ?_, hsettled.exact⟩
  exact hsettled.sole x t u ((hsettled.exact x t).2 ht) ((hsettled.exact x u).2 hu)

/-- Two tenants are founded for the same subject at the same time. -/
def foundingWorld : World Bool Store Row Refusal where
  committed := Store.empty
  transactions
    | true => .new (Call.bootstrap 1 "a" "open-webui" "kurucu" 7).script
    | false => .new (Call.bootstrap 2 "b" "open-webui" "kurucu" 8).script
  locks := []

theorem foundingWorld_initial : (orgLocks Bool).initial foundingWorld := by
  refine ⟨empty_settled, rfl, fun t => ?_⟩
  cases t with
  | true => exact ⟨_, ⟨_, rfl⟩, rfl⟩
  | false => exact ⟨_, ⟨_, rfl⟩, rfl⟩

/-- The second gets past its name before the first takes the identity. -/
def foundingRun : List (Event Bool) :=
  List.replicate 3 (.step false) ++ List.replicate 16 (.step true) ++
    List.replicate 5 (.step false)

def foundedWorld : World Bool Store Row Refusal :=
  (System.play World.happen foundingWorld foundingRun).getD foundingWorld

theorem foundedWorld_reachable : (orgLocks Bool).Reachable foundedWorld := by
  have hplay : System.play World.happen foundingWorld foundingRun = some foundedWorld := rfl
  exact System.reachable_play (fun _ _ _ h => h) (.start foundingWorld_initial) hplay

theorem one_identity_one_tenant_founded : foundedWorld.committed.authority 7 1 ∧
    ∀ u, foundedWorld.committed.authority 7 u → u = 1 := by
  have hfirst : foundedWorld.committed.authority 7 1 := by decide
  exact ⟨hfirst, fun u hu => (one_identity_one_tenant foundedWorld_reachable).1 7 u 1 hu hfirst⟩

end RagPipeline.Org
