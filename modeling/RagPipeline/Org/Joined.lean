import RagPipeline.Org.Replaced

/-! # Members joined one by one

The loop of `replace_org_topology` over the members, with nothing beside it: the
identity that is found or made, the binding that is claimed, the membership that
is inserted; when a member goes through, and what holds after those that did. -/

set_option autoImplicit false

namespace RagPipeline.Org
open Guard Locks

/-- What a member is asked for: its label, and an identity that is new, or
active and, for an active membership, active in no other tenant. -/
structure MemberRequest.Fits (m : MemberRequest) (s : Store) (t : Uuid) : Prop where
  textual : textual m.displayLabel
  length : 1 ≤ m.displayLabel.length ∧ m.displayLabel.length ≤ 200
  new : s.identity m.issuer m.subject = none → (Org.textual m.issuer ∧ Org.textual m.subject) ∧
    (1 ≤ m.issuer.length ∧ m.issuer.length ≤ 100) ∧
      (1 ≤ m.subject.length ∧ m.subject.length ≤ 200)
  known : ∀ row, s.identity m.issuer m.subject = some row → row.state = .active ∧
    (m.state = .active → ∀ u, s.bound row.id u → u = t)

/-- A store whose tenant has its positions and no members. -/
structure Vacant (t : Uuid) (b : Store) : Prop where
  ids : (b.identities.map IdentityRow.id).Nodup
  sole : b.Sole
  exact : ∀ x u, u ≠ t → (b.bound x u ↔ b.authority x u)
  known : ∀ x u, b.bound x u → ∃ row ∈ b.identities, row.id = x
  memberships : ∀ r ∈ b.memberships, r.tenantId ≠ t

/-- The members that are in so far. -/
structure Joined (t : Uuid) (b : Store) (done : List (MemberRequest × Uuid)) (s : Store) :
    Prop where
  frame : ∃ i m bs, s = { b with identities := i, memberships := m, bindings := bs }
  added : ∃ rows, s.identities = b.identities ++ rows ∧
    ∀ row ∈ rows, ∃ m ∈ done, row = ⟨m.2, m.1.issuer, m.1.subject, .active⟩
  ids : (s.identities.map IdentityRow.id).Nodup
  memberships : ∀ r ∈ s.memberships, r.tenantId = t → ∃ m ∈ done,
    r.positionId = some m.1.positionId ∧ ∃ row ∈ s.identities, row.id = r.identityId ∧
      row.issuer = m.1.issuer ∧ row.subject = m.1.subject
  members : ∀ x u, u ≠ t → (s.memberOf x u ↔ b.memberOf x u)
  bound : ∀ x u, u ≠ t → (s.bound x u ↔ b.bound x u)
  known : ∀ x, s.bound x t → ∃ row ∈ s.identities, row.id = x
  sole : s.Sole
  kept : ∀ x, b.bound x t → s.bound x t

/-- A member that is due after those that are in: its id is new, its identity and
its position are its own, and the position is there. -/
structure NextMember (t : Uuid) (b : Store) (done : List (MemberRequest × Uuid))
    (m : MemberRequest × Uuid) : Prop where
  new : ∀ row ∈ b.identities, row.id ≠ m.2
  news : ∀ m' ∈ done, m'.2 ≠ m.2
  subjects : ∀ m' ∈ done, ¬ (m'.1.issuer = m.1.issuer ∧ m'.1.subject = m.1.subject)
  positions : ∀ m' ∈ done, m'.1.positionId ≠ m.1.positionId
  position : ∃ q ∈ b.positionsOf t, q.id = m.1.positionId

/-- A member whose identity is known, and whose seat is free. -/
structure Named (t : Uuid) (b : Store) (done : List (MemberRequest × Uuid))
    (m : MemberRequest × Uuid) (row : IdentityRow) (s : Store) : Prop where
  joined : Joined t b (done ++ [m]) s
  identity : s.identity m.1.issuer m.1.subject = some row
  free : ∀ r ∈ s.memberships, r.tenantId = t →
    r.identityId ≠ row.id ∧ r.positionId ≠ some m.1.positionId
  origin : b.identity m.1.issuer m.1.subject = some row ∨
    b.identity m.1.issuer m.1.subject = none ∧ row.state = .active ∧ ∀ u, ¬ b.bound row.id u

section
variable {t : Uuid} {b s out : Store} {done : List (MemberRequest × Uuid)}
  {m : MemberRequest × Uuid} {row : IdentityRow} {service : Bool} {rest : OrgScript}

theorem Vacant.joined (h : Vacant t b) : Joined t b [] b where
  frame := ⟨_, _, _, rfl⟩
  added := ⟨[], by simp⟩
  ids := h.ids
  memberships r hr ht := absurd ht (h.memberships r hr)
  members _ _ _ := Iff.rfl
  bound _ _ _ := Iff.rfl
  known x hx := h.known x t hx
  sole := h.sole
  kept _ hx := hx

theorem identity_spec {issuer subject : String} (h : s.identity issuer subject = some row) :
    row ∈ s.identities ∧ row.issuer = issuer ∧ row.subject = subject := by
  refine ⟨List.mem_of_find?_eq_some h, ?_⟩
  simpa using List.find?_some h

/-- Nobody before made the identity of the member that is due. -/
theorem Joined.identity (h : Joined t b done s) (hm : NextMember t b done m) :
    s.identity m.1.issuer m.1.subject = b.identity m.1.issuer m.1.subject := by
  obtain ⟨rows, hrows, hadded⟩ := h.added
  have hnone : rows.find? (fun row => row.issuer = m.1.issuer ∧ row.subject = m.1.subject) =
      none := by
    rw [List.find?_eq_none]
    intro row hrow
    obtain ⟨m', hm', rfl⟩ := hadded row hrow
    simpa using hm.subjects m' hm'
  rw [Store.identity, hrows, List.find?_append, hnone, Option.or_none]
  rfl

theorem Joined.mono (h : Joined t b done s) : Joined t b (done ++ [m]) s := by
  refine { h with added := ?_, memberships := ?_ }
  · obtain ⟨rows, hrows, hadded⟩ := h.added
    refine ⟨rows, hrows, fun row hrow => ?_⟩
    obtain ⟨m', hm', heq⟩ := hadded row hrow
    exact ⟨m', List.mem_append_left _ hm', heq⟩
  · intro r hr ht
    obtain ⟨m', hm', hrest⟩ := h.memberships r hr ht
    exact ⟨m', List.mem_append_left _ hm', hrest⟩

/-- The seat of the next member is free: those before have others. -/
theorem Joined.free (h : Joined t b done s) (hm : NextMember t b done m)
    (hrow : row.issuer = m.1.issuer ∧ row.subject = m.1.subject) :
    ∀ r ∈ s.memberships, r.tenantId = t → row ∈ s.identities →
      r.identityId ≠ row.id ∧ r.positionId ≠ some m.1.positionId := by
  intro r hr ht hin
  obtain ⟨m', hm', hposition, row', hrow', hid, hissuer, hsubject⟩ := h.memberships r hr ht
  constructor
  · intro heq
    obtain rfl := List.inj_on_of_nodup_map h.ids hrow' hin (hid.trans heq)
    exact hm.subjects m' hm' ⟨hissuer.symm.trans hrow.1, hsubject.symm.trans hrow.2⟩
  · rw [hposition]
    exact fun heq => hm.positions m' hm' (Option.some.inj heq)

/-- The id that is offered is nobody's. -/
theorem Joined.new (h : Joined t b done s) (hm : NextMember t b done m) :
    ∀ row ∈ s.identities, row.id ≠ m.2 := by
  obtain ⟨rows, hrows, hadded⟩ := h.added
  intro row hrow
  rw [hrows] at hrow
  rcases List.mem_append.1 hrow with hrow | hrow
  · exact hm.new row hrow
  · obtain ⟨m', hm', rfl⟩ := hadded row hrow
    exact hm.news m' hm'

/-! ## The identity -/

theorem Joined.named_known (h : Joined t b done s) (hm : NextMember t b done m)
    (hrow : b.identity m.1.issuer m.1.subject = some row) : Named t b done m row s := by
  have hidentity := (h.identity hm).trans hrow
  obtain ⟨hin, hkey⟩ := identity_spec hidentity
  exact ⟨h.mono, hidentity, fun r hr ht => h.free hm hkey r hr ht hin, .inl hrow⟩

/-- The identity that is made for a member who has none. -/
def MemberRequest.identity (m : MemberRequest) (new : Uuid) : IdentityRow :=
  ⟨new, m.issuer, m.subject, .active⟩

theorem Joined.named_new (h : Joined t b done s) (hb : Vacant t b) (hm : NextMember t b done m)
    (hnone : b.identity m.1.issuer m.1.subject = none) :
    Named t b done m (m.1.identity m.2)
      { s with identities := s.identities ++ [m.1.identity m.2] } := by
  have hfresh := h.new hm
  have hjoined : Joined t b (done ++ [m])
      { s with identities := s.identities ++ [m.1.identity m.2] } := by
    refine { h.mono (m := m) with frame := ?_, added := ?_, ids := ?_, memberships := ?_, known := ?_ }
    · obtain ⟨i, ms, bs, rfl⟩ := h.frame
      exact ⟨_, _, _, rfl⟩
    · obtain ⟨rows, hrows, hadded⟩ := h.mono (m := m) |>.added
      refine ⟨rows ++ [m.1.identity m.2], by rw [hrows, List.append_assoc], fun row hrow => ?_⟩
      rcases List.mem_append.1 hrow with hrow | hrow
      · exact hadded row hrow
      · exact ⟨m, by simp, List.mem_singleton.1 hrow⟩
    · rw [List.map_append, List.map_singleton, List.nodup_append_comm]
      refine List.nodup_cons.2 ⟨fun hin => ?_, h.ids⟩
      obtain ⟨row, hrow, hid⟩ := List.mem_map.1 hin
      exact hfresh row hrow hid
    · intro r hr ht
      obtain ⟨m', hm', hposition, row, hrow, hkey⟩ := h.mono (m := m) |>.memberships r hr ht
      exact ⟨m', hm', hposition, row, List.mem_append_left _ hrow, hkey⟩
    · intro x hx
      obtain ⟨row, hrow, hid⟩ := h.known x hx
      exact ⟨row, List.mem_append_left _ hrow, hid⟩
  have hunbound : ∀ u, ¬ b.bound m.2 u := by
    intro u hu
    obtain ⟨row, hrow, hid⟩ := hb.known _ u hu
    exact hm.new row hrow hid
  refine ⟨hjoined, ?_, fun r hr ht => ?_, .inr ⟨hnone, rfl, hunbound⟩⟩
  · have hold : s.identities.find? (fun row => row.issuer = m.1.issuer ∧
        row.subject = m.1.subject) = none := (h.identity hm).trans hnone
    show (s.identities ++ [m.1.identity m.2]).find? _ = _
    rw [List.find?_append, hold, Option.none_or]
    exact List.find?_cons_of_pos (decide_eq_true ⟨rfl, rfl⟩)
  · obtain ⟨m', hm', hposition, row, hrow, hid, -⟩ := h.memberships r hr ht
    refine ⟨fun heq => hfresh row hrow (hid.trans heq), ?_⟩
    rw [hposition]
    exact fun heq => hm.positions m' hm' (Option.some.inj heq)

/-- An identity is found, or made where its texts allow it. -/
theorem alone_insertIdentity (h : Joined t b done s) (hb : Vacant t b)
    (hm : NextMember t b done m) (hfits : b.identity m.1.issuer m.1.subject = none →
      (textual m.1.issuer ∧ textual m.1.subject) ∧
        (1 ≤ m.1.issuer.length ∧ m.1.issuer.length ≤ 100) ∧
          (1 ≤ m.1.subject.length ∧ m.1.subject.length ≤ 200)) :
    ∃ row s', Named t b done m row s' ∧
      ∀ rest, (insertIdentity m.2 m.1.issuer m.1.subject rest).alone s = rest.alone s' := by
  cases hrow : b.identity m.1.issuer m.1.subject with
  | some row =>
    refine ⟨row, s, h.named_known hm hrow, fun rest => ?_⟩
    rw [insertIdentity, Script.alone_statement, h.identity hm, hrow, if_neg (by simp)]
    rfl
  | none =>
    obtain ⟨htextual, hissuer, hsubject⟩ := hfits hrow
    refine ⟨_, _, h.named_new hb hm hrow, fun rest => ?_⟩
    simp only [insertIdentity, Script.alone_statement, h.identity hm, hrow, if_true,
      require_true htextual, require_true hissuer, require_true hsubject,
      require_true (h.new hm), ok_bind, pure_bind]
    rfl

theorem texts_of_insertIdentity (h : Joined t b done s) (hm : NextMember t b done m)
    (halone : (insertIdentity m.2 m.1.issuer m.1.subject rest).alone s = .ok out)
    (hnone : b.identity m.1.issuer m.1.subject = none) :
    (textual m.1.issuer ∧ textual m.1.subject) ∧
      (1 ≤ m.1.issuer.length ∧ m.1.issuer.length ≤ 100) ∧
        (1 ≤ m.1.subject.length ∧ m.1.subject.length ≤ 200) := by
  simp only [insertIdentity, Script.alone_statement, h.identity hm, hnone, if_true, bind_ok,
    require_ok, exists_unit] at halone
  obtain ⟨_, ⟨htextual, hissuer, hsubject, -⟩, -⟩ := halone
  exact ⟨htextual, hissuer, hsubject⟩

/-! ## The binding -/

/-- What the member's identity is bound to elsewhere, it was bound to before. -/
theorem Named.bound_iff (h : Named t b done m row s) :
    (∀ u, s.bound row.id u → u = t) ↔ ∀ u, b.bound row.id u → u = t := by
  constructor
  · intro hs u hu
    by_contra hne
    exact hne (hs u ((h.joined.bound row.id u hne).2 hu))
  · intro hb u hu
    by_contra hne
    exact hne (hb u ((h.joined.bound row.id u hne).1 hu))

/-- Authority elsewhere is a binding elsewhere. -/
theorem Named.not_authorityElsewhere (h : Named t b done m row s) (hb : Vacant t b)
    (hbound : ∀ u, b.bound row.id u → u = t) : ¬ s.authorityElsewhere service row.id t := by
  obtain ⟨i, ms, bs, hframe⟩ := h.joined.frame
  rintro ⟨-, ⟨r, hr, hid, hstate, hne⟩ | ⟨a, ha, hid, hactive, hne⟩⟩
  · have hmember : b.memberOf row.id r.tenantId :=
      (h.joined.members _ _ hne).1 ⟨r, hr, rfl, hid, hstate⟩
    exact hne (hbound _ ((hb.exact _ _ hne).2 (.inl hmember)))
  · have harchitect : b.architectOf row.id a.tenantId := by
      rw [hframe] at ha
      exact ⟨a, ha, rfl, hid, hactive⟩
    exact hne (hbound _ ((hb.exact _ _ hne).2 (.inr harchitect)))

theorem alone_claim (h : Named t b done m row s) (hbound : ∀ u, b.bound row.id u → u = t) :
    ∃ s', Named t b done m row s' ∧ ∀ rest, (claim row.id t rest).alone s = rest.alone s' := by
  have hown := h.bound_iff.2 hbound
  cases hbinding : s.binding row.id with
  | some u =>
    have hu : u = t := hown u (Store.bound_of_binding hbinding)
    refine ⟨s, h, fun rest => ?_⟩
    rw [claim, Script.alone_statement]
    simp [hbinding, hu]
  | none =>
    have hnone := Store.binding_eq_none.1 hbinding
    have hj := h.joined
    refine ⟨s.bind row.id t, ⟨?_, h.identity, h.free, h.origin⟩, fun rest => ?_⟩
    · refine { hj with frame := ?_, bound := ?_, known := ?_, sole := ?_, kept := ?_ }
      · obtain ⟨i, ms, bs, rfl⟩ := hj.frame
        exact ⟨_, _, _, rfl⟩
      · intro x u hu
        rw [Store.bound_bind]
        split
        case isTrue hx =>
          subst hx
          exact ⟨fun heq => absurd heq hu, fun hb => absurd (hbound u hb) hu⟩
        case isFalse => exact hj.bound x u hu
      · intro x hx
        rw [Store.bound_bind] at hx
        split at hx
        case isTrue heq => exact ⟨row, (identity_spec h.identity).1, heq.symm⟩
        case isFalse => exact hj.known x hx
      · intro x u v hu hv
        rw [Store.bound_bind] at hu hv
        split at hu
        case isTrue heq =>
          rw [if_pos heq] at hv
          exact hu.trans hv.symm
        case isFalse hne =>
          rw [if_neg hne] at hv
          exact hj.sole x u v hu hv
      · intro x hx
        rw [Store.bound_bind]
        split
        case isTrue => rfl
        case isFalse => exact hj.kept x hx
    · rw [claim, Script.alone_statement]
      simp only [hbinding, ok_bind, if_true]
      rfl

theorem bound_of_claim (h : Named t b done m row s)
    (halone : (claim row.id t rest).alone s = .ok out) : ∀ u, b.bound row.id u → u = t := by
  refine h.bound_iff.1 fun u hu => ?_
  rw [claim, Script.alone_statement, bind_ok] at halone
  obtain ⟨_, hrun, -⟩ := halone
  cases hbinding : s.binding row.id with
  | none => exact absurd hu (Store.binding_eq_none.1 hbinding u)
  | some v =>
    have huv := h.joined.sole _ _ _ hu (Store.bound_of_binding hbinding)
    simp only [hbinding] at hrun
    split at hrun
    case isTrue hv => exact huv.trans hv
    case isFalse => cases hrun

/-! ## The membership -/

theorem Named.membership (h : Named t b done m row s) : s.membership t row.id = none := by
  rw [Store.membership, List.find?_eq_none]
  intro r hr
  simpa using fun ht => (h.free r hr ht).1

theorem alone_insertedMembership (h : Named t b done m row s) (hm : NextMember t b done m)
    (htextual : textual m.1.displayLabel)
    (hlength : 1 ≤ m.1.displayLabel.length ∧ m.1.displayLabel.length ≤ 200) :
    ∃ s', Joined t b (done ++ [m]) s' ∧
      ∀ rest, (insertedMembership (m.1.row t row.id) rest).alone s = rest.alone s' := by
  have hj := h.joined
  refine ⟨s.putMembership (m.1.row t row.id), ?_, fun rest => ?_⟩
  · refine { hj with frame := ?_, memberships := ?_, members := ?_ }
    · obtain ⟨i, ms, bs, rfl⟩ := hj.frame
      exact ⟨_, _, _, rfl⟩
    · intro r hr ht
      rcases List.mem_cons.1 hr with rfl | hr
      · exact ⟨m, by simp, rfl, row, (identity_spec h.identity).1, rfl,
          (identity_spec h.identity).2⟩
      · exact hj.memberships r (List.mem_filter.1 hr).1 ht
    · intro x u hu
      rw [Store.memberOf_putMembership, if_neg fun hkey => hu hkey.1.symm]
      exact hj.members x u hu
  · have hnew : s.membership (m.1.row t row.id).tenantId (m.1.row t row.id).identityId = none :=
      h.membership
    have hseat : (m.1.row t row.id).state = .active → ∀ r ∈ s.memberships,
        r.tenantId = (m.1.row t row.id).tenantId → r.state = .active →
          r.positionId ≠ (m.1.row t row.id).positionId :=
      fun _ r hr ht _ => (h.free r hr ht).2
    have hposition : ∀ p ∈ (m.1.row t row.id).positionId,
        ∃ q ∈ s.positionsOf (m.1.row t row.id).tenantId, q.id = p := by
      intro p hp
      obtain ⟨q, hq, hid⟩ := hm.position
      obtain ⟨i, ms, bs, rfl⟩ := hj.frame
      exact ⟨q, hq, hid.trans (Option.some.inj hp)⟩
    have htextual' : textual (m.1.row t row.id).displayLabel := htextual
    have hlength' : 1 ≤ (m.1.row t row.id).displayLabel.length ∧
        (m.1.row t row.id).displayLabel.length ≤ 200 := hlength
    have hsome : (m.1.row t row.id).state = .active → (m.1.row t row.id).positionId ≠ none :=
      fun _ => Option.some_ne_none _
    rw [insertedMembership, Script.alone_statement]
    simp only [insertMembershipRow, require_true htextual', require_true hlength',
      require_true hsome, require_true hnew, require_true hseat, require_true hposition, ok_bind,
      pure_bind]

theorem label_of_insertedMembership {x : Uuid}
    (halone : (insertedMembership (m.1.row t x) rest).alone s = .ok out) :
    textual m.1.displayLabel ∧ 1 ≤ m.1.displayLabel.length ∧ m.1.displayLabel.length ≤ 200 := by
  simp only [insertedMembership, Script.alone_statement, insertMembershipRow, bind_ok,
    require_ok, exists_unit] at halone
  obtain ⟨_, ⟨htextual, hlength, -⟩, -⟩ := halone
  exact ⟨htextual, hlength⟩

/-! ## The loop -/

/-- A member that is due and fits gets in. -/
theorem alone_insertMember (h : Joined t b done s) (hb : Vacant t b) (hm : NextMember t b done m)
    (hfits : m.1.Fits b t) : ∃ s', Joined t b (done ++ [m]) s' ∧ ∀ service rest ms,
      (insertMembersScript t service rest (m :: ms)).alone s =
        (insertMembersScript t service rest ms).alone s' := by
  obtain ⟨row, s₁, hnamed, hinsert⟩ := alone_insertIdentity h hb hm hfits.new
  have hactive : row.state = .active := by
    rcases hnamed.origin with hrow | ⟨-, hstate, -⟩
    · exact (hfits.known row hrow).1
    · exact hstate
  have hbound : m.1.state = .active → ∀ u, b.bound row.id u → u = t := by
    intro hstate u hu
    rcases hnamed.origin with hrow | ⟨-, -, hnone⟩
    · exact (hfits.known row hrow).2 hstate u hu
    · exact absurd hu (hnone u)
  have hauthority : ∀ service, m.1.state = .active → ¬ s₁.authorityElsewhere service row.id t :=
    fun _ hstate => hnamed.not_authorityElsewhere hb (hbound hstate)
  -- the claim comes first where the membership is active
  have hseat : ∃ s', Joined t b (done ++ [m]) s' ∧
      ∀ rest, (insertMembership (m.1.row t row.id) rest).alone s₁ = rest.alone s' := by
    by_cases hstate : m.1.state = .active
    · obtain ⟨s₂, hnamed₂, hclaim⟩ := alone_claim hnamed (hbound hstate)
      obtain ⟨s₃, hjoined, hput⟩ :=
        alone_insertedMembership hnamed₂ hm hfits.textual hfits.length
      refine ⟨s₃, hjoined, fun rest => ?_⟩
      have hrow : (m.1.row t row.id).state = .active := hstate
      rw [insertMembership, if_pos hrow]
      exact (hclaim _).trans (hput rest)
    · obtain ⟨s₂, hjoined, hput⟩ := alone_insertedMembership hnamed hm hfits.textual hfits.length
      refine ⟨s₂, hjoined, fun rest => ?_⟩
      have hrow : ¬ (m.1.row t row.id).state = .active := hstate
      rw [insertMembership, if_neg hrow]
      exact hput rest
  obtain ⟨s', hjoined, hput⟩ := hseat
  refine ⟨s', hjoined, fun service rest ms => ?_⟩
  rw [insertMembersScript, hinsert, activeIdentity, Script.alone_read, Script.alone_demand,
    hnamed.identity, demand_some, ok_bind, Script.alone_require, require_true hactive, ok_bind,
    Script.alone_read, Script.alone_require, require_true (hauthority service), ok_bind, hput]

/-- A member that does not fit stops the replacement. -/
theorem fits_of_insertMember (h : Joined t b done s) (hb : Vacant t b)
    (hm : NextMember t b done m) {ms : List (MemberRequest × Uuid)}
    (halone : (insertMembersScript t service rest (m :: ms)).alone s = .ok out) :
    m.1.Fits b t := by
  rw [insertMembersScript] at halone
  have hnew := texts_of_insertIdentity h hm halone
  obtain ⟨row, s₁, hnamed, hinsert⟩ := alone_insertIdentity h hb hm hnew
  rw [hinsert, activeIdentity, Script.alone_read, Script.alone_demand, hnamed.identity,
    demand_some, ok_bind, Script.alone_require, bind_ok] at halone
  obtain ⟨_, hactive, halone⟩ := halone
  rw [Script.alone_read, Script.alone_require, bind_ok] at halone
  obtain ⟨_, -, halone⟩ := halone
  have hclaimed : m.1.state = .active → ∀ u, b.bound row.id u → u = t := by
    intro hstate
    have hrow : (m.1.row t row.id).state = .active := hstate
    rw [insertMembership, if_pos hrow] at halone
    exact bound_of_claim hnamed halone
  have hlabel : textual m.1.displayLabel ∧
      1 ≤ m.1.displayLabel.length ∧ m.1.displayLabel.length ≤ 200 := by
    by_cases hstate : m.1.state = .active
    · have hrow : (m.1.row t row.id).state = .active := hstate
      obtain ⟨s₂, -, hclaim⟩ := alone_claim hnamed (hclaimed hstate)
      rw [insertMembership, if_pos hrow] at halone
      exact label_of_insertedMembership ((hclaim _).symm.trans halone)
    · have hrow : ¬ (m.1.row t row.id).state = .active := hstate
      rw [insertMembership, if_neg hrow] at halone
      exact label_of_insertedMembership halone
  refine ⟨hlabel.1, hlabel.2, hnew, fun row' hrow' => ?_⟩
  rcases hnamed.origin with hrow | ⟨hnone, -, -⟩
  · obtain rfl := Option.some.inj (hrow.symm.trans hrow')
    exact ⟨require_ok.1 hactive, hclaimed⟩
  · rw [hnone] at hrow'
    cases hrow'

end

/-- The members as the validator leaves them, with the ids that are offered. -/
structure Roster (t : Uuid) (b : Store) (ms : List (MemberRequest × Uuid)) : Prop where
  new : ∀ m ∈ ms, ∀ row ∈ b.identities, row.id ≠ m.2
  news : (ms.map Prod.snd).Nodup
  subjects : (ms.map fun m => (m.1.issuer, m.1.subject)).Nodup
  positions : (ms.map fun m => m.1.positionId).Nodup
  position : ∀ m ∈ ms, ∃ q ∈ b.positionsOf t, q.id = m.1.positionId

section
variable {t : Uuid} {b s out : Store} {done ms : List (MemberRequest × Uuid)}
  {m : MemberRequest × Uuid} {service : Bool} {rest : OrgScript}

/-- What differs along a list differs between a prefix and what follows it. -/
theorem ne_of_nodup_map {α β : Type} {f : α → β} {l r : List α} {a b : α}
    (h : ((l ++ b :: r).map f).Nodup) (ha : a ∈ l) : f a ≠ f b := by
  rw [List.map_append, List.nodup_append] at h
  exact h.2.2 (f a) (List.mem_map_of_mem ha) (f b) (by simp)

theorem Roster.next (h : Roster t b (done ++ m :: ms)) : NextMember t b done m where
  new := h.new m (by simp)
  news _ hm' := ne_of_nodup_map h.news hm'
  subjects _ hm' := by
    rintro ⟨hissuer, hsubject⟩
    exact ne_of_nodup_map h.subjects hm' (Prod.ext hissuer hsubject)
  positions _ hm' := ne_of_nodup_map (f := fun m => m.1.positionId) h.positions hm'
  position := h.position m (by simp)

theorem alone_insertMembers (h : Joined t b done s) (hb : Vacant t b)
    (hroster : Roster t b (done ++ ms)) (hfits : ∀ m ∈ ms, m.1.Fits b t) :
    ∃ s', Joined t b (done ++ ms) s' ∧
      ∀ service rest, (insertMembersScript t service rest ms).alone s = rest.alone s' := by
  induction ms generalizing done s with
  | nil => exact ⟨s, by rwa [List.append_nil], fun _ _ => rfl⟩
  | cons m ms ih =>
    obtain ⟨s₁, hjoined, hstep⟩ :=
      alone_insertMember h hb hroster.next (hfits m List.mem_cons_self)
    rw [List.append_cons] at hroster ⊢
    obtain ⟨s₂, hjoined₂, hrest⟩ :=
      ih hjoined hroster fun m' hm' => hfits m' (List.mem_cons_of_mem _ hm')
    exact ⟨s₂, hjoined₂, fun service rest =>
      (hstep service rest ms).trans (hrest service rest)⟩

theorem fits_of_insertMembers (h : Joined t b done s) (hb : Vacant t b)
    (hroster : Roster t b (done ++ ms))
    (halone : (insertMembersScript t service rest ms).alone s = .ok out) :
    ∀ m ∈ ms, m.1.Fits b t := by
  induction ms generalizing done s with
  | nil => simp
  | cons m ms ih =>
    have hfits := fits_of_insertMember h hb hroster.next halone
    obtain ⟨s₁, hjoined, hstep⟩ := alone_insertMember h hb hroster.next hfits
    rw [hstep] at halone
    rw [List.append_cons] at hroster
    exact List.forall_mem_cons.2 ⟨hfits, ih hjoined hroster halone⟩

end

end RagPipeline.Org
