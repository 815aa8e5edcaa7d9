import RagPipeline.Org.Topology
import RagPipeline.Org.Roles
import Mathlib.Data.List.Induction

/-! # What a replacement comes to

`replace_org_topology` with nothing beside it: the bindings that are released
with the memberships, the positions of a tree inserted one by one, the members
joined one by one. For each part, when it goes through and what it leaves. -/

set_option autoImplicit false

namespace RagPipeline.Org
open Guard Locks

/-- What the schema declares beside the guards: primary and foreign keys. -/
structure Constrained (s : Store) : Prop where
  identities : (s.identities.map IdentityRow.id).Nodup
  bindings : ∀ x t, s.bound x t → ∃ row ∈ s.identities, row.id = x
  datasets : ∀ d ∈ s.datasets, ∃ m ∈ s.memberships,
    m.tenantId = d.tenantId ∧ m.identityId = d.ownerIdentityId

/-! ## Memberships deleted -/

/-- The trigger of one deleted row. -/
def released (x t : Uuid) (s : Store) : Store :=
  if s.authority x t then s else if s.bound x t then s.unbind x t else s

section
variable {s s' : Store} {x y t u : Uuid} {rest : OrgScript}

theorem alone_release : (release x t rest).alone s = rest.alone (released x t s) := by
  rw [release, Script.alone_read, released]
  by_cases hauthority : s.authority x t
  · rw [if_pos hauthority, if_pos hauthority]
  · rw [if_neg hauthority, if_neg hauthority, Script.alone_statement, ok_bind]
    by_cases hbound : s.bound x t
    · rw [if_pos hbound, if_pos hbound]
    · rw [if_neg hbound, if_neg hbound]
      rfl

/-- Bindings to the tenant that no authority keeps are gone, and nothing else. -/
structure Released (t : Uuid) (s s' : Store) : Prop where
  only : ∃ b, s' = { s with bindings := b }
  elsewhere : ∀ x u, u ≠ t → (s'.bound x u ↔ s.bound x u)
  fewer : ∀ x u, s'.bound x u → s.bound x u
  kept : ∀ x, s.authority x t → s.bound x t → s'.bound x t

theorem Released.authority (h : Released t s s') : s'.authority x u ↔ s.authority x u := by
  obtain ⟨b, rfl⟩ := h.only
  exact Iff.rfl

theorem Released.refl : Released t s s where
  only := ⟨s.bindings, rfl⟩
  elsewhere _ _ _ := Iff.rfl
  fewer _ _ h := h
  kept _ _ h := h

theorem Released.step (h : Released t s s') (x : Uuid) : Released t s (released x t s') := by
  rw [released]
  split
  case isTrue => exact h
  case isFalse hnone =>
    split
    case isFalse => exact h
    case isTrue =>
      obtain ⟨b, hb⟩ := h.only
      constructor
      · exact ⟨_, by rw [hb, Store.unbind]⟩
      · intro y u hu
        rw [Store.bound_unbind, h.elsewhere y u hu]
        exact and_iff_left fun hkey => hu hkey.2
      · exact fun y u hbound => h.fewer y u (Store.bound_unbind.1 hbound).1
      · intro y hauthority hbound
        refine Store.bound_unbind.2 ⟨h.kept y hauthority hbound, ?_⟩
        rintro ⟨rfl, -⟩
        exact hnone (h.authority.2 hauthority)

theorem alone_releases (rows : List MembershipRow) (h : Released t s s') :
    ∃ s'', Released t s s'' ∧ ∀ rest : OrgScript,
      (rows.foldr (fun m rest => release m.identityId t rest) rest).alone s' = rest.alone s'' := by
  induction rows generalizing s' with
  | nil => exact ⟨s', h, fun _ => rfl⟩
  | cons m rows ih =>
    obtain ⟨s'', hreleased, halone⟩ := ih (h.step m.identityId)
    exact ⟨s'', hreleased, fun rest => by rw [List.foldr_cons, alone_release, halone]⟩

theorem alone_deleteMemberships (h : ∀ d ∈ s.datasets, d.tenantId ≠ t) :
    ∃ s', Released t (s.deleteMemberships t) s' ∧
      ∀ rest, (deleteMembershipsScript t rest).alone s = rest.alone s' := by
  obtain ⟨s', hreleased, halone⟩ :=
    alone_releases (s.memberships.filter fun m => m.tenantId = t)
      (Released.refl (t := t) (s := s.deleteMemberships t))
  refine ⟨s', hreleased, fun rest => ?_⟩
  have hcheck : ∀ m ∈ s.memberships, m.tenantId = t → ∀ d ∈ s.datasets,
      ¬ (d.tenantId = t ∧ d.ownerIdentityId = m.identityId) :=
    fun _ _ _ d hd howner => h d hd howner.1
  rw [deleteMembershipsScript, Script.alone_statement, require_true hcheck, ok_bind]
  exact halone rest

/-- A dataset restricts the deletion of its owner's membership. -/
theorem datasets_of_alone (hs : Constrained s)
    (h : (deleteMembershipsScript t rest).alone s = .ok s') : ∀ d ∈ s.datasets, d.tenantId ≠ t := by
  intro d hd ht
  obtain ⟨m, hm, hmt, howner⟩ := hs.datasets d hd
  simp only [deleteMembershipsScript, Script.alone_statement, bind_ok, require_ok,
    exists_unit] at h
  obtain ⟨_, ⟨hnone, -⟩, -⟩ := h
  exact hnone m hm (hmt.trans ht) d hd ⟨ht, howner.symm⟩

end

/-! ## Positions inserted -/

@[simp] theorem PositionRequest.row_id (p : PositionRequest) (t : Uuid) : (p.row t).id = p.id := rfl

@[simp] theorem PositionRequest.row_parentId (p : PositionRequest) (t : Uuid) :
    (p.row t).parentId = p.parentId := rfl

@[simp] theorem PositionRequest.row_tenantId (p : PositionRequest) (t : Uuid) :
    (p.row t).tenantId = t := rfl

/-- What is left to ask of a position of a tree: its title, and that no other
tenant has its id. -/
structure PositionRequest.Fits (p : PositionRequest) (s : Store) (t : Uuid) : Prop where
  textual : textual p.title
  length : 1 ≤ p.title.length ∧ p.title.length ≤ 200
  id : ∀ q ∈ s.positions, q.tenantId ≠ t → q.id ≠ p.id

/-- The positions that are in so far. -/
structure Laid (t : Uuid) (pre : List PositionRequest) (s s' : Store) : Prop where
  only : ∃ c, s' = { s with positions := s.positions ++ pre.map (·.row t), closure := c }
  closure : ClosureOf t (pre.map (·.row t)) (s'.closureOf t)

theorem parentsFirst_append {above : List Uuid} {pre rest : List PositionRequest} :
    ParentsFirst above (pre ++ rest) ↔
      ParentsFirst above pre ∧ ParentsFirst (above ++ pre.map PositionRequest.id) rest := by
  induction pre generalizing above with
  | nil => simp [ParentsFirst]
  | cons p pre ih => simp [ParentsFirst, ih, and_assoc]

theorem ParentsFirst.mem {above : List Uuid} {ps : List PositionRequest}
    (h : ParentsFirst above ps) {p : PositionRequest} (hp : p ∈ ps) {a : Uuid}
    (ha : p.parentId = some a) : a ∈ above ++ ps.map PositionRequest.id := by
  induction ps generalizing above with
  | nil => cases hp
  | cons q ps ih =>
    rcases List.mem_cons.1 hp with rfl | hp
    · exact List.mem_append_left _ (h.1 a ha)
    · simpa using ih h.2 hp

section
variable {s s' out : Store} {t : Uuid} {pre ps : List PositionRequest} {p : PositionRequest}

theorem rows_ids : (ps.map (·.row t)).map PositionRow.id = ps.map PositionRequest.id := by
  rw [List.map_map]
  rfl

/-- Each position ranks behind those before it. -/
theorem forest_rows (hids : (ps.map PositionRequest.id).Nodup) (hfirst : ParentsFirst [] ps) :
    Forest (ps.map (·.row t)) := by
  induction ps using List.reverseRecOn with
  | nil => exact ⟨List.nodup_nil, fun _ => 0, by simp, by simp⟩
  | append_singleton ps p ih =>
    rw [parentsFirst_append] at hfirst
    have hids' := hids
    rw [List.map_append, List.nodup_append] at hids'
    obtain ⟨hnodup, -, hnew⟩ := hids'
    have hne : ∀ x ∈ ps.map PositionRequest.id, x ≠ p.id := fun x hx => hnew x hx p.id (by simp)
    obtain ⟨-, rank, hbound, hrank⟩ := ih hnodup hfirst.1
    have hold : ∀ a ∈ ps.map PositionRequest.id, rank a < ps.length := by
      intro a ha
      obtain ⟨q, hq, rfl⟩ := List.mem_map.1 ha
      simpa using hbound (q.row t) (List.mem_map_of_mem (f := (·.row t)) hq)
    refine ⟨by rwa [rows_ids], fun x => if x = p.id then ps.length else rank x, ?_, ?_⟩
    · intro q hq
      rw [List.length_map, List.length_append]
      beta_reduce
      split
      case isTrue => simp
      case isFalse hq' =>
        obtain ⟨r, hr, rfl⟩ := List.mem_map.1 hq
        rcases List.mem_append.1 hr with hr | hr
        · exact Nat.lt_add_right _ (hold r.id (List.mem_map_of_mem hr))
        · exact absurd (congrArg PositionRequest.id (List.mem_singleton.1 hr)) hq'
    · intro q hq a ha
      obtain ⟨r, hr, rfl⟩ := List.mem_map.1 hq
      rcases List.mem_append.1 hr with hr | hr
      · have hin : a ∈ ps.map PositionRequest.id := by simpa using hfirst.1.mem hr ha
        have hrank' := hrank (r.row t) (List.mem_map_of_mem hr) a ha
        have hr' : (r.row t).id ≠ p.id := hne r.id (List.mem_map_of_mem hr)
        simp only [if_neg (hne a hin), if_neg hr']
        exact hrank'
      · obtain rfl := List.mem_singleton.1 hr
        have hin : a ∈ ps.map PositionRequest.id := by simpa using hfirst.2.1 a ha
        simp only [if_neg (hne a hin), PositionRequest.row_id, if_true]
        exact hold a hin

/-- A position that is due after those that are in. -/
structure Due (pre : List PositionRequest) (p : PositionRequest) : Prop where
  ids : ((pre ++ [p]).map PositionRequest.id).Nodup
  parents : ParentsFirst [] (pre ++ [p])
  sound : p.Sound
  root : p.parentId = none → ∀ q ∈ pre, q.parentId ≠ none

theorem Tree.due {rest : List PositionRequest} (h : Tree (pre ++ p :: rest)) : Due pre p := by
  have hsplit : pre ++ p :: rest = (pre ++ [p]) ++ rest := by simp
  have hids : ((pre ++ [p]).map PositionRequest.id).Nodup := by
    have hall := h.ids
    rw [hsplit, List.map_append] at hall
    exact hall.of_append_left
  refine ⟨hids, ?_, h.sound p (by simp), fun hnone q hq hnone' => ?_⟩
  · have hall := h.parents
    rw [hsplit, parentsFirst_append] at hall
    exact hall.1
  · obtain rfl := h.one_root p (by simp) q (by simp [hq]) hnone hnone'
    rw [List.map_append, List.nodup_append] at hids
    exact hids.2.2 p.id (List.mem_map_of_mem hq) p.id (by simp) rfl

theorem Due.new (h : Due pre p) {q : PositionRequest} (hq : q ∈ pre) : q.id ≠ p.id := by
  have hids := h.ids
  rw [List.map_append, List.nodup_append] at hids
  exact hids.2.2 q.id (List.mem_map_of_mem hq) p.id (by simp)

theorem Due.parent (h : Due pre p) {a : Uuid} (ha : p.parentId = some a) :
    ∃ q ∈ pre, q.id = a := by
  have hfirst := (parentsFirst_append.1 h.parents).2.1 a ha
  simpa using hfirst

theorem Laid.positionsOf (hnone : s.positionsOf t = []) (h : Laid t pre s s') :
    s'.positionsOf t = pre.map (·.row t) := by
  obtain ⟨c, rfl⟩ := h.only
  simp only [Store.positionsOf] at hnone
  simp [Store.positionsOf, List.filter_append, hnone]

theorem mem_lineage {rows : List PositionRow} {n : ℕ} {a x : Uuid} (h : x ∈ lineage rows n a) :
    ∃ q ∈ rows, q.id = x := by
  induction n generalizing a with
  | zero => cases h
  | succ n ih =>
    rw [lineage] at h
    split at h
    case h_1 => cases h
    case h_2 q hq =>
      rcases List.mem_cons.1 h with rfl | h
      · exact ⟨q, List.mem_of_find?_eq_some hq, by simpa using List.find?_some hq⟩
      · cases hparent : q.parentId with
        | none => simp [hparent] at h
        | some b =>
          rw [hparent] at h
          exact ih h

theorem guardPosition_due (h : Due pre p) (hpositions : s.positionsOf t = pre.map (·.row t)) :
    guardPosition (p.row t) s = .ok () := by
  have hself : (p.row t).parentId ≠ some (p.row t).id := by
    intro hparent
    obtain ⟨q, hq, hid⟩ := h.parent hparent
    exact h.new hq hid
  have hcycle : ∀ parent ∈ (p.row t).parentId, (p.row t).id ∉
      lineage (s.positionsOf (p.row t).tenantId) (s.positionsOf (p.row t).tenantId).length
        parent := by
    intro parent _ hin
    obtain ⟨q, hq, hid⟩ := mem_lineage hin
    rw [PositionRequest.row_tenantId, hpositions] at hq
    obtain ⟨r, hr, rfl⟩ := List.mem_map.1 hq
    exact h.new hr hid
  rw [guardPosition, require_true hself, ok_bind, require_true hcycle]

/-- A position that is due and fits goes in, and the closure is that of the
positions with it. -/
theorem insertPosition_due (hnone : s.positionsOf t = []) (h : Laid t pre s s') (hdue : Due pre p)
    (hfits : p.Fits s t) : ∃ rows, ClosureOf t ((pre ++ [p]).map (·.row t)) rows ∧
      insertPosition (p.row t) s' = .ok { s' with
        positions := s'.positions ++ [p.row t]
        closure := s'.closure.filter (fun r => r.tenantId ≠ t) ++ rows } := by
  have hpositions := h.positionsOf hnone
  have hnow : ({ s' with positions := s'.positions ++ [p.row t] } : Store).positionsOf t =
      (pre ++ [p]).map (·.row t) := by
    rw [List.map_append, ← hpositions]
    simp [Store.positionsOf, List.filter_append]
  obtain ⟨rows, hrows, hrebuild⟩ :=
    rebuildClosure_forest (hnow ▸ forest_rows hdue.ids hdue.parents)
  refine ⟨rows, hnow ▸ hrows, ?_⟩
  have hpkey : ∀ q ∈ s'.positions, q.id ≠ (p.row t).id := by
    obtain ⟨c, rfl⟩ := h.only
    intro q hq
    rcases List.mem_append.1 hq with hq | hq
    · refine hfits.id q hq fun ht => ?_
      have hin : q ∈ s.positionsOf t := List.mem_filter.2 ⟨hq, decide_eq_true ht⟩
      rw [hnone] at hin
      cases hin
    · obtain ⟨r, hr, rfl⟩ := List.mem_map.1 hq
      exact hdue.new hr
  have hone : (p.row t).parentId = none →
      ∀ q ∈ s'.positionsOf (p.row t).tenantId, q.parentId ≠ none := by
    intro hroot q hq
    rw [PositionRequest.row_tenantId, hpositions] at hq
    obtain ⟨r, hr, rfl⟩ := List.mem_map.1 hq
    exact hdue.root hroot r hr
  have hforeign : ∀ parent ∈ (p.row t).parentId,
      ∃ q ∈ s'.positionsOf (p.row t).tenantId, q.id = parent := by
    intro parent ha
    obtain ⟨q, hq, hid⟩ := hdue.parent ha
    rw [PositionRequest.row_tenantId, hpositions]
    exact ⟨q.row t, List.mem_map_of_mem (f := (·.row t)) hq, hid⟩
  have htextual : textual (p.row t).title := hfits.textual
  have hlength : 1 ≤ (p.row t).title.length ∧ (p.row t).title.length ≤ 200 := hfits.length
  have hkind : (p.row t).parentId = none ↔ (p.row t).kind = .root := hdue.sound.root_iff
  have hroot : (p.row t).kind = .root →
      (p.row t).canMonitorDescendants = true ∧ (p.row t).protectedFromMonitoring = true :=
    hdue.sound.root
  have hmember : (p.row t).kind = .member → (p.row t).canMonitorDescendants = false :=
    hdue.sound.member
  simp only [insertPosition, require_true htextual, guardPosition_due hdue hpositions,
    require_true hlength, require_true hkind, require_true hroot, require_true hmember,
    require_true hpkey, require_true hone, require_true hforeign, ok_bind]
  exact hrebuild

theorem fits_of_insertPosition (h : Laid t pre s s') (hins : insertPosition (p.row t) s' = .ok out) :
    p.Fits s t := by
  simp only [insertPosition, bind_ok, require_ok, exists_unit] at hins
  obtain ⟨htextual, -, hlength, -, -, -, hpkey, -⟩ := hins
  refine ⟨htextual, hlength, fun q hq _ => hpkey q ?_⟩
  obtain ⟨c, rfl⟩ := h.only
  exact List.mem_append_left _ hq

theorem ClosureOf.own {ps : List PositionRow} {rows : List ClosureRow} (h : ClosureOf t ps rows)
    (c : List ClosureRow) :
    (c.filter (fun r => r.tenantId ≠ t) ++ rows).filter (fun r => r.tenantId = t) = rows := by
  have hown : rows.filter (fun r => r.tenantId = t) = rows :=
    List.filter_eq_self.2 fun r hr => decide_eq_true ((h r).1 hr).1
  simp [List.filter_append, List.filter_filter, hown]

theorem Laid.insert {rows : List ClosureRow} (h : Laid t pre s s')
    (hrows : ClosureOf t ((pre ++ [p]).map (·.row t)) rows) :
    Laid t (pre ++ [p]) s { s' with
      positions := s'.positions ++ [p.row t]
      closure := s'.closure.filter (fun r => r.tenantId ≠ t) ++ rows } := by
  constructor
  · obtain ⟨c, rfl⟩ := h.only
    exact ⟨_, by rw [List.map_append, ← List.append_assoc]; rfl⟩
  · rwa [Store.closureOf, hrows.own]

/-- One round of the loop. -/
theorem alone_insertPosition (hnone : s.positionsOf t = []) (h : Laid t pre s s')
    (hdue : Due pre p) (hfits : p.Fits s t) : ∃ s'', Laid t (pre ++ [p]) s s'' ∧
      ∀ rest ps, (insertPositionsScript t rest (p :: ps)).alone s' =
        (insertPositionsScript t rest ps).alone s'' := by
  obtain ⟨rows, hrows, hinsert⟩ := insertPosition_due hnone h hdue hfits
  refine ⟨_, h.insert hrows, fun rest ps => ?_⟩
  rw [insertPositionsScript, Script.alone_statement, hinsert]
  simp only [ok_bind, pure_bind, Store.closureOf, hrows.own]

theorem alone_insertPositions (hnone : s.positionsOf t = []) (h : Laid t pre s s')
    (htree : Tree (pre ++ ps)) (hfits : ∀ p ∈ ps, p.Fits s t) :
    ∃ s'', Laid t (pre ++ ps) s s'' ∧
      ∀ rest, (insertPositionsScript t rest ps).alone s' = rest.alone s'' := by
  induction ps generalizing pre s' with
  | nil => exact ⟨s', by rwa [List.append_nil], fun _ => rfl⟩
  | cons p ps ih =>
    obtain ⟨s₁, hlaid, hstep⟩ :=
      alone_insertPosition hnone h htree.due (hfits p List.mem_cons_self)
    rw [List.append_cons] at htree ⊢
    obtain ⟨s₂, hlaid₂, hrest⟩ := ih hlaid htree fun q hq => hfits q (List.mem_cons_of_mem _ hq)
    exact ⟨s₂, hlaid₂, fun rest => (hstep rest ps).trans (hrest rest)⟩

/-- A position that does not fit stops the replacement. -/
theorem fits_of_insertPositions (hnone : s.positionsOf t = []) (h : Laid t pre s s')
    (htree : Tree (pre ++ ps)) {rest : OrgScript}
    (halone : (insertPositionsScript t rest ps).alone s' = .ok out) : ∀ p ∈ ps, p.Fits s t := by
  induction ps generalizing pre s' with
  | nil => simp
  | cons p ps ih =>
    have hinsert := halone
    simp only [insertPositionsScript, Script.alone_statement, bind_ok] at hinsert
    obtain ⟨_, ⟨_, hinsert, -⟩, -⟩ := hinsert
    have hfits := fits_of_insertPosition h hinsert
    obtain ⟨s₁, hlaid, hstep⟩ := alone_insertPosition hnone h htree.due hfits
    rw [hstep] at halone
    rw [List.append_cons] at htree
    exact List.forall_mem_cons.2 ⟨hfits, ih hlaid htree halone⟩

end

end RagPipeline.Org
