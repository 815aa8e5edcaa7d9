import RagPipeline.Org.Replace

/-! # Which topologies are accepted

A proposed hierarchy is accepted where its parent links make it one tree, its
rows are sound and its members have seats of their own. -/

set_option autoImplicit false

namespace RagPipeline.Org
open Guard

/-- One position stands directly above another. -/
def Above (ps : List PositionRequest) (a d : Uuid) : Prop :=
  ∃ p ∈ ps, p.id = d ∧ p.parentId = some a

/-- One position has no parent, and every position is reached from it. -/
structure RootedTree (ps : List PositionRequest) : Prop where
  ids : (ps.map PositionRequest.id).Nodup
  rooted : ∃ root ∈ ps, root.parentId = none ∧ (∀ p ∈ ps, p.parentId = none → p = root) ∧
    ∀ p ∈ ps, Relation.ReflTransGen (Above ps) root.id p.id

section
variable {ps positions ordered queue : List PositionRequest} {p root : PositionRequest} {n : ℕ}

/-- From the head of an order in which parents come first, everything is reached. -/
theorem reached_of_parentsFirst {above : List Uuid} {all : List PositionRequest}
    (hall : ∀ p ∈ ps, p ∈ all) (hfirst : ParentsFirst above ps)
    (habove : ∀ a ∈ above, Relation.ReflTransGen (Above all) root.id a)
    (hroot : ∀ p ∈ ps, p.parentId = none → p = root) :
    ∀ p ∈ ps, Relation.ReflTransGen (Above all) root.id p.id := by
  induction ps generalizing above with
  | nil => simp
  | cons q ps ih =>
    obtain ⟨hparent, hrest⟩ := hfirst
    have hq : Relation.ReflTransGen (Above all) root.id q.id := by
      cases hq : q.parentId with
      | none =>
        rw [hroot q List.mem_cons_self hq]
      | some a =>
        exact (habove a (hparent a hq)).tail ⟨q, hall q List.mem_cons_self, rfl, hq⟩
    rw [List.forall_mem_cons]
    constructor
    · exact hq
    · apply ih (fun p hp => hall p (List.mem_cons_of_mem q hp)) hrest
      · intro a ha
        obtain ha | ha := List.mem_append.1 ha
        · exact habove a ha
        · rw [List.mem_singleton.1 ha]
          exact hq
      · intro p hp
        exact hroot p (List.mem_cons_of_mem q hp)

theorem Above.of_perm {l m : List PositionRequest} (h : l.Perm m) {a d : Uuid}
    (habove : Above l a d) : Above m a d := by
  obtain ⟨p, hp, hid, hparent⟩ := habove
  exact ⟨p, h.mem_iff.1 hp, hid, hparent⟩

theorem rootedTree_of_tree {ordered : List PositionRequest} (h : Tree ordered)
    (hperm : ordered.Perm positions) (hroot : root ∈ positions) (hnone : root.parentId = none) :
    RootedTree positions := by
  have hone : ∀ p ∈ ordered, p.parentId = none → p = root := by
    intro p hp hp'
    exact h.one_root p hp root (hperm.mem_iff.2 hroot) hp' hnone
  have hreached := reached_of_parentsFirst (fun p hp => hp) h.parents (by simp) hone
  constructor
  · exact (hperm.map PositionRequest.id).nodup_iff.1 h.ids
  · refine ⟨root, hroot, hnone, ?_, ?_⟩
    · intro p hp
      exact hone p (hperm.mem_iff.2 hp)
    · intro p hp
      have hmono : ∀ a d, Above ordered a d → Above positions a d := by
        intro a d
        exact Above.of_perm hperm
      exact Relation.ReflTransGen.mono hmono _ _ (hreached p (hperm.mem_iff.2 hp))

/-! ## The walk reaches everything -/

/-- What holds between two rounds of the walk. -/
structure Frontier (positions ordered queue : List PositionRequest) : Prop where
  ids : ((ordered ++ queue).map PositionRequest.id).Nodup
  known : ∀ p ∈ ordered ++ queue, p ∈ positions
  parents : ∀ p ∈ ordered ++ queue, ∀ a, p.parentId = some a → a ∈ ordered.map PositionRequest.id
  below : ∀ p ∈ ordered, ∀ c ∈ positions, c.parentId = some p.id → c ∈ ordered ++ queue

theorem mem_children {id : Uuid} :
    p ∈ children positions id ↔ p ∈ positions ∧ p.parentId = some id := by
  rw [children, List.mem_filter, decide_eq_true_eq]

theorem Frontier.fresh (h : Frontier positions ordered (p :: queue)) :
    p.id ∉ ordered.map PositionRequest.id := by
  intro hmem
  have hids := h.ids
  rw [List.map_append, List.map_cons, List.nodup_append] at hids
  exact hids.2.2 p.id hmem p.id List.mem_cons_self rfl

/-- A child of the row that is taken was not there: its parent would have been taken
before. -/
theorem Frontier.children_new (hids : (positions.map PositionRequest.id).Nodup)
    (h : Frontier positions ordered (p :: queue)) {c q : PositionRequest}
    (hc : c ∈ children positions p.id) (hq : q ∈ ordered ++ p :: queue) : q.id ≠ c.id := by
  intro hsame
  obtain ⟨hmem, hparent⟩ := mem_children.1 hc
  have heq : q = c := List.inj_on_of_nodup_map hids (h.known q hq) hmem hsame
  exact h.fresh (h.parents q hq p.id (heq ▸ hparent))

theorem Frontier.step (hids : (positions.map PositionRequest.id).Nodup)
    (h : Frontier positions ordered (p :: queue)) :
    Frontier positions (ordered ++ [p]) (queue ++ children positions p.id) := by
  have hlist : (ordered ++ [p]) ++ (queue ++ children positions p.id) =
      (ordered ++ p :: queue) ++ children positions p.id := by simp
  constructor
  · rw [hlist, List.map_append, List.nodup_append]
    have hchildren : ((children positions p.id).map PositionRequest.id).Nodup :=
      hids.sublist ((List.filter_sublist).map PositionRequest.id)
    refine ⟨h.ids, hchildren, ?_⟩
    intro x hx y hy
    obtain ⟨q, hq, rfl⟩ := List.mem_map.1 hx
    obtain ⟨c, hc, rfl⟩ := List.mem_map.1 hy
    exact h.children_new hids hc hq
  · rw [hlist]
    intro q hq
    obtain hq | hq := List.mem_append.1 hq
    · exact h.known q hq
    · exact (mem_children.1 hq).1
  · rw [hlist]
    intro q hq a ha
    rw [List.map_append, List.mem_append]
    obtain hq | hq := List.mem_append.1 hq
    · exact .inl (h.parents q hq a ha)
    · have hparent := (mem_children.1 hq).2
      rw [hparent] at ha
      rw [← Option.some.inj ha]
      exact .inr (List.mem_singleton_self p.id)
  · rw [hlist]
    intro q hq c hc hparent
    rw [List.mem_append]
    obtain hq | hq := List.mem_append.1 hq
    · exact .inl (h.below q hq c hc hparent)
    · rw [List.mem_singleton.1 hq] at hparent
      exact .inr (mem_children.2 ⟨hc, hparent⟩)

/-- The walk ends with all that is below what it was given. -/
theorem walk_complete (hids : (positions.map PositionRequest.id).Nodup)
    (h : Frontier positions ordered queue) (hfuel : positions.length ≤ n + ordered.length) :
    ∃ out, walk positions n ordered queue = .ok out ∧ (∀ p ∈ ordered ++ queue, p ∈ out) ∧
      ∀ p ∈ out, ∀ c ∈ positions, c.parentId = some p.id → c ∈ out := by
  induction n generalizing ordered queue with
  | zero =>
    cases queue with
    | nil =>
      have hlist := List.append_nil ordered
      refine ⟨ordered, rfl, by simp, ?_⟩
      intro p hp c hc hparent
      exact hlist ▸ h.below p hp c hc hparent
    | cons p queue =>
      have hle := (h.ids.of_map.subperm h.known).length_le
      rw [List.length_append, List.length_cons] at hle
      omega
  | succ n ih =>
    cases queue with
    | nil =>
      have hlist := List.append_nil ordered
      refine ⟨ordered, rfl, by simp, ?_⟩
      intro p hp c hc hparent
      exact hlist ▸ h.below p hp c hc hparent
    | cons p queue =>
      have hlength : positions.length ≤ n + (ordered ++ [p]).length := by
        rw [List.length_append, List.length_singleton]
        omega
      obtain ⟨out, hwalk, hall, hclosed⟩ := ih (h.step hids) hlength
      refine ⟨out, ?_, ?_, hclosed⟩
      · rw [walk, if_neg h.fresh]
        exact hwalk
      · intro q hq
        apply hall q
        rw [List.append_assoc, List.singleton_append, ← List.cons_append, ← List.append_assoc]
        exact List.mem_append_left _ hq

theorem frontier_root (hroot : root ∈ positions) (hnone : root.parentId = none) :
    Frontier positions [] [root] where
  ids := List.nodup_singleton root.id
  known := by
    intro p hp
    rw [List.mem_singleton.1 hp]
    exact hroot
  parents := by
    intro p hp a ha
    rw [List.mem_singleton.1 hp, hnone] at ha
    cases ha
  below := by simp

theorem walk_all (h : RootedTree positions) (hroot : root ∈ positions)
    (hnone : root.parentId = none) :
    ∃ out, walk positions (positions.length + 1) [] [root] = .ok out ∧
      ∀ p ∈ positions, p.id ∈ out.map PositionRequest.id := by
  obtain ⟨out, hwalk, hall, hclosed⟩ := walk_complete h.ids (frontier_root hroot hnone)
    (n := positions.length + 1) (by simp only [List.length_nil]; omega)
  refine ⟨out, hwalk, ?_⟩
  obtain ⟨root', hroot', hnone', hone, hreached⟩ := h.rooted
  intro p hp
  have hpath := hreached p hp
  rw [← hone root hroot hnone] at hpath
  have hmem : ∀ x, Relation.ReflTransGen (Above positions) root.id x →
      x ∈ out.map PositionRequest.id := by
    intro x hx
    induction hx with
    | refl => exact List.mem_map_of_mem (hall root (by simp))
    | tail _ hstep ih =>
      obtain ⟨q, hq, hid⟩ := List.mem_map.1 ih
      obtain ⟨c, hc, rfl, hparent⟩ := hstep
      exact List.mem_map_of_mem (hclosed q hq c hc (hid ▸ hparent))
  exact hmem p.id hpath

/-! ## The checks around the walk -/

theorem filter_root (h : (positions.map PositionRequest.id).Nodup) (hroot : root ∈ positions)
    (hnone : root.parentId = none) (hone : ∀ p ∈ positions, p.parentId = none → p = root) :
    positions.filter (fun row => row.parentId = none) = [root] := by
  have hnodup : (positions.filter fun row => row.parentId = none).Nodup := h.of_map.filter _
  have hmem : root ∈ positions.filter fun row => row.parentId = none :=
    List.mem_filter.2 ⟨hroot, decide_eq_true hnone⟩
  have honly : ∀ p ∈ positions.filter (fun row => row.parentId = none), p = root := by
    intro p hp
    obtain ⟨hp, hp'⟩ := List.mem_filter.1 hp
    exact hone p hp (of_decide_eq_true hp')
  rw [List.eq_replicate_of_mem honly] at hnodup hmem ⊢
  generalize (positions.filter fun row => row.parentId = none).length = k at hnodup hmem ⊢
  obtain _ | _ | k := k
  · cases hmem
  · rfl
  · simp [List.replicate_succ] at hnodup

theorem checkBelow_sound (hsound : p.Sound)
    (hparent : ∀ a, p.parentId = some a → ∃ q ∈ positions, q.id = a) :
    checkBelow positions p = .ok () := by
  cases hp : p.parentId with
  | none => simp only [checkBelow, hp]
  | some a =>
    have hkind : p.kind ≠ .root := by
      intro hkind
      rw [hsound.root_iff.2 hkind] at hp
      cases hp
    have hmember : ¬ (p.kind = .member ∧ p.canMonitorDescendants = true) := by
      intro h
      rw [hsound.member h.1] at h
      cases h.2
    have habove : p.kind ≠ .root ∧ ∃ q ∈ positions, q.id = a := ⟨hkind, hparent a hp⟩
    simp only [checkBelow, hp, require_true habove, require_true hmember, ok_bind]

theorem checkMembers_seated {occupied : List Uuid} {subjects : List (String × String)}
    {ms : List MemberRequest} (h : Seated positions ms)
    (hoccupied : ∀ m ∈ ms, m.positionId ∉ occupied)
    (hsubjects : ∀ m ∈ ms, (m.issuer, m.subject) ∉ subjects) :
    checkMembers positions occupied subjects ms = .ok () := by
  induction ms generalizing occupied subjects with
  | nil => rfl
  | cons m ms ih =>
    obtain ⟨hposition, hpositions, hsubject⟩ := h
    rw [List.forall_mem_cons] at hposition hoccupied hsubjects
    rw [List.map_cons, List.nodup_cons] at hpositions hsubject
    rw [checkMembers, require_true hposition.1, ok_bind, require_true hoccupied.1, ok_bind,
      require_true hsubjects.1, ok_bind]
    apply ih ⟨hposition.2, hpositions.2, hsubject.2⟩
    · intro m' hm' hin
      obtain heq | hin := List.mem_cons.1 hin
      · exact hpositions.1 (List.mem_map.2 ⟨m', hm', heq⟩)
      · exact hoccupied.2 m' hm' hin
    · intro m' hm' hin
      obtain heq | hin := List.mem_cons.1 hin
      · exact hsubject.1 (List.mem_map.2 ⟨m', hm', heq⟩)
      · exact hsubjects.2 m' hm' hin

theorem RootedTree.parent (h : RootedTree positions) (hp : p ∈ positions) {a : Uuid}
    (ha : p.parentId = some a) : ∃ q ∈ positions, q.id = a := by
  obtain ⟨root, hroot, hnone, -, hreached⟩ := h.rooted
  obtain heq | ⟨b, hpath, c, hc, hid, hparent⟩ := Relation.ReflTransGen.cases_tail (hreached p hp)
  · have hsame : p = root := List.inj_on_of_nodup_map h.ids hp hroot heq
    rw [hsame, hnone] at ha
    cases ha
  · have hsame : c = p := List.inj_on_of_nodup_map h.ids hc hp hid
    rw [hsame, ha] at hparent
    obtain rfl := Option.some.inj hparent
    obtain heq | ⟨_, -, d, hd, hid, -⟩ := Relation.ReflTransGen.cases_tail hpath
    · exact ⟨root, hroot, heq.symm⟩
    · exact ⟨d, hd, hid⟩

theorem orderedTopology_complete {members : List MemberRequest} (h : RootedTree positions)
    (hsound : ∀ p ∈ positions, p.Sound) (hseated : Seated positions members) :
    ∃ ordered, orderedTopology positions members = .ok (ordered, members) := by
  obtain ⟨root, hroot, hnone, hone, -⟩ := h.rooted
  obtain ⟨out, hwalk, hall⟩ := walk_all h hroot hnone
  have hkind := (hsound root hroot).root_iff.1 hnone
  have hbelow : forM positions (checkBelow positions) = .ok () := by
    apply forM_ok.2
    intro p hp
    exact checkBelow_sound (hsound p hp) fun a ha => h.parent hp ha
  have hmembers : checkMembers positions [] [] members = .ok () :=
    checkMembers_seated hseated (by simp) (by simp)
  apply Exists.intro out
  rw [orderedTopology, require_true h.ids, ok_bind, filter_root h.ids hroot hnone hone]
  simp only [require_true hkind, require_true ((hsound root hroot).root hkind), hbelow, hwalk,
    require_true hall, hmembers, ok_bind]
  rfl

theorem orderedTopology_perm {members ms : List MemberRequest}
    (h : orderedTopology positions members = .ok (ordered, ms)) : ordered.Perm positions := by
  obtain ⟨htree, -, -, hmem⟩ := orderedTopology_ok h
  simp only [orderedTopology, bind_ok, require_ok, exists_unit] at h
  exact (List.perm_ext_iff_of_nodup htree.ids.of_map h.1.of_map).2 hmem

/-! ## Inserting in the order that is returned -/

def insertPositions (t : Uuid) (ps : List PositionRequest) (s : Store) : Except Refusal Store :=
  ps.foldlM (fun s p => insertPosition (p.row t) s) s

variable {s s' : Store} {t : Uuid} {pre : List PositionRequest} {constraint : String}

theorem rebuildClosure_foreign (s : Store) :
    rebuildClosure t s ≠ .error (.foreignKeyViolation constraint) := by
  intro h
  simp only [rebuildClosure, bind_error, require_error, demand_error, reduceCtorEq, and_false,
    false_or, exists_false, pure, Except.pure] at h

/-- The parent is the only reference of a position. -/
theorem foreign_of_insertPosition {row : PositionRow}
    (hparent : ∀ parent ∈ row.parentId, ∃ q ∈ s.positionsOf row.tenantId, q.id = parent) :
    insertPosition row s ≠ .error (.foreignKeyViolation constraint) := by
  intro h
  simp only [insertPosition, guardPosition, nulRefusal, bind_error, require_error, reduceCtorEq,
    and_false, false_or, or_false, exists_unit, rebuildClosure_foreign] at h
  obtain ⟨-, -, -, -, -, -, -, -, hmissing, -⟩ := h
  exact hmissing hparent

/-- Whether or not the titles and ids are to the liking of the table, the parent of a
position is in when the position comes. -/
theorem insertPositions_foreign (hnone : s.positionsOf t = []) (h : Laid t pre s s')
    (htree : Tree (pre ++ ps)) :
    insertPositions t ps s' ≠ .error (.foreignKeyViolation constraint) := by
  induction ps generalizing pre s' with
  | nil =>
    intro herror
    cases herror
  | cons p ps ih =>
    intro herror
    rw [insertPositions, List.foldlM_cons, bind_error] at herror
    obtain herror | ⟨s₁, hinsert, hrest⟩ := herror
    · apply foreign_of_insertPosition _ herror
      intro parent ha
      obtain ⟨q, hq, hid⟩ := htree.due.parent ha
      rw [PositionRequest.row_tenantId, h.positionsOf hnone]
      exact ⟨q.row t, List.mem_map_of_mem (f := (·.row t)) hq, hid⟩
    · obtain ⟨rows, hrows, hinserted⟩ :=
        insertPosition_due hnone h htree.due (fits_of_insertPosition h hinsert)
      rw [hinserted] at hinsert
      obtain rfl := Except.ok.inj hinsert
      rw [List.append_cons] at htree
      exact ih (h.insert hrows) htree hrest

/-- What is accepted is one tree of sound rows with its members seated, all of that is
accepted, and the order that is returned can be inserted as it stands. -/
theorem topology_is_tree (positions : List PositionRequest) (members : List MemberRequest) :
    ((∃ out, orderedTopology positions members = .ok out) ↔
      RootedTree positions ∧ (∀ p ∈ positions, p.Sound) ∧ Seated positions members) ∧
    ∀ ordered ms, orderedTopology positions members = .ok (ordered, ms) →
      ms = members ∧ ordered.Perm positions ∧ ParentsFirst [] ordered ∧
        ∀ (s : Store) (t : Uuid) (constraint : String),
          insertPositions t ordered (s.deletePositions t) ≠ .error (.foreignKeyViolation constraint) := by
  constructor
  · constructor
    · intro h
      obtain ⟨⟨ordered, ms⟩, h⟩ := h
      obtain ⟨htree, hseated, rfl, hmem⟩ := orderedTopology_ok h
      have hroot : ∃ root ∈ positions, root.parentId = none := by
        simp only [orderedTopology, bind_ok, require_ok, exists_unit] at h
        obtain ⟨-, h⟩ := h
        split at h
        case h_2 => cases h
        case h_1 root hroot =>
          have hin : root ∈ positions.filter fun row => row.parentId = none := by
            rw [hroot]
            exact List.mem_singleton_self root
          exact ⟨root, (List.mem_filter.1 hin).1, of_decide_eq_true (List.mem_filter.1 hin).2⟩
      obtain ⟨root, hroot, hnone⟩ := hroot
      constructor
      · exact rootedTree_of_tree htree (orderedTopology_perm h) hroot hnone
      constructor
      · intro p hp
        exact htree.sound p ((hmem p).2 hp)
      · constructor
        · intro m hm
          obtain ⟨p, hp, hid⟩ := hseated.position m hm
          exact ⟨p, (hmem p).1 hp, hid⟩
        · exact hseated.positions
        · exact hseated.subjects
    · intro h
      obtain ⟨hrooted, hsound, hseated⟩ := h
      obtain ⟨ordered, hordered⟩ := orderedTopology_complete hrooted hsound hseated
      exact ⟨_, hordered⟩
  · intro ordered ms h
    obtain ⟨htree, -, hms, -⟩ := orderedTopology_ok h
    refine ⟨hms, orderedTopology_perm h, htree.parents, ?_⟩
    intro s t constraint
    exact insertPositions_foreign positionsOf_deletePositions laid_nil htree

theorem topology_is_tree_team : teamPositions.Perm teamPositions ∧ ParentsFirst [] teamPositions := by
  obtain ⟨-, hordered⟩ := topology_is_tree teamPositions teamMembers
  obtain ⟨-, hperm, hfirst, -⟩ := hordered teamPositions teamMembers rfl
  exact ⟨hperm, hfirst⟩

end

end RagPipeline.Org
