import RagPipeline.Org.Scripts
import RagPipeline.Org.Store
import Mathlib.Data.List.Perm.Subperm
import Mathlib.Logic.Relation

/-! # The closure of a forest

Positions whose parents come before them form a forest. The recursion that
computes their closure ends, keeps every pair of ancestor and descendant once,
and gives each the length of the only way from the one to the other. -/

set_option autoImplicit false

namespace RagPipeline.Org
open Guard

/-- From a position down to another, in so many steps. -/
inductive Descends (ps : List PositionRow) : Uuid → ℕ → Uuid → Prop where
  | self {p : PositionRow} (hp : p ∈ ps) : Descends ps p.id 0 p.id
  | child {a k parent} {p : PositionRow} (h : Descends ps a k parent) (hp : p ∈ ps)
      (hparent : p.parentId = some parent) : Descends ps a (k + 1) p.id

/-- The closure rows of a tenant are the pairs of its positions, with depths. -/
def ClosureOf (t : Uuid) (ps : List PositionRow) (rows : List ClosureRow) : Prop :=
  ∀ r, r ∈ rows ↔ r.tenantId = t ∧ Descends ps r.ancestorId r.depth r.descendantId

/-- Every position has one row, its parent comes earlier. -/
structure Forest (ps : List PositionRow) : Prop where
  ids : (ps.map PositionRow.id).Nodup
  ranked : ∃ rank : Uuid → ℕ, (∀ p ∈ ps, rank p.id < ps.length) ∧
    ∀ p ∈ ps, ∀ a, p.parentId = some a → rank a < rank p.id

section
variable {ps : List PositionRow} {a d : Uuid} {i j k : ℕ}

theorem Forest.eq_of_id (h : Forest ps) {p q : PositionRow} (hp : p ∈ ps) (hq : q ∈ ps)
    (hid : p.id = q.id) : p = q :=
  List.inj_on_of_nodup_map h.ids hp hq hid

theorem Descends.rank {rank : Uuid → ℕ}
    (hrank : ∀ p ∈ ps, ∀ b, p.parentId = some b → rank b < rank p.id)
    (h : Descends ps a k d) : rank a + k ≤ rank d := by
  induction h with
  | self _ => omega
  | child _ hp hparent ih =>
    have hlt := hrank _ hp _ hparent
    omega

theorem Descends.mem (h : Descends ps a k d) : ∃ p ∈ ps, p.id = d := by
  cases h with
  | self hp => exact ⟨_, hp, rfl⟩
  | child _ hp _ => exact ⟨_, hp, rfl⟩

theorem Forest.depth_lt (hf : Forest ps) (h : Descends ps a k d) : k < ps.length := by
  obtain ⟨rank, hbound, hrank⟩ := hf.ranked
  obtain ⟨p, hp, rfl⟩ := h.mem
  have hle := h.rank hrank
  have hlt := hbound p hp
  omega

/-- Two positions are apart by one number of steps at most: the way up is the
same for both, and no way leads back. -/
theorem Forest.depth_eq (hf : Forest ps) (hi : Descends ps a i d) (hj : Descends ps a j d) :
    i = j := by
  obtain ⟨rank, -, hrank⟩ := hf.ranked
  induction hi generalizing j with
  | self _ =>
    have hle := hj.rank hrank
    omega
  | child h hp hparent ih =>
    rename_i a i parent p
    generalize hd : p.id = d at hj
    cases hj with
    | self hq =>
      have hle := (h.child hp hparent).rank hrank
      rw [hd] at hle
      omega
    | child h' hq hparent' =>
      obtain rfl := hf.eq_of_id hp hq hd
      obtain rfl := Option.some.inj (hparent.symm.trans hparent')
      rw [ih h']

theorem Forest.self_iff (hf : Forest ps) (h : Descends ps a k d) : a = d ↔ k = 0 := by
  constructor
  · rintro rfl
    obtain ⟨p, hp, rfl⟩ := h.mem
    exact hf.depth_eq h (.self hp)
  · rintro rfl
    cases h
    rfl

end

/-! ## The recursion -/

theorem joinChildren_nil (ps : List PositionRow) : joinChildren ps [] = [] := rfl

section
variable {t : Uuid} {ps : List PositionRow} {k : ℕ}

/-- The rows of round `k`. -/
def roundOf (t : Uuid) (ps : List PositionRow) (k : ℕ) : List ClosureRow :=
  (joinChildren ps)^[k] (ps.map fun p => ⟨t, p.id, p.id, 0⟩)

theorem roundOf_succ : roundOf t ps (k + 1) = joinChildren ps (roundOf t ps k) :=
  Function.iterate_succ_apply' _ _ _

theorem mem_roundOf {r : ClosureRow} :
    r ∈ roundOf t ps k ↔ r.tenantId = t ∧ r.depth = k ∧
      Descends ps r.ancestorId k r.descendantId := by
  induction k generalizing r with
  | zero =>
    simp only [roundOf, Function.iterate_zero, id, List.mem_map]
    constructor
    · rintro ⟨p, hp, rfl⟩
      exact ⟨rfl, rfl, .self hp⟩
    · obtain ⟨u, a, d, n⟩ := r
      rintro ⟨rfl, rfl, h⟩
      cases h with
      | self hp => exact ⟨_, hp, rfl⟩
  | succ k ih =>
    simp only [roundOf_succ, joinChildren, List.mem_flatMap, List.mem_map, List.mem_filter,
      decide_eq_true_eq, ih]
    constructor
    · rintro ⟨q, ⟨rfl, rfl, hq⟩, p, ⟨hp, hparent⟩, rfl⟩
      exact ⟨rfl, rfl, hq.child hp hparent⟩
    · obtain ⟨u, a, d, n⟩ := r
      rintro ⟨rfl, rfl, h⟩
      cases h with
      | child h hp hparent => exact ⟨⟨u, a, _, k⟩, ⟨rfl, rfl, h⟩, _, ⟨hp, hparent⟩, rfl⟩

theorem Forest.roundOf_nil (hf : Forest ps) (hk : ps.length ≤ k) : roundOf t ps k = [] := by
  rw [List.eq_nil_iff_forall_not_mem]
  intro r hr
  have hlt := hf.depth_lt (mem_roundOf.1 hr).2.2
  omega

/-- A child has one parent, so that a pair is joined in one way. -/
theorem Forest.nodup_roundOf (hf : Forest ps) (k : ℕ) :
    ((roundOf t ps k).map ClosureRow.key).Nodup := by
  induction k with
  | zero =>
    have hself : (roundOf t ps 0).map ClosureRow.key =
        (ps.map PositionRow.id).map fun id => (id, id) := by
      simp [roundOf, ClosureRow.key]
    rw [hself]
    exact hf.ids.map fun _ _ h => (Prod.mk.inj h).1
  | succ k ih =>
    rw [roundOf_succ, joinChildren, List.map_flatMap, List.nodup_flatMap]
    constructor
    · intro r _
      rw [List.map_map]
      refine List.Nodup.map_on (fun p hp q hq h => ?_) (hf.ids.of_map.filter _)
      exact hf.eq_of_id (List.mem_filter.1 hp).1 (List.mem_filter.1 hq).1 (Prod.mk.inj h).2
    · rw [List.Nodup, List.pairwise_map] at ih
      refine ih.imp fun {r r'} hkey => ?_
      intro x hx hx'
      simp only [List.mem_map, List.mem_filter, decide_eq_true_eq] at hx hx'
      obtain ⟨_, ⟨p, ⟨hp, hparent⟩, rfl⟩, rfl⟩ := hx
      obtain ⟨_, ⟨q, ⟨hq, hparent'⟩, rfl⟩, h⟩ := hx'
      obtain ⟨ha, hid⟩ := Prod.mk.inj h
      obtain rfl := hf.eq_of_id hq hp hid
      have hd := Option.some.inj (hparent.symm.trans hparent')
      exact hkey (Prod.ext ha.symm hd)

theorem Forest.rounds (hf : Forest ps) : ∃ rows,
    Rounds.rounds (joinChildren ps) (ps.length + 1) (ps.map fun p => ⟨t, p.id, p.id, 0⟩) =
      some rows ∧ ClosureOf t ps rows ∧ (rows.map ClosureRow.key).Nodup := by
  have hend : roundOf t ps (ps.length + 1) = [] := hf.roundOf_nil (by omega)
  obtain ⟨rows, hrows⟩ := Rounds.rounds_some hend
  refine ⟨rows, hrows, fun r => ?_, ?_⟩
  · rw [Rounds.mem_rounds (joinChildren_nil ps) hrows]
    constructor
    · rintro ⟨k, hk⟩
      obtain ⟨ht, rfl, h⟩ := mem_roundOf.1 hk
      exact ⟨ht, h⟩
    · exact fun ⟨ht, h⟩ => ⟨r.depth, mem_roundOf.2 ⟨ht, rfl, h⟩⟩
  · refine Rounds.nodup_rounds (joinChildren_nil ps) hrows hf.nodup_roundOf ?_
    intro i j hij r hr r' hr' hkey
    obtain ⟨ha, hd⟩ := Prod.mk.inj hkey
    have hi := (mem_roundOf.1 hr).2.2
    have hj := (mem_roundOf.1 hr').2.2
    rw [ha, hd] at hi
    have heq := hf.depth_eq hi hj
    omega

/-- What the trigger leaves of a forest. -/
theorem rebuildClosure_forest {s : Store} (hf : Forest (s.positionsOf t)) :
    ∃ rows, ClosureOf t (s.positionsOf t) rows ∧ rebuildClosure t s =
      .ok { s with closure := s.closure.filter (fun r => r.tenantId ≠ t) ++ rows } := by
  obtain ⟨rows, hrows, hclosure, hkeys⟩ := hf.rounds (t := t)
  refine ⟨rows, hclosure, ?_⟩
  have hdepth : ∀ r ∈ rows, r.ancestorId = r.descendantId ↔ r.depth = 0 :=
    fun r hr => hf.self_iff ((hclosure r).1 hr).2
  simp only [rebuildClosure, hrows, demand_some, ok_bind, require_true hkeys, require_true hdepth]
  rfl

end

end RagPipeline.Org

/-! # Topologies that are accepted

`ordered_topology`: a proposed hierarchy is one tree, its positions are returned
parents before children, and each member has a position and an identity of its
own. -/

namespace RagPipeline.Org
open Guard

structure TopologyRefused where
  message : String
deriving DecidableEq, Repr

/-- What a position below the root is checked for. -/
def checkBelow (positions : List PositionRequest) (row : PositionRequest) :
    Except TopologyRefused Unit :=
  match row.parentId with
  | none => .ok ()
  | some parent => do
    require (row.kind ≠ .root ∧ ∃ p ∈ positions, p.id = parent)
      ⟨"pozisyon parent baglantisi gecersiz"⟩
    require (¬ (row.kind = .member ∧ row.canMonitorDescendants = true))
      ⟨"alt seviye uye monitor yetkisi alamaz"⟩

def children (positions : List PositionRequest) (id : Uuid) : List PositionRequest :=
  positions.filter fun row => row.parentId = some id

/-- The loop over the queue. Ids being unique, the queue has the rows where the
source has their ids. -/
def walk (positions : List PositionRequest) :
    ℕ → List PositionRequest → List PositionRequest → Except TopologyRefused (List PositionRequest)
  | _, ordered, [] => .ok ordered
  | 0, _, _ :: _ => .error ⟨"walk without end"⟩
  | n + 1, ordered, row :: queue =>
    if row.id ∈ ordered.map PositionRequest.id then .error ⟨"organizasyon dongu iceremez"⟩
    else walk positions n (ordered ++ [row]) (queue ++ children positions row.id)

def checkMembers (positions : List PositionRequest) :
    List Uuid → List (String × String) → List MemberRequest → Except TopologyRefused Unit
  | _, _, [] => .ok ()
  | occupied, subjects, m :: members => do
    require (∃ p ∈ positions, p.id = m.positionId) ⟨"uye pozisyonu organizasyonda yok"⟩
    require (m.positionId ∉ occupied) ⟨"aktif pozisyonda yalniz bir uye olabilir"⟩
    require ((m.issuer, m.subject) ∉ subjects) ⟨"kimlik organizasyonda bir kez yer alabilir"⟩
    checkMembers positions (m.positionId :: occupied) ((m.issuer, m.subject) :: subjects) members

def orderedTopology (positions : List PositionRequest) (members : List MemberRequest) :
    Except TopologyRefused (List PositionRequest × List MemberRequest) := do
  require (positions.map PositionRequest.id).Nodup ⟨"pozisyon kimlikleri benzersiz olmali"⟩
  match positions.filter fun row => row.parentId = none with
  | [root] =>
    require (root.kind = .root) ⟨"organizasyonun tam bir root'u olmali"⟩
    require (root.canMonitorDescendants = true ∧ root.protectedFromMonitoring = true)
      ⟨"root tum alt agaci gorebilmeli ve goruntulenmemeli"⟩
    forM positions (checkBelow positions)
    let ordered ← walk positions (positions.length + 1) [] [root]
    require (∀ p ∈ positions, p.id ∈ ordered.map PositionRequest.id)
      ⟨"organizasyon kopuk veya dongulu"⟩
    checkMembers positions [] [] members
    return (ordered, members)
  | _ => .error ⟨"organizasyonun tam bir root'u olmali"⟩

/-! ## What is accepted -/

/-- The parent of each is among those above or before it. -/
def ParentsFirst : List Uuid → List PositionRequest → Prop
  | _, [] => True
  | above, p :: ps => (∀ a, p.parentId = some a → a ∈ above) ∧ ParentsFirst (above ++ [p.id]) ps

/-- A row as a position of its kind has to be. -/
structure PositionRequest.Sound (p : PositionRequest) : Prop where
  root_iff : p.parentId = none ↔ p.kind = .root
  root : p.kind = .root → p.canMonitorDescendants = true ∧ p.protectedFromMonitoring = true
  member : p.kind = .member → p.canMonitorDescendants = false

structure Tree (ps : List PositionRequest) : Prop where
  ids : (ps.map PositionRequest.id).Nodup
  parents : ParentsFirst [] ps
  sound : ∀ p ∈ ps, p.Sound
  one_root : ∀ p ∈ ps, ∀ q ∈ ps, p.parentId = none → q.parentId = none → p = q

structure Seated (ps : List PositionRequest) (ms : List MemberRequest) : Prop where
  position : ∀ m ∈ ms, ∃ p ∈ ps, p.id = m.positionId
  positions : (ms.map MemberRequest.positionId).Nodup
  subjects : (ms.map fun m => (m.issuer, m.subject)).Nodup

section
variable {positions ordered out queue : List PositionRequest} {members ms : List MemberRequest}
  {n : ℕ}

theorem walk_ok (h : walk positions n ordered queue = .ok out)
    (hids : (ordered.map PositionRequest.id).Nodup)
    (hqueue : ∀ p ∈ queue, p ∈ positions ∧
      ∀ a, p.parentId = some a → a ∈ ordered.map PositionRequest.id) :
    ∃ rest, out = ordered ++ rest ∧ (∀ p ∈ rest, p ∈ positions) ∧
      (out.map PositionRequest.id).Nodup ∧
      ParentsFirst (ordered.map PositionRequest.id) rest := by
  induction n generalizing ordered queue with
  | zero =>
    cases queue with
    | nil =>
      obtain rfl := Except.ok.inj h
      exact ⟨[], (List.append_nil _).symm, by simp, hids, trivial⟩
    | cons row queue => cases h
  | succ n ih =>
    cases queue with
    | nil =>
      obtain rfl := Except.ok.inj h
      exact ⟨[], (List.append_nil _).symm, by simp, hids, trivial⟩
    | cons row queue =>
      rw [walk] at h
      split at h
      case isTrue => cases h
      case isFalse hnew =>
        obtain ⟨hrow, hparent⟩ := hqueue row List.mem_cons_self
        have hids' : ((ordered ++ [row]).map PositionRequest.id).Nodup := by
          rw [List.map_append, List.map_singleton, List.nodup_append_comm]
          exact List.nodup_cons.2 ⟨hnew, hids⟩
        have hqueue' : ∀ p ∈ queue ++ children positions row.id, p ∈ positions ∧
            ∀ a, p.parentId = some a → a ∈ (ordered ++ [row]).map PositionRequest.id := by
          intro p hp
          rw [List.map_append, List.map_singleton]
          rcases List.mem_append.1 hp with hp | hp
          · obtain ⟨hmem, ha⟩ := hqueue p (List.mem_cons_of_mem _ hp)
            exact ⟨hmem, fun a h => List.mem_append_left _ (ha a h)⟩
          · obtain ⟨hmem, hchild⟩ := List.mem_filter.1 hp
            refine ⟨hmem, fun a h => List.mem_append_right _ ?_⟩
            rw [of_decide_eq_true hchild] at h
            rw [Option.some.inj h]
            exact List.mem_singleton_self _
        obtain ⟨rest, rfl, hrest, hnodup, hfirst⟩ := ih h hids' hqueue'
        refine ⟨row :: rest, by simp, ?_, hnodup, hparent, ?_⟩
        · intro p hp
          rcases List.mem_cons.1 hp with rfl | hp
          · exact hrow
          · exact hrest p hp
        · rwa [List.map_append, List.map_singleton] at hfirst

theorem checkMembers_ok {occupied : List Uuid} {subjects : List (String × String)}
    (h : checkMembers positions occupied subjects ms = .ok ()) :
    Seated positions ms ∧ (∀ m ∈ ms, m.positionId ∉ occupied) ∧
      ∀ m ∈ ms, (m.issuer, m.subject) ∉ subjects := by
  induction ms generalizing occupied subjects with
  | nil => exact ⟨⟨by simp, List.nodup_nil, List.nodup_nil⟩, by simp, by simp⟩
  | cons m ms ih =>
    simp only [checkMembers, bind_ok, require_ok, exists_unit] at h
    obtain ⟨hposition, hfree, hsubject, hrest⟩ := h
    obtain ⟨hseated, hoccupied, hsubjects⟩ := ih hrest
    simp only [List.mem_cons, not_or] at hoccupied hsubjects
    refine ⟨⟨?_, ?_, ?_⟩, ?_, ?_⟩
    · exact List.forall_mem_cons.2 ⟨hposition, hseated.position⟩
    · refine List.nodup_cons.2 ⟨fun hm => ?_, hseated.positions⟩
      obtain ⟨m', hm', heq⟩ := List.mem_map.1 hm
      exact (hoccupied m' hm').1 heq
    · refine List.nodup_cons.2 ⟨fun hm => ?_, hseated.subjects⟩
      obtain ⟨m', hm', heq⟩ := List.mem_map.1 hm
      exact (hsubjects m' hm').1 heq
    · exact List.forall_mem_cons.2 ⟨hfree, fun m' hm' => (hoccupied m' hm').2⟩
    · exact List.forall_mem_cons.2 ⟨hsubject, fun m' hm' => (hsubjects m' hm').2⟩

/-- The checks on each row and the one on the root make every row sound. -/
theorem sound_of_checks {root p : PositionRequest}
    (hroot : positions.filter (fun row => row.parentId = none) = [root])
    (hkind : root.kind = .root)
    (hflags : root.canMonitorDescendants = true ∧ root.protectedFromMonitoring = true)
    (hp : p ∈ positions) (hcheck : checkBelow positions p = .ok ()) : p.Sound := by
  cases hparent : p.parentId with
  | none =>
    have hmem : p ∈ positions.filter (fun row => row.parentId = none) :=
      List.mem_filter.2 ⟨hp, decide_eq_true hparent⟩
    rw [hroot] at hmem
    obtain rfl := List.mem_singleton.1 hmem
    exact ⟨by simp [hparent, hkind], fun _ => hflags, by simp [hkind]⟩
  | some parent =>
    simp only [checkBelow, hparent, bind_ok, require_ok, exists_unit] at hcheck
    obtain ⟨⟨hnot, -⟩, hmember⟩ := hcheck
    refine ⟨by simp [hparent, hnot], fun h => absurd h hnot, fun h => ?_⟩
    simpa using fun hcan => hmember ⟨h, hcan⟩

theorem orderedTopology_ok (h : orderedTopology positions members = .ok (ordered, ms)) :
    Tree ordered ∧ Seated ordered ms ∧ ms = members ∧ ∀ p, p ∈ ordered ↔ p ∈ positions := by
  simp only [orderedTopology, bind_ok, require_ok, exists_unit] at h
  obtain ⟨hids, h⟩ := h
  split at h
  case h_2 => cases h
  case h_1 root hroot =>
    simp only [bind_ok, require_ok, exists_unit, pure_ok, Prod.mk.injEq] at h
    obtain ⟨hkind, hflags, hbelow, out, hwalk, hall, hmembers, rfl, rfl⟩ := h
    have hmem : root ∈ positions ∧ root.parentId = none := by
      have hin : root ∈ positions.filter (fun row => row.parentId = none) := by
        rw [hroot]
        exact List.mem_singleton_self _
      simpa using hin
    obtain ⟨rest, hout, hrest, hnodup, hfirst⟩ := walk_ok hwalk List.nodup_nil (by simp [hmem])
    rw [List.nil_append] at hout
    subst hout
    have hperm : ∀ p, p ∈ out ↔ p ∈ positions := by
      refine fun p => ⟨hrest p, fun hp => ?_⟩
      obtain ⟨q, hq, heq⟩ := List.mem_map.1 (hall p hp)
      rwa [← List.inj_on_of_nodup_map hids (hrest q hq) hp heq]
    obtain ⟨hseated, -, -⟩ := checkMembers_ok hmembers
    refine ⟨⟨hnodup, hfirst, fun p hp => ?_, fun p hp q hq hpn hqn => ?_⟩, ?_, rfl, hperm⟩
    · exact sound_of_checks hroot hkind hflags (hrest p hp) (forM_ok.1 hbelow p (hrest p hp))
    · have hone : ∀ p ∈ out, p.parentId = none → p = root := by
        intro p hp hnone
        have hin : p ∈ positions.filter (fun row => row.parentId = none) :=
          List.mem_filter.2 ⟨hrest p hp, decide_eq_true hnone⟩
        rw [hroot] at hin
        exact List.mem_singleton.1 hin
      rw [hone p hp hpn, hone q hq hqn]
    · refine ⟨fun m hm => ?_, hseated.positions, hseated.subjects⟩
      obtain ⟨p, hp, heq⟩ := hseated.position m hm
      exact ⟨p, (hperm p).2 hp, heq⟩

end

end RagPipeline.Org
