import RagPipeline.Lib.Deferred
import RagPipeline.Lib.Transition
import Mathlib.Data.Int.Notation
import Mathlib.Data.List.Nodup
import RagPipeline.Lib.Table

/-! # The key-rotation ledger

The tables of assertion keys and of rotations, what their constraints and triggers
say of one row change, and transactions of such changes. -/

set_option autoImplicit false

namespace RagPipeline.KeyLedger
open Deferred Transition

abbrev Bytes := List UInt8

/-! ## Rows -/

inductive KeyState where
  | staged
  | active
  | verifyOnly
  | retired
deriving DecidableEq

inductive Phase where
  | staged
  | admitted
  | activated
  | completed
  | aborted
  | retired
deriving DecidableEq

/-- Identifiers are of any type; times are microseconds. -/
structure KeyRow (U : Type) where
  keyVersion : ℤ
  secret : Bytes
  state : KeyState
  notBefore : ℤ
  verifyStartedAt : Option ℤ
  verifyUntil : Option ℤ
  rotationId : Option U
  createdAt : ℤ
deriving DecidableEq

structure RotationRow (U : Type) where
  rotationId : U
  previousKeyVersion : ℤ
  targetKeyVersion : ℤ
  targetKeyFingerprint : Bytes
  verifyStartedAt : ℤ
  verifyUntil : ℤ
  phase : Phase
  createdAt : ℤ
  completedAt : Option ℤ
  retiredAt : Option ℤ
deriving DecidableEq

variable {U : Type} [DecidableEq U]

structure Tables (U : Type) where
  keys : List (KeyRow U)
  rotations : List (RotationRow U)

/-- Three hundred seconds. -/
def interval : ℤ := 300000000

/-- The range of an integer column that has to be positive. -/
def Version (n : ℤ) : Prop := 0 < n ∧ n ≤ 2147483647

instance (n : ℤ) : Decidable (Version n) := instDecidableAnd

/-- The check constraints of a key, where a comparison with nothing does not fail. -/
structure KeyRow.Checked (k : KeyRow U) : Prop where
  version : Version k.keyVersion
  secret : k.secret.length = 32
  after : ∀ u ∈ k.verifyUntil, k.notBefore < u
  verifyOnly : k.state = .verifyOnly ↔ k.verifyUntil.isSome = true
  /-- `control_assertion_key_state_shape`. -/
  shape : (k.state = .verifyOnly ∧ k.verifyStartedAt.isSome = true ∧ k.verifyUntil.isSome = true ∧
      k.rotationId.isSome = true) ∨
    (k.state ≠ .verifyOnly ∧ k.verifyStartedAt = none ∧ k.verifyUntil = none ∧
      (k.state = .staged → k.rotationId.isSome = true))
  /-- `control_assertion_key_overlap_bounded`. -/
  overlap : ∀ u ∈ k.verifyUntil, ∀ s ∈ k.verifyStartedAt, s < u ∧ u ≤ s + interval

instance (k : KeyRow U) : Decidable k.Checked :=
  decidable_of_iff (Version k.keyVersion ∧ k.secret.length = 32 ∧ (∀ u ∈ k.verifyUntil, k.notBefore < u) ∧
      (k.state = .verifyOnly ↔ k.verifyUntil.isSome = true) ∧
      ((k.state = .verifyOnly ∧ k.verifyStartedAt.isSome = true ∧ k.verifyUntil.isSome = true ∧
          k.rotationId.isSome = true) ∨
        (k.state ≠ .verifyOnly ∧ k.verifyStartedAt = none ∧ k.verifyUntil = none ∧
          (k.state = .staged → k.rotationId.isSome = true))) ∧
      ∀ u ∈ k.verifyUntil, ∀ s ∈ k.verifyStartedAt, s < u ∧ u ≤ s + interval)
    ⟨fun ⟨a, b, c, d, e, f⟩ => ⟨a, b, c, d, e, f⟩, fun ⟨a, b, c, d, e, f⟩ => ⟨a, b, c, d, e, f⟩⟩

/-- The check constraints of a rotation. -/
structure RotationRow.Checked (r : RotationRow U) : Prop where
  previous : Version r.previousKeyVersion
  target : Version r.targetKeyVersion
  fingerprint : r.targetKeyFingerprint.length = 32
  differ : r.previousKeyVersion ≠ r.targetKeyVersion
  window : r.verifyStartedAt < r.verifyUntil ∧ r.verifyUntil ≤ r.verifyStartedAt + interval
  completed : (r.phase = .completed ∨ r.phase = .retired) ↔ r.completedAt.isSome = true
  retired : r.phase = .retired ↔ r.retiredAt.isSome = true

instance (r : RotationRow U) : Decidable r.Checked :=
  decidable_of_iff (Version r.previousKeyVersion ∧ Version r.targetKeyVersion ∧
      r.targetKeyFingerprint.length = 32 ∧ r.previousKeyVersion ≠ r.targetKeyVersion ∧
      (r.verifyStartedAt < r.verifyUntil ∧ r.verifyUntil ≤ r.verifyStartedAt + interval) ∧
      ((r.phase = .completed ∨ r.phase = .retired) ↔ r.completedAt.isSome = true) ∧
      (r.phase = .retired ↔ r.retiredAt.isSome = true))
    ⟨fun ⟨a, b, c, d, e, f, g⟩ => ⟨a, b, c, d, e, f, g⟩, fun ⟨a, b, c, d, e, f, g⟩ => ⟨a, b, c, d, e, f, g⟩⟩

/-! ## Unique indexes -/

/-- At most one key is in the state. -/
def AtMostOne (state : KeyState) (keys : List (KeyRow U)) : Prop :=
  keys.countP (fun k => k.state = state) ≤ 1

structure KeysUnique (keys : List (KeyRow U)) : Prop where
  version : (keys.map KeyRow.keyVersion).Nodup
  active : AtMostOne .active keys
  staged : AtMostOne .staged keys
  verifyOnly : AtMostOne .verifyOnly keys

instance (keys : List (KeyRow U)) : Decidable (KeysUnique keys) :=
  decidable_of_iff ((keys.map KeyRow.keyVersion).Nodup ∧ keys.countP (fun k => k.state = .active) ≤ 1 ∧
      keys.countP (fun k => k.state = .staged) ≤ 1 ∧ keys.countP (fun k => k.state = .verifyOnly) ≤ 1)
    ⟨fun ⟨a, b, c, d⟩ => ⟨a, b, c, d⟩, fun ⟨a, b, c, d⟩ => ⟨a, b, c, d⟩⟩

def Phase.live : Phase → Bool
  | .staged => true
  | .admitted => true
  | .activated => true
  | _ => false

structure RotationsUnique (rotations : List (RotationRow U)) : Prop where
  id : (rotations.map RotationRow.rotationId).Nodup
  target : (rotations.map RotationRow.targetKeyVersion).Nodup
  /-- `control_one_live_assertion_rotation`. -/
  live : rotations.countP (fun r => r.phase.live) ≤ 1

instance (rotations : List (RotationRow U)) : Decidable (RotationsUnique rotations) :=
  decidable_of_iff ((rotations.map RotationRow.rotationId).Nodup ∧
      (rotations.map RotationRow.targetKeyVersion).Nodup ∧ rotations.countP (fun r => r.phase.live) ≤ 1)
    ⟨fun ⟨a, b, c⟩ => ⟨a, b, c⟩, fun ⟨a, b, c⟩ => ⟨a, b, c⟩⟩

/-! ## Triggers -/

def transitions : List (Phase × Phase) :=
  [(.staged, .admitted), (.staged, .activated), (.staged, .aborted), (.admitted, .completed),
    (.admitted, .aborted), (.activated, .completed), (.completed, .retired)]

/-- `control_assertion_rotation_lifecycle_guard`, where it lets an update pass; it lets no
deletion pass. -/
structure Guarded (old new : RotationRow U) : Prop where
  id : new.rotationId = old.rotationId
  previous : new.previousKeyVersion = old.previousKeyVersion
  target : new.targetKeyVersion = old.targetKeyVersion
  fingerprint : new.targetKeyFingerprint = old.targetKeyFingerprint
  started : new.verifyStartedAt = old.verifyStartedAt
  ended : new.verifyUntil = old.verifyUntil
  created : new.createdAt = old.createdAt
  phase : (old.phase, new.phase) ∈ transitions
  completed : old.phase = .completed → new.completedAt = old.completedAt

instance (old new : RotationRow U) : Decidable (Guarded old new) :=
  decidable_of_iff (new.rotationId = old.rotationId ∧ new.previousKeyVersion = old.previousKeyVersion ∧
      new.targetKeyVersion = old.targetKeyVersion ∧ new.targetKeyFingerprint = old.targetKeyFingerprint ∧
      new.verifyStartedAt = old.verifyStartedAt ∧ new.verifyUntil = old.verifyUntil ∧
      new.createdAt = old.createdAt ∧ (old.phase, new.phase) ∈ transitions ∧
      (old.phase = .completed → new.completedAt = old.completedAt))
    ⟨fun ⟨a, b, c, d, e, f, g, h, i⟩ => ⟨a, b, c, d, e, f, g, h, i⟩,
      fun ⟨a, b, c, d, e, f, g, h, i⟩ => ⟨a, b, c, d, e, f, g, h, i⟩⟩

/-- `bool_or` and `bool_and`, which are nothing over no rows. -/
def boolOr (l : List Bool) : Option Bool := if l.isEmpty then none else some (l.any id)

def boolAnd (l : List Bool) : Option Bool := if l.isEmpty then none else some (l.all id)

def Phase.closed : Phase → Bool
  | .aborted => true
  | .retired => true
  | _ => false

/-- The condition both triggers share, given the keys that are bound to the rotation. The target
being bound is read as well and not asked for. -/
def wellBound (phase : Phase) (previous target : ℤ) (bound : List (KeyRow U)) : Bool :=
  let previousBound := boolOr (bound.map fun k => k.keyVersion == previous)
  let membersAllowed := boolAnd (bound.map fun k => k.keyVersion == previous || k.keyVersion == target)
  !(decide (0 < bound.length) && membersAllowed != some true || decide (2 < bound.length) ||
    !phase.closed && (previousBound != some true || bound.length != 2))

def Tables.bound (t : Tables U) (id : U) : List (KeyRow U) := t.keys.filter fun k => k.rotationId = some id

/-- A row that a deferred trigger was fired for: the rotation as it then was, or the rotations
a key was bound to before and after. -/
inductive Event (U : Type) where
  | rotation (new : RotationRow U)
  | key (bound : List (Option U))

/-- Whether the trigger of an event lets the transaction go on. -/
def passes (e : Event U) (t : Tables U) : Bool :=
  match e with
  | .rotation new =>
    wellBound new.phase new.previousKeyVersion new.targetKeyVersion (t.bound new.rotationId)
  | .key bound => bound.all fun
    | none => true
    | some id =>
      match t.rotations.find? fun r => r.rotationId = id with
      | none => false
      | some r => wellBound r.phase r.previousKeyVersion r.targetKeyVersion (t.bound id)

/-! ## Changes -/

inductive RowChange (U : Type) where
  | insertKey (new : KeyRow U)
  | updateKey (old new : KeyRow U)
  | deleteKey (old : KeyRow U)
  | insertRotation (new : RotationRow U)
  | updateRotation (old new : RotationRow U)
  | deleteRotation (old : RotationRow U)

def replace {α : Type} [DecidableEq α] (old new : α) (l : List α) : List α :=
  l.map fun a => if a = old then new else a

/-- One row change, with the constraints that are checked for each row, and the event it leaves
for the deferred trigger of its table. -/
def apply : RowChange U → Tables U → Option (Tables U × Event U)
  | .insertKey new, t =>
    if new.Checked ∧ KeysUnique (new :: t.keys) then
      some (⟨new :: t.keys, t.rotations⟩, .key [new.rotationId])
    else none
  | .updateKey old new, t =>
    if old ∈ t.keys ∧ new.Checked ∧ KeysUnique (replace old new t.keys) then
      some (⟨replace old new t.keys, t.rotations⟩, .key [old.rotationId, new.rotationId])
    else none
  | .deleteKey old, t =>
    if old ∈ t.keys then
      some (⟨t.keys.filter fun k => k ≠ old, t.rotations⟩, .key [old.rotationId])
    else none
  | .insertRotation new, t =>
    if new.Checked ∧ RotationsUnique (new :: t.rotations) then
      some (⟨t.keys, new :: t.rotations⟩, .rotation new)
    else none
  | .updateRotation old new, t =>
    if old ∈ t.rotations ∧ Guarded old new ∧ new.Checked ∧ RotationsUnique (replace old new t.rotations) then
      some (⟨t.keys, replace old new t.rotations⟩, .rotation new)
    else none
  | .deleteRotation _, _ => none

/-- The foreign key, which is checked when a statement ends. -/
def References (t : Tables U) : Prop :=
  ∀ k ∈ t.keys, ∀ id ∈ k.rotationId, ∃ r ∈ t.rotations, r.rotationId = id

instance (t : Tables U) : Decidable (References t) := List.decidableBAll _ _

def applyAll : List (RowChange U) → Tables U → Option (Tables U × List (Event U))
  | [], t => some (t, [])
  | c :: rest, t => (apply c t).bind fun (t₁, e) => (applyAll rest t₁).map fun (t₂, es) => (t₂, e :: es)

/-- A statement, which changes any rows. -/
def statement (changes : List (RowChange U)) (t : Tables U) : Option (Tables U × List (Event U)) :=
  (applyAll changes t).bind fun r => if References r.1 then some r else none

abbrev Transaction (U : Type) := List (Action (List (RowChange U)) (Event U))

def commit (actions : Transaction U) (t : Tables U) : Option (Tables U) :=
  transact statement passes actions t

/-- The states that are committed; what does not commit changes nothing. -/
def ledger : System (Tables U) (Transaction U) where
  initial t := t = ⟨[], []⟩
  step t actions t' := commit actions t = some t'

end RagPipeline.KeyLedger

/-! # What every committed ledger keeps

Each row change leaves an event for every rotation whose bindings it may have
spoilt, so that the two triggers find it before the transaction commits; and what a
rotation was inserted with stays. -/

set_option autoImplicit false

namespace RagPipeline.KeyLedger
open Deferred Table Transition

variable {U : Type} [DecidableEq U] {t t' : Tables U} {k : KeyRow U} {r r' : RotationRow U}

/-! ## The condition of the triggers -/

theorem boolAnd_true {l : List Bool} : boolAnd l = some true ↔ l ≠ [] ∧ l.all id = true := by
  rw [boolAnd]
  cases l with
  | nil => simp
  | cons b rest => simp

theorem boolOr_true {l : List Bool} : boolOr l = some true ↔ l.any id = true := by
  rw [boolOr]
  cases l with
  | nil => simp
  | cons b rest => simp

omit [DecidableEq U] in
/-- Only members are bound; and unless the rotation is closed, the previous key is and one more. -/
theorem wellBound_iff {phase : Phase} {previous target : ℤ} {bound : List (KeyRow U)} :
    wellBound phase previous target bound = true ↔
      (∀ k ∈ bound, k.keyVersion = previous ∨ k.keyVersion = target) ∧ bound.length ≤ 2 ∧
        (phase.closed = false → (∃ k ∈ bound, k.keyVersion = previous) ∧ bound.length = 2) := by
  have hor : boolOr (bound.map fun k => k.keyVersion == previous) = some true ↔
      ∃ k ∈ bound, k.keyVersion = previous := by
    rw [boolOr_true]
    simp
  have hand : boolAnd (bound.map fun k => k.keyVersion == previous || k.keyVersion == target) = some true ↔
      bound ≠ [] ∧ ∀ k ∈ bound, k.keyVersion = previous ∨ k.keyVersion = target := by
    rw [boolAnd_true]
    simp
  rw [wellBound]
  simp only [Bool.not_eq_true', Bool.or_eq_false_iff, Bool.and_eq_false_iff, decide_eq_false_iff_not,
    bne_eq_false_iff_eq, hor, hand, Bool.not_eq_false']
  constructor
  · rintro ⟨⟨hmembers, hcount⟩, hopen⟩
    refine ⟨?_, by omega, ?_⟩
    · intro k hk
      cases hmembers with
      | inl hnone =>
        have hpos := List.length_pos_of_mem hk
        omega
      | inr hall => exact hall.2 k hk
    · intro hphase
      cases hopen with
      | inl hclosed =>
        rw [hphase] at hclosed
        cases hclosed
      | inr hboth => exact hboth
  · rintro ⟨hmembers, hcount, hopen⟩
    refine ⟨⟨?_, by omega⟩, ?_⟩
    · by_cases hnil : bound = []
      · left
        rw [hnil]
        exact Nat.lt_irrefl 0
      · exact Or.inr ⟨hnil, hmembers⟩
    · cases hphase : phase.closed with
      | true => exact Or.inl rfl
      | false => exact Or.inr (hopen hphase)

omit [DecidableEq U] in
/-- A closed rotation asks for less. -/
theorem wellBound_closed {phase phase' : Phase} {previous target : ℤ} {bound : List (KeyRow U)}
    (h : wellBound phase previous target bound = true) (hphase : phase'.closed = false → phase.closed = false) :
    wellBound phase' previous target bound = true := by
  rw [wellBound_iff] at h ⊢
  exact ⟨h.1, h.2.1, fun hopen => h.2.2 (hphase hopen)⟩

/-! ## Invariants of the rows -/

structure Sound (t : Tables U) : Prop where
  keys : ∀ k ∈ t.keys, k.Checked
  rotations : ∀ r ∈ t.rotations, r.Checked
  keysUnique : KeysUnique t.keys
  rotationsUnique : RotationsUnique t.rotations

theorem mem_replace {α : Type} [DecidableEq α] {old new a : α} {l : List α} (h : a ∈ replace old new l) :
    a = new ∨ a ∈ l := by
  obtain ⟨b, hb, rfl⟩ := List.mem_map.1 h
  split_ifs
  · exact Or.inl rfl
  · exact Or.inr hb

omit [DecidableEq U] in
theorem KeysUnique.sublist {keys keys' : List (KeyRow U)} (h : KeysUnique keys) (hsub : keys'.Sublist keys) :
    KeysUnique keys' :=
  ⟨h.version.sublist (hsub.map _), Nat.le_trans hsub.countP_le h.active,
    Nat.le_trans hsub.countP_le h.staged, Nat.le_trans hsub.countP_le h.verifyOnly⟩

theorem apply_sound {c : RowChange U} {e : Event U} (hs : Sound t) (h : apply c t = some (t', e)) : Sound t' := by
  cases c with
  | insertKey new =>
    rw [apply] at h
    split_ifs at h with hok
    obtain ⟨rfl, -⟩ := Prod.mk.inj (Option.some.inj h)
    refine ⟨?_, hs.rotations, hok.2, hs.rotationsUnique⟩
    intro k hk
    cases List.mem_cons.1 hk with
    | inl heq => exact heq ▸ hok.1
    | inr hmem => exact hs.keys k hmem
  | updateKey old new =>
    rw [apply] at h
    split_ifs at h with hok
    obtain ⟨rfl, -⟩ := Prod.mk.inj (Option.some.inj h)
    refine ⟨?_, hs.rotations, hok.2.2, hs.rotationsUnique⟩
    intro k hk
    cases mem_replace hk with
    | inl heq => exact heq ▸ hok.2.1
    | inr hmem => exact hs.keys k hmem
  | deleteKey old =>
    rw [apply] at h
    split_ifs at h with hok
    obtain ⟨rfl, -⟩ := Prod.mk.inj (Option.some.inj h)
    exact ⟨fun k hk => hs.keys k (List.mem_filter.1 hk).1, hs.rotations,
      hs.keysUnique.sublist List.filter_sublist, hs.rotationsUnique⟩
  | insertRotation new =>
    rw [apply] at h
    split_ifs at h with hok
    obtain ⟨rfl, -⟩ := Prod.mk.inj (Option.some.inj h)
    refine ⟨hs.keys, ?_, hs.keysUnique, hok.2⟩
    intro r hr
    cases List.mem_cons.1 hr with
    | inl heq => exact heq ▸ hok.1
    | inr hmem => exact hs.rotations r hmem
  | updateRotation old new =>
    rw [apply] at h
    split_ifs at h with hok
    obtain ⟨rfl, -⟩ := Prod.mk.inj (Option.some.inj h)
    refine ⟨hs.keys, ?_, hs.keysUnique, hok.2.2.2⟩
    intro r hr
    cases mem_replace hr with
    | inl heq => exact heq ▸ hok.2.2.1
    | inr hmem => exact hs.rotations r hmem
  | deleteRotation old => cases h

/-! ## Bindings -/

/-- The triggers' condition, of the row as it is. -/
def Bound (r : RotationRow U) (t : Tables U) : Prop :=
  r ∈ t.rotations →
    wellBound r.phase r.previousKeyVersion r.targetKeyVersion (t.bound r.rotationId) = true

def covers : Event U → RotationRow U → Prop
  | .rotation new, r => new = r
  | .key bound, r => some r.rotationId ∈ bound

/-- Neither row being bound to the rotation, the bound ones are what they were. -/
theorem filter_replace {α : Type} [DecidableEq α] {old new : α} {p : α → Bool} (hold : p old = false)
    (hnew : p new = false) (l : List α) : (replace old new l).filter p = l.filter p := by
  induction l with
  | nil => rfl
  | cons a rest ih =>
    show ((if a = old then new else a) :: replace old new rest).filter p = _
    rw [List.filter_cons, List.filter_cons, ih]
    by_cases ha : a = old
    · rw [if_pos ha, hnew, ha, hold, if_neg Bool.false_ne_true, if_neg Bool.false_ne_true]
    · rw [if_neg ha]

theorem apply_leaves {c : RowChange U} {e : Event U} (h : apply c t = some (t', e)) (hr : Bound r t) :
    Bound r t' ∨ covers e r := by
  cases c with
  | insertKey new =>
    rw [apply] at h
    split_ifs at h
    obtain ⟨rfl, rfl⟩ := Prod.mk.inj (Option.some.inj h)
    by_cases hid : new.rotationId = some r.rotationId
    · right
      exact List.mem_singleton.2 hid.symm
    · left
      intro hmem
      show wellBound _ _ _ ((new :: t.keys).filter fun k => k.rotationId = some r.rotationId) = true
      rw [List.filter_cons_of_neg (by simpa using hid)]
      exact hr hmem
  | updateKey old new =>
    rw [apply] at h
    split_ifs at h
    obtain ⟨rfl, rfl⟩ := Prod.mk.inj (Option.some.inj h)
    by_cases hcover : some r.rotationId ∈ [old.rotationId, new.rotationId]
    · exact Or.inr hcover
    · left
      intro hmem
      have hold : old.rotationId ≠ some r.rotationId := by
        intro heq
        exact hcover (heq ▸ List.mem_cons_self)
      have hnew : new.rotationId ≠ some r.rotationId := by
        intro heq
        exact hcover (List.mem_cons_of_mem _ (heq ▸ List.mem_cons_self))
      have hsame := filter_replace (p := fun k : KeyRow U => decide (k.rotationId = some r.rotationId))
        (decide_eq_false hold) (decide_eq_false hnew) t.keys
      show wellBound _ _ _ ((replace old new t.keys).filter fun k => k.rotationId = some r.rotationId) = true
      rw [hsame]
      exact hr hmem
  | deleteKey old =>
    rw [apply] at h
    split_ifs at h
    obtain ⟨rfl, rfl⟩ := Prod.mk.inj (Option.some.inj h)
    by_cases hid : old.rotationId = some r.rotationId
    · right
      exact List.mem_singleton.2 hid.symm
    · left
      intro hmem
      have hsame : (t.keys.filter fun k => k ≠ old).filter (fun k => k.rotationId = some r.rotationId) =
          t.keys.filter fun k => k.rotationId = some r.rotationId := by
        rw [List.filter_filter]
        apply List.filter_congr
        intro k _
        by_cases hk : k = old
        · rw [hk]
          simp [hid]
        · simp [hk]
      show wellBound _ _ _ ((t.keys.filter fun k => k ≠ old).filter
        fun k => k.rotationId = some r.rotationId) = true
      rw [hsame]
      exact hr hmem
  | insertRotation new =>
    rw [apply] at h
    split_ifs at h
    obtain ⟨rfl, rfl⟩ := Prod.mk.inj (Option.some.inj h)
    by_cases hnew : new = r
    · exact Or.inr hnew
    · left
      intro hmem
      cases List.mem_cons.1 hmem with
      | inl heq => exact absurd heq.symm hnew
      | inr hold => exact hr hold
  | updateRotation old new =>
    rw [apply] at h
    split_ifs at h
    obtain ⟨rfl, rfl⟩ := Prod.mk.inj (Option.some.inj h)
    by_cases hnew : new = r
    · exact Or.inr hnew
    · left
      intro hmem
      cases mem_replace hmem with
      | inl heq => exact absurd heq.symm hnew
      | inr hold => exact hr hold
  | deleteRotation old => cases h

theorem find_rotation (hs : Sound t) (hr : r ∈ t.rotations) :
    t.rotations.find? (fun r' => r'.rotationId = r.rotationId) = some r :=
  find_key RotationRow.rotationId hs.rotationsUnique.id hr

/-- An event that passes finds the rotations it covers well bound. -/
theorem passes_sound {e : Event U} (hs : Sound t) (hcovers : covers e r) (h : passes e t = true) :
    Bound r t := by
  intro hr
  cases e with
  | rotation new =>
    obtain rfl : new = r := hcovers
    exact h
  | key bound =>
    have hone := List.all_eq_true.1 h (some r.rotationId) hcovers
    simp only [find_rotation hs hr] at hone
    exact hone

/-! ## Statements -/

theorem applyAll_sound {changes : List (RowChange U)} {es : List (Event U)} (hs : Sound t)
    (h : applyAll changes t = some (t', es)) : Sound t' := by
  induction changes generalizing t es with
  | nil =>
    obtain ⟨rfl, -⟩ := Prod.mk.inj (Option.some.inj h)
    exact hs
  | cons c rest ih =>
    obtain ⟨⟨t₁, e⟩, hfirst, h⟩ := Option.bind_eq_some_iff.1 h
    obtain ⟨⟨t₂, more⟩, hrest, heq⟩ := Option.map_eq_some_iff.1 h
    obtain ⟨rfl, -⟩ := Prod.mk.inj heq
    exact ih (apply_sound hs hfirst) hrest

theorem applyAll_leaves {changes : List (RowChange U)} {es : List (Event U)}
    (h : applyAll changes t = some (t', es)) (hr : Bound r t) : Bound r t' ∨ ∃ e ∈ es, covers e r := by
  induction changes generalizing t es with
  | nil =>
    obtain ⟨rfl, -⟩ := Prod.mk.inj (Option.some.inj h)
    exact Or.inl hr
  | cons c rest ih =>
    obtain ⟨⟨t₁, e⟩, hfirst, h⟩ := Option.bind_eq_some_iff.1 h
    obtain ⟨⟨t₂, more⟩, hrest, heq⟩ := Option.map_eq_some_iff.1 h
    obtain ⟨rfl, rfl⟩ := Prod.mk.inj heq
    cases apply_leaves hfirst hr with
    | inr hcovers => exact Or.inr ⟨e, List.mem_cons_self, hcovers⟩
    | inl hr' =>
      cases ih hrest hr' with
      | inl hdone => exact Or.inl hdone
      | inr hleft =>
        obtain ⟨e', he', hcovers⟩ := hleft
        exact Or.inr ⟨e', List.mem_cons_of_mem e he', hcovers⟩

theorem statement_ok {changes : List (RowChange U)} {es : List (Event U)}
    (h : statement changes t = some (t', es)) : applyAll changes t = some (t', es) ∧ References t' := by
  obtain ⟨result, hall, h⟩ := Option.bind_eq_some_iff.1 h
  split_ifs at h with href
  obtain rfl := Option.some.inj h
  exact ⟨hall, href⟩

/-! ## Committed states -/

/-- What holds of every committed state. -/
structure Kept (t : Tables U) : Prop where
  sound : Sound t
  references : References t
  bound : ∀ r ∈ t.rotations,
    wellBound r.phase r.previousKeyVersion r.targetKeyVersion (t.bound r.rotationId) = true

theorem rules : Rules (statement (U := U)) passes (fun t => Sound t ∧ References t) Bound covers := by
  constructor
  · intro changes t t' es hinv h
    obtain ⟨hall, href⟩ := statement_ok h
    exact ⟨applyAll_sound hinv.1 hall, href⟩
  · intro changes t t' es r _ h hr
    exact applyAll_leaves (statement_ok h).1 hr
  · intro e r t hinv hcovers h
    exact passes_sound hinv.1 hcovers h

theorem kept_step {actions : Transaction U} (ht : Kept t) (h : commit actions t = some t') : Kept t' := by
  obtain ⟨hinv, hbound⟩ := transact_ok rules ⟨ht.sound, ht.references⟩ (fun r hr => ht.bound r hr) h
  exact ⟨hinv.1, hinv.2, fun r hr => hbound r hr⟩

theorem kept_run (h : (ledger (U := U)).Reachable t) : Kept t := by
  apply System.invariant _ _ h
  · rintro t rfl
    constructor
    · constructor
      · intro k hk
        cases hk
      · intro r hr
        cases hr
      · exact ⟨List.nodup_nil, Nat.zero_le 1, Nat.zero_le 1, Nat.zero_le 1⟩
      · exact ⟨List.nodup_nil, List.nodup_nil, Nat.zero_le 1⟩
    · intro k hk
      cases hk
    · intro r hr
      cases hr
  · intro t actions t' _ ht hstep
    exact kept_step ht hstep

/-- Every rotation is still there, as it was inserted, and one that is closed stays in its phase. -/
def History (t t' : Tables U) : Prop :=
  ∀ r ∈ t.rotations, ∃ r' ∈ t'.rotations, r'.rotationId = r.rotationId ∧
    r'.previousKeyVersion = r.previousKeyVersion ∧ r'.targetKeyVersion = r.targetKeyVersion ∧
    r'.targetKeyFingerprint = r.targetKeyFingerprint ∧ r'.verifyStartedAt = r.verifyStartedAt ∧
    r'.verifyUntil = r.verifyUntil ∧ (r.phase.closed = true → r'.phase = r.phase)

omit [DecidableEq U] in
theorem history_refl (t : Tables U) : History t t := fun r hr =>
  ⟨r, hr, rfl, rfl, rfl, rfl, rfl, rfl, fun _ => rfl⟩

omit [DecidableEq U] in
theorem history_trans {t₁ t₂ t₃ : Tables U} (h : History t₁ t₂) (h' : History t₂ t₃) : History t₁ t₃ := by
  intro r hr
  obtain ⟨r₂, hr₂, h1, h2, h3, h4, h5, h6, hphase⟩ := h r hr
  obtain ⟨r₃, hr₃, h1', h2', h3', h4', h5', h6', hphase'⟩ := h' r₂ hr₂
  refine ⟨r₃, hr₃, h1'.trans h1, h2'.trans h2, h3'.trans h3, h4'.trans h4, h5'.trans h5, h6'.trans h6, ?_⟩
  intro hclosed
  have hsame := hphase hclosed
  rw [← hsame] at hclosed
  exact (hphase' hclosed).trans hsame

omit [DecidableEq U] in
theorem guarded_open {old new : RotationRow U} (h : Guarded old new) : old.phase.closed = false := by
  have hall : ∀ p ∈ transitions, p.1.closed = false := by decide
  exact hall _ h.phase

theorem apply_history {c : RowChange U} {e : Event U} (h : apply c t = some (t', e)) : History t t' := by
  cases c with
  | insertKey new =>
    rw [apply] at h
    split_ifs at h
    obtain ⟨rfl, -⟩ := Prod.mk.inj (Option.some.inj h)
    exact history_refl t
  | updateKey old new =>
    rw [apply] at h
    split_ifs at h
    obtain ⟨rfl, -⟩ := Prod.mk.inj (Option.some.inj h)
    exact history_refl t
  | deleteKey old =>
    rw [apply] at h
    split_ifs at h
    obtain ⟨rfl, -⟩ := Prod.mk.inj (Option.some.inj h)
    exact history_refl t
  | insertRotation new =>
    rw [apply] at h
    split_ifs at h
    obtain ⟨rfl, -⟩ := Prod.mk.inj (Option.some.inj h)
    intro r hr
    exact ⟨r, List.mem_cons_of_mem new hr, rfl, rfl, rfl, rfl, rfl, rfl, fun _ => rfl⟩
  | updateRotation old new =>
    rw [apply] at h
    split_ifs at h with hok
    obtain ⟨rfl, -⟩ := Prod.mk.inj (Option.some.inj h)
    have hguard := hok.2.1
    intro r hr
    refine ⟨if r = old then new else r, List.mem_map.2 ⟨r, hr, rfl⟩, ?_⟩
    split_ifs with heq
    · rw [heq]
      refine ⟨hguard.id, hguard.previous, hguard.target, hguard.fingerprint, hguard.started, hguard.ended, ?_⟩
      intro hclosed
      rw [guarded_open hguard] at hclosed
      cases hclosed
    · exact ⟨rfl, rfl, rfl, rfl, rfl, rfl, fun _ => rfl⟩
  | deleteRotation old => cases h

theorem statement_history {changes : List (RowChange U)} {es : List (Event U)}
    (h : statement changes t = some (t', es)) : History t t' := by
  have hall := (statement_ok h).1
  clear h
  induction changes generalizing t es with
  | nil =>
    obtain ⟨rfl, -⟩ := Prod.mk.inj (Option.some.inj hall)
    exact history_refl t
  | cons c rest ih =>
    obtain ⟨⟨t₁, e⟩, hfirst, hall⟩ := Option.bind_eq_some_iff.1 hall
    obtain ⟨⟨t₂, more⟩, hrest, heq⟩ := Option.map_eq_some_iff.1 hall
    obtain ⟨rfl, -⟩ := Prod.mk.inj heq
    exact history_trans (apply_history hfirst) (ih hrest)

theorem history_later (h : (ledger (U := U)).Later t t') : History t t' := by
  induction h with
  | refl => exact history_refl _
  | tail _ hstep ih =>
    obtain ⟨actions, hactions⟩ := hstep
    exact history_trans ih (transact_keeps history_refl (fun _ _ _ => history_trans)
      (fun _ _ _ _ => statement_history) hactions)

end RagPipeline.KeyLedger
