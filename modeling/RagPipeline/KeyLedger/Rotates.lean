import RagPipeline.KeyLedger.Kept
import Mathlib.Data.List.Perm.Subperm

/-! # Rotating once more

From every committed ledger a fresh version can be rotated to: the rotations that are
still open are closed, the keys that are staged or only verify are retired, and the
version then goes through the phases of a rotation of its own. -/

set_option autoImplicit false

namespace RagPipeline.KeyLedger
open Deferred Transition

/-! ## One element in the place of another -/

section
variable {α β : Type} [DecidableEq α] {old new a : α} {l : List α} {p : α → Bool}

theorem replace_cons : replace old new (a :: l) = (if a = old then new else a) :: replace old new l := rfl

theorem replace_other (h : old ∉ l) : replace old new l = l := by
  induction l with
  | nil => rfl
  | cons a rest ih =>
    have hne : a ≠ old := fun heq => h (heq ▸ List.mem_cons_self)
    rw [replace_cons, if_neg hne, ih fun hmem => h (List.mem_cons_of_mem a hmem)]

theorem mem_replace_new (h : old ∈ l) : new ∈ replace old new l :=
  List.mem_map.2 ⟨old, h, if_pos rfl⟩

theorem mem_replace_other (h : a ∈ l) (hne : a ≠ old) : a ∈ replace old new l :=
  List.mem_map.2 ⟨a, h, if_neg hne⟩

theorem of_mem_replace (h : a ∈ replace old new l) : a = new ∨ a ∈ l ∧ a ≠ old := by
  obtain ⟨b, hb, rfl⟩ := List.mem_map.1 h
  split_ifs with heq
  · exact Or.inl rfl
  · exact Or.inr ⟨hb, heq⟩

theorem map_replace {f : α → β} (h : f new = f old) : (replace old new l).map f = l.map f := by
  rw [replace, List.map_map]
  apply List.map_congr_left
  intro a _
  show f (if a = old then new else a) = f a
  split_ifs with ha
  · rw [ha, h]
  · rfl

theorem filter_map_replace {f : α → β} (hp : p new = p old) (hf : f new = f old) :
    ((replace old new l).filter p).map f = (l.filter p).map f := by
  induction l with
  | nil => rfl
  | cons a rest ih =>
    rw [replace_cons, List.filter_cons, List.filter_cons]
    by_cases ha : a = old
    · rw [if_pos ha, hp, ha]
      split_ifs
      · rw [List.map_cons, List.map_cons, hf, ih]
      · exact ih
    · rw [if_neg ha]
      split_ifs
      · rw [List.map_cons, List.map_cons, ih]
      · exact ih

theorem filter_replace_sublist (hp : p new = false) :
    ((replace old new l).filter p).Sublist (l.filter p) := by
  induction l with
  | nil => exact List.Sublist.refl []
  | cons a rest ih =>
    rw [replace_cons]
    by_cases ha : a = old
    · rw [if_pos ha, List.filter_cons_of_neg (Bool.eq_false_iff.1 hp)]
      exact ih.trans ((List.sublist_cons_self a rest).filter p)
    · rw [if_neg ha, List.filter_cons, List.filter_cons]
      split_ifs
      · exact ih.cons_cons a
      · exact ih

/-- Where nothing else has the property, the new element alone has it. -/
theorem filter_replace_one (hl : l.Nodup) (hold : old ∈ l) (hnone : ∀ a ∈ l, p a = false)
    (hnew : p new = true) : (replace old new l).filter p = [new] := by
  induction l with
  | nil => cases hold
  | cons a rest ih =>
    have hrest := (List.nodup_cons.1 hl).2
    have hnone' : ∀ b ∈ rest, p b = false := fun b hb => hnone b (List.mem_cons_of_mem a hb)
    rw [replace_cons]
    by_cases ha : a = old
    · have hnot : old ∉ rest := ha ▸ (List.nodup_cons.1 hl).1
      rw [if_pos ha, replace_other hnot, List.filter_cons_of_pos hnew,
        List.filter_eq_nil_iff.2 fun b hb => Bool.eq_false_iff.1 (hnone' b hb)]
    · have hmem : old ∈ rest := (List.mem_cons.1 hold).resolve_left (Ne.symm ha)
      rw [if_neg ha, List.filter_cons_of_neg (Bool.eq_false_iff.1 (hnone a List.mem_cons_self)),
        ih hrest hmem hnone']

theorem countP_replace_le (h : p new = true → p old = true) : (replace old new l).countP p ≤ l.countP p := by
  rw [replace, List.countP_map]
  apply List.countP_mono_left
  intro a _ ha
  change p (if a = old then new else a) = true at ha
  split_ifs at ha with heq
  · exact heq ▸ h ha
  · exact ha

theorem countP_replace_lt (hold : p old = true) (hnew : p new = false) (hmem : old ∈ l) :
    (replace old new l).countP p < l.countP p := by
  have hle : ∀ l : List α, (replace old new l).countP p ≤ l.countP p :=
    fun l => countP_replace_le fun _ => hold
  induction l with
  | nil => cases hmem
  | cons a rest ih =>
    rw [replace_cons]
    by_cases ha : a = old
    · rw [if_pos ha, ha, List.countP_cons_of_neg (Bool.eq_false_iff.1 hnew), List.countP_cons_of_pos hold]
      exact Nat.lt_succ_of_le (hle rest)
    · have hrest : old ∈ rest := (List.mem_cons.1 hmem).resolve_left (Ne.symm ha)
      rw [if_neg ha, List.countP_cons, List.countP_cons]
      exact Nat.add_lt_add_right (ih hrest) _

theorem countP_replace_one (hl : l.Nodup) (hold : old ∈ l) (hnone : l.countP p = 0) :
    (replace old new l).countP p ≤ 1 := by
  by_cases hnew : p new = true
  · have hfalse : ∀ a ∈ l, p a = false := fun a ha => Bool.eq_false_iff.2 (List.countP_eq_zero.1 hnone a ha)
    rw [List.countP_eq_length_filter, filter_replace_one hl hold hfalse hnew]
    exact Nat.le_refl 1
  · have hle : (replace old new l).countP p ≤ l.countP p := countP_replace_le fun h => absurd h hnew
    omega

end

variable {U : Type} [DecidableEq U] {t t' : Tables U} {k old new : KeyRow U} {r : RotationRow U} {n : ℤ} {u : U}

/-! ## Transactions that commit -/

/-- Every rotation that an event is about is there. -/
def Names : Event U → Tables U → Prop
  | .rotation new, t => new ∈ t.rotations
  | .key bound, t => ∀ id, some id ∈ bound → ∃ r ∈ t.rotations, r.rotationId = id

theorem passes_kept {e : Event U} (ht : Kept t) (h : Names e t) : passes e t = true := by
  cases e with
  | rotation new => exact ht.bound new h
  | key bound =>
    apply List.all_eq_true.2
    intro id hid
    cases id with
    | none => rfl
    | some id =>
      obtain ⟨r, hr, rfl⟩ := h id hid
      simp only [find_rotation ht.sound hr]
      exact ht.bound r hr

theorem statement_one {c : RowChange U} {e : Event U} (h : apply c t = some (t', e)) (href : References t') :
    statement [c] t = some (t', [e]) := by
  rw [statement, applyAll, h, Option.bind_some]
  show (some (t', [e])).bind _ = _
  rw [Option.bind_some, if_pos href]

/-- What leads to a ledger in order, and leaves events about rotations that are there, commits. -/
theorem commits {statements : List (List (RowChange U))} {es : List (Event U)} (ht' : Kept t')
    (h : Plays statement t statements t' es) (hnames : ∀ e ∈ es, Names e t') :
    (ledger (U := U)).Later t t' :=
  Relation.ReflTransGen.single ⟨_, h.commits fun e he => passes_kept ht' (hnames e he)⟩

theorem commits_one {c : RowChange U} {e : Event U} (ht' : Kept t') (h : apply c t = some (t', e))
    (hnames : Names e t') : (ledger (U := U)).Later t t' := by
  apply commits ht' (Plays.step (statement_one h ht'.references) Plays.done)
  intro e' he'
  obtain rfl := List.mem_singleton.1 he'
  exact hnames

/-! ## A rotation goes on -/

theorem advance {old : RotationRow U} (new : RotationRow U) (ht : Kept t) (hmem : old ∈ t.rotations) (hguard : Guarded old new)
    (hnew : new.Checked) (hlive : new.phase.live = true → old.phase.live = true) :
    Kept ⟨t.keys, replace old new t.rotations⟩ ∧
      (ledger (U := U)).Later t ⟨t.keys, replace old new t.rotations⟩ := by
  have hunique : RotationsUnique (replace old new t.rotations) := by
    constructor
    · rw [map_replace hguard.id]
      exact ht.sound.rotationsUnique.id
    · rw [map_replace hguard.target]
      exact ht.sound.rotationsUnique.target
    · exact Nat.le_trans (countP_replace_le hlive) ht.sound.rotationsUnique.live
  have happly : apply (.updateRotation old new) t =
      some (⟨t.keys, replace old new t.rotations⟩, .rotation new) := by
    rw [apply, if_pos ⟨hmem, hguard, hnew, hunique⟩]
  have hkept : Kept ⟨t.keys, replace old new t.rotations⟩ := by
    constructor
    · exact apply_sound ht.sound happly
    · intro k hk id hid
      obtain ⟨r, hr, rfl⟩ := ht.references k hk id hid
      by_cases hr' : r = old
      · exact ⟨new, mem_replace_new hmem, by rw [hguard.id, hr']⟩
      · exact ⟨r, mem_replace_other hr hr', rfl⟩
    · intro r hr
      cases of_mem_replace hr with
      | inl heq =>
        rw [heq, hguard.id, hguard.previous, hguard.target]
        exact wellBound_closed (ht.bound old hmem) fun _ => guarded_open hguard
      | inr hold => exact ht.bound r hold.1
  exact ⟨hkept, commits_one hkept happly (mem_replace_new hmem)⟩

/-- The next row on the way to a closed rotation. -/
def closing (r : RotationRow U) : RotationRow U :=
  match r.phase with
  | .activated => { r with phase := .completed, completedAt := some 0 }
  | .completed => { r with phase := .retired, retiredAt := some 0 }
  | _ => { r with phase := .aborted }

omit [DecidableEq U] in
theorem closing_guarded (hopen : r.phase.closed = false) : Guarded r (closing r) := by
  rw [closing]
  cases hphase : r.phase with
  | staged => exact ⟨rfl, rfl, rfl, rfl, rfl, rfl, rfl, by simp [hphase, transitions], fun _ => rfl⟩
  | admitted => exact ⟨rfl, rfl, rfl, rfl, rfl, rfl, rfl, by simp [hphase, transitions], fun _ => rfl⟩
  | activated =>
    refine ⟨rfl, rfl, rfl, rfl, rfl, rfl, rfl, by simp [hphase, transitions], ?_⟩
    intro hcompleted
    rw [hphase] at hcompleted
    cases hcompleted
  | completed => exact ⟨rfl, rfl, rfl, rfl, rfl, rfl, rfl, by simp [hphase, transitions], fun _ => rfl⟩
  | aborted => rw [hphase] at hopen; cases hopen
  | retired => rw [hphase] at hopen; cases hopen

omit [DecidableEq U] in
theorem closing_checked (h : r.Checked) (hopen : r.phase.closed = false) : (closing r).Checked := by
  have hcompleted := h.completed
  have hretired := h.retired
  rw [closing]
  cases hphase : r.phase with
  | staged =>
    rw [hphase] at hcompleted hretired
    exact ⟨h.previous, h.target, h.fingerprint, h.differ, h.window, by simpa using hcompleted,
      by simpa using hretired⟩
  | admitted =>
    rw [hphase] at hcompleted hretired
    exact ⟨h.previous, h.target, h.fingerprint, h.differ, h.window, by simpa using hcompleted,
      by simpa using hretired⟩
  | activated =>
    rw [hphase] at hretired
    exact ⟨h.previous, h.target, h.fingerprint, h.differ, h.window, by simp, by simpa using hretired⟩
  | completed =>
    rw [hphase] at hcompleted
    exact ⟨h.previous, h.target, h.fingerprint, h.differ, h.window, by simpa using hcompleted, by simp⟩
  | aborted => rw [hphase] at hopen; cases hopen
  | retired => rw [hphase] at hopen; cases hopen

omit [DecidableEq U] in
theorem closing_live (h : (closing r).phase.live = true) : r.phase.live = true := by
  rw [closing] at h
  cases hphase : r.phase <;> simp [hphase, Phase.live] at h

/-- How far the rotations are from being closed. -/
def unsettled (rotations : List (RotationRow U)) : ℕ :=
  rotations.countP (fun r => !r.phase.closed) + rotations.countP fun r => r.phase.live

theorem closing_lt {rotations : List (RotationRow U)} (hr : r ∈ rotations) (hopen : r.phase.closed = false) :
    unsettled (replace r (closing r) rotations) < unsettled rotations := by
  have hlive : (replace r (closing r) rotations).countP (fun r => r.phase.live) ≤
      rotations.countP fun r => r.phase.live := countP_replace_le closing_live
  have hclosed : (replace r (closing r) rotations).countP (fun r => !r.phase.closed) ≤
      rotations.countP fun r => !r.phase.closed := by
    apply countP_replace_le
    intro _
    rw [hopen]
    rfl
  rw [unsettled, unsettled]
  by_cases hactivated : r.phase = .activated
  · have hlt : (replace r (closing r) rotations).countP (fun r => r.phase.live) <
        rotations.countP fun r => r.phase.live := by
      apply countP_replace_lt _ _ hr
      · rw [hactivated]
        rfl
      · rw [closing, hactivated]
        rfl
    omega
  · have hlt : (replace r (closing r) rotations).countP (fun r => !r.phase.closed) <
        rotations.countP fun r => !r.phase.closed := by
      apply countP_replace_lt _ _ hr
      · rw [hopen]
        rfl
      · rw [closing]
        cases hphase : r.phase with
        | activated => exact absurd hphase hactivated
        | _ => rfl
    omega

/-- Every rotation can be closed, which leaves the keys and what the rotations name. -/
theorem settle (ht : Kept t) :
    ∃ rotations, Kept ⟨t.keys, rotations⟩ ∧ (ledger (U := U)).Later t ⟨t.keys, rotations⟩ ∧
      (∀ r ∈ rotations, r.phase.closed = true) ∧
      rotations.map RotationRow.rotationId = t.rotations.map RotationRow.rotationId ∧
      rotations.map RotationRow.targetKeyVersion = t.rotations.map RotationRow.targetKeyVersion := by
  induction hn : unsettled t.rotations using Nat.strongRecOn generalizing t with
  | _ n ih =>
    by_cases hall : ∀ r ∈ t.rotations, r.phase.closed = true
    · exact ⟨t.rotations, ht, Relation.ReflTransGen.refl, hall, rfl, rfl⟩
    · push Not at hall
      obtain ⟨r, hr, hnot⟩ := hall
      have hopen := Bool.eq_false_iff.2 hnot
      have hguard := closing_guarded hopen
      obtain ⟨hkept, hlater⟩ := advance _ ht hr hguard (closing_checked (ht.sound.rotations r hr) hopen)
        closing_live
      have hlt := closing_lt hr hopen
      rw [hn] at hlt
      obtain ⟨rotations, hkept', hlater', hclosed, hids, htargets⟩ := ih _ hlt hkept rfl
      refine ⟨rotations, hkept', hlater.trans hlater', hclosed, ?_, ?_⟩
      · rw [hids, map_replace hguard.id]
      · rw [htargets, map_replace hguard.target]

/-! ## A key changes -/

omit [DecidableEq U] in
/-- Only the versions of the bound keys count. -/
theorem wellBound_congr {phase : Phase} {previous target : ℤ} {bound bound' : List (KeyRow U)}
    (h : bound.map KeyRow.keyVersion = bound'.map KeyRow.keyVersion) :
    wellBound phase previous target bound = wellBound phase previous target bound' := by
  have hmap : ∀ f : ℤ → Bool, (bound.map fun k => f k.keyVersion) = bound'.map fun k => f k.keyVersion := by
    intro f
    have hboth := congrArg (List.map f) h
    rw [List.map_map, List.map_map] at hboth
    exact hboth
  have hlength : bound.length = bound'.length := by
    have hboth := congrArg List.length h
    rw [List.length_map, List.length_map] at hboth
    exact hboth
  simp only [wellBound, hmap (· == previous), hmap fun v => v == previous || v == target, hlength]

theorem KeysUnique.replace {keys : List (KeyRow U)} (h : KeysUnique keys) (hmem : old ∈ keys)
    (hversion : new.keyVersion = old.keyVersion)
    (hstate : new.state = .retired ∨ new.state = old.state ∨ keys.countP (fun k => k.state = new.state) = 0) :
    KeysUnique (replace old new keys) := by
  have hnodup : keys.Nodup := h.version.of_map
  have hone : ∀ s, s ≠ .retired → AtMostOne s keys → AtMostOne s (KeyLedger.replace old new keys) := by
    intro s hs hkeys
    by_cases hnew : new.state = s
    · obtain hretired | hsame | hnone := hstate
      · exact absurd (hnew.symm.trans hretired) hs
      · apply Nat.le_trans (countP_replace_le _) hkeys
        intro _
        exact decide_eq_true (hsame.symm.trans hnew)
      · rw [hnew] at hnone
        exact countP_replace_one hnodup hmem hnone
    · apply Nat.le_trans (countP_replace_le _) hkeys
      intro heq
      exact absurd (of_decide_eq_true heq) hnew
  constructor
  · rw [map_replace hversion]
    exact h.version
  · exact hone .active (by decide) h.active
  · exact hone .staged (by decide) h.staged
  · exact hone .verifyOnly (by decide) h.verifyOnly

/-- A key that stays bound as it is may change into any state that no other key is in. -/
theorem rekey (new : KeyRow U) (ht : Kept t) (hmem : old ∈ t.keys) (hnew : new.Checked)
    (hversion : new.keyVersion = old.keyVersion) (hrotation : new.rotationId = old.rotationId)
    (hstate : new.state = .retired ∨ new.state = old.state ∨ t.keys.countP (fun k => k.state = new.state) = 0) :
    Kept ⟨replace old new t.keys, t.rotations⟩ ∧
      (ledger (U := U)).Later t ⟨replace old new t.keys, t.rotations⟩ := by
  have hunique := ht.sound.keysUnique.replace hmem hversion hstate
  have happly : apply (.updateKey old new) t =
      some (⟨replace old new t.keys, t.rotations⟩, .key [old.rotationId, new.rotationId]) := by
    rw [apply, if_pos ⟨hmem, hnew, hunique⟩]
  have hkept : Kept ⟨replace old new t.keys, t.rotations⟩ := by
    constructor
    · exact apply_sound ht.sound happly
    · intro k hk id hid
      cases of_mem_replace hk with
      | inl heq =>
        rw [heq, hrotation] at hid
        exact ht.references old hmem id hid
      | inr hold => exact ht.references k hold.1 id hid
    · intro r hr
      rw [← ht.bound r hr]
      apply wellBound_congr
      apply filter_map_replace _ hversion
      rw [hrotation]
  refine ⟨hkept, commits_one hkept happly ?_⟩
  intro id hid
  rw [hrotation] at hid
  have hold : old.rotationId = some id := by
    cases List.mem_cons.1 hid with
    | inl heq => exact heq.symm
    | inr hrest => exact (List.mem_singleton.1 hrest).symm
  exact ht.references old hmem id hold

/-- The state a key is in for the time of a rotation only. -/
def KeyState.passing : KeyState → Bool
  | .staged => true
  | .verifyOnly => true
  | _ => false

/-- The keys that are staged or only verify can be retired, which leaves the others as they are. -/
theorem retire (ht : Kept t) :
    ∃ keys, Kept ⟨keys, t.rotations⟩ ∧ (ledger (U := U)).Later t ⟨keys, t.rotations⟩ ∧
      (∀ k ∈ keys, k.state.passing = false) ∧
      keys.map KeyRow.keyVersion = t.keys.map KeyRow.keyVersion ∧
      ∀ k ∈ t.keys, k.state = .active → k ∈ keys := by
  induction hn : t.keys.countP (fun k => k.state.passing) using Nat.strongRecOn generalizing t with
  | _ n ih =>
    by_cases hall : ∀ k ∈ t.keys, k.state.passing = false
    · exact ⟨t.keys, ht, Relation.ReflTransGen.refl, hall, rfl, fun _ hk _ => hk⟩
    · push Not at hall
      obtain ⟨k, hk, hnot⟩ := hall
      have hpassing := (Bool.not_eq_false _).mp hnot
      have hchecked := ht.sound.keys k hk
      obtain ⟨hkept, hlater⟩ := rekey ({ k with
          state := .retired
          verifyStartedAt := none
          verifyUntil := none }) ht hk
        ⟨hchecked.version, hchecked.secret, by simp, by simp, by simp, by simp⟩ rfl rfl (Or.inl rfl)
      have hlt : (replace k { k with
          state := .retired
          verifyStartedAt := none
          verifyUntil := none } t.keys).countP (fun k => k.state.passing) <
          t.keys.countP fun k => k.state.passing := countP_replace_lt hpassing rfl hk
      rw [hn] at hlt
      obtain ⟨keys, hkept', hlater', hnone, hversions, hactive⟩ := ih _ hlt hkept rfl
      refine ⟨keys, hkept', hlater.trans hlater', hnone, ?_, ?_⟩
      · rw [hversions]
        exact map_replace rfl
      · intro a ha hstate
        apply hactive a _ hstate
        apply mem_replace_other ha
        rintro rfl
        rw [hstate] at hpassing
        cases hpassing

/-! ## A rotation of its own -/

/-- Thirty-two bytes. -/
def material : Bytes := List.replicate 32 0

/-- A ledger at rest, with the key that is to be the previous one. -/
structure Ready (n : ℤ) (u : U) (p : KeyRow U) (t : Tables U) : Prop where
  kept : Kept t
  closed : ∀ r ∈ t.rotations, r.phase.closed = true
  settled : ∀ k ∈ t.keys, k.state.passing = false
  version : Version n
  key : n ∉ t.keys.map KeyRow.keyVersion
  target : n ∉ t.rotations.map RotationRow.targetKeyVersion
  id : u ∉ t.rotations.map RotationRow.rotationId
  member : p ∈ t.keys
  active : ∀ k ∈ t.keys, k.state = .active → k = p

def staging (n : ℤ) (u : U) (p : KeyRow U) : RotationRow U :=
  ⟨u, p.keyVersion, n, material, 0, 1, .staged, 0, none, none⟩

def stagedKey (n : ℤ) (u : U) : KeyRow U := ⟨n, material, .staged, 0, none, none, some u, 0⟩

def joined (u : U) (p : KeyRow U) : KeyRow U := { p with rotationId := some u }

def stagedTables (n : ℤ) (u : U) (p : KeyRow U) (t : Tables U) : Tables U :=
  ⟨stagedKey n u :: replace p (joined u p) t.keys, staging n u p :: t.rotations⟩

section
variable {p : KeyRow U}

omit [DecidableEq U] in
theorem joined_checked (h : p.Checked) : (joined u p).Checked := by
  refine ⟨h.version, h.secret, h.after, h.verifyOnly, ?_, h.overlap⟩
  cases h.shape with
  | inl hverify => exact Or.inl ⟨hverify.1, hverify.2.1, hverify.2.2.1, rfl⟩
  | inr hother => exact Or.inr ⟨hother.1, hother.2.1, hother.2.2.1, fun _ => rfl⟩

omit [DecidableEq U] in
theorem staging_checked (hp : p.Checked) (hn : Version n) (hne : p.keyVersion ≠ n) :
    (staging n u p).Checked := by
  refine ⟨hp.version, hn, rfl, hne, ⟨Int.zero_lt_one, ?_⟩, ?_, ?_⟩
  · show (1 : ℤ) ≤ 0 + interval
    decide
  · simp [staging]
  · simp [staging]

omit [DecidableEq U] in
theorem stagedKey_checked (hn : Version n) : (stagedKey n u).Checked :=
  ⟨hn, rfl, by simp [stagedKey], by simp [stagedKey], by simp [stagedKey], by simp [stagedKey]⟩

theorem Ready.differ (h : Ready n u p t) : p.keyVersion ≠ n := by
  intro heq
  exact h.key (heq ▸ List.mem_map.2 ⟨p, h.member, rfl⟩)

/-- No key is bound to a rotation that is not there yet. -/
theorem Ready.unbound (h : Ready n u p t) {k : KeyRow U} (hk : k ∈ t.keys) : k.rotationId ≠ some u := by
  intro hid
  obtain ⟨r, hr, heq⟩ := h.kept.references k hk u hid
  exact h.id (List.mem_map.2 ⟨r, hr, heq⟩)

omit [DecidableEq U] in
theorem countP_passing {keys : List (KeyRow U)} (h : ∀ k ∈ keys, k.state.passing = false) {s : KeyState}
    (hs : s.passing = true) : keys.countP (fun k => k.state = s) = 0 := by
  apply List.countP_eq_zero.2
  intro k hk heq
  have hstate := h k hk
  rw [of_decide_eq_true heq, hs] at hstate
  cases hstate

theorem closed_live {phase : Phase} (h : phase.closed = true) : phase.live = false := by
  cases phase with
  | staged => cases h
  | admitted => cases h
  | activated => cases h
  | _ => rfl

theorem Ready.rotationsUnique (h : Ready n u p t) : RotationsUnique (staging n u p :: t.rotations) := by
  have hlive : t.rotations.countP (fun r => r.phase.live) = 0 := by
    apply List.countP_eq_zero.2
    intro r hr hlive
    have hclosed := h.closed r hr
    rw [closed_live hclosed] at hlive
    cases hlive
  constructor
  · rw [List.map_cons]
    exact List.nodup_cons.2 ⟨h.id, h.kept.sound.rotationsUnique.id⟩
  · rw [List.map_cons]
    exact List.nodup_cons.2 ⟨h.target, h.kept.sound.rotationsUnique.target⟩
  · rw [List.countP_cons, hlive]
    exact Nat.le_refl 1

theorem Ready.keysReplaced (h : Ready n u p t) : KeysUnique (replace p (joined u p) t.keys) :=
  h.kept.sound.keysUnique.replace h.member rfl (Or.inr (Or.inl rfl))

theorem Ready.keysUnique (h : Ready n u p t) :
    KeysUnique (stagedKey n u :: replace p (joined u p) t.keys) := by
  have hold := h.keysReplaced
  have hstaged : (replace p (joined u p) t.keys).countP (fun k => k.state = .staged) = 0 := by
    have hle : (replace p (joined u p) t.keys).countP (fun k => k.state = .staged) ≤
        t.keys.countP fun k => k.state = .staged := countP_replace_le fun heq => heq
    rw [countP_passing h.settled rfl] at hle
    exact Nat.le_zero.1 hle
  constructor
  · have hversions : (replace p (joined u p) t.keys).map KeyRow.keyVersion = t.keys.map KeyRow.keyVersion :=
      map_replace rfl
    rw [List.map_cons, hversions]
    exact List.nodup_cons.2 ⟨h.key, h.kept.sound.keysUnique.version⟩
  · rw [AtMostOne, List.countP_cons_of_neg]
    · exact hold.active
    · simp [stagedKey]
  · rw [AtMostOne, List.countP_cons, hstaged]
    exact Nat.le_refl 1
  · rw [AtMostOne, List.countP_cons_of_neg]
    · exact hold.verifyOnly
    · simp [stagedKey]

/-- What is bound to a rotation that was there was bound to it before. -/
theorem bound_sublist (hr : r.rotationId ≠ u) :
    ((stagedTables n u p t).bound r.rotationId).Sublist (t.bound r.rotationId) := by
  have hnot : ∀ k : KeyRow U, k.rotationId = some u → decide (k.rotationId = some r.rotationId) = false := by
    intro k hk
    apply decide_eq_false
    rw [hk]
    exact fun heq => hr (Option.some.inj heq).symm
  show ((stagedKey n u :: replace p (joined u p) t.keys).filter
    fun k => k.rotationId = some r.rotationId).Sublist _
  rw [List.filter_cons_of_neg]
  · exact filter_replace_sublist (hnot (joined u p) rfl)
  · exact Bool.eq_false_iff.1 (hnot (stagedKey n u) rfl)

omit [DecidableEq U] in
theorem wellBound_sublist {phase : Phase} {previous target : ℤ} {bound bound' : List (KeyRow U)}
    (h : wellBound phase previous target bound = true) (hphase : phase.closed = true)
    (hsub : bound'.Sublist bound) : wellBound phase previous target bound' = true := by
  rw [wellBound_iff] at h ⊢
  refine ⟨fun k hk => h.1 k (hsub.subset hk), Nat.le_trans hsub.length_le h.2.1, ?_⟩
  intro hopen
  rw [hphase] at hopen
  cases hopen

theorem Ready.bound_new (h : Ready n u p t) :
    (stagedTables n u p t).bound u = [stagedKey n u, joined u p] := by
  have hone : (replace p (joined u p) t.keys).filter (fun k => k.rotationId = some u) = [joined u p] := by
    apply filter_replace_one h.kept.sound.keysUnique.version.of_map h.member
    · intro k hk
      exact decide_eq_false (h.unbound hk)
    · exact decide_eq_true rfl
  show (stagedKey n u :: replace p (joined u p) t.keys).filter (fun k => k.rotationId = some u) = _
  rw [List.filter_cons_of_pos, hone]
  exact decide_eq_true rfl

/-- The rotation, its target and its previous key, in one transaction. -/
theorem Ready.stage (h : Ready n u p t) :
    Kept (stagedTables n u p t) ∧ (ledger (U := U)).Later t (stagedTables n u p t) := by
  have hchecked := h.kept.sound.keys p h.member
  have h₁ : apply (.insertRotation (staging n u p)) t =
      some (⟨t.keys, staging n u p :: t.rotations⟩, .rotation (staging n u p)) := by
    rw [apply, if_pos ⟨staging_checked hchecked h.version h.differ, h.rotationsUnique⟩]
  have h₂ : apply (.updateKey p (joined u p)) ⟨t.keys, staging n u p :: t.rotations⟩ =
      some (⟨replace p (joined u p) t.keys, staging n u p :: t.rotations⟩,
        .key [p.rotationId, some u]) := by
    rw [apply, if_pos ⟨h.member, joined_checked hchecked, h.keysReplaced⟩]
    rfl
  have h₃ : apply (.insertKey (stagedKey n u)) ⟨replace p (joined u p) t.keys, staging n u p :: t.rotations⟩ =
      some (stagedTables n u p t, .key [some u]) := by
    rw [apply, if_pos ⟨stagedKey_checked h.version, h.keysUnique⟩]
    rfl
  have hthere : ∀ id, (∃ r ∈ t.rotations, r.rotationId = id) ∨ u = id →
      ∃ r ∈ staging n u p :: t.rotations, r.rotationId = id := by
    intro id hid
    cases hid with
    | inl hold =>
      obtain ⟨r, hr, heq⟩ := hold
      exact ⟨r, List.mem_cons_of_mem _ hr, heq⟩
    | inr hnew => exact ⟨_, List.mem_cons_self, hnew⟩
  have href₁ : References ⟨t.keys, staging n u p :: t.rotations⟩ := fun k hk id hid =>
    hthere id (Or.inl (h.kept.references k hk id hid))
  have href₂ : References ⟨replace p (joined u p) t.keys, staging n u p :: t.rotations⟩ := by
    intro k hk id hid
    cases of_mem_replace hk with
    | inl heq =>
      rw [heq] at hid
      exact hthere id (Or.inr (Option.some.inj hid))
    | inr hold => exact href₁ k hold.1 id hid
  have href₃ : References (stagedTables n u p t) := by
    intro k hk id hid
    cases List.mem_cons.1 hk with
    | inl heq =>
      rw [heq] at hid
      exact hthere id (Or.inr (Option.some.inj hid))
    | inr hold => exact href₂ k hold id hid
  have hkept : Kept (stagedTables n u p t) := by
    constructor
    · exact apply_sound (apply_sound (apply_sound h.kept.sound h₁) h₂) h₃
    · exact href₃
    · intro r hr
      cases List.mem_cons.1 hr with
      | inl heq =>
        rw [heq]
        show wellBound _ _ _ ((stagedTables n u p t).bound u) = true
        rw [h.bound_new, wellBound_iff]
        refine ⟨?_, Nat.le_refl 2, fun _ => ⟨⟨joined u p, by simp, rfl⟩, rfl⟩⟩
        intro k hk
        cases List.mem_cons.1 hk with
        | inl hnew => exact Or.inr (by rw [hnew]; rfl)
        | inr hrest => exact Or.inl (by rw [List.mem_singleton.1 hrest]; rfl)
      | inr hold =>
        have hid : r.rotationId ≠ u := fun heq => h.id (List.mem_map.2 ⟨r, hold, heq⟩)
        exact wellBound_sublist (h.kept.bound r hold) (h.closed r hold) (bound_sublist hid)
  refine ⟨hkept, commits hkept (Plays.step (statement_one h₁ href₁)
    (Plays.step (statement_one h₂ href₂) (Plays.step (statement_one h₃ href₃) Plays.done))) ?_⟩
  intro e he
  simp only [List.append_nil, List.cons_append, List.nil_append, List.mem_cons, List.not_mem_nil,
    or_false] at he
  obtain rfl | rfl | rfl := he
  · exact List.mem_cons_self
  · intro id hid
    cases List.mem_cons.1 hid with
    | inl heq => exact hthere id (Or.inl (h.kept.references p h.member id heq.symm))
    | inr hrest => exact hthere id (Or.inr (Option.some.inj (List.mem_singleton.1 hrest)).symm)
  · intro id hid
    exact hthere id (Or.inr (Option.some.inj (List.mem_singleton.1 hid)).symm)

end

/-! ## The phases -/

/-- The version is active, by a rotation of that id that is completed. -/
def Rotated (n : ℤ) (u : U) (previous : ℤ) (t : Tables U) : Prop :=
  (∃ r ∈ t.rotations, r.rotationId = u ∧ r.phase = .completed ∧ r.previousKeyVersion = previous ∧
    r.targetKeyVersion = n) ∧
  ∃ k ∈ t.keys, k.keyVersion = n ∧ k.state = .active ∧ k.rotationId = some u

/-- The previous key, from then on only good for verifying. -/
def demoted (u : U) (p : KeyRow U) : KeyRow U :=
  { p with
    state := .verifyOnly
    verifyStartedAt := some p.notBefore
    verifyUntil := some (p.notBefore + 1)
    rotationId := some u }

omit [DecidableEq U] in
theorem demoted_checked {p : KeyRow U} (h : p.Checked) : (demoted u p).Checked := by
  refine ⟨h.version, h.secret, ?_, ?_, Or.inl ⟨rfl, rfl, rfl, rfl⟩, ?_⟩
  · intro v hv
    obtain rfl := Option.some.inj hv
    exact Int.lt_succ p.notBefore
  · simp [demoted]
  · intro v hv s hs
    obtain rfl := Option.some.inj hv
    obtain rfl := Option.some.inj hs
    refine ⟨Int.lt_succ p.notBefore, ?_⟩
    rw [interval]
    omega

theorem Ready.rotate {p : KeyRow U} (h : Ready n u p t) :
    ∃ t', (ledger (U := U)).Later t t' ∧ Rotated n u p.keyVersion t' := by
  obtain ⟨hkept, hstage⟩ := h.stage
  have hp := h.kept.sound.keys p h.member
  have hstaging : (staging n u p).Checked := staging_checked hp h.version h.differ
  -- the rotation is admitted
  have hadmitted : ({ staging n u p with phase := .admitted } : RotationRow U).Checked :=
    ⟨hstaging.previous, hstaging.target, rfl, hstaging.differ, hstaging.window, by simp [staging],
      by simp [staging]⟩
  obtain ⟨hkept₁, hlater₁⟩ := advance ({ staging n u p with phase := .admitted }) hkept
    List.mem_cons_self ⟨rfl, rfl, rfl, rfl, rfl, rfl, rfl, by simp [staging, transitions], fun _ => rfl⟩
    hadmitted fun _ => rfl
  -- the previous key only verifies, and no key is active
  have hmem₂ : joined u p ∈ (stagedTables n u p t).keys :=
    List.mem_cons_of_mem _ (mem_replace_new h.member)
  have hverify : (stagedTables n u p t).keys.countP (fun k => k.state = (demoted u p).state) = 0 := by
    apply List.countP_eq_zero.2
    intro k hk heq
    have hstate : k.state = .verifyOnly := of_decide_eq_true heq
    cases List.mem_cons.1 hk with
    | inl hnew =>
      rw [hnew] at hstate
      cases hstate
    | inr hrest =>
      cases of_mem_replace hrest with
      | inl hjoined =>
        have hpassing := h.settled p h.member
        rw [hjoined] at hstate
        rw [show p.state = .verifyOnly from hstate] at hpassing
        cases hpassing
      | inr hold =>
        have hpassing := h.settled k hold.1
        rw [hstate] at hpassing
        cases hpassing
  obtain ⟨hkept₂, hlater₂⟩ := rekey (demoted u p) hkept₁ hmem₂ (demoted_checked hp) rfl rfl
    (Or.inr (Or.inr hverify))
  -- the target is active
  have hne : stagedKey n u ≠ joined u p := fun heq => h.differ (congrArg KeyRow.keyVersion heq).symm
  have hmem₃ : stagedKey n u ∈ replace (joined u p) (demoted u p) (stagedTables n u p t).keys :=
    mem_replace_other List.mem_cons_self hne
  have hactive : (replace (joined u p) (demoted u p) (stagedTables n u p t).keys).countP
      (fun k => k.state = .active) = 0 := by
    apply List.countP_eq_zero.2
    intro k hk heq
    have hstate : k.state = .active := of_decide_eq_true heq
    cases of_mem_replace hk with
    | inl hnew =>
      rw [hnew] at hstate
      cases hstate
    | inr hold =>
      cases List.mem_cons.1 hold.1 with
      | inl hnew =>
        rw [hnew] at hstate
        cases hstate
      | inr hrest =>
        cases of_mem_replace hrest with
        | inl hjoined => exact hold.2 hjoined
        | inr hkey => exact hkey.2 (h.active k hkey.1 hstate)
  obtain ⟨hkept₃, hlater₃⟩ := rekey ({ stagedKey n u with state := .active }) hkept₂ hmem₃
    ⟨h.version, rfl, by simp [stagedKey], by simp [stagedKey], by simp [stagedKey], by simp [stagedKey]⟩
    rfl rfl (Or.inr (Or.inr hactive))
  -- the rotation is completed
  obtain ⟨hkept₄, hlater₄⟩ := advance
    ({ staging n u p with
      phase := .completed
      completedAt := some 0 }) hkept₃ (mem_replace_new List.mem_cons_self)
    ⟨rfl, rfl, rfl, rfl, rfl, rfl, rfl, by simp [transitions], fun hcompleted => by cases hcompleted⟩
    ⟨hstaging.previous, hstaging.target, rfl, hstaging.differ, hstaging.window, by simp, by simp [staging]⟩
    fun hlive => by cases hlive
  refine ⟨_, hstage.trans (hlater₁.trans (hlater₂.trans (hlater₃.trans hlater₄))), ?_, ?_⟩
  · exact ⟨_, mem_replace_new (mem_replace_new List.mem_cons_self), rfl, rfl, rfl, rfl⟩
  · exact ⟨_, mem_replace_new hmem₃, rfl, rfl, rfl⟩

/-! ## Making ready -/

theorem plant (new : KeyRow U) (ht : Kept t) (hnew : new.Checked) (hfree : new.rotationId = none) (hempty : t.keys = []) :
    Kept ⟨[new], t.rotations⟩ ∧ (ledger (U := U)).Later t ⟨[new], t.rotations⟩ := by
  have hunique : KeysUnique [new] :=
    ⟨List.nodup_singleton _, List.countP_le_length, List.countP_le_length, List.countP_le_length⟩
  have happly : apply (.insertKey new) t = some (⟨[new], t.rotations⟩, .key [none]) := by
    rw [apply, hempty, if_pos ⟨hnew, hunique⟩, hfree]
  have hkept : Kept ⟨[new], t.rotations⟩ := by
    constructor
    · exact apply_sound ht.sound happly
    · intro k hk id hid
      rw [List.mem_singleton.1 hk, hfree] at hid
      cases hid
    · intro r hr
      have hbound : (⟨[new], t.rotations⟩ : Tables U).bound r.rotationId = t.bound r.rotationId := by
        rw [Tables.bound, Tables.bound, hempty, List.filter_cons_of_neg]
        rw [hfree]
        simp
      rw [hbound]
      exact ht.bound r hr
  refine ⟨hkept, commits_one hkept happly ?_⟩
  intro id hid
  cases List.mem_singleton.1 hid

/-- A first key, of a version that is not the one. -/
def firstKey (n : ℤ) : KeyRow U := ⟨if n = 1 then 2 else 1, material, .retired, 0, none, none, none, 0⟩

omit [DecidableEq U] in
theorem firstKey_ne (n : ℤ) : (firstKey n : KeyRow U).keyVersion ≠ n := by
  show (if n = 1 then (2 : ℤ) else 1) ≠ n
  split_ifs with h
  · rw [h]
    decide
  · exact fun heq => h heq.symm

omit [DecidableEq U] in
theorem firstKey_checked (n : ℤ) : (firstKey n : KeyRow U).Checked := by
  refine ⟨?_, rfl, by simp [firstKey], by simp [firstKey], by simp [firstKey], by simp [firstKey]⟩
  show Version (if n = 1 then (2 : ℤ) else 1)
  split_ifs <;> decide

/-- Whatever has happened, a version that is in no table can be made ready for. -/
theorem make_ready (ht : Kept t) (hn : Version n) (hkey : n ∉ t.keys.map KeyRow.keyVersion)
    (htarget : n ∉ t.rotations.map RotationRow.targetKeyVersion)
    (hid : u ∉ t.rotations.map RotationRow.rotationId) :
    ∃ t' p, (ledger (U := U)).Later t t' ∧ Ready n u p t' ∧
      ∀ k ∈ t.keys, k.state = .active → p = k := by
  obtain ⟨rotations, hkept₁, hlater₁, hclosed, hids, htargets⟩ := settle ht
  obtain ⟨keys, hkept₂, hlater₂, hsettled, hversions, hactive⟩ := retire hkept₁
  rw [← hids] at hid
  rw [← htargets] at htarget
  rw [← hversions] at hkey
  have hlater := hlater₁.trans hlater₂
  cases hkeys : keys with
  | nil =>
    rw [hkeys] at hkept₂ hlater
    obtain ⟨hkept₃, hlater₃⟩ := plant _ hkept₂ (firstKey_checked n) rfl rfl
    refine ⟨_, firstKey n, hlater.trans hlater₃, ?_, ?_⟩
    · refine ⟨hkept₃, hclosed, ?_, hn, ?_, htarget, hid, List.mem_cons_self, ?_⟩
      · intro k hk
        rw [List.mem_singleton.1 hk]
        rfl
      · intro hmem
        exact firstKey_ne n (List.mem_singleton.1 hmem).symm
      · intro k hk _
        exact List.mem_singleton.1 hk
    · intro k hk hstate
      have hnone := hactive k hk hstate
      rw [hkeys] at hnone
      cases hnone
  | cons first rest =>
    have hone : ∀ k ∈ keys, ∀ k' ∈ keys, k.state = .active → k'.state = .active → k = k' := by
      intro k hk k' hk' hstate hstate'
      by_contra hne
      have hpair : [k, k'].Subperm keys := by
        apply List.subperm_of_subset
        · simp [hne]
        · intro a ha
          cases List.mem_cons.1 ha with
          | inl heq => exact heq ▸ hk
          | inr hlast => exact List.mem_singleton.1 hlast ▸ hk'
      have hcount := hpair.countP_le fun k => decide (k.state = .active)
      have htwo : [k, k'].countP (fun k => decide (k.state = .active)) = 2 := by
        simp [hstate, hstate']
      have hmost : keys.countP (fun k => decide (k.state = .active)) ≤ 1 := hkept₂.sound.keysUnique.active
      omega
    by_cases hany : ∃ k ∈ keys, k.state = .active
    · obtain ⟨p, hp, hstate⟩ := hany
      refine ⟨_, p, hlater, ⟨hkept₂, hclosed, hsettled, hn, hkey, htarget, hid, hp, ?_⟩, ?_⟩
      · intro k hk hk'
        exact hone k hk p hp hk' hstate
      · intro k hk hk'
        exact hone p hp k (hactive k hk hk') hstate hk'
    · have hfirst : first ∈ keys := hkeys ▸ List.mem_cons_self
      refine ⟨_, first, hlater, ⟨hkept₂, hclosed, hsettled, hn, hkey, htarget, hid, hfirst, ?_⟩, ?_⟩
      · intro k hk hk'
        exact absurd ⟨k, hk, hk'⟩ hany
      · intro k hk hk'
        exact absurd ⟨k, hactive k hk hk', hk'⟩ hany

/-! ## Everything that the ledger keeps -/

/-- A rotation that is open is bound by the two keys it names. -/
theorem Kept.members (ht : Kept t) (hr : r ∈ t.rotations) (hopen : r.phase.closed = false) :
    ((t.bound r.rotationId).map KeyRow.keyVersion).Perm [r.previousKeyVersion, r.targetKeyVersion] := by
  obtain ⟨hmembers, -, hboth⟩ := wellBound_iff.1 (ht.bound r hr)
  apply List.Subperm.perm_of_length_le
  · apply List.subperm_of_subset
    · exact ht.sound.keysUnique.version.sublist (List.filter_sublist.map _)
    · intro v hv
      obtain ⟨k, hk, rfl⟩ := List.mem_map.1 hv
      cases hmembers k hk with
      | inl hprevious => exact hprevious ▸ List.mem_cons_self
      | inr htarget => exact htarget ▸ List.mem_cons_of_mem _ List.mem_cons_self
  · rw [List.length_map, (hboth hopen).2]
    exact Nat.le_refl 2

theorem Kept.named (ht : Kept t) (hk : k ∈ t.keys) {id : U} (hid : k.rotationId = some id) :
    ∃ r ∈ t.rotations, r.rotationId = id ∧
      (k.keyVersion = r.previousKeyVersion ∨ k.keyVersion = r.targetKeyVersion) := by
  obtain ⟨r, hr, rfl⟩ := ht.references k hk id hid
  have hbound : k ∈ t.bound r.rotationId := List.mem_filter.2 ⟨hk, decide_eq_true hid⟩
  exact ⟨r, hr, rfl, (wellBound_iff.1 (ht.bound r hr)).1 k hbound⟩

/-- What every committed state is like, what stays of it, and that it can go on. -/
theorem ledger_keeps_keys (h : (ledger (U := U)).Reachable t) :
    AtMostOne .active t.keys ∧ AtMostOne .staged t.keys ∧ AtMostOne .verifyOnly t.keys ∧
    t.rotations.countP (fun r => r.phase.live) ≤ 1 ∧
    (∀ r ∈ t.rotations, r.phase.closed = false →
      ((t.bound r.rotationId).map KeyRow.keyVersion).Perm [r.previousKeyVersion, r.targetKeyVersion]) ∧
    (∀ k ∈ t.keys, ∀ id ∈ k.rotationId, ∃ r ∈ t.rotations, r.rotationId = id ∧
      (k.keyVersion = r.previousKeyVersion ∨ k.keyVersion = r.targetKeyVersion)) ∧
    (t.rotations.map RotationRow.rotationId).Nodup ∧
    (t.rotations.map RotationRow.targetKeyVersion).Nodup ∧
    (∀ t', (ledger (U := U)).Later t t' → History t t') ∧
    ∀ n u, Version n → n ∉ t.keys.map KeyRow.keyVersion →
      n ∉ t.rotations.map RotationRow.targetKeyVersion → u ∉ t.rotations.map RotationRow.rotationId →
      ∃ t' previous, (ledger (U := U)).Later t t' ∧ Rotated n u previous t' ∧
        ∀ k ∈ t.keys, k.state = .active → previous = k.keyVersion := by
  have ht := kept_run h
  refine ⟨ht.sound.keysUnique.active, ht.sound.keysUnique.staged, ht.sound.keysUnique.verifyOnly,
    ht.sound.rotationsUnique.live, fun r hr => ht.members hr, fun k hk id hid => ht.named hk hid,
    ht.sound.rotationsUnique.id, ht.sound.rotationsUnique.target, fun t' => history_later, ?_⟩
  intro n u hn hkey htarget hid
  obtain ⟨t₁, p, hlater, hready, hprevious⟩ := make_ready ht hn hkey htarget hid
  obtain ⟨t₂, hlater', hrotated⟩ := hready.rotate
  exact ⟨t₂, p.keyVersion, hlater.trans hlater', hrotated, fun k hk hk' => by rw [hprevious k hk hk']⟩

/-- A ledger with one key, which is active. -/
def sampleKey : KeyRow ℕ := ⟨1, material, .active, 0, none, none, none, 0⟩

theorem ledger_keeps_keys_sample :
    ∃ t' previous, (ledger (U := ℕ)).Later ⟨[sampleKey], []⟩ t' ∧ Rotated 2 7 previous t' ∧
      previous = sampleKey.keyVersion := by
  have hempty : (ledger (U := ℕ)).Reachable ⟨[], []⟩ := .start rfl
  obtain ⟨-, hlater⟩ := plant sampleKey (kept_run hempty) (by decide) rfl rfl
  have hreach := System.reachable_later hempty hlater
  obtain ⟨-, -, -, -, -, -, -, -, -, hlive⟩ := ledger_keeps_keys hreach
  obtain ⟨t', previous, hlater, hrotated, hprevious⟩ := hlive 2 7 (by decide) (by decide) (by decide) (by decide)
  exact ⟨t', previous, hlater, hrotated, hprevious sampleKey List.mem_cons_self rfl⟩

end RagPipeline.KeyLedger
