import Mathlib.Data.Int.Notation
import Mathlib.Data.List.Nodup
import Mathlib.Order.Lattice

/-! # Rotating entries

Values under names, published all together and again and again. What is no longer
published stays for a while, and how long it stays is counted from the publication
that it was first missing from. -/

set_option autoImplicit false

namespace RagPipeline.Rotation

variable {κ ν : Type}

structure Entry (ν : Type) where
  value : ν
  retiredAt : Option ℤ
deriving DecidableEq

/-- What was taken in and when, the latest first. -/
abbrev History (κ ν : Type) := List (ℤ × List (κ × ν))

variable [BEq κ]

/-- The latest publication has the value under the name. -/
def Latest (h : History κ ν) (k : κ) (v : ν) : Prop :=
  ∃ t fresh rest, h = (t, fresh) :: rest ∧ fresh.lookup k = some v

/-- The last publication that had the name had this value under it, and the one after it was
taken in at this time. -/
def MissingSince (h : History κ ν) (k : κ) (v : ν) (m : ℤ) : Prop :=
  ∃ newer fresh t old rest, h = newer ++ (m, fresh) :: (t, old) :: rest ∧ old.lookup k = some v ∧
    fresh.lookup k = none ∧ ∀ e ∈ newer, e.2.lookup k = none

/-- What is to be said of a name after so many publications, however long ago. -/
def settled : History κ ν → κ → Option (Entry ν)
  | [], _ => none
  | (t, fresh) :: rest, k =>
    match fresh.lookup k with
    | some v => some ⟨v, none⟩
    | none => (settled rest k).map fun e => ⟨e.value, some (e.retiredAt.getD t)⟩

/-- How an entry goes through the next publication. -/
def keep (overlap now : ℤ) (fresh : List (κ × ν)) (p : κ × Entry ν) : Option (κ × Entry ν) :=
  if (fresh.lookup p.1).isSome then none
  else if now - p.2.retiredAt.getD now ≤ overlap then
    some (p.1, ⟨p.2.value, some (p.2.retiredAt.getD now)⟩)
  else none

def merge (overlap now : ℤ) (fresh : List (κ × ν)) (old : List (κ × Entry ν)) :
    List (κ × Entry ν) :=
  old.filterMap (keep overlap now fresh) ++ fresh.map fun p => (p.1, ⟨p.2, none⟩)

/-- Whether an entry is still there after the latest publication. -/
def stays (overlap : ℤ) : History κ ν → Entry ν → Bool
  | _, ⟨_, none⟩ => true
  | [], ⟨_, some _⟩ => false
  | (t, _) :: _, ⟨_, some m⟩ => decide (t - m ≤ overlap)

/-- The entries after a history: what is to be said of each name, unless that is too old. -/
structure Follows (overlap : ℤ) (h : History κ ν) (cache : List (κ × Entry ν)) : Prop where
  nodup : (cache.map Prod.fst).Nodup
  lookup : ∀ k, cache.lookup k = (settled h k).filter (stays overlap h)

variable {h : History κ ν} {k : κ} {v : ν} {m overlap now : ℤ} {fresh : List (κ × ν)}
  {old cache : List (κ × Entry ν)} {e : Entry ν}

/-! ## What a history says of a name -/

theorem settled_latest (hs : settled h k = some ⟨v, none⟩) : Latest h k v := by
  cases h with
  | nil => cases hs
  | cons p rest =>
    obtain ⟨t, fresh⟩ := p
    rw [settled] at hs
    cases hfresh : fresh.lookup k with
    | some w =>
      rw [hfresh] at hs
      obtain rfl : w = v := congrArg Entry.value (Option.some.inj hs)
      exact ⟨t, fresh, rest, rfl, hfresh⟩
    | none =>
      rw [hfresh] at hs
      obtain ⟨e, -, he⟩ := Option.map_eq_some_iff.1 hs
      cases congrArg Entry.retiredAt he

theorem Latest.settled (hl : Latest h k v) : settled h k = some ⟨v, none⟩ := by
  obtain ⟨t, fresh, rest, rfl, hfresh⟩ := hl
  rw [Rotation.settled, hfresh]

theorem settled_missing (hs : settled h k = some ⟨v, some m⟩) : MissingSince h k v m := by
  induction h with
  | nil => cases hs
  | cons p rest ih =>
    obtain ⟨t, fresh⟩ := p
    rw [settled] at hs
    cases hfresh : fresh.lookup k with
    | some w =>
      rw [hfresh] at hs
      cases congrArg Entry.retiredAt (Option.some.inj hs)
    | none =>
      rw [hfresh] at hs
      obtain ⟨⟨w, retired⟩, he, heq⟩ := Option.map_eq_some_iff.1 hs
      obtain rfl : w = v := congrArg Entry.value heq
      have hm : retired.getD t = m := Option.some.inj (congrArg Entry.retiredAt heq)
      cases retired with
      | none =>
        obtain rfl : t = m := hm
        obtain ⟨t', old, rest', rfl, hold⟩ := settled_latest he
        exact ⟨[], fresh, t', old, rest', rfl, hold, hfresh, fun e he => by cases he⟩
      | some m' =>
        obtain rfl : m' = m := hm
        obtain ⟨newer, fresh', t', old, rest', rfl, hold, hmissing, hnewer⟩ := ih he
        have hall : ∀ e ∈ (t, fresh) :: newer, e.2.lookup k = none := by
          intro e he
          cases List.mem_cons.1 he with
          | inl heq => rw [heq, hfresh]
          | inr hmem => exact hnewer e hmem
        exact ⟨(t, fresh) :: newer, fresh', t', old, rest', rfl, hold, hmissing, hall⟩

theorem MissingSince.mem (hm : MissingSince h k v m) : ∃ fresh, (m, fresh) ∈ h := by
  obtain ⟨newer, fresh, t, old, rest, rfl, -⟩ := hm
  exact ⟨fresh, List.mem_append_right _ List.mem_cons_self⟩

/-! ## One more publication -/

theorem keep_fst {p q : κ × Entry ν} (h : keep overlap now fresh p = some q) : q.1 = p.1 := by
  rw [keep] at h
  split_ifs at h
  rw [← Option.some.inj h]

theorem keep_unlisted {p q : κ × Entry ν} (h : keep overlap now fresh p = some q) :
    fresh.lookup p.1 = none := by
  rw [keep] at h
  split_ifs at h with hlisted
  exact Option.not_isSome_iff_eq_none.1 hlisted

theorem keep_retired {p q : κ × Entry ν} (h : keep overlap now fresh p = some q) :
    q.2.retiredAt.isSome := by
  rw [keep] at h
  split_ifs at h
  rw [← Option.some.inj h]
  rfl

theorem kept_sublist : ((old.filterMap (keep overlap now fresh)).map Prod.fst).Sublist
    (old.map Prod.fst) := by
  induction old with
  | nil => exact List.Sublist.refl _
  | cons p rest ih =>
    rw [List.filterMap_cons]
    cases hp : keep overlap now fresh p with
    | none => exact ih.cons _
    | some q =>
      show List.Sublist (q.1 :: (rest.filterMap (keep overlap now fresh)).map Prod.fst) _
      rw [keep_fst hp]
      exact ih.cons_cons _

theorem published_lookup (fresh : List (κ × ν)) (k : κ) :
    (fresh.map fun p => (p.1, (⟨p.2, none⟩ : Entry ν))).lookup k =
      (fresh.lookup k).map fun v => ⟨v, none⟩ := by
  induction fresh with
  | nil => rfl
  | cons p rest ih =>
    rw [List.map_cons, List.lookup_cons, List.lookup_cons]
    cases hk : k == p.1 with
    | true => rfl
    | false => exact ih

theorem follows_nil : Follows overlap ([] : History κ ν) [] :=
  ⟨List.nodup_nil, fun _ => rfl⟩

/-! ## How many there are -/

def unretired (cache : List (κ × Entry ν)) : List (κ × Entry ν) :=
  cache.filter fun p => p.2.retiredAt.isNone

theorem merge_unretired : (unretired (merge overlap now fresh old)).length = fresh.length := by
  have hkept : unretired (old.filterMap (keep overlap now fresh)) = [] := by
    apply List.filter_eq_nil_iff.2
    intro q hq
    obtain ⟨p, -, hp⟩ := List.mem_filterMap.1 hq
    have hretired := keep_retired hp
    rw [Option.isNone_eq_false_iff.2 hretired]
    exact Bool.false_ne_true
  have hfresh : unretired (fresh.map fun p => (p.1, (⟨p.2, none⟩ : Entry ν))) =
      fresh.map fun p => (p.1, ⟨p.2, none⟩) := by
    apply List.filter_eq_self.2
    intro q hq
    obtain ⟨p, -, rfl⟩ := List.mem_map.1 hq
    rfl
  rw [merge, unretired, List.filter_append]
  show (unretired _ ++ unretired _).length = _
  rw [hkept, hfresh, List.nil_append, List.length_map]

variable (fresh) in
/-- Where everything retired is too old by now, only what was published last is kept. -/
theorem merge_length (hold : ∀ p ∈ old, ∀ m ∈ p.2.retiredAt, overlap < now - m) :
    (merge overlap now fresh old).length ≤ (unretired old).length + fresh.length := by
  rw [merge, List.length_append, List.length_map]
  apply Nat.add_le_add_right
  induction old with
  | nil => exact Nat.le_refl 0
  | cons p rest ih =>
    have hrest := ih fun q hq => hold q (List.mem_cons_of_mem p hq)
    obtain ⟨k, v, retired⟩ := p
    cases retired with
    | none =>
      have hun : unretired ((k, ⟨v, none⟩) :: rest) = (k, (⟨v, none⟩ : Entry ν)) :: unretired rest := rfl
      rw [hun, List.filterMap_cons, List.length_cons]
      cases keep overlap now fresh (k, ⟨v, none⟩) with
      | none => exact Nat.le_succ_of_le hrest
      | some q => exact Nat.succ_le_succ hrest
    | some m =>
      have hun : unretired ((k, ⟨v, some m⟩) :: rest) = unretired rest := rfl
      have hgone : keep overlap now fresh (k, ⟨v, some m⟩) = none := by
        have hlt : overlap < now - m := hold _ List.mem_cons_self m rfl
        rw [keep]
        split_ifs with hlisted hyoung
        · rfl
        · exact absurd hyoung (not_le.2 hlt)
        · rfl
      rw [hun, List.filterMap_cons, hgone]
      exact hrest

/-! ## What it says of a name -/

variable [LawfulBEq κ]

theorem lookup_of_mem {α : Type} {l : List (κ × α)} {a : α} (hnodup : (l.map Prod.fst).Nodup)
    (hmem : (k, a) ∈ l) : l.lookup k = some a := by
  induction l with
  | nil => cases hmem
  | cons p rest ih =>
    obtain ⟨k', b⟩ := p
    rw [List.map_cons, List.nodup_cons] at hnodup
    rw [List.lookup_cons]
    cases List.mem_cons.1 hmem with
    | inl heq =>
      cases heq
      simp
    | inr hrest =>
      have hne : (k == k') = false := by
        apply beq_eq_false_iff_ne.2
        intro heq
        exact hnodup.1 (List.mem_map.2 ⟨(k, a), hrest, heq⟩)
      rw [hne]
      exact ih hnodup.2 hrest

theorem lookup_none_iff {α : Type} {l : List (κ × α)} : l.lookup k = none ↔ k ∉ l.map Prod.fst := by
  rw [List.lookup_eq_none_iff]
  constructor
  · intro h hmem
    obtain ⟨p, hp, hk⟩ := List.mem_map.1 hmem
    have := h p hp
    rw [hk] at this
    simp at this
  · intro h p hp
    have hne : k ≠ p.1 := fun heq => h (List.mem_map.2 ⟨p, hp, heq.symm⟩)
    simp [hne]

theorem kept_lookup (hnodup : (old.map Prod.fst).Nodup) (k : κ) :
    (old.filterMap (keep overlap now fresh)).lookup k =
      (old.lookup k).bind fun e => (keep overlap now fresh (k, e)).map Prod.snd := by
  induction old with
  | nil => rfl
  | cons p rest ih =>
    obtain ⟨k', e⟩ := p
    rw [List.map_cons, List.nodup_cons] at hnodup
    rw [List.filterMap_cons, List.lookup_cons]
    by_cases hk : k = k'
    · obtain rfl := hk
      rw [beq_self_eq_true]
      cases hp : keep overlap now fresh (k, e) with
      | none =>
        have habsent : k ∉ (rest.filterMap (keep overlap now fresh)).map Prod.fst :=
          fun hmem => hnodup.1 (kept_sublist.subset hmem)
        show List.lookup k (rest.filterMap (keep overlap now fresh)) = _
        rw [lookup_none_iff.2 habsent]
        simp [hp]
      | some q =>
        obtain ⟨k'', e'⟩ := q
        obtain rfl : k'' = k := keep_fst hp
        simp [hp]
    · rw [beq_eq_false_iff_ne.2 hk]
      cases hp : keep overlap now fresh (k', e) with
      | none => exact ih hnodup.2
      | some q =>
        have hne : (k == q.1) = false := by
          rw [keep_fst hp]
          exact beq_eq_false_iff_ne.2 hk
        show List.lookup k (q :: rest.filterMap (keep overlap now fresh)) = _
        rw [List.lookup_cons, hne]
        exact ih hnodup.2

theorem merge_lookup_some (hnodup : (old.map Prod.fst).Nodup) (hk : fresh.lookup k = some v) :
    (merge overlap now fresh old).lookup k = some ⟨v, none⟩ := by
  have hkept : (old.filterMap (keep overlap now fresh)).lookup k = none := by
    rw [kept_lookup hnodup]
    cases old.lookup k with
    | none => rfl
    | some e => simp [keep, hk]
  rw [merge, List.lookup_append, hkept, published_lookup, hk]
  rfl

theorem merge_lookup_none (hnodup : (old.map Prod.fst).Nodup) (hk : fresh.lookup k = none) :
    (merge overlap now fresh old).lookup k = (old.lookup k).bind fun e =>
      if now - e.retiredAt.getD now ≤ overlap then some ⟨e.value, some (e.retiredAt.getD now)⟩
      else none := by
  rw [merge, List.lookup_append, kept_lookup hnodup, published_lookup, hk, Option.map_none,
    Option.or_none]
  cases old.lookup k with
  | none => rfl
  | some e =>
    simp only [Option.bind_some, keep, hk, Option.isSome_none, Bool.false_eq_true, if_false]
    split_ifs
    · rfl
    · rfl

theorem merge_nodup (hold : (old.map Prod.fst).Nodup) (hfresh : (fresh.map Prod.fst).Nodup) :
    ((merge overlap now fresh old).map Prod.fst).Nodup := by
  rw [merge, List.map_append, List.map_map]
  apply List.Nodup.append (hold.sublist kept_sublist) hfresh
  intro k hkept hlisted
  obtain ⟨q, hq, rfl⟩ := List.mem_map.1 hkept
  obtain ⟨p, -, hp⟩ := List.mem_filterMap.1 hq
  have hnone := keep_unlisted hp
  rw [← keep_fst hp] at hnone
  exact lookup_none_iff.1 hnone hlisted

/-- The step: taking in one more publication, no earlier than the latest. -/
theorem Follows.merge (hf : Follows overlap h cache) (hfresh : (fresh.map Prod.fst).Nodup)
    (hnow : ∀ p ∈ h, p.1 ≤ now) :
    Follows overlap ((now, fresh) :: h) (merge overlap now fresh cache) := by
  refine ⟨merge_nodup hf.nodup hfresh, fun k => ?_⟩
  rw [settled]
  cases hk : fresh.lookup k with
  | some v =>
    rw [merge_lookup_some hf.nodup hk]
    rfl
  | none =>
    rw [merge_lookup_none hf.nodup hk, hf.lookup]
    cases hs : settled h k with
    | none => rfl
    | some e =>
      obtain ⟨w, retired⟩ := e
      cases retired with
      | none =>
        simp [stays, Option.filter]
      | some m =>
        obtain ⟨_, hmem⟩ := (settled_missing hs).mem
        cases h with
        | nil => cases hmem
        | cons p rest =>
          obtain ⟨t, latest⟩ := p
          have ht : t ≤ now := hnow _ List.mem_cons_self
          simp only [Option.filter, Option.map_some, stays, Option.getD_some, decide_eq_true_eq]
          by_cases hold : t - m ≤ overlap
          · simp [hold]
          · have hnew : ¬ now - m ≤ overlap := by omega
            simp [hold, hnew]

/-- What is retired was first missing from a publication of the history. -/
theorem Follows.retired_mem (hf : Follows overlap h cache) {p : κ × Entry ν} (hp : p ∈ cache)
    (hm : p.2.retiredAt = some m) : ∃ fresh, (m, fresh) ∈ h := by
  obtain ⟨k, v, retired⟩ := p
  obtain rfl : retired = some m := hm
  have hlookup := lookup_of_mem hf.nodup hp
  rw [hf.lookup] at hlookup
  exact (settled_missing (Option.filter_eq_some_iff.1 hlookup).1).mem

end RagPipeline.Rotation
