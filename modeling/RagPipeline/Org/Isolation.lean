import RagPipeline.Org.Scripts
import Mathlib.Data.Set.Basic

/-! # What a transaction does to its tenant

A transaction of the organisation acts for one tenant. What it has written so
far is confined to the memberships and architects of that tenant and to the
bindings it has locked, so it can be judged by the tenant's slice of the store
alone: by a manager, who has locked the tenant and sees a slice nobody else
changes, and by a founder, who has not. -/

set_option autoImplicit false

namespace RagPipeline.Org
open Guard Locks

@[ext] structure Slice where
  members : Set Uuid
  architects : Set Uuid
  bound : Set Uuid

def Store.slice (s : Store) (t : Uuid) : Slice where
  members := {x | s.memberOf x t}
  architects := {x | s.architectOf x t}
  bound := {x | s.bound x t}

/-- Exactly those with authority are bound. -/
def Slice.Exact (p : Slice) : Prop := ∀ x, x ∈ p.bound ↔ x ∈ p.members ∨ x ∈ p.architects

theorem slice_eq {s s' : Store} {t : Uuid} (hm : ∀ x, s.memberOf x t ↔ s'.memberOf x t)
    (ha : ∀ x, s.architectOf x t ↔ s'.architectOf x t)
    (hb : ∀ x, s.bound x t ↔ s'.bound x t) : s.slice t = s'.slice t := by
  ext x
  · exact hm x
  · exact ha x
  · exact hb x

section
variable {s s' : Store} {t : Uuid} (h : s.slice t = s'.slice t) (x : Uuid)
include h

theorem memberOf_of_slice : s.memberOf x t ↔ s'.memberOf x t :=
  iff_of_eq (congrArg (fun p : Slice => x ∈ p.members) h)

theorem architectOf_of_slice : s.architectOf x t ↔ s'.architectOf x t :=
  iff_of_eq (congrArg (fun p : Slice => x ∈ p.architects) h)

theorem bound_of_slice : s.bound x t ↔ s'.bound x t :=
  iff_of_eq (congrArg (fun p : Slice => x ∈ p.bound) h)

theorem authority_of_slice : s.authority x t ↔ s'.authority x t :=
  or_congr (memberOf_of_slice h x) (architectOf_of_slice h x)

end

/-- No identity is bound to two tenants. -/
def Store.Sole (s : Store) : Prop := ∀ x t u, s.bound x t → s.bound x u → t = u

def Store.architectsActive (s : Store) : Prop := ∀ a ∈ s.architects, a.active = true

theorem architectOf_of_architect {s : Store} {t x : Uuid} (h : s.architectsActive)
    (ha : s.architect t x ≠ none) : s.architectOf x t := by
  obtain ⟨a, ha⟩ := Option.ne_none_iff_exists'.1 ha
  have hmem := List.mem_of_find?_eq_some ha
  have hkey : a.tenantId = t ∧ a.identityId = x := by simpa using List.find?_some ha
  exact ⟨a, hmem, hkey.1, hkey.2, h a hmem⟩

/-- The tables that authority rests on stay as they are. -/
def Same (f : Store → Store) : Prop :=
  ∀ c, (f c).memberships = c.memberships ∧ (f c).architects = c.architects ∧
    (f c).bindings = c.bindings

theorem same_id : Same id := fun _ => ⟨rfl, rfl, rfl⟩

section
variable {f : Store → Store} (h : Same f) (c : Store) (x t : Uuid)
include h

theorem Same.memberOf : (f c).memberOf x t ↔ c.memberOf x t := by
  rw [Store.memberOf, (h c).1, Store.memberOf]

theorem Same.architectOf : (f c).architectOf x t ↔ c.architectOf x t := by
  rw [Store.architectOf, (h c).2.1, Store.architectOf]

theorem Same.bound : (f c).bound x t ↔ c.bound x t := by
  rw [Store.bound, (h c).2.2, Store.bound]

omit x t in
theorem Same.sole {c : Store} (hc : c.Sole) : (f c).Sole :=
  fun x t u ht hu => hc x t u ((h.bound c x t).1 ht) ((h.bound c x u).1 hu)

theorem Same.slice : (f c).slice t = c.slice t :=
  slice_eq (fun _ => h.memberOf c _ _) (fun _ => h.architectOf c _ _) (fun _ => h.bound c _ _)

end

/-- A change confined to one tenant and the bindings of some identities. -/
structure Confined (t : Uuid) (K : Uuid → Prop) (f : Store → Store) : Prop where
  slice : ∀ c c', c.slice t = c'.slice t → (f c).slice t = (f c').slice t
  members : ∀ c x u, u ≠ t → ((f c).memberOf x u ↔ c.memberOf x u)
  architects : ∀ c x u, u ≠ t → ((f c).architectOf x u ↔ c.architectOf x u)
  unkeyed : ∀ c x, ¬ K x → ∀ u, (f c).bound x u ↔ c.bound x u
  keyed : ∀ c x, K x → (∀ u, c.bound x u → u = t) → ∀ u, (f c).bound x u → u = t
  cell : ∀ c c' x, (∀ u, c.bound x u ↔ c'.bound x u) → ∀ u, (f c).bound x u ↔ (f c').bound x u
  active : ∀ c, c.architectsActive → (f c).architectsActive
  kept : ∀ c x, c.architectOf x t → (f c).architectOf x t

section
variable {t : Uuid} {K L : Uuid → Prop} {f g : Store → Store}

theorem Same.confined (h : Same f) : Confined t (fun _ => False) f where
  slice c c' hc := by rw [h.slice, h.slice, hc]
  members c x u _ := h.memberOf c x u
  architects c x u _ := h.architectOf c x u
  unkeyed c x _ u := h.bound c x u
  keyed c x hx := hx.elim
  cell c c' x hc u := by rw [h.bound, h.bound, hc]
  active c hc := by rw [Store.architectsActive, (h c).2.1]; exact hc
  kept c x := (h.architectOf c x t).2

/-- The binding of one identity at a time. -/
theorem Confined.sole (h : Confined t K f) {c : Store} {x : Uuid} (hc : ∀ u, c.bound x u → u = t) :
    ∀ u, (f c).bound x u → u = t := by
  intro u hu
  by_cases hx : K x
  · exact h.keyed c x hx hc u hu
  · exact hc u ((h.unkeyed c x hx u).1 hu)

theorem Confined.comp (hg : Confined t L g) (hf : Confined t K f) :
    Confined t (fun x => K x ∨ L x) fun c => g (f c) where
  slice c c' hc := hg.slice _ _ (hf.slice c c' hc)
  members c x u hu := (hg.members _ x u hu).trans (hf.members c x u hu)
  architects c x u hu := (hg.architects _ x u hu).trans (hf.architects c x u hu)
  unkeyed c x hx u :=
    (hg.unkeyed _ x (fun h => hx (.inr h)) u).trans (hf.unkeyed c x (fun h => hx (.inl h)) u)
  keyed _ _ _ hc := hg.sole (hf.sole hc)
  cell c c' x hc := hg.cell _ _ x (hf.cell c c' x hc)
  active c hc := hg.active _ (hf.active c hc)
  kept c x hc := hg.kept _ x (hf.kept c x hc)

theorem Confined.mono (h : Confined t K f) (hK : ∀ x, K x → L x) : Confined t L f where
  slice := h.slice
  members := h.members
  architects := h.architects
  unkeyed c x hx := h.unkeyed c x fun hk => hx (hK x hk)
  keyed _ _ _ hc := h.sole hc
  cell := h.cell
  active := h.active
  kept := h.kept

theorem confined_bind (x : Uuid) : Confined t (· = x) (Store.bind x t) where
  slice c c' hc := slice_eq (fun y => (memberOf_of_slice hc y :))
    (fun y => (architectOf_of_slice hc y :)) fun y => by
    rw [Store.bound_bind, Store.bound_bind, bound_of_slice hc]
  members _ _ _ _ := Iff.rfl
  architects _ _ _ _ := Iff.rfl
  unkeyed c y hy u := by rw [Store.bound_bind, if_neg hy]
  keyed c y hy _ u hu := by rwa [Store.bound_bind, if_pos hy] at hu
  cell c c' y hc u := by rw [Store.bound_bind, Store.bound_bind, hc]
  active _ hc := hc
  kept _ _ hc := hc

theorem confined_unbind (x : Uuid) : Confined t (· = x) (Store.unbind x t) where
  slice c c' hc := slice_eq (fun y => (memberOf_of_slice hc y :))
    (fun y => (architectOf_of_slice hc y :)) fun y => by
    rw [Store.bound_unbind, Store.bound_unbind, bound_of_slice hc]
  members _ _ _ _ := Iff.rfl
  architects _ _ _ _ := Iff.rfl
  unkeyed c y hy u := by
    rw [Store.bound_unbind]
    exact and_iff_left fun h => hy h.1
  keyed c y _ hc u hu := hc u (Store.bound_unbind.1 hu).1
  cell c c' y hc u := by rw [Store.bound_unbind, Store.bound_unbind, hc]
  active _ hc := hc
  kept _ _ hc := hc

theorem confined_putMembership {m : MembershipRow} (hm : m.tenantId = t) :
    Confined t (fun _ => False) (Store.putMembership m) where
  slice c c' hc := slice_eq
    (fun y => by rw [Store.memberOf_putMembership, Store.memberOf_putMembership,
      memberOf_of_slice hc])
    (fun y => (architectOf_of_slice hc y :)) (fun y => (bound_of_slice hc y :))
  members c x u hu := by
    rw [Store.memberOf_putMembership, if_neg fun h => hu (h.1.symm.trans hm)]
  architects _ _ _ _ := Iff.rfl
  unkeyed _ _ _ _ := Iff.rfl
  keyed _ _ hx := hx.elim
  cell _ _ _ hc := hc
  active _ hc := hc
  kept _ _ hc := hc

theorem confined_deleteMemberships : Confined t (fun _ => False) (Store.deleteMemberships t) where
  slice c c' hc := slice_eq
    (fun y => by rw [Store.memberOf_deleteMemberships, Store.memberOf_deleteMemberships,
      memberOf_of_slice hc])
    (fun y => (architectOf_of_slice hc y :)) (fun y => (bound_of_slice hc y :))
  members c x u hu := by
    rw [Store.memberOf_deleteMemberships]
    exact and_iff_right hu
  architects _ _ _ _ := Iff.rfl
  unkeyed _ _ _ _ := Iff.rfl
  keyed _ _ hx := hx.elim
  cell _ _ _ hc := hc
  active _ hc := hc
  kept _ _ hc := hc

theorem confined_putArchitect (x : Uuid) :
    Confined t (fun _ => False) (Store.putArchitect ⟨t, x, true⟩) where
  slice c c' hc := slice_eq (fun y => (memberOf_of_slice hc y :))
    (fun y => by rw [Store.architectOf_putArchitect, Store.architectOf_putArchitect,
      architectOf_of_slice hc])
    (fun y => (bound_of_slice hc y :))
  members _ _ _ _ := Iff.rfl
  architects c y u hu := by
    rw [Store.architectOf_putArchitect, if_neg fun h => hu h.1.symm]
  unkeyed _ _ _ _ := Iff.rfl
  keyed _ _ hx := hx.elim
  cell _ _ _ hc := hc
  active c hc a ha := by
    rcases List.mem_cons.1 ha with rfl | ha
    · rfl
    · exact hc a (List.mem_filter.1 ha).1
  kept c y hc := by
    rw [Store.architectOf_putArchitect]
    split
    · rfl
    · exact hc

end

end RagPipeline.Org
