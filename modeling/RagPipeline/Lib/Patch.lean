import Mathlib.Logic.Function.Basic
import Mathlib.Data.List.Perm.Basic
import Mathlib.Data.List.Nodup

/-! # Patches

A patch is a list of edits to a partial map: each names a key and the value it
has afterwards, `none` where it is taken away. Where no key is named twice the
order of the edits says nothing, and a patch leads from one map to another
exactly when its edits are the second map's values and the maps agree
elsewhere. -/

set_option autoImplicit false

namespace RagPipeline.Patch

variable {κ υ : Type} [DecidableEq κ]

def patch (edits : List (κ × Option υ)) (f : κ → Option υ) : κ → Option υ :=
  edits.foldl (fun f e => Function.update f e.1 e.2) f

variable {edits : List (κ × Option υ)} {f g : κ → Option υ} {k : κ}

@[simp] theorem patch_nil : patch [] f = f := rfl

@[simp] theorem patch_cons (e : κ × Option υ) :
    patch (e :: edits) f = patch edits (Function.update f e.1 e.2) := rfl

theorem patch_of_notMem (h : k ∉ edits.map Prod.fst) : patch edits f k = f k := by
  induction edits generalizing f with
  | nil => rfl
  | cons e rest ih =>
    simp only [List.map_cons, List.mem_cons, not_or] at h
    rw [patch_cons, ih h.2, Function.update_of_ne h.1]

theorem patch_of_mem {v : Option υ} (hn : (edits.map Prod.fst).Nodup) (h : (k, v) ∈ edits) :
    patch edits f k = v := by
  induction edits generalizing f with
  | nil => cases h
  | cons e rest ih =>
    simp only [List.map_cons, List.nodup_cons] at hn
    rcases List.mem_cons.1 h with rfl | h
    · rw [patch_cons, patch_of_notMem hn.1, Function.update_self]
    · rw [patch_cons, ih hn.2 h]

/-- A patch is right when it says what the new map holds and says nothing of a
key the two maps agree on without it. -/
theorem patch_eq (hn : (edits.map Prod.fst).Nodup) (hin : ∀ e ∈ edits, g e.1 = e.2)
    (hout : ∀ k, k ∉ edits.map Prod.fst → f k = g k) : patch edits f = g := by
  funext k
  by_cases hk : k ∈ edits.map Prod.fst
  · obtain ⟨e, he, rfl⟩ := List.mem_map.1 hk
    rw [patch_of_mem hn he, hin e he]
  · rw [patch_of_notMem hk, hout k hk]

end RagPipeline.Patch
