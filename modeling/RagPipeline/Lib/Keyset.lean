import Mathlib.Data.List.Sort
import Mathlib.Order.Defs.LinearOrder

/-! # Pages by key

A long list is read in pages, newest first. Each page begins below the key that
the page before it ended with, and is read from the rows as they are then. -/

set_option autoImplicit false

namespace RagPipeline.Keyset

variable {α ι κ : Type} [LinearOrder κ] {key : α → κ} {rows items l : List α} {limit : ℕ}
  {before : Option κ} {more : Bool}

/-- The rows, in strictly descending order of their keys. -/
structure Listing (key : α → κ) (rows l : List α) : Prop where
  perm : l.Perm rows
  descending : l.Pairwise fun a b => key b < key a

/-- Keys below the one a page begins after; all of them where none is given. -/
def Below (before : Option κ) (k : κ) : Prop := ∀ b ∈ before, k < b

/-- One page: of the rows below the cursor, in order, the first ones, and whether there are
others. -/
structure Read (key : α → κ) (limit : ℕ) (before : Option κ) (rows items : List α) (more : Bool) :
    Prop where
  listing : ∃ visible l, (∀ r, r ∈ visible ↔ r ∈ rows ∧ Below before (key r)) ∧
    Listing key visible l ∧ items = l.take limit ∧ (more = true ↔ limit < l.length)

namespace Read

theorem descending (h : Read key limit before rows items more) :
    items.Pairwise fun a b => key b < key a := by
  obtain ⟨visible, l, -, hl, rfl, -⟩ := h.listing
  exact hl.descending.sublist (List.take_sublist _ _)

theorem mem (h : Read key limit before rows items more) {r : α} (hr : r ∈ items) :
    r ∈ rows ∧ Below before (key r) := by
  obtain ⟨visible, l, hvisible, hl, rfl, -⟩ := h.listing
  exact (hvisible r).1 (hl.perm.mem_iff.1 (List.mem_of_mem_take hr))

/-- The last page leaves nothing out. -/
theorem complete (h : Read key limit before rows items false) {r : α} (hr : r ∈ rows)
    (hbelow : Below before (key r)) : r ∈ items := by
  obtain ⟨visible, l, hvisible, hl, rfl, hmore⟩ := h.listing
  have hle : l.length ≤ limit := by
    by_contra hlt
    exact absurd (hmore.2 (by omega)) (by decide)
  rw [List.take_of_length_le hle]
  exact hl.perm.mem_iff.2 ((hvisible r).2 ⟨hr, hbelow⟩)

/-- What a page before the last leaves out is below its last row. -/
theorem rest (h : Read key limit before rows items true) {c : α} (hc : items.getLast? = some c)
    {r : α} (hr : r ∈ rows) (hbelow : Below before (key r)) : r ∈ items ∨ key r < key c := by
  obtain ⟨visible, l, hvisible, hl, rfl, -⟩ := h.listing
  have hmem : r ∈ l.take limit ++ l.drop limit := by
    rw [List.take_append_drop]
    exact hl.perm.mem_iff.2 ((hvisible r).2 ⟨hr, hbelow⟩)
  have hsorted := hl.descending
  rw [← List.take_append_drop limit l] at hsorted
  cases List.mem_append.1 hmem with
  | inl h => exact .inl h
  | inr h => exact .inr ((List.pairwise_append.1 hsorted).2.2 c (List.mem_of_getLast? hc) r h)

theorem last_le (h : Read key limit before rows items more) {c : α}
    (hc : items.getLast? = some c) {r : α} (hr : r ∈ items) : key c ≤ key r := by
  obtain ⟨front, rfl⟩ := List.getLast?_eq_some_iff.1 hc
  cases List.mem_append.1 hr with
  | inl hfront =>
    exact ((List.pairwise_append.1 h.descending).2.2 r hfront c (List.mem_singleton_self c)).le
  | inr hlast => rw [List.mem_singleton.1 hlast]

end Read

/-- Pages one after the other until there are no more, over the rows as each finds them. -/
inductive Walk (key : α → κ) (limit : ℕ) : Option κ → List (List α) → List α → Prop where
  | last {before : Option κ} {rows items : List α} : Read key limit before rows items false →
      Walk key limit before [rows] items
  | next {before : Option κ} {rows items out : List α} {reads : List (List α)} {c : α} :
      Read key limit before rows items true → items.getLast? = some c →
      Walk key limit (some (key c)) reads out → Walk key limit before (rows :: reads) (items ++ out)

namespace Walk

variable {reads : List (List α)} {out : List α}

theorem nonempty (h : Walk key limit before reads out) : reads ≠ [] := by
  cases h with
  | last => exact List.cons_ne_nil _ _
  | next => exact List.cons_ne_nil _ _

theorem beneath (h : Walk key limit before reads out) : ∀ r ∈ out, Below before (key r) := by
  induction h with
  | last h =>
    intro r hr
    exact (h.mem hr).2
  | @next before rows items out reads c h hc hw ih =>
    intro r hr b hb
    cases List.mem_append.1 hr with
    | inl hr => exact (h.mem hr).2 b hb
    | inr hr =>
      have hlast : key c < b := (h.mem (List.mem_of_getLast? hc)).2 b hb
      exact (ih r hr (key c) rfl).trans hlast

theorem descending (h : Walk key limit before reads out) :
    out.Pairwise fun a b => key b < key a := by
  induction h with
  | last h => exact h.descending
  | @next before rows items out reads c h hc hw ih =>
    apply List.pairwise_append.2
    refine ⟨h.descending, ih, ?_⟩
    intro a ha b hb
    have hb : key b < key c := hw.beneath b hb (key c) rfl
    exact hb.trans_le (h.last_le hc ha)

theorem mem (h : Walk key limit before reads out) : ∀ r ∈ out, ∃ rows ∈ reads, r ∈ rows := by
  induction h with
  | last h =>
    intro r hr
    exact ⟨_, List.mem_singleton_self _, (h.mem hr).1⟩
  | next h hc hw ih =>
    intro r hr
    cases List.mem_append.1 hr with
    | inl hr => exact ⟨_, List.mem_cons_self, (h.mem hr).1⟩
    | inr hr =>
      obtain ⟨rows, hrows, hr⟩ := ih r hr
      exact ⟨rows, List.mem_cons_of_mem _ hrows, hr⟩

/-- A key that every page could find is among the rows returned. -/
theorem complete (h : Walk key limit before reads out) {k : κ} (hk : Below before k)
    (hthere : ∀ rows ∈ reads, ∃ r ∈ rows, key r = k) : ∃ r ∈ out, key r = k := by
  induction h with
  | last h =>
    obtain ⟨r, hr, rfl⟩ := hthere _ (List.mem_singleton_self _)
    exact ⟨r, h.complete hr hk, rfl⟩
  | @next before rows items out reads c h hc hw ih =>
    obtain ⟨r, hr, hrk⟩ := hthere _ List.mem_cons_self
    subst hrk
    cases h.rest hc hr hk with
    | inl hr => exact ⟨r, List.mem_append_left _ hr, rfl⟩
    | inr hlt =>
      have hbelow : Below (some (key c)) (key r) := by
        intro b hb
        rw [← Option.some.inj hb]
        exact hlt
      obtain ⟨r', hr', hkey⟩ := ih hbelow fun rows hrows =>
        hthere rows (List.mem_cons_of_mem _ hrows)
      exact ⟨r', List.mem_append_right _ hr', hkey⟩

variable {name : α → ι}

end Walk

end RagPipeline.Keyset
