import Mathlib.Data.List.Basic
import Mathlib.Order.Bounds.Basic

/-! # Cells on a grid

The layout of a table of cells with spans: each cell stands in its row at the
first slot behind the cell before it that no earlier cell covers. -/

set_option autoImplicit false

namespace RagPipeline.SpanLayout

/-- How many columns and rows a cell spans. -/
structure Span where
  columns : ℕ
  rows : ℕ
  columns_pos : 0 < columns
  rows_pos : 0 < rows
deriving DecidableEq, Repr

structure Placed (α : Type) where
  row : ℕ
  column : ℕ
  span : Span
  text : α
deriving DecidableEq, Repr

section
variable {α : Type}

def Placed.Covers (p : Placed α) (y x : ℕ) : Prop :=
  p.row ≤ y ∧ y < p.row + p.span.rows ∧ p.column ≤ x ∧ x < p.column + p.span.columns

instance (p : Placed α) (y x : ℕ) : Decidable (p.Covers y x) :=
  inferInstanceAs (Decidable (_ ∧ _))

theorem Placed.covers_anchor (p : Placed α) : p.Covers p.row p.column :=
  ⟨le_refl _, Nat.lt_add_of_pos_right p.span.rows_pos, le_refl _,
    Nat.lt_add_of_pos_right p.span.columns_pos⟩

/-- The cells of row `y`, each at the first free slot. -/
inductive RowLaid (y : ℕ) :
    ℕ → List (Placed α) → List (α × Span) → List (Placed α) → Prop where
  | done (cur : ℕ) (ps : List (Placed α)) : RowLaid y cur ps [] ps
  | cell {cur x : ℕ} {ps qs : List (Placed α)} {text : α} {span : Span}
      {rest : List (α × Span)} :
      IsLeast {x | cur ≤ x ∧ ∀ p ∈ ps, ¬ p.Covers y x} x →
      RowLaid y (x + span.columns) (ps ++ [⟨y, x, span, text⟩]) rest qs →
      RowLaid y cur ps ((text, span) :: rest) qs

/-- The rows from `y` on. -/
inductive Laid : ℕ → List (Placed α) → List (List (α × Span)) → List (Placed α) → Prop where
  | done (y : ℕ) (ps : List (Placed α)) : Laid y ps [] ps
  | row {y : ℕ} {ps qs rs : List (Placed α)} {cells : List (α × Span)}
      {rows : List (List (α × Span))} :
      RowLaid y 0 ps cells qs → Laid (y + 1) qs rows rs → Laid y ps (cells :: rows) rs

/-- The layout of a table. -/
def LaidOut (rows : List (List (α × Span))) (ps : List (Placed α)) : Prop := Laid 0 [] rows ps

/-! ## There is one layout -/

theorem RowLaid.unique {y cur : ℕ} {ps qs rs : List (Placed α)} {cells : List (α × Span)}
    (h : RowLaid y cur ps cells qs) (h' : RowLaid y cur ps cells rs) : qs = rs := by
  induction h with
  | done cur ps =>
    cases h'
    rfl
  | cell hleast _ ih =>
    cases h' with
    | cell hleast' hrest' =>
      rw [hleast'.unique hleast] at hrest'
      exact ih hrest'

theorem Laid.unique {y : ℕ} {ps qs rs : List (Placed α)} {rows : List (List (α × Span))}
    (h : Laid y ps rows qs) (h' : Laid y ps rows rs) : qs = rs := by
  induction h with
  | done y ps =>
    cases h'
    rfl
  | row hrow _ ih =>
    cases h' with
    | row hrow' hrest' =>
      rw [hrow'.unique hrow] at hrest'
      exact ih hrest'

/-! ## The order of the cells -/

/-- One cell comes before another: in a row above, or to the left of it. -/
def Placed.Before (p q : Placed α) : Prop :=
  p.row < q.row ∨ p.row = q.row ∧ p.column + p.span.columns ≤ q.column

/-- Cells in order, each at a slot no earlier one covers, all of them before slot
`cur` of row `y`. -/
structure InOrder (y cur : ℕ) (ps : List (Placed α)) : Prop where
  before : ps.Pairwise Placed.Before
  free : ps.Pairwise fun p q => ¬ p.Covers q.row q.column
  bound : ∀ p ∈ ps, p.row < y ∨ p.row = y ∧ p.column + p.span.columns ≤ cur

theorem InOrder.cell {y cur x : ℕ} {ps : List (Placed α)} (h : InOrder y cur ps) (hcur : cur ≤ x)
    (hfree : ∀ p ∈ ps, ¬ p.Covers y x) (span : Span) (text : α) :
    InOrder y (x + span.columns) (ps ++ [⟨y, x, span, text⟩]) := by
  constructor
  · apply List.pairwise_append.2
    refine ⟨h.before, List.pairwise_singleton _ _, ?_⟩
    intro p hp q hq
    rw [List.mem_singleton.1 hq]
    obtain hrow | ⟨hrow, hcol⟩ := h.bound p hp
    · exact .inl hrow
    · exact .inr ⟨hrow, le_trans hcol hcur⟩
  · apply List.pairwise_append.2
    refine ⟨h.free, List.pairwise_singleton _ _, ?_⟩
    intro p hp q hq
    rw [List.mem_singleton.1 hq]
    exact hfree p hp
  · intro p hp
    obtain hp | hp := List.mem_append.1 hp
    · obtain hrow | ⟨hrow, hcol⟩ := h.bound p hp
      · exact .inl hrow
      · exact .inr ⟨hrow, by omega⟩
    · rw [List.mem_singleton.1 hp]
      exact .inr ⟨rfl, le_refl _⟩

theorem InOrder.nextRow {y cur : ℕ} {ps : List (Placed α)} (h : InOrder y cur ps) :
    InOrder (y + 1) 0 ps := by
  refine ⟨h.before, h.free, ?_⟩
  intro p hp
  left
  obtain hrow | ⟨hrow, -⟩ := h.bound p hp
  · omega
  · omega

theorem RowLaid.inOrder {y cur : ℕ} {ps qs : List (Placed α)} {cells : List (α × Span)}
    (h : RowLaid y cur ps cells qs) (hps : InOrder y cur ps) : ∃ cur', InOrder y cur' qs := by
  induction h with
  | done cur ps => exact ⟨cur, hps⟩
  | cell hleast _ ih => exact ih (hps.cell hleast.1.1 hleast.1.2 _ _)

theorem Laid.inOrder {y : ℕ} {ps qs : List (Placed α)} {rows : List (List (α × Span))}
    (h : Laid y ps rows qs) (hps : InOrder y 0 ps) : ∃ y', InOrder y' 0 qs := by
  induction h with
  | done y ps => exact ⟨y, hps⟩
  | row hrow _ ih =>
    obtain ⟨cur, hqs⟩ := hrow.inOrder hps
    exact ih hqs.nextRow

theorem LaidOut.inOrder {rows : List (List (α × Span))} {ps : List (Placed α)}
    (h : LaidOut rows ps) : ∃ y, InOrder y 0 ps :=
  Laid.inOrder h ⟨.nil, .nil, fun _ hp => absurd hp List.not_mem_nil⟩

/-- No two cells stand at one slot. -/
theorem InOrder.anchors_nodup {y cur : ℕ} {ps : List (Placed α)} (h : InOrder y cur ps) :
    (ps.map fun p => (p.row, p.column)).Nodup := by
  apply List.pairwise_map.2
  apply h.free.imp
  intro p q hfree heq
  obtain ⟨hrow, hcol⟩ := Prod.mk.inj heq
  apply hfree
  rw [← hrow, ← hcol]
  exact p.covers_anchor

/-! ## Overlaps -/

/-- A cell runs into a slot of its own row that an earlier one covers. -/
def Placed.RunsInto (q p : Placed α) : Prop :=
  ∃ x, q.column ≤ x ∧ x < q.column + q.span.columns ∧ p.Covers q.row x

def Placed.Overlaps (p q : Placed α) : Prop := ∃ y x, p.Covers y x ∧ q.Covers y x

theorem Placed.Before.overlaps_iff {p q : Placed α} (h : p.Before q) :
    p.Overlaps q ↔ q.RunsInto p := by
  constructor
  · rintro ⟨y, x, hp, hq⟩
    refine ⟨x, hq.2.2.1, hq.2.2.2, ?_, ?_, hp.2.2.1, hp.2.2.2⟩
    · obtain hrow | ⟨hrow, -⟩ := h
      · exact le_of_lt hrow
      · exact le_of_eq hrow
    · exact lt_of_le_of_lt hq.1 hp.2.1
  · rintro ⟨x, hleft, hright, hp⟩
    exact ⟨q.row, x, hp, le_refl _, Nat.lt_add_of_pos_right q.span.rows_pos, hleft, hright⟩

/-- Cells of one slot overlap no other. -/
theorem InOrder.overlap_spans {y cur : ℕ} {ps : List (Placed α)} (h : InOrder y cur ps) :
    ps.Pairwise fun p q => q.RunsInto p →
      (1 < p.span.columns ∨ 1 < p.span.rows) ∧ (1 < q.span.columns ∨ 1 < q.span.rows) := by
  apply (h.before.and h.free).imp
  rintro p q ⟨hbefore, hfree⟩ ⟨x, hleft, hright, hp⟩
  constructor
  · by_contra hsingle
    have hpr := p.span.rows_pos
    have hpc := p.span.columns_pos
    obtain ⟨h1, h2, h3, h4⟩ := hp
    obtain hrow | ⟨hrow, hcol⟩ := hbefore
    · omega
    · omega
  · by_contra hsingle
    have hqr := q.span.rows_pos
    have hqc := q.span.columns_pos
    have hx : x = q.column := by omega
    rw [hx] at hp
    exact hfree hp

end

end RagPipeline.SpanLayout
