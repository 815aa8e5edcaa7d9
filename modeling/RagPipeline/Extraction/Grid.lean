import RagPipeline.Extraction.Chunks
import RagPipeline.Lib.SpanLayout

/-! # The grid of a table

`_build_grid` and `_parse_grouped`: the cells of the rows that were kept, on a
grid. -/

set_option autoImplicit false

namespace RagPipeline.Extraction
open SpanLayout

/-- The cells of a row with their spans. -/
abbrev SpanRow := List (String × Span)

/-- The first slot from `c` on that is not taken, in so many steps. -/
def nextFree (occ : ℕ → Bool) : ℕ → ℕ → ℕ
  | 0, c => c
  | steps + 1, c => if occ c then nextFree occ steps (c + 1) else c

/-- The four results of `_build_grid`, and where each cell was placed. A slot is
occupied where the grid has an entry. -/
structure Grid where
  grid : ℕ → ℕ → Option String
  labels : ℕ → ℕ → Option String
  merges : List Merge
  width : ℕ
  placed : List (Placed String)

namespace Grid

def empty : Grid := ⟨fun _ _ => none, fun _ _ => none, [], 0, []⟩

def occupied (g : Grid) (r c : ℕ) : Bool := (g.grid r c).isSome

/-- A cell at its first slot: the text there and blanks in the rest, the label in
all of it. -/
def put (g : Grid) (r c : ℕ) (text : String) (span : Span) : Grid :=
  let cell : Placed String := ⟨r, c, span, text⟩
  { grid := fun y x =>
      if cell.Covers y x then some (if y = r ∧ x = c then text else "") else g.grid y x
    labels := fun y x => if cell.Covers y x then some text else g.labels y x
    merges := if 1 < span.columns ∨ 1 < span.rows then
      g.merges ++ [⟨r, c, span.rows, span.columns⟩] else g.merges
    width := max g.width (c + span.columns)
    placed := g.placed ++ [cell] }

def placeRow (r : ℕ) : Grid → ℕ → SpanRow → Grid
  | g, _, [] => g
  | g, c, (text, span) :: rest =>
    let c := nextFree (g.occupied r) g.width c
    placeRow r (g.put r c text span) (c + span.columns) rest

def placeRows : Grid → ℕ → List SpanRow → Grid
  | g, _, [] => g
  | g, r, cells :: rows => placeRows (placeRow r g 0 cells) (r + 1) rows

/-- The cells of a row of the grid. -/
def rowCells (g : Grid) (r : ℕ) : List String :=
  (List.range g.width).map fun c => (g.grid r c).getD ""

end Grid

/-- `_build_grid`. -/
def buildGrid (rows : List SpanRow) : Grid := Grid.placeRows Grid.empty 0 rows

/-- The row of the header: behind leading rows of one cell that spans the width. -/
def titleRows (g : Grid) (nrows : ℕ) : ℕ → ℕ → ℕ
  | 0, h => h
  | steps + 1, h =>
    if h + 1 < nrows then
      match g.merges.filter fun m => m.row = h with
      | [m] => if m.column = 0 ∧ m.columnSpan = g.width then titleRows g nrows steps (h + 1) else h
      | _ => h
    else h

/-- `_parse_grouped`. -/
def parseGrouped (rows : List SpanRow) : Except Fault Reading := do
  let g := buildGrid rows
  let nrows := rows.length
  let h0 := titleRows g nrows nrows 0
  let spans := (g.merges.filter fun m => m.row = h0).map Merge.rowSpan
  let band := min (if spans = [] then 1 else spans.foldr max 0) (nrows - h0)
  let headerRows := (List.range' h0 band).map g.rowCells
  let headerMerges := (g.merges.filter fun m => h0 ≤ m.row ∧ m.row < h0 + band).map
    fun m => { m with row := m.row - h0 }
  let headers ← flattenHeader headerRows headerMerges
  return {
    headers := headers
    rows := (List.range' (h0 + band) (nrows - (h0 + band))).map g.rowCells
    headerRows := if 1 < band then headerRows else []
    headerMerges := if 1 < band then headerMerges else [] }

/-! ## The first free slot -/

theorem nextFree_least {occ : ℕ → Bool} {steps c : ℕ}
    (h : ∀ x, c ≤ x → occ x = true → x < c + steps) :
    IsLeast {x | c ≤ x ∧ occ x = false} (nextFree occ steps c) := by
  induction steps generalizing c with
  | zero =>
    refine ⟨⟨le_refl c, ?_⟩, fun x hx => hx.1⟩
    show occ c = false
    by_contra hocc
    have := h c (le_refl c) (by simpa using hocc)
    omega
  | succ steps ih =>
    unfold nextFree
    by_cases hocc : occ c = true
    · rw [if_pos hocc]
      have hleast := ih (c := c + 1) (by
        intro x hx hox
        have := h x (by omega) hox
        omega)
      constructor
      · exact ⟨by have := hleast.1.1; omega, hleast.1.2⟩
      · intro x hx
        apply hleast.2
        refine ⟨?_, hx.2⟩
        have hne : c ≠ x := by
          intro heq
          rw [heq, hx.2] at hocc
          cases hocc
        have := hx.1
        omega
    · rw [if_neg hocc]
      exact ⟨⟨le_refl c, by simpa using hocc⟩, fun x hx => hx.1⟩

/-! ## The grid has the cells that were placed -/

def spanning (p : Placed String) : Option Merge :=
  if 1 < p.span.columns ∨ 1 < p.span.rows then
    some ⟨p.row, p.column, p.span.rows, p.span.columns⟩ else none

/-- What the grid says of the cells that were placed. -/
structure Shows (g : Grid) : Prop where
  occupied : ∀ y x, g.occupied y x = true ↔ ∃ p ∈ g.placed, p.Covers y x
  width : ∀ p ∈ g.placed, p.column + p.span.columns ≤ g.width
  text : ∀ p ∈ g.placed, g.grid p.row p.column = some p.text
  blank : ∀ y x t, g.grid y x = some t → t = "" ∨
    ∃ p ∈ g.placed, p.row = y ∧ p.column = x ∧ p.text = t
  merges : g.merges = g.placed.filterMap spanning

theorem shows_empty : Shows Grid.empty := by
  constructor
  · intro y x
    simp [Grid.occupied, Grid.empty]
  · intro p hp
    cases hp
  · intro p hp
    cases hp
  · intro y x t ht
    cases ht
  · rfl

/-- Placing a cell keeps what the grid says, where all earlier ones are before it. -/
theorem Shows.put {g : Grid} {r c : ℕ} {text : String} {span : Span} (h : Shows g)
    (hbefore : ∀ p ∈ g.placed, p.row < r ∨ p.row = r ∧ p.column + p.span.columns ≤ c) :
    Shows (g.put r c text span) := by
  have hplaced : (g.put r c text span).placed = g.placed ++ [⟨r, c, span, text⟩] := rfl
  constructor
  · intro y x
    rw [hplaced]
    have hold := h.occupied y x
    unfold Grid.occupied at hold ⊢
    unfold Grid.put
    dsimp only
    by_cases hcover : (⟨r, c, span, text⟩ : Placed String).Covers y x
    · rw [if_pos hcover]
      simp [hcover]
    · rw [if_neg hcover, hold]
      simp [or_and_right, exists_or, hcover]
  · intro p hp
    rw [hplaced] at hp
    show _ ≤ max g.width (c + span.columns)
    obtain hp | hp := List.mem_append.1 hp
    · exact le_trans (h.width p hp) (le_max_left _ _)
    · rw [List.mem_singleton.1 hp]
      exact le_max_right _ _
  · intro p hp
    rw [hplaced] at hp
    unfold Grid.put
    dsimp only
    obtain hp | hp := List.mem_append.1 hp
    · have huncovered : ¬ (⟨r, c, span, text⟩ : Placed String).Covers p.row p.column := by
        intro hcover
        obtain ⟨hrow, -, hcol, -⟩ := hcover
        dsimp only at hrow hcol
        have hpos := p.span.columns_pos
        obtain hlt | ⟨-, hle⟩ := hbefore p hp
        · omega
        · omega
      rw [if_neg huncovered]
      exact h.text p hp
    · rw [List.mem_singleton.1 hp]
      rw [if_pos (Placed.covers_anchor ⟨r, c, span, text⟩)]
      simp
  · intro y x t ht
    rw [hplaced]
    unfold Grid.put at ht
    dsimp only at ht
    split at ht
    case isTrue hcover =>
      split at ht
      case isTrue hanchor =>
        right
        refine ⟨_, List.mem_append_right _ (List.mem_singleton_self _), hanchor.1.symm,
          hanchor.2.symm, Option.some.inj ht⟩
      case isFalse => exact .inl (Option.some.inj ht).symm
    case isFalse =>
      obtain hblank | ⟨p, hp, hpt⟩ := h.blank y x t ht
      · exact .inl hblank
      · exact .inr ⟨p, List.mem_append_left _ hp, hpt⟩
  · rw [hplaced, List.filterMap_append, ← h.merges]
    show (if _ then _ else _) = _
    by_cases hspan : 1 < span.columns ∨ 1 < span.rows
    · rw [if_pos hspan]
      simp [spanning, hspan]
    · rw [if_neg hspan]
      simp [spanning, hspan]

/-! ## The grid is laid out -/

theorem placeRow_laid {r : ℕ} {cells : SpanRow} {g : Grid} {c : ℕ} (hg : Shows g)
    (horder : InOrder r c g.placed) :
    Shows (g.placeRow r c cells) ∧ RowLaid r c g.placed cells (g.placeRow r c cells).placed ∧
      ∃ c', InOrder r c' (g.placeRow r c cells).placed := by
  induction cells generalizing g c with
  | nil => exact ⟨hg, .done c g.placed, c, horder⟩
  | cons cell rest ih =>
    obtain ⟨text, span⟩ := cell
    have hleast : IsLeast {x | c ≤ x ∧ ∀ p ∈ g.placed, ¬ p.Covers r x}
        (nextFree (g.occupied r) g.width c) := by
      have hset : {x | c ≤ x ∧ ∀ p ∈ g.placed, ¬ p.Covers r x} =
          {x | c ≤ x ∧ g.occupied r x = false} := by
        ext x
        simp only [Set.mem_setOf_eq]
        rw [Bool.eq_false_iff, ne_eq, hg.occupied]
        push Not
        rfl
      rw [hset]
      apply nextFree_least
      intro x hx hocc
      obtain ⟨p, hp, hcover⟩ := (hg.occupied r x).1 hocc
      have := hg.width p hp
      have := hcover.2.2.2
      omega
    have hbefore : ∀ p ∈ g.placed, p.row < r ∨
        p.row = r ∧ p.column + p.span.columns ≤ nextFree (g.occupied r) g.width c := by
      intro p hp
      obtain hlt | ⟨heq, hle⟩ := horder.bound p hp
      · exact .inl hlt
      · exact .inr ⟨heq, le_trans hle hleast.1.1⟩
    obtain ⟨hshows, hlaid, hinorder⟩ := ih (hg.put hbefore)
      (horder.cell hleast.1.1 hleast.1.2 span text)
    exact ⟨hshows, .cell hleast hlaid, hinorder⟩

theorem placeRows_laid {rows : List SpanRow} {g : Grid} {r : ℕ} (hg : Shows g)
    (horder : InOrder r 0 g.placed) :
    Shows (g.placeRows r rows) ∧ Laid r g.placed rows (g.placeRows r rows).placed := by
  induction rows generalizing g r with
  | nil => exact ⟨hg, .done r g.placed⟩
  | cons cells rows ih =>
    obtain ⟨hshows, hlaid, c, hinorder⟩ := placeRow_laid hg horder
    obtain ⟨hshows', hlaid'⟩ := ih hshows hinorder.nextRow
    exact ⟨hshows', .row hlaid hlaid'⟩

/-- The cells are placed where the layout of the rows has them, and the grid shows
them there. -/
theorem buildGrid_laid (rows : List SpanRow) :
    Shows (buildGrid rows) ∧ LaidOut rows (buildGrid rows).placed :=
  placeRows_laid shows_empty ⟨.nil, .nil, fun _ hp => absurd hp List.not_mem_nil⟩

/-- The data rows of the result are the rows of the grid below its header. -/
theorem parseGrouped_rows {rows : List SpanRow} {r : Reading} (h : parseGrouped rows = .ok r) :
    ∃ top, r.rows = (List.range' top (rows.length - top)).map (buildGrid rows).rowCells := by
  obtain ⟨headers, -, hreading⟩ := Guard.bind_ok.1 h
  obtain rfl := Except.ok.inj hreading
  exact ⟨_, rfl⟩

/-! ## Rows without cells -/

/-- The row of each cell of a table that begins at row `y`. -/
def rowIndices : ℕ → List SpanRow → List ℕ
  | _, [] => []
  | y, cells :: rows => cells.map (fun _ => y) ++ rowIndices (y + 1) rows

theorem rowLaid_rows {y cur : ℕ} {ps qs : List (Placed String)} {cells : SpanRow}
    (h : RowLaid y cur ps cells qs) :
    qs.map Placed.row = ps.map Placed.row ++ cells.map fun _ => y := by
  induction h with
  | done cur ps => simp
  | cell _ _ ih => simpa using ih

theorem laid_rows {y : ℕ} {ps qs : List (Placed String)} {rows : List SpanRow}
    (h : Laid y ps rows qs) : qs.map Placed.row = ps.map Placed.row ++ rowIndices y rows := by
  induction h with
  | done y ps => simp [rowIndices]
  | row hrow _ ih => rw [ih, rowLaid_rows hrow, List.append_assoc, rowIndices]

theorem le_of_mem_rowIndices {rows : List SpanRow} {y n : ℕ} (h : n ∈ rowIndices y rows) :
    y ≤ n := by
  induction rows generalizing y with
  | nil => cases h
  | cons cells rows ih =>
    obtain h | h := List.mem_append.1 h
    · obtain ⟨_, -, rfl⟩ := List.mem_map.1 h
      exact le_refl _
    · have := ih h
      omega

/-- No row without cells stands above a row with cells. -/
def EmptyLast (rows : List SpanRow) : Prop :=
  rows.Pairwise fun above below => above = [] → below = []

/-- Without the empty rows every cell keeps its row exactly where they are last. -/
theorem rowIndices_filter_iff (rows : List SpanRow) (y : ℕ) :
    rowIndices y rows = rowIndices y (rows.filter (· ≠ [])) ↔ EmptyLast rows := by
  induction rows generalizing y with
  | nil => exact iff_of_true rfl .nil
  | cons cells rows ih =>
    unfold EmptyLast
    rw [List.pairwise_cons]
    by_cases hcells : cells = []
    · rw [List.filter_cons_of_neg (by simp [hcells])]
      subst hcells
      constructor
      · intro h
        change rowIndices (y + 1) rows = _ at h
        have hkept : rows.filter (· ≠ []) = [] := by
          cases hk : rows.filter (· ≠ []) with
          | nil => rfl
          | cons first more =>
            exfalso
            have hfirst : first ≠ [] := by
              have hmem : first ∈ rows.filter (· ≠ []) := by
                rw [hk]
                exact List.mem_cons_self
              simpa using (List.mem_filter.1 hmem).2
            obtain ⟨cell, rest, rfl⟩ := List.exists_cons_of_ne_nil hfirst
            have hy : y ∈ rowIndices (y + 1) rows := by
              rw [h, hk]
              exact List.mem_cons_self
            have := le_of_mem_rowIndices hy
            omega
        have hempty : ∀ below ∈ rows, below = [] := by
          intro below hbelow
          by_contra hne
          have hmem : below ∈ rows.filter (· ≠ []) := List.mem_filter.2 ⟨hbelow, by simpa using hne⟩
          rw [hkept] at hmem
          cases hmem
        exact ⟨fun below hbelow _ => hempty below hbelow,
          List.pairwise_of_forall_mem_list fun _ _ below hbelow _ => hempty below hbelow⟩
      · intro h
        have hempty : ∀ below ∈ rows, below = [] := fun below hbelow => h.1 below hbelow rfl
        have hkept : rows.filter (· ≠ []) = [] := by
          apply List.filter_eq_nil_iff.2
          intro below hbelow
          simp [hempty below hbelow]
        have hnone : ∀ (l : List SpanRow) (n : ℕ), (∀ below ∈ l, below = []) → rowIndices n l = [] := by
          intro l
          induction l with
          | nil => intros; rfl
          | cons first l ihl =>
            intro n hl
            rw [hl first List.mem_cons_self]
            exact ihl (n + 1) fun below hbelow => hl below (List.mem_cons_of_mem _ hbelow)
        rw [hkept]
        exact hnone rows (y + 1) hempty
    · rw [List.filter_cons_of_pos (by simp [hcells])]
      show cells.map _ ++ rowIndices (y + 1) rows = cells.map _ ++ rowIndices (y + 1) _ ↔ _
      rw [List.append_cancel_left_eq, ih (y + 1)]
      constructor
      · intro h
        exact ⟨fun _ _ h' => absurd h' hcells, h⟩
      · intro h
        exact h.2

theorem laid_of_filter {y : ℕ} {ps qs : List (Placed String)} {rows : List SpanRow}
    (hlast : EmptyLast rows) (h : Laid y ps (rows.filter (· ≠ [])) qs) : Laid y ps rows qs := by
  induction rows generalizing y ps with
  | nil => exact h
  | cons cells rows ih =>
    obtain ⟨hbelow, hrows⟩ := List.pairwise_cons.1 hlast
    by_cases hcells : cells = []
    · subst hcells
      have hkept : (([] : SpanRow) :: rows).filter (· ≠ []) = rows.filter (· ≠ []) :=
        List.filter_cons_of_neg (by simp)
      have hnone : rows.filter (· ≠ []) = [] := by
        apply List.filter_eq_nil_iff.2
        intro below hmem
        simp [hbelow below hmem rfl]
      apply Laid.row (.done 0 ps)
      apply ih hrows
      rw [hkept, hnone] at h
      rw [hnone]
      cases h
      exact .done _ _
    · rw [List.filter_cons_of_pos (by simp [hcells])] at h
      cases h with
      | row hrow hrest => exact .row hrow (ih hrows hrest)

/-! ## Merges -/

def Merge.Covers (m : Merge) (y x : ℕ) : Prop :=
  m.row ≤ y ∧ y < m.row + m.rowSpan ∧ m.column ≤ x ∧ x < m.column + m.columnSpan

instance (m : Merge) (y x : ℕ) : Decidable (m.Covers y x) :=
  inferInstanceAs (Decidable (_ ∧ _))

def Merge.Overlaps (m n : Merge) : Prop := ∃ y x, m.Covers y x ∧ n.Covers y x

theorem spanning_covers {p : Placed String} {m : Merge} (h : spanning p = some m) (y x : ℕ) :
    m.Covers y x ↔ p.Covers y x := by
  unfold spanning at h
  split at h
  case isTrue =>
    obtain rfl := Option.some.inj h
    rfl
  case isFalse => cases h

/-- The merges are disjoint exactly where no cell runs into an earlier one. -/
theorem merges_disjoint_iff {y cur : ℕ} {ps : List (Placed String)} (h : InOrder y cur ps) :
    ((ps.filterMap spanning).Pairwise fun m n => ¬ m.Overlaps n) ↔
      ps.Pairwise fun p q => ¬ q.RunsInto p := by
  rw [List.pairwise_filterMap]
  constructor
  · intro hdisjoint
    apply (hdisjoint.and (h.before.and h.overlap_spans)).imp
    rintro p q ⟨hapart, hbefore, hspans⟩ hruns
    obtain ⟨hp, hq⟩ := hspans hruns
    have hm : spanning p = some ⟨p.row, p.column, p.span.rows, p.span.columns⟩ := if_pos hp
    have hn : spanning q = some ⟨q.row, q.column, q.span.rows, q.span.columns⟩ := if_pos hq
    apply hapart _ hm _ hn
    obtain ⟨y, x, hy, hx⟩ := hbefore.overlaps_iff.2 hruns
    exact ⟨y, x, (spanning_covers hm y x).2 hy, (spanning_covers hn y x).2 hx⟩
  · intro hapart
    apply (hapart.and h.before).imp
    rintro p q ⟨hnot, hbefore⟩ m hm n hn ⟨y, x, hy, hx⟩
    apply hnot
    apply hbefore.overlaps_iff.1
    exact ⟨y, x, (spanning_covers hm y x).1 hy, (spanning_covers hn y x).1 hx⟩

/-! ## The layout of the whole table -/

/-- The grid is the layout of a table: the cells stand where it has them, each
text at its one slot, and no two merges share a slot. -/
structure Depicts (rows : List SpanRow) (g : Grid) : Prop where
  placed : LaidOut rows g.placed
  text : ∀ p ∈ g.placed, (g.rowCells p.row)[p.column]? = some p.text
  apart : (g.placed.map fun p => (p.row, p.column)).Nodup
  blank : ∀ y x t, g.grid y x = some t → t = "" ∨
    ∃ p ∈ g.placed, p.row = y ∧ p.column = x ∧ p.text = t
  disjoint : g.merges.Pairwise fun m n => ¬ m.Overlaps n

theorem Shows.rowCells {g : Grid} (h : Shows g) {p : Placed String} (hp : p ∈ g.placed) :
    (g.rowCells p.row)[p.column]? = some p.text := by
  have hpos := p.span.columns_pos
  have hwidth := h.width p hp
  unfold Grid.rowCells
  rw [List.getElem?_map, List.getElem?_range (by omega)]
  show some ((g.grid p.row p.column).getD "") = _
  rw [h.text p hp]
  rfl

/-- The rows with cells depict the table exactly where the rows without cells come
last and no cell runs into a slot that is covered from above. -/
theorem grid_depicts_iff (rows : List SpanRow) :
    Depicts rows (buildGrid (rows.filter (· ≠ []))) ↔
      EmptyLast rows ∧ ∀ ps, LaidOut rows ps → ps.Pairwise fun p q => ¬ q.RunsInto p := by
  obtain ⟨hshows, hlaid⟩ := buildGrid_laid (rows.filter (· ≠ []))
  obtain ⟨y, horder⟩ := LaidOut.inOrder hlaid
  constructor
  · intro h
    constructor
    · rw [← rowIndices_filter_iff rows 0]
      have hwhole := laid_rows h.placed
      rw [laid_rows hlaid] at hwhole
      exact hwhole.symm
    · intro ps hps
      rw [Laid.unique hps h.placed, ← merges_disjoint_iff horder, ← hshows.merges]
      exact h.disjoint
  · intro h
    have hwhole : LaidOut rows (buildGrid (rows.filter (· ≠ []))).placed := laid_of_filter h.1 hlaid
    refine ⟨hwhole, fun p hp => hshows.rowCells hp, horder.anchors_nodup, hshows.blank, ?_⟩
    rw [hshows.merges, merges_disjoint_iff horder]
    exact h.2 _ hwhole

def single : Span := ⟨1, 1, Nat.one_pos, Nat.one_pos⟩

def tall : Span := ⟨1, 2, Nat.one_pos, Nat.two_pos⟩

def wide : Span := ⟨2, 1, Nat.two_pos, Nat.one_pos⟩

/-- An empty row that a cell from above covers: without it the cell of the row
below moves beside the covered slot. And a wide cell that runs into a covered
slot: its merge shares that slot. -/
theorem grid_astray :
    ((buildGrid ([[("a", tall)], [], [("b", single)]].filter (· ≠ []))).placed.map
        (fun p => (p.row, p.column)) = [(0, 0), (1, 1)] ∧
      LaidOut [[("a", tall)], [], [("b", single)]] [⟨0, 0, tall, "a"⟩, ⟨2, 0, single, "b"⟩] ∧
      ¬ Depicts [[("a", tall)], [], [("b", single)]]
        (buildGrid ([[("a", tall)], [], [("b", single)]].filter (· ≠ [])))) ∧
    ¬ Depicts [[("a", single), ("b", tall)], [("c", wide)]]
      (buildGrid ([[("a", single), ("b", tall)], [("c", wide)]].filter (· ≠ []))) := by
  have hlaid : LaidOut [[("a", tall)], [], [("b", single)]]
      [⟨0, 0, tall, "a"⟩, ⟨2, 0, single, "b"⟩] :=
    (buildGrid_laid [[("a", tall)], [], [("b", single)]]).2
  refine ⟨⟨rfl, hlaid, ?_⟩, ?_⟩
  · intro h
    have heq := Laid.unique hlaid h.placed
    revert heq
    decide
  · intro h
    have hapart := h.disjoint
    change [(⟨0, 1, 2, 1⟩ : Merge), ⟨1, 0, 1, 2⟩].Pairwise _ at hapart
    apply (List.pairwise_cons.1 hapart).1 ⟨1, 0, 1, 2⟩ (List.mem_singleton_self _)
    exact ⟨1, 1, by decide, by decide⟩

end RagPipeline.Extraction
