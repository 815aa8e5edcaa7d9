import RagPipeline.Extraction.Checks
import RagPipeline.Lib.Guard
import Mathlib.Data.List.Sort

/-! # Header templates

Known forms: a grouped header is recognized by its words and stamped with the
form's own header, onto one reading or onto the most complete of several. The
ratio of `difflib.SequenceMatcher` is a table of its own. -/

set_option autoImplicit false

namespace RagPipeline.Extraction
open Text

/-- What indexing and a missing value raise. -/
inductive Fault where
  | indexError
deriving DecidableEq, Repr

structure Template where
  name : String
  headerRows : List (List String)
  headerMerges : List Merge
deriving DecidableEq, Repr

/-- A table on its way to the result. -/
structure Sheet where
  headers : List String
  rows : List (List String)
  headerRows : List (List String) := []
  headerMerges : List Merge := []
  template : Option String := none
deriving DecidableEq, Repr

def widthOf (rows : List (List String)) : ℕ := (rows.map List.length).foldr max 0

/-- The text a merge spreads over its cells. -/
def mergeText (headerRows : List (List String)) (m : Merge) : Except Fault String :=
  match headerRows[m.row]? with
  | none => .error .indexError
  | some row => .ok (row[m.column]?.getD "")

/-- The label of a cell: of the last merge that covers it, else its own text. -/
def labelOf (headerRows : List (List String)) (texts : List (Merge × String)) (r c : ℕ) : String :=
  match texts.reverse.find? fun (m, _) =>
      m.row ≤ r ∧ r < m.row + m.rowSpan ∧ m.column ≤ c ∧ c < m.column + m.columnSpan with
  | some (_, text) => text
  | none => (cellOf headerRows r c).getD ""

/-- The labels of a column from above, without blanks and repetitions. -/
def columnLabels : List String → List String → List String
  | seen, [] => seen
  | seen, label :: labels =>
    if strip label ≠ "" ∧ seen.getLast? ≠ some label then columnLabels (seen ++ [label]) labels
    else columnLabels seen labels

/-- `flatten_header`. -/
def flattenHeader (headerRows : List (List String)) (merges : List Merge) :
    Except Fault (List String) := do
  if headerRows = [] then return []
  let texts ← merges.mapM fun m => (mergeText headerRows m).map fun text => (m, text)
  return (List.range (widthOf headerRows)).map fun c =>
    " - ".intercalate (columnLabels [] ((List.range headerRows.length).map fun r =>
      labelOf headerRows texts r c))

section
variable (U : Unicode) (ratio : List Char → List Char → ℚ)

/-- `_tokens`. -/
def tokens (headerRows : List (List String)) : List (List Char) :=
  (headerRows.flatten.map U.squash).filter (· ≠ [])

/-- `_best_sim`. -/
def bestSim (token : List Char) (others : List (List Char)) : ℚ :=
  (others.map fun other => ratio token other).foldr max 0

/-- The fraction of a form's words that appear in the incoming header. -/
def scoreOf (incoming : List (List Char)) (t : Template) : ℚ :=
  let cand := tokens U t.headerRows
  if cand = [] then 0
  else ((cand.countP fun w => 3 / 5 ≤ bestSim ratio w incoming : ℕ) : ℚ) / cand.length

/-- The first form with the best score above this one. -/
def bestTemplate (incoming : List (List Char)) :
    Option Template × ℚ → List Template → Option Template × ℚ
  | best, [] => best
  | best, t :: templates =>
    if best.2 < scoreOf U ratio incoming t then
      bestTemplate incoming (some t, scoreOf U ratio incoming t) templates
    else bestTemplate incoming best templates

/-- `match_template`. -/
def matchTemplate (headerRows : List (List String)) (templates : List Template) :
    Option Template × ℚ :=
  let incoming := tokens U headerRows
  if incoming = [] then (none, 0)
  else match bestTemplate U ratio incoming (none, 0) templates with
    | (some t, score) => if 1 / 2 ≤ score then (some t, round score 2) else (none, round score 2)
    | (none, score) => (none, round score 2)

/-- `_full_data`. -/
def fullData (cand : Reading) : List (List String) :=
  if cand.headerRows ≠ [] then cand.rows
  else if cand.headers ≠ [] then cand.headers :: cand.rows
  else cand.rows

/-- `_drop_empty_cols`. -/
def dropEmptyCols (rows : List (List String)) : List (List String) × ℕ :=
  let kept := (List.range (widthOf rows)).filter fun c => rows.any fun r => strip (r[c]?.getD "") ≠ ""
  (rows.map fun r => kept.map fun c => r[c]?.getD "", kept.length)

/-- `_completeness`. -/
def completeness (rows : List (List String)) : ℕ :=
  rows.flatten.countP fun c => strip c ∉ ["", "0", "0,00", "0.00", "-"]

/-- `_is_number`. -/
def isNumber (s : String) : Bool :=
  let body := match (strip s).toList with
    | '-' :: rest => rest
    | s => s
  match body with
  | [] => false
  | c :: rest => U.digit c && rest.all fun c => U.digit c || c = '.' || c = ','

/-- `_rows_same_record`, at a threshold of one half. -/
def rowsSameRecord (a b : List String) : Bool :=
  let pairs := a.zip b
  pairs ≠ [] && pairs.length ≤ 2 * pairs.countP fun (x, y) => agree U x y

/-- A cell that is text where the other reading has a number. -/
def backfilled (x : String) (y : Option String) : String :=
  match y with
  | some y => if x ≠ "" ∧ ¬ isNumber U x ∧ isNumber U y then y else x
  | none => x

/-- `_plausibility_backfill`. -/
def plausibilityBackfill (winner other : List (List String)) : List (List String) :=
  winner.zipIdx.map fun (row, i) =>
    match other[i]? with
    | none => row
    | some o => if rowsSameRecord U row o then
        row.zipIdx.map fun (x, j) => backfilled U x o[j]?
      else row

/-- The form of the first candidate whose grouped header is recognized. -/
def recognized (candidates : List Reading) (templates : List Template) : Option Template :=
  candidates.findSome? fun c =>
    if c.headerRows = [] then none else (matchTemplate U ratio c.headerRows templates).1

/-- `arbitrate`. -/
def arbitrate (candidates : List Reading) (templates : List Template) :
    Except Fault (Option Sheet) :=
  match recognized U ratio candidates templates with
  | none => .ok none
  | some tpl =>
    let aligned := (candidates.map fun c => dropEmptyCols (fullData c)).filterMap fun (rows, w) =>
      if w = widthOf tpl.headerRows then some rows else none
    match aligned.insertionSort fun a b => completeness b ≤ completeness a with
    | [] => .ok none
    | winner :: others => do
      let headers ← flattenHeader tpl.headerRows tpl.headerMerges
      return some {
        headers := headers
        headerRows := tpl.headerRows
        headerMerges := tpl.headerMerges
        rows := others.foldl (plausibilityBackfill U) winner
        template := some tpl.name }

structure HeaderInfo where
  template : Option String
  undefinedForm : Bool
  matchScore : ℚ
deriving DecidableEq, Repr

/-- `apply_template`. -/
def applyTemplate (parsed : Sheet) (t : Template) : Except Fault (Option Sheet) :=
  if t.headerRows = [] then .ok none
  else if widthOf parsed.rows ≠ widthOf t.headerRows then .ok none
  else (flattenHeader t.headerRows t.headerMerges).map fun headers =>
    some { parsed with
      headers := headers
      headerRows := t.headerRows
      headerMerges := t.headerMerges
      template := some t.name }

/-- `resolve_header`. -/
def resolveHeader (table : Sheet) (templates : List Template) :
    Except Fault (Sheet × HeaderInfo) :=
  if table.headerRows = [] then .ok (table, ⟨none, false, 0⟩)
  else match matchTemplate U ratio table.headerRows templates with
    | (none, score) => .ok (table, ⟨none, true, score⟩)
    | (some tpl, score) => do
      match ← applyTemplate table tpl with
      | some stamped => return (stamped, ⟨some tpl.name, false, score⟩)
      | none => return (table, ⟨some tpl.name, true, score⟩)

end

/-! ## Where the cells come from -/

section
variable {U : Unicode} {ratio : List Char → List Char → ℚ} {templates : List Template}
  {table sheet : Sheet} {info : HeaderInfo}

theorem applyTemplate_rows {t : Template} (h : applyTemplate table t = .ok (some sheet)) :
    sheet.rows = table.rows := by
  unfold applyTemplate at h
  split at h
  case isTrue => cases h
  case isFalse =>
    split at h
    case isTrue => cases h
    case isFalse =>
      cases hflat : flattenHeader t.headerRows t.headerMerges with
      | error e =>
        rw [hflat] at h
        cases h
      | ok headers =>
        rw [hflat] at h
        obtain rfl := Option.some.inj (Except.ok.inj h)
        rfl

/-- A stamped header leaves the data rows as they are. -/
theorem resolveHeader_rows (h : resolveHeader U ratio table templates = .ok (sheet, info)) :
    sheet.rows = table.rows := by
  unfold resolveHeader at h
  split at h
  case isTrue =>
    obtain rfl := (Prod.mk.inj (Except.ok.inj h)).1
    rfl
  case isFalse =>
    split at h
    case h_1 =>
      obtain rfl := (Prod.mk.inj (Except.ok.inj h)).1
      rfl
    case h_2 tpl score _ =>
      obtain ⟨applied, happlied, h⟩ := Guard.bind_ok.1 h
      cases applied with
      | none =>
        obtain rfl := (Prod.mk.inj (Except.ok.inj h)).1
        rfl
      | some stamped =>
        obtain rfl := (Prod.mk.inj (Except.ok.inj h)).1
        exact applyTemplate_rows happlied

/-- Every cell of the one is blank, or some cell of the other. -/
def Drawn (rows source : List (List String)) : Prop :=
  ∀ row ∈ rows, ∀ c ∈ row, c = "" ∨ ∃ row ∈ source, c ∈ row

theorem Drawn.refl (rows : List (List String)) : Drawn rows rows :=
  fun row hrow _ hc => .inr ⟨row, hrow, hc⟩

theorem Drawn.mono {rows source more : List (List String)} (h : Drawn rows source)
    (hsub : ∀ row ∈ source, row ∈ more) : Drawn rows more := by
  intro row hrow c hc
  rcases h row hrow c hc with hblank | ⟨r, hr, hmem⟩
  · exact .inl hblank
  · exact .inr ⟨r, hsub r hr, hmem⟩

theorem drawn_getD {row : List String} {c : ℕ} : row[c]?.getD "" = "" ∨ row[c]?.getD "" ∈ row := by
  cases h : row[c]? with
  | none => exact .inl rfl
  | some x => exact .inr (List.mem_of_getElem? h)

theorem drawn_dropEmptyCols (rows : List (List String)) : Drawn (dropEmptyCols rows).1 rows := by
  intro row hrow c hc
  simp only [dropEmptyCols, List.mem_map] at hrow
  obtain ⟨r, hr, rfl⟩ := hrow
  obtain ⟨j, -, rfl⟩ := List.mem_map.1 hc
  rcases @drawn_getD r j with hblank | hmem
  · exact .inl hblank
  · exact .inr ⟨r, hr, hmem⟩

theorem backfilled_eq (x : String) (y : Option String) :
    backfilled U x y = x ∨ y = some (backfilled U x y) := by
  cases y with
  | none => exact .inl rfl
  | some y =>
    show (if _ then y else x) = x ∨ some y = some (if _ then y else x)
    split
    case isTrue => exact .inr rfl
    case isFalse => exact .inl rfl

theorem drawn_backfill {winner other source : List (List String)} (hw : Drawn winner source)
    (ho : Drawn other source) : Drawn (plausibilityBackfill U winner other) source := by
  intro row hrow c hc
  simp only [plausibilityBackfill, List.mem_map] at hrow
  obtain ⟨⟨r, i⟩, hr, rfl⟩ := hrow
  have hwin : r ∈ winner := List.fst_mem_of_mem_zipIdx hr
  dsimp only at hc
  split at hc
  case h_1 => exact hw r hwin c hc
  case h_2 o hother =>
    split at hc
    case isFalse => exact hw r hwin c hc
    case isTrue =>
      obtain ⟨⟨x, j⟩, hx, rfl⟩ := List.mem_map.1 hc
      rcases backfilled_eq (U := U) x o[j]? with heq | hnumber
      · dsimp only
        rw [heq]
        exact hw r hwin x (List.fst_mem_of_mem_zipIdx hx)
      · exact ho o (List.mem_of_getElem? hother) _ (List.mem_of_getElem? hnumber)

theorem drawn_foldl {winner source : List (List String)} {others : List (List (List String))}
    (hw : Drawn winner source) (ho : ∀ rows ∈ others, Drawn rows source) :
    Drawn (others.foldl (plausibilityBackfill U) winner) source := by
  induction others generalizing winner with
  | nil => exact hw
  | cons other others ih =>
    refine ih (drawn_backfill hw (ho other List.mem_cons_self)) fun rows hrows => ?_
    exact ho rows (List.mem_cons_of_mem _ hrows)

/-- A stamped table is the most complete of the readings that fit the form, with
cells of the others. -/
theorem arbitrate_some {candidates : List Reading}
    (h : arbitrate U ratio candidates templates = .ok (some sheet)) :
    ∃ tpl winner others, recognized U ratio candidates templates = some tpl ∧
      sheet.rows = others.foldl (plausibilityBackfill U) winner ∧
      ∀ rows ∈ winner :: others, ∃ c ∈ candidates,
        dropEmptyCols (fullData c) = (rows, widthOf tpl.headerRows) := by
  unfold arbitrate at h
  split at h
  case h_1 => cases h
  case h_2 tpl htpl =>
    dsimp only at h
    split at h
    case h_1 => cases h
    case h_2 winner others hsorted =>
      obtain ⟨headers, -, h⟩ := Guard.bind_ok.1 h
      obtain rfl := Option.some.inj (Except.ok.inj h)
      refine ⟨tpl, winner, others, htpl, rfl, ?_⟩
      intro rows hrows
      rw [← hsorted, List.mem_insertionSort, List.mem_filterMap] at hrows
      obtain ⟨⟨rows', w⟩, hmem, hrows⟩ := hrows
      obtain ⟨c, hc, heq⟩ := List.mem_map.1 hmem
      dsimp only at hrows
      split at hrows
      case isFalse => cases hrows
      case isTrue hw =>
        obtain rfl := Option.some.inj hrows
        rw [hw] at heq
        exact ⟨c, hc, heq⟩

/-- A stamped table has nothing that is in no reading. -/
theorem arbitrate_drawn {candidates : List Reading}
    (h : arbitrate U ratio candidates templates = .ok (some sheet)) :
    Drawn sheet.rows (candidates.flatMap fullData) := by
  obtain ⟨tpl, winner, others, -, hrows, hfits⟩ := arbitrate_some h
  have haligned : ∀ rows ∈ winner :: others, Drawn rows (candidates.flatMap fullData) := by
    intro rows hmem
    obtain ⟨c, hc, heq⟩ := hfits rows hmem
    rw [← (Prod.mk.inj heq).1]
    exact (drawn_dropEmptyCols _).mono fun row hrow => List.mem_flatMap.2 ⟨c, hc, hrow⟩
  rw [hrows]
  exact drawn_foldl (haligned winner List.mem_cons_self)
    fun rows hmem => haligned rows (List.mem_cons_of_mem _ hmem)

end

end RagPipeline.Extraction
