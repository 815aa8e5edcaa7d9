import RagPipeline.Lib.Text
import Mathlib.Algebra.Order.Ring.Rat
import Mathlib.Data.List.Basic
import Mathlib.Data.List.Infix
import Mathlib.Data.Rat.Floor

/-! # Characters and cells

How cells are compared: `_squash` folds the Turkish letters, lowers, and strips
what is neither letter nor digit. What the interpreter knows of characters is a
table of its own. -/

set_option autoImplicit false

namespace RagPipeline.Extraction

/-- `str.isalnum`, the digits of `\d` with their values,
`str.lower` and `unicodedata.normalize("NFC", …)`. -/
structure Unicode where
  alnum : Char → Bool
  digit : Char → Bool
  value : Char → ℕ
  lower : List Char → List Char
  nfc : List Char → List Char

/-- `_TR_FOLD`. -/
def trFold : Char → Char
  | 'ı' | 'İ' | 'I' => 'i'
  | 'ş' | 'Ş' => 's'
  | 'ğ' | 'Ğ' => 'g'
  | 'ç' | 'Ç' => 'c'
  | 'ö' | 'Ö' => 'o'
  | 'ü' | 'Ü' => 'u'
  | c => c

namespace Unicode

variable (U : Unicode)

/-- What is documented of the table: a digit is alphanumeric and no space, the
letters that are folded are no digits, and lowering leaves digits as they are. -/
structure Lawful : Prop where
  alnum_of_digit : ∀ c, U.digit c → U.alnum c ∧ ¬ Text.isSpace c
  digit_trFold : ∀ c, trFold c ≠ c → ¬ U.digit c ∧ ¬ U.digit (trFold c)
  digits_lower : ∀ l, (U.lower l).filter U.digit = l.filter U.digit

/-- `_squash`. -/
def squash (s : String) : List Char :=
  (U.lower (s.toList.map trFold)).filter fun c => U.alnum c && !Text.isSpace c

/-- A cell up to letter folding and spacing. -/
def folded (s : String) : List Char :=
  (U.lower (s.toList.map trFold)).filter fun c => !Text.isSpace c

/-- `_digits`. -/
def digits (s : String) : List Char := s.toList.filter U.digit

/-- `_RESIDUAL`: combining marks, and the spacing breve, dot above and cedilla. -/
def residual (c : Char) : Bool :=
  ('\u0300' ≤ c && c ≤ '\u036F') || c = '\u02D8' || c = '\u02D9' || c = '\u00B8'

def hasResidualMarks (text : List Char) : Bool :=
  text ≠ [] && (U.nfc text).any residual

variable {U}

/-- Cells that squash alike have the same digits in the same order. -/
theorem digits_of_squash (hU : U.Lawful) {x y : String} (h : U.squash x = U.squash y) :
    U.digits x = U.digits y := by
  have hsquash : ∀ s : String, (U.squash s).filter U.digit = U.digits s := by
    intro s
    have hkept : (fun c => U.digit c && (U.alnum c && !Text.isSpace c)) = U.digit := by
      funext c
      by_cases hc : U.digit c
      · have halnum := hU.alnum_of_digit c hc
        simp [hc, halnum.1, halnum.2]
      · simp [hc]
    have hfold : ∀ l : List Char, (l.map trFold).filter U.digit = l.filter U.digit := by
      intro l
      induction l with
      | nil => rfl
      | cons c l ih =>
        by_cases hc : trFold c = c
        · rw [List.map_cons, hc, List.filter_cons, List.filter_cons, ih]
        · have hnot := hU.digit_trFold c hc
          rw [List.map_cons, List.filter_cons_of_neg hnot.2, List.filter_cons_of_neg hnot.1, ih]
    rw [squash, List.filter_filter, hkept, hU.digits_lower, hfold, digits]
  rw [← hsquash x, ← hsquash y, h]

end Unicode

end RagPipeline.Extraction

/-! # Two readings reconciled

`reconcile` of `consensus.py`: the readings of two models, cell by cell. The
ratios are rationals where the source has floats. -/

namespace RagPipeline.Extraction

/-- `round(x, n)`: to the nearest, and of two nearest to the even one. -/
def round (x : ℚ) (n : ℕ) : ℚ :=
  let y := x * 10 ^ n
  let f := y.floor
  let r := y - f
  let k := if r < 1 / 2 then f else if 1 / 2 < r then f + 1 else if f % 2 = 0 then f else f + 1
  k / 10 ^ n

/-- A rectangle of merged header cells: its row, its column, and its spans. -/
structure Merge where
  row : ℕ
  column : ℕ
  rowSpan : ℕ
  columnSpan : ℕ
deriving DecidableEq, Repr

/-- The reading of a table. A grouped header has its rows besides. -/
structure Reading where
  headers : List String
  rows : List (List String)
  headerRows : List (List String) := []
  headerMerges : List Merge := []
deriving DecidableEq, Repr

def cellOf (rows : List (List String)) (i j : ℕ) : Option String :=
  rows[i]? >>= fun row => row[j]?

inductive Disagreement where
  | shape (primary secondary : ℕ × ℕ)
  | header (pos : ℕ) (primary secondary : String)
  | cell (pos : ℕ × ℕ) (primary secondary : String)
deriving DecidableEq, Repr

structure Reconciled where
  shapeMatch : Bool
  shapePrimary : ℕ × ℕ
  shapeSecondary : ℕ × ℕ
  headers : List String
  rows : List (List String)
  disagreements : List Disagreement
  agreement : ℚ
  reviewMaskHeaders : List Bool
  reviewMaskRows : List (List Bool)
  headerRows : List (List String) := []
  headerMerges : List Merge := []
deriving DecidableEq, Repr

section
variable (U : Unicode)

/-- `_eq`. -/
def agree (x y : String) : Bool := U.squash x = U.squash y

/-- The disagreements of one line of cells, as far as both go. -/
def lineDisagreements (report : ℕ → String → String → Disagreement) (p s : List String) :
    List Disagreement :=
  (p.zip s).zipIdx.filterMap fun ((x, y), j) => if agree U x y then none else some (report j x y)

def reconcile (primary secondary : Reading) : Reconciled :=
  let ph := primary.headers
  let pr := primary.rows
  let sh := secondary.headers
  let sr := secondary.rows
  let shapeP := (pr.length, ph.length)
  let shapeS := (sr.length, sh.length)
  if shapeP ≠ shapeS then
    { shapeMatch := false
      shapePrimary := shapeP
      shapeSecondary := shapeS
      headers := ph
      rows := pr
      disagreements := [.shape shapeP shapeS]
      agreement := 0
      reviewMaskHeaders := ph.map fun _ => true
      reviewMaskRows := pr.map fun row => row.map fun _ => true }
  else
    let headers := (ph.zip sh).map Prod.fst
    let rows := (pr.zip sr).map fun (rp, rs) => (rp.zip rs).map Prod.fst
    let disagreements := lineDisagreements U .header ph sh ++
      (pr.zip sr).zipIdx.flatMap fun ((rp, rs), i) =>
        lineDisagreements U (fun j => .cell (i, j)) rp rs
    let total := headers.length + (rows.map List.length).sum
    { shapeMatch := true
      shapePrimary := shapeP
      shapeSecondary := shapeS
      headers := headers
      rows := rows
      disagreements := disagreements
      agreement := if total = 0 then 0 else round ((total - disagreements.length : ℚ) / total) 4
      reviewMaskHeaders := (ph.zip sh).map fun (x, y) => !agree U x y
      reviewMaskRows := (pr.zip sr).map fun (rp, rs) =>
        (rp.zip rs).map fun (x, y) => !agree U x y }

end

/-! ## What no disagreement means -/

section
variable {U : Unicode} {p s : List String} {primary secondary : Reading}

theorem lineDisagreements_nil {report : ℕ → String → String → Disagreement}
    (h : lineDisagreements U report p s = []) {j : ℕ} {x y : String} (hx : p[j]? = some x)
    (hy : s[j]? = some y) : U.squash x = U.squash y := by
  have hmem : ((x, y), j) ∈ (p.zip s).zipIdx := by
    rw [List.mk_mem_zipIdx_iff_getElem?, List.getElem?_zip_eq_some]
    exact ⟨hx, hy⟩
  rw [lineDisagreements, List.filterMap_eq_nil_iff] at h
  have hagree := h _ hmem
  by_contra hne
  simp [agree, hne] at hagree

/-- Where no disagreement is noted, the cells both readings have agree, and the
merged rows have the primary's. -/
theorem reconcile_agree (hshape : (reconcile U primary secondary).shapeMatch = true)
    (hnone : (reconcile U primary secondary).disagreements = []) :
    (primary.headers.length = secondary.headers.length ∧
      primary.rows.length = secondary.rows.length) ∧
    (∀ (j : ℕ) x y, primary.headers[j]? = some x → secondary.headers[j]? = some y →
      U.squash x = U.squash y) ∧
    ∀ i j x y, cellOf primary.rows i j = some x → cellOf secondary.rows i j = some y →
      U.squash x = U.squash y ∧ cellOf (reconcile U primary secondary).rows i j = some x := by
  by_cases h : (primary.rows.length, primary.headers.length) =
      (secondary.rows.length, secondary.headers.length)
  case neg => simp [reconcile, h] at hshape
  case pos =>
    obtain ⟨hrows, hheaders⟩ := Prod.mk.inj h
    simp only [reconcile, h, ne_eq, not_true_eq_false, if_false, List.append_eq_nil_iff,
      List.flatMap_eq_nil_iff] at hnone ⊢
    refine ⟨⟨hheaders, hrows⟩, fun j x y hx hy => lineDisagreements_nil hnone.1 hx hy, ?_⟩
    intro i j x y hx hy
    simp only [cellOf, Option.bind_eq_bind, Option.bind_eq_some_iff] at hx hy ⊢
    obtain ⟨rp, hrp, hx⟩ := hx
    obtain ⟨rs, hrs, hy⟩ := hy
    have hzip : (primary.rows.zip secondary.rows)[i]? = some (rp, rs) :=
      List.getElem?_zip_eq_some.2 ⟨hrp, hrs⟩
    constructor
    · refine lineDisagreements_nil (hnone.2 ((rp, rs), i) ?_) hx hy
      rw [List.mk_mem_zipIdx_iff_getElem?]
      exact hzip
    · refine ⟨(rp.zip rs).map Prod.fst, by simp [hzip], ?_⟩
      have hcell : (rp.zip rs)[j]? = some (x, y) := List.getElem?_zip_eq_some.2 ⟨hx, hy⟩
      simp [hcell]

end

end RagPipeline.Extraction

/-! # Checks on one table

`validate_table`, `number_verify.verify` and `row_sequence.check`: the shape of a
table, its numbers against the reading of the page, and its serial column. -/

namespace RagPipeline.Extraction
open Text

section
variable (U : Unicode)

/-! ## Shape -/

/-- The cells whose text is not in the text of the page. -/
def unmatchedCells (rows : List (List String)) (ocr : String) : List String :=
  rows.flatten.filterMap fun cell =>
    let token := strip cell
    if token ≠ "" ∧ ¬ U.squash token <:+: U.squash ocr then some token else none

/-- `validate_table`. -/
def validateTable (headers : List String) (rows : List (List String)) (ocr : Option String) :
    ℚ × List String :=
  if headers = [] ∨ rows = [] then (0, ["bos tablo (header veya satir yok)"])
  else
    let width := headers.length
    let badWidth := rows.countP fun row => row.length ≠ width
    let emptyRows := rows.countP fun row => row.all fun c => strip c = ""
    let unmatched := (ocr.filter (· ≠ "")).elim [] (unmatchedCells U rows)
    let flat := " ".intercalate rows.flatten
    let issues :=
      (if badWidth ≠ 0 then
        [toString badWidth ++
          " satir header genisligiyle uyusmuyor (sutun sayisi tutmuyor)"] else []) ++
      (if emptyRows ≠ 0 then [toString emptyRows ++ " tamamen bos satir"] else []) ++
      (if unmatched ≠ [] then
        [toString unmatched.length ++ " hucre OCR metninde yok (uydurma adayi): " ++
          ", ".intercalate (unmatched.take 5)] else []) ++
      (if U.hasResidualMarks flat.toList ∨
          U.hasResidualMarks (" ".intercalate headers).toList then
        ["cozulmemis Turkce karakter isareti kaldi (normalize eksik)"] else [])
    let confidence : ℚ := (rows.countP fun row => row.length = width : ℚ) / rows.length
    let cells := if (rows.map List.length).sum = 0 then 1 else (rows.map List.length).sum
    let confidence := if unmatched ≠ [] then
      confidence * max 0 (1 - (unmatched.length : ℚ) / cells) else confidence
    (round confidence 2, issues)

/-! ## Numbers -/

/-- `is_financial`: an amount with a comma before its one or two decimals. -/
def isFinancial (cell : String) : Bool :=
  let s := (strip cell).toList
  let body := match s with
    | c :: rest => if c ∈ ['-', '+', '('] then rest else s
    | [] => []
  match body with
  | [] => false
  | c :: rest => U.digit c &&
    match rest.dropWhile fun c => U.digit c || c = '.' with
    | ',' :: fraction =>
      let places := (fraction.takeWhile U.digit).length
      (1 ≤ places && places ≤ 2) &&
        fraction.dropWhile U.digit ∈ [[], [')'], ['%'], [')', '%']]
    | _ => false

/-- The digit strings of the numbers of a text; `acc` are the digits of the
number at hand. -/
def numericTokens : Option (List Char) → List Char → List (List Char)
  | none, [] => []
  | some acc, [] => [acc]
  | none, c :: rest =>
    if U.digit c then numericTokens (some [c]) rest else numericTokens none rest
  | some acc, c :: rest =>
    if U.digit c then numericTokens (some (acc ++ [c])) rest
    else if c = '.' ∨ c = ',' then numericTokens (some acc) rest
    else acc :: numericTokens none rest

/-- `numeric_token_set`. -/
def numericTokenSet (ocr : String) : List (List Char) := numericTokens U none ocr.toList

structure Flag where
  row : ℕ
  column : ℕ
  value : String
deriving DecidableEq, Repr

/-- The financial cells, each with its place. -/
def financialCells (rows : List (List String)) : List Flag :=
  rows.zipIdx.flatMap fun (row, i) => row.zipIdx.filterMap fun (cell, j) =>
    if isFinancial U cell then some ⟨i, j, cell⟩ else none

/-- `verify`. -/
def verify (rows : List (List String)) (ocr : String) : ℚ × List Flag :=
  let keys := numericTokenSet U ocr
  let cells := financialCells U rows
  let matched := cells.filter fun f => U.digits f.value ≠ [] ∧ U.digits f.value ∈ keys
  let flags := (cells.filter fun f => ¬ (U.digits f.value ≠ [] ∧ U.digits f.value ∈ keys)).map
    fun f => { f with value := strip f.value }
  (if cells = [] then 1 else round ((matched.length : ℚ) / cells.length) 3, flags)

/-- `flags_to_messages`. -/
def flagsToMessages (flags : List Flag) (headers : List String) : List String :=
  flags.map fun f =>
    let column := headers[f.column]?.getD ("sutun " ++ toString f.column)
    "satir " ++ toString (f.row + 1) ++ " / " ++ column ++ ": '" ++ f.value ++
      "' deterministik OCR'da yok (hane uydurma adayi)"

/-! ## The serial column -/

/-- `_as_int`. -/
def asInt (cell : String) : Option ℕ :=
  let s := (strip cell).toList
  if 1 ≤ s.length ∧ s.length ≤ 4 ∧ s.all U.digit = true then
    some (s.foldl (fun n c => 10 * n + U.value c) 0)
  else none

/-- The serial numbers of a column, as far as there are some. -/
def serials (rows : List (List String)) (col : ℕ) : List (Option ℕ) :=
  rows.map fun row => row[col]? >>= asInt U

/-- A column that starts at the beginning, never descends, and covers most rows. -/
def isIndexColumn (rows : List (List String)) (col : ℕ) : Bool :=
  let nums := (serials U rows col).filterMap id
  !(nums.length < 3 || (nums.length : ℚ) / rows.length < 3 / 5) &&
    !(2 < nums.headD 0 || (nums.zip nums.tail).any fun (a, b) => b < a)

/-- `find_index_column`. -/
def findIndexColumn (rows : List (List String)) : Option ℕ :=
  (List.range ((rows.map List.length).foldr max 0)).find? (isIndexColumn U rows)

/-- A repeated serial number, with the row that had it first. -/
def repeated (numbered : List (ℕ × ℕ)) : List (ℕ × ℕ × ℕ) :=
  numbered.filterMap fun (i, v) =>
    (numbered.find? fun (_, w) => w = v).bind fun (first, _) =>
      if first = i then none else some (i, v, first)

/-- `check`: the issues, and the cells to look at. -/
def checkSequence (rows : List (List String)) : List String × List (ℕ × ℕ) :=
  match findIndexColumn U rows with
  | none => ([], [])
  | some col =>
    let values := serials U rows col
    let numbered := values.zipIdx.filterMap fun (v, i) => v.map fun v => (i, v)
    let first := (numbered.map Prod.fst).headD 0
    let last := (numbered.map Prod.fst).getLastD 0
    let blank := (List.range values.length).filter fun i =>
      first ≤ i ∧ i < last ∧ values[i]? = some none
    let twice := repeated numbered
    let gaps := (numbered.zip numbered.tail).filter fun ((_, pv), (_, nv)) => pv + 1 < nv
    let start := (numbered.map Prod.snd).headD 0
    (blank.map (fun i => "satir " ++ toString (i + 1) ++
        ": sira numarasi yok (fazladan satir olabilir)") ++
      twice.map (fun (i, v, first) => "sira no " ++ toString v ++ " iki kez geciyor (satir " ++
        toString (first + 1) ++ " ve " ++ toString (i + 1) ++
        " - satir tekrarlanmis olabilir)") ++
      gaps.map (fun ((_, pv), (_, nv)) => "sira no " ++ toString pv ++ " ile " ++ toString nv ++
        " arasinda " ++ toString (nv - pv - 1) ++ " satir eksik") ++
      (if 1 < start then ["sira numarasi " ++ toString start ++
        " ile basliyor (bastaki satirlar eksik olabilir)"] else []),
     blank.map (fun i => (i, col)) ++ twice.flatMap (fun (i, _, first) => [(i, col), (first, col)]) ++
      gaps.map (fun (_, (ni, _)) => (ni, col)) ++ (if 1 < start then [(first, col)] else []))

end

/-! ## A table without issues -/

variable {U : Unicode} {headers : List String} {rows : List (List String)}

theorem validateTable_nil (h : (validateTable U headers rows none).2 = []) :
    ∀ row ∈ rows, row.length = headers.length := by
  unfold validateTable at h
  split at h
  case isTrue => cases h
  case isFalse =>
    simp only [List.append_eq_nil_iff, ite_eq_right_iff, reduceCtorEq, imp_false,
      Decidable.not_not] at h
    have hwidth := h.1.1.1
    simpa [List.countP_eq_zero] using hwidth

end RagPipeline.Extraction
