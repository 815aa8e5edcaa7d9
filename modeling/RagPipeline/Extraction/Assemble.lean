import RagPipeline.Extraction.Normalize
import RagPipeline.Lib.Neighbours
import Mathlib.Data.List.MinMax
import Mathlib.Data.Prod.Lex
import Mathlib.Data.String.Basic

/-! # Assembling a scanned table

`assemble` of `table_tatr.py`: the words of one recogniser chained into lines and
dealt out to the columns, the text columns read by another, and its readings put
into the rows. What the recognisers return is given. -/

set_option autoImplicit false

namespace RagPipeline.ScannedTable
open Extraction (Unicode normalizeTr)
open Text Gaps

/-! ## Words, lines, columns -/

structure Box where
  x0 : ℚ
  y0 : ℚ
  x1 : ℚ
  y1 : ℚ
deriving DecidableEq

structure Word where
  text : String
  box : Box
deriving DecidableEq

def overlap (a0 a1 b0 b1 : ℚ) : ℚ := max 0 (min a1 b1 - max a0 b0)

/-- The first column with the largest overlap. -/
def colOf (cols : List Box) (w : Word) : ℕ :=
  ((List.range cols.length).argmax fun i =>
    ((cols[i]?).map fun c => overlap w.box.x0 w.box.x1 c.x0 c.x1).getD 0).getD 0

def cy (w : Word) : ℚ := (w.box.y0 + w.box.y1) / 2

def rowGap : ℚ := 12

/-- The words chained into lines, from the top. -/
def clusters (ocrWords : List Word) : List (List Word) := clusterBy rowGap cy (sortBy cy ocrWords)

def mean (l : List ℚ) : ℚ := l.sum / l.length

def clusterCy (line : List Word) : ℚ := mean (line.map cy)

def isHeader (hdrY : Option (ℚ × ℚ)) (line : List Word) : Bool :=
  hdrY.any fun band => decide (band.1 ≤ clusterCy line) && decide (clusterCy line ≤ band.2)

/-- The words of a line in one column, from the left. -/
def bucket (cols : List Box) (line : List Word) (ci : ℕ) : List Word :=
  sortBy (fun w => toLex (w.box.x0, w.text)) (line.filter fun w => colOf cols w = ci)

section
variable (U : Unicode)

def cellText (words : List Word) : String :=
  if words = [] then "" else normalizeTr U (strip (" ".intercalate (words.map Word.text)))

def rowCells (cols : List Box) (line : List Word) : List String :=
  (List.range cols.length).map fun ci => cellText U (bucket cols line ci)

def dataLines (hdrY : Option (ℚ × ℚ)) (ocrWords : List Word) : List (List Word) :=
  sortBy clusterCy ((clusters ocrWords).filter fun line => !isHeader hdrY line)

/-! ## The text columns -/

/-- What the second recogniser finds in a strip. -/
structure Detection where
  corners : List (ℚ × ℚ)
  text : String
deriving DecidableEq

structure Reading where
  y : ℚ
  text : String
deriving DecidableEq

/-- The letters and digits that a text may begin with. -/
def startsText (c : Char) : Bool :=
  c ∈ ['Ç', 'Ğ', 'İ', 'Ö', 'Ş', 'Ü', 'ç', 'ğ', 'ı', 'ö', 'ş', 'ü'] || ('0' ≤ c && c ≤ '9') ||
    ('A' ≤ c && c ≤ 'Z') || ('a' ≤ c && c ≤ 'z')

def cleanText (s : String) : String :=
  String.ofList ((strip (normalizeTr U s)).toList.dropWhile fun c => !startsText c)

/-- `int`, towards zero. -/
def truncate (q : ℚ) : ℤ := q.num.tdiv q.den

/-- A detection with the position of its middle. -/
def item (d : Detection) : ℚ × ℚ × String :=
  ((d.corners.map Prod.snd).sum / 4, (d.corners.map Prod.fst).sum / 4, d.text)

def readTextColumn (readtext : ℚ × ℤ × ℚ × ℤ → List Detection) (height : ℤ) (col : Box) (y0 y1 : ℚ) :
    List Reading :=
  let nx0 := col.x0 + 2
  let nx1 := col.x1 - 2
  if nx1 - nx0 < 2 then []
  else
    let ny0 := max 0 (truncate (y0 - 3))
    let ny1 := min height (truncate (y1 + 3))
    let items := sortBy (fun i => toLex (i.1, toLex (i.2.1, i.2.2))) ((readtext (nx0, ny0, nx1, ny1)).map item)
    (clusterBy (22 * 2) Prod.fst items).map fun row =>
      ⟨ny0 + mean (row.map Prod.fst) / 2,
        cleanText U (" ".intercalate ((sortBy (fun i => i.2.1) row).map fun i => i.2.2))⟩

/-! ## The rows -/

def setCell (rows : List (List String)) (j ci : ℕ) (text : String) : List (List String) :=
  rows.modify j fun row => row.set ci text

/-- The first row whose middle is nearest. -/
def nearest (rowCys : List ℚ) (y : ℚ) : ℕ :=
  ((List.range rowCys.length).argmin fun k => |(rowCys[k]?).getD 0 - y|).getD 0

/-- The row that each reading goes to. -/
def targets (rowCys : List ℚ) (readings : List Reading) : List ℕ :=
  if readings.length = rowCys.length then List.range readings.length
  else readings.map fun r => nearest rowCys r.y

def placeColumn (rowCys : List ℚ) (readings : List Reading) (ci : ℕ) (rows : List (List String)) :
    List (List String) :=
  ((targets rowCys readings).zip readings).foldl (fun rows p => setCell rows p.1 ci p.2.text) rows

def placeColumns (rowCys : List ℚ) (readings : ℕ → List Reading) (ncol : ℕ) (textCols : List ℕ)
    (rows : List (List String)) : List (List String) :=
  textCols.foldl (fun rows ci => if ncol ≤ ci then rows else placeColumn rowCys (readings ci) ci rows) rows

/-! ## The table -/

structure Table where
  headers : List String
  rows : List (List String)
  flags : List String
deriving DecidableEq

/-- What is recognised on the picture of the table. -/
structure Scan where
  cols : List Box
  hdrY : Option (ℚ × ℚ)
  words : List Word
  height : ℤ
  readRegion : Box → String
  readtext : ℚ × ℤ × ℚ × ℤ → List Detection

variable (s : Scan)

def Scan.lines : List (List Word) := dataLines s.hdrY s.words

/-- The readings of a text column that are not empty. It is read only where there are rows. -/
def Scan.readings (ci : ℕ) : List Reading :=
  if s.lines = [] then []
  else
    let y0 := (((s.lines.flatten).map fun w => w.box.y0).min?).getD 0
    let y1 := (((s.lines.flatten).map fun w => w.box.y1).max?).getD 0
    ((s.cols[ci]?).map fun col => (readTextColumn U s.readtext s.height col y0 y1).filter fun r =>
      r.text ≠ "").getD []

/-- The header is read from its band, or else from the lines above the first row. -/
def Scan.headers : List String :=
  match s.hdrY with
  | some band => s.cols.map fun c => s.readRegion ⟨c.x0, band.1, c.x1, band.2⟩
  | none =>
    let above := ((s.lines.head?).map clusterCy).getD 1000000000
    let headerLines := sortBy clusterCy ((clusters s.words).filter fun line => clusterCy line < above)
    headerLines.foldl (fun headers line => (headers.zip (rowCells U s.cols line)).map fun p =>
      if p.2 = "" then p.1 else strip (p.1 ++ " " ++ p.2)) (s.cols.map fun _ => "")

def Scan.rows (textCols : List ℕ) : List (List String) :=
  placeColumns (s.lines.map clusterCy) (s.readings U) s.cols.length textCols (s.lines.map (rowCells U s.cols))

def assemble (textCols : List ℕ) : Table :=
  if s.cols = [] then ⟨[], [], ["TATR sutun bulamadi"]⟩ else ⟨s.headers U, s.rows U textCols, []⟩

end

end RagPipeline.ScannedTable
