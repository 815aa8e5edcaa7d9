import RagPipeline.Extraction.Checks
import RagPipeline.Lib.SpanLayout
import Mathlib.Algebra.Ring.Nat
import RagPipeline.Extraction.Finalize

/-! # Tables out of tag soup

`_HTMLTableExtractor`: a state machine over start tags, data and end tags. A cell
is the list of its chunks until it is closed; what a closed cell becomes is a
parameter, so that the chunks themselves can be followed. -/

set_option autoImplicit false

namespace RagPipeline.Extraction
open Text SpanLayout

inductive HtmlEvent where
  | start (tag : String) (attrs : List (String × Option String))
  | data (chunk : String)
  | close (tag : String)
deriving DecidableEq, Repr

/-- A row of a table: its cells with their spans, and whether it stands in a
`<thead>`. -/
structure Line (κ : Type) where
  cells : List (κ × Span)
  head : Bool
deriving DecidableEq, Repr

structure Extractor (κ : Type) where
  tables : List (List (Line κ)) := []
  rows : Option (List (Line κ)) := none
  cell : Option (List String) := none
  span : Span := ⟨1, 1, Nat.one_pos, Nat.one_pos⟩
  inThead : Bool := false

/-! ## Spans -/

section
variable (U : Unicode)

/-- The digits that follow a first one; single underscores may stand between. -/
def moreDigits : ℕ → List Char → Option ℕ
  | n, [] => some n
  | n, '_' :: c :: rest => if U.digit c then moreDigits (10 * n + U.value c) rest else none
  | n, c :: rest => if U.digit c then moreDigits (10 * n + U.value c) rest else none

def unsignedInt : List Char → Option ℕ
  | c :: rest => if U.digit c then moreDigits U (U.value c) rest else none
  | [] => none

/-- `int` of a text. -/
def intOf (s : String) : Option ℤ :=
  if 4300 < (U.digits s).length then none
  else match (strip s).toList with
    | '-' :: rest => (unsignedInt U rest).map fun n => -(n : ℤ)
    | '+' :: rest => (unsignedInt U rest).map fun n => (n : ℤ)
    | l => (unsignedInt U l).map fun n => (n : ℤ)

/-- `_int_attr`. -/
def intAttr (attrs : List (String × Option String)) (name : String) : ℕ :=
  match attrs.find? fun (k, _) => k = name with
  | some (_, some v) => ((intOf U v).map fun n => (min 1000 (max 1 n)).toNat).getD 1
  | _ => 1

theorem intAttr_pos (attrs : List (String × Option String)) (name : String) :
    0 < intAttr U attrs name := by
  unfold intAttr
  split
  case h_1 v _ =>
    cases intOf U v with
    | none => exact Nat.one_pos
    | some n =>
      show 0 < (min 1000 (max 1 n)).toNat
      omega
  case h_2 => exact Nat.one_pos

def spanOf (attrs : List (String × Option String)) : Span :=
  ⟨intAttr U attrs "colspan", intAttr U attrs "rowspan", intAttr_pos U attrs _, intAttr_pos U attrs _⟩

/-! ## The machine -/

/-- What `self._rows[-1]` raises where there is no row. -/
inductive NoRow where
  | noRow
deriving DecidableEq, Repr

variable {κ : Type} (render : List String → κ)

/-- A closed cell goes to the end of the last row. -/
def closeCell (chunks : List String) (s : Extractor κ) : Except NoRow (Extractor κ) :=
  match (s.rows.getD []).getLast? with
  | none => .error .noRow
  | some last =>
    .ok { s with
      rows := some ((s.rows.getD []).dropLast ++
        [{ last with cells := last.cells ++ [(render chunks, s.span)] }])
      cell := none }

/-- The rows that have cells become a table. -/
def emit (s : Extractor κ) : Extractor κ :=
  let keep := (s.rows.getD []).filter fun line => line.cells ≠ []
  { s with
    tables := if keep = [] then s.tables else s.tables ++ [keep]
    rows := none }

/-- `_commit`. -/
def commit (s : Extractor κ) : Except NoRow (Extractor κ) :=
  match s.cell with
  | none => .ok (emit s)
  | some chunks => (closeCell render chunks s).map emit

/-- `handle_starttag`. -/
def startTag (tag : String) (attrs : List (String × Option String)) (s : Extractor κ) :
    Extractor κ :=
  if tag = "table" then { s with rows := some [], inThead := false }
  else match s.rows with
    | none => s
    | some rows =>
      if tag = "thead" then { s with inThead := true }
      else if tag = "tbody" then { s with inThead := false }
      else if tag = "tr" then { s with rows := some (rows ++ [⟨[], s.inThead⟩]) }
      else if (tag = "td" ∨ tag = "th") ∧ rows ≠ [] then
        { s with cell := some [], span := spanOf U attrs }
      else s

/-- `handle_data`. -/
def handleData (chunk : String) (s : Extractor κ) : Extractor κ :=
  { s with cell := s.cell.map (· ++ [chunk]) }

/-- `handle_endtag`. -/
def endTag (tag : String) (s : Extractor κ) : Except NoRow (Extractor κ) :=
  match s.cell with
  | some chunks =>
    if tag = "td" ∨ tag = "th" then closeCell render chunks s
    else if tag = "table" then commit render s
    else .ok s
  | none => if tag = "table" then commit render s else .ok s

def handle (e : HtmlEvent) (s : Extractor κ) : Except NoRow (Extractor κ) :=
  match e with
  | .start tag attrs => .ok (startTag U tag attrs s)
  | .data chunk => .ok (handleData chunk s)
  | .close tag => endTag render tag s

/-- `feed`: what is raised ends it, and is passed over. -/
def feed : Extractor κ → List HtmlEvent → Extractor κ
  | s, [] => s
  | s, e :: rest =>
    match handle U render e s with
    | .error _ => s
    | .ok s => feed s rest

/-- The tables of a text: what is left open at its end is committed. -/
def extract (events : List HtmlEvent) : Except NoRow (List (List (Line κ))) :=
  (commit render (feed U render {} events)).map Extractor.tables

end

/-- The text of a closed cell: the chunks joined, runs of white space made one. -/
def cellText (chunks : List String) : String :=
  " ".intercalate (((chunks.flatMap String.toList).splitOnP isSpace).filter (· ≠ [])
    |>.map String.ofList)

end RagPipeline.Extraction

/-! # What becomes of the chunks

Followed as chunks, the text of the open cells comes out in document order, but
for three events: a cell start on a cell with text, a table start on rows with
text, and an end where an open cell has no row. -/

set_option autoImplicit false

namespace RagPipeline.Extraction
open SpanLayout

/-! ## What the emitted text is -/

section
variable {κ : Type} (U : Unicode) (render : List String → κ)

def Line.rendered (line : Line (List String)) : Line κ :=
  ⟨line.cells.map fun (chunks, span) => (render chunks, span), line.head⟩

def Extractor.rendered (s : Extractor (List String)) : Extractor κ :=
  { s with
    tables := s.tables.map (List.map (Line.rendered render))
    rows := s.rows.map (List.map (Line.rendered render)) }

theorem render_rows (s : Extractor (List String)) :
    (s.rendered render).rows.getD [] = (s.rows.getD []).map (Line.rendered render) := by
  show (s.rows.map _).getD [] = _
  cases s.rows with
  | none => rfl
  | some rows => rfl

theorem closeCell_render (chunks : List String) (s : Extractor (List String)) :
    closeCell render chunks (s.rendered render) =
      (closeCell id chunks s).map (Extractor.rendered render) := by
  unfold closeCell
  rw [render_rows, List.getLast?_map]
  cases (s.rows.getD []).getLast? with
  | none => rfl
  | some last =>
    show Except.ok _ = Except.ok _
    simp [Extractor.rendered, Line.rendered, List.map_dropLast]

theorem emit_render (s : Extractor (List String)) :
    emit (s.rendered render) = (emit s).rendered render := by
  have hkeep : ((s.rendered render).rows.getD []).filter (fun line => line.cells ≠ []) =
      ((s.rows.getD []).filter fun line => line.cells ≠ []).map (Line.rendered render) := by
    rw [render_rows, List.filter_map]
    congr 1
    apply List.filter_congr
    intro line _
    simp [Line.rendered]
  unfold emit
  rw [hkeep]
  by_cases hnone : (s.rows.getD []).filter (fun line => line.cells ≠ []) = []
  · rw [hnone]
    rfl
  · have hsome : ((s.rows.getD []).filter fun line => line.cells ≠ []).map (Line.rendered render) ≠
        [] := by simpa using hnone
    dsimp only
    rw [if_neg hnone, if_neg hsome]
    simp [Extractor.rendered]

theorem commit_render (s : Extractor (List String)) :
    commit render (s.rendered render) = (commit id s).map (Extractor.rendered render) := by
  have hcell : (s.rendered render).cell = s.cell := rfl
  unfold commit
  rw [hcell]
  cases s.cell with
  | none => exact congrArg Except.ok (emit_render render s)
  | some chunks =>
    dsimp only
    rw [closeCell_render]
    cases closeCell id chunks s with
    | error e => rfl
    | ok s' => exact congrArg Except.ok (emit_render render s')

theorem startTag_render (tag : String) (attrs : List (String × Option String))
    (s : Extractor (List String)) :
    startTag U tag attrs (s.rendered render) = (startTag U tag attrs s).rendered render := by
  obtain ⟨tables, rows, cell, span, inThead⟩ := s
  cases rows with
  | none =>
    simp only [startTag, Extractor.rendered, Option.map_none]
    split_ifs <;> rfl
  | some rows =>
    simp only [startTag, Extractor.rendered, Option.map_some, ne_eq, List.map_eq_nil_iff]
    split_ifs <;> simp [Line.rendered]

theorem handle_render (e : HtmlEvent) (s : Extractor (List String)) :
    handle U render e (s.rendered render) = (handle U id e s).map (Extractor.rendered render) := by
  cases e with
  | start tag attrs => exact congrArg Except.ok (startTag_render U render tag attrs s)
  | data chunk => rfl
  | close tag =>
    have hcell : (s.rendered render).cell = s.cell := rfl
    show endTag render tag (s.rendered render) =
      (endTag id tag s).map (Extractor.rendered render)
    unfold endTag
    rw [hcell, commit_render]
    cases s.cell with
    | none =>
      dsimp only
      split_ifs
      · rfl
      · rfl
    | some chunks =>
      dsimp only
      rw [closeCell_render]
      split_ifs
      · rfl
      · rfl
      · rfl

theorem feed_render (events : List HtmlEvent) (s : Extractor (List String)) :
    feed U render (s.rendered render) events = (feed U id s events).rendered render := by
  induction events generalizing s with
  | nil => rfl
  | cons e rest ih =>
    unfold feed
    rw [handle_render]
    cases handle U id e s with
    | error _ => rfl
    | ok s' => exact ih s'

/-- What is emitted is rendered of the chunks of the cells. -/
theorem extract_render (events : List HtmlEvent) :
    extract U render events =
      (extract U id events).map (List.map (List.map (Line.rendered render))) := by
  unfold extract
  have hstart : ({} : Extractor κ) = ({} : Extractor (List String)).rendered render := rfl
  rw [hstart, feed_render, commit_render]
  cases commit id (feed U id {} events) with
  | error _ => rfl
  | ok s => rfl

end

/-! ## Chunks that are held -/

/-- The chunks of the cells of a row, in order. -/
def Line.chunks (line : Line (List String)) : List String := line.cells.flatMap Prod.fst

/-- The chunks of the rows of a table, in order. -/
def tableChunks (rows : List (Line (List String))) : List String := rows.flatMap Line.chunks

/-- What is kept so far: of the tables, of the rows of the open one, and of the
open cell. -/
def held (s : Extractor (List String)) : List String :=
  s.tables.flatMap tableChunks ++ tableChunks (s.rows.getD []) ++ s.cell.getD []

section
variable (U : Unicode)

/-- What an event adds to an open cell. -/
def heard (s : Extractor (List String)) : HtmlEvent → List String
  | .data chunk => if s.cell.isSome then [chunk] else []
  | _ => []

/-- The chunks that arrive while a cell is open, as far as the machine gets. -/
def spoken : Extractor (List String) → List HtmlEvent → List String
  | _, [] => []
  | s, e :: rest =>
    heard s e ++ match handle U id e s with
      | .error _ => []
      | .ok s => spoken s rest

/-- An event that finds the machine ready for it. -/
def Harmless (s : Extractor (List String)) : HtmlEvent → Prop
  | .start tag _ =>
    (tag = "table" → tableChunks (s.rows.getD []) = []) ∧
      (tag = "td" ∨ tag = "th" → s.rows.getD [] ≠ [] → s.cell.getD [] = [])
  | .data _ => True
  | .close tag => tag = "td" ∨ tag = "th" ∨ tag = "table" → s.cell ≠ none → s.rows.getD [] ≠ []

/-- Every event finds the machine ready, and so does the end of the text. -/
def Lossless : Extractor (List String) → List HtmlEvent → Prop
  | s, [] => s.cell ≠ none → s.rows.getD [] ≠ []
  | s, e :: rest => Harmless s e ∧ ∀ s', handle U id e s = .ok s' → Lossless s' rest

end

/-! ## One event -/

theorem tableChunks_filter (rows : List (Line (List String))) :
    tableChunks (rows.filter fun line => line.cells ≠ []) = tableChunks rows := by
  induction rows with
  | nil => rfl
  | cons line rows ih =>
    by_cases hcells : line.cells = []
    · rw [List.filter_cons_of_neg (by simp [hcells]), ih]
      show _ = line.chunks ++ tableChunks rows
      rw [Line.chunks, hcells]
      rfl
    · rw [List.filter_cons_of_pos (by simp [hcells])]
      exact congrArg (line.chunks ++ ·) ih

theorem closeCell_error {chunks : List String} {s : Extractor (List String)} {e : NoRow} :
    closeCell id chunks s = .error e ↔ s.rows.getD [] = [] := by
  unfold closeCell
  cases hlast : (s.rows.getD []).getLast? with
  | none =>
    cases e
    simpa using hlast
  | some last =>
    constructor
    · intro h
      cases h
    · intro h
      rw [h] at hlast
      cases hlast

theorem closeCell_held {chunks : List String} {s s' : Extractor (List String)}
    (hcell : s.cell = some chunks) (h : closeCell id chunks s = .ok s') :
    held s' = held s ∧ s'.cell = none := by
  unfold closeCell at h
  cases hlast : (s.rows.getD []).getLast? with
  | none =>
    rw [hlast] at h
    cases h
  | some last =>
    rw [hlast] at h
    obtain rfl := Except.ok.inj h
    have hrows : s.rows.getD [] = (s.rows.getD []).dropLast ++ [last] := by
      obtain ⟨init, hinit⟩ := List.getLast?_eq_some_iff.1 hlast
      rw [hinit, List.dropLast_concat]
    refine ⟨?_, rfl⟩
    unfold held
    rw [hcell]
    conv_rhs => rw [hrows]
    simp [tableChunks, Line.chunks]

theorem emit_held {s : Extractor (List String)} (hcell : s.cell = none) :
    held (emit s) = held s := by
  have hkeep : tableChunks ((s.rows.getD []).filter fun line => line.cells ≠ []) =
      tableChunks (s.rows.getD []) := tableChunks_filter _
  unfold held emit
  dsimp only
  rw [hcell, ← hkeep]
  by_cases hnone : (s.rows.getD []).filter (fun line => line.cells ≠ []) = []
  · rw [if_pos hnone, hnone]
    rfl
  · rw [if_neg hnone]
    simp [tableChunks]

theorem commit_error {s : Extractor (List String)} {e : NoRow} :
    commit id s = .error e ↔ s.cell ≠ none ∧ s.rows.getD [] = [] := by
  unfold commit
  cases hcell : s.cell with
  | none => simp
  | some chunks =>
    rw [← closeCell_error (e := e)]
    dsimp only
    cases closeCell id chunks s with
    | error e' => simp [Except.map]
    | ok s' => simp [Except.map]

theorem commit_held {s s' : Extractor (List String)} (h : commit id s = .ok s') :
    held s' = held s ∧ s'.cell = none ∧ s'.rows = none := by
  unfold commit at h
  cases hcell : s.cell with
  | none =>
    rw [hcell] at h
    obtain rfl := Except.ok.inj h
    exact ⟨emit_held hcell, hcell, rfl⟩
  | some chunks =>
    rw [hcell] at h
    dsimp only at h
    cases hclose : closeCell id chunks s with
    | error e =>
      rw [hclose] at h
      cases h
    | ok t =>
      rw [hclose] at h
      obtain rfl := Except.ok.inj h
      obtain ⟨hheld, hnone⟩ := closeCell_held hcell hclose
      exact ⟨(emit_held hnone).trans hheld, hnone, rfl⟩

section
variable {U : Unicode} {s s' : Extractor (List String)} {e : HtmlEvent}

theorem startTag_cases (tag : String) (attrs : List (String × Option String))
    (s : Extractor (List String)) :
    (tag = "table" ∧ startTag U tag attrs s = { s with rows := some [], inThead := false }) ∨
    ((tag = "td" ∨ tag = "th") ∧ s.rows.getD [] ≠ [] ∧
      startTag U tag attrs s = { s with cell := some [], span := spanOf U attrs }) ∨
    (tag ≠ "table" ∧ (tag = "td" ∨ tag = "th" → s.rows.getD [] = []) ∧
      held (startTag U tag attrs s) = held s) := by
  unfold startTag
  by_cases htable : tag = "table"
  · left
    exact ⟨htable, if_pos htable⟩
  · right
    rw [if_neg htable]
    cases hrows : s.rows with
    | none => exact .inr ⟨htable, fun _ => rfl, rfl⟩
    | some rows =>
      dsimp only
      by_cases hcell : (tag = "td" ∨ tag = "th") ∧ rows ≠ []
      · left
        have hthead : tag ≠ "thead" := by
          obtain h | h := hcell.1
          · rw [h]; decide
          · rw [h]; decide
        have htbody : tag ≠ "tbody" := by
          obtain h | h := hcell.1
          · rw [h]; decide
          · rw [h]; decide
        have htr : tag ≠ "tr" := by
          obtain h | h := hcell.1
          · rw [h]; decide
          · rw [h]; decide
        rw [if_neg hthead, if_neg htbody, if_neg htr, if_pos hcell]
        exact ⟨hcell.1, hcell.2, rfl⟩
      · right
        refine ⟨htable, fun h => not_not.1 fun hne => hcell ⟨h, hne⟩, ?_⟩
        rw [if_neg hcell]
        unfold held
        split_ifs with hthead htbody htr
        · rw [hrows]
        · rw [hrows]
        · rw [hrows]
          simp [tableChunks, Line.chunks]
        · rfl

theorem endTag_cases (tag : String) (s : Extractor (List String)) :
    ((tag = "td" ∨ tag = "th" ∨ tag = "table") ∧ s.cell ≠ none ∧ s.rows.getD [] = [] ∧
      endTag id tag s = .error .noRow) ∨
    (tag = "td" ∨ tag = "th" ∨ tag = "table" → s.cell ≠ none → s.rows.getD [] ≠ []) ∧
      ∃ s', endTag id tag s = .ok s' ∧ held s' = held s := by
  unfold endTag
  cases hcell : s.cell with
  | none =>
    right
    refine ⟨fun _ h => absurd rfl h, ?_⟩
    dsimp only
    by_cases htable : tag = "table"
    · rw [if_pos htable]
      cases hcommit : commit id s with
      | error e => exact absurd hcell (commit_error.1 hcommit).1
      | ok t => exact ⟨t, rfl, (commit_held hcommit).1⟩
    · rw [if_neg htable]
      exact ⟨s, rfl, rfl⟩
  | some chunks =>
    dsimp only
    by_cases htd : tag = "td" ∨ tag = "th"
    · rw [if_pos htd]
      cases hclose : closeCell id chunks s with
      | error e =>
        left
        exact ⟨htd.elim .inl (.inr ∘ .inl), Option.some_ne_none _, closeCell_error.1 hclose, rfl⟩
      | ok t =>
        right
        refine ⟨fun _ _ hrows => ?_, t, rfl, (closeCell_held hcell hclose).1⟩
        rw [(closeCell_error (e := .noRow)).2 hrows] at hclose
        cases hclose
    · rw [if_neg htd]
      by_cases htable : tag = "table"
      · rw [if_pos htable]
        cases hcommit : commit id s with
        | error e =>
          left
          exact ⟨.inr (.inr htable), Option.some_ne_none _, (commit_error.1 hcommit).2, rfl⟩
        | ok t =>
          right
          refine ⟨fun _ _ hrows => ?_, t, rfl, (commit_held hcommit).1⟩
          have hne : s.cell ≠ none := by
            rw [hcell]
            exact Option.some_ne_none _
          rw [(commit_error (e := .noRow)).2 ⟨hne, hrows⟩] at hcommit
          cases hcommit
      · right
        rw [if_neg htable]
        refine ⟨?_, s, rfl, rfl⟩
        intro h
        obtain h | h | h := h
        · exact absurd (.inl h) htd
        · exact absurd (.inr h) htd
        · exact absurd h htable

/-- A harmless event keeps what is held and adds what is heard. -/
theorem harmless_held (hharmless : Harmless s e) :
    ∃ s', handle U id e s = .ok s' ∧ held s' = held s ++ heard s e := by
  cases e with
  | start tag attrs =>
    refine ⟨startTag U tag attrs s, rfl, ?_⟩
    show _ = held s ++ []
    rw [List.append_nil]
    obtain ⟨htag, heq⟩ | ⟨htag, hrows, heq⟩ | ⟨-, -, heq⟩ := startTag_cases (U := U) tag attrs s
    · rw [heq]
      unfold held
      rw [hharmless.1 htag]
      rfl
    · rw [heq]
      unfold held
      rw [hharmless.2 htag hrows]
      rfl
    · exact heq
  | data chunk =>
    refine ⟨handleData chunk s, rfl, ?_⟩
    unfold held handleData heard
    cases s.cell with
    | none => simp
    | some chunks => simp
  | close tag =>
    obtain ⟨htag, hcell, hrows, -⟩ | ⟨-, s', heq, hheld⟩ := endTag_cases tag s
    · exact absurd hrows (hharmless htag hcell)
    · refine ⟨s', heq, hheld.trans ?_⟩
      exact (List.append_nil _).symm

/-- An event that is not harmless loses some of it, or ends the run with a cell
that has no row. -/
theorem harmful_held (hharmful : ¬ Harmless s e) :
    (∃ s', handle U id e s = .ok s' ∧ (held s').length < (held s ++ heard s e).length) ∨
      handle U id e s = .error .noRow ∧ s.cell ≠ none ∧ s.rows.getD [] = [] := by
  cases e with
  | start tag attrs =>
    left
    refine ⟨startTag U tag attrs s, rfl, ?_⟩
    show _ < (held s ++ []).length
    rw [List.append_nil]
    obtain ⟨htag, heq⟩ | ⟨htag, hrows, heq⟩ | ⟨htable, hcell, -⟩ :=
      startTag_cases (U := U) tag attrs s
    · have hlost : tableChunks (s.rows.getD []) ≠ [] := by
        intro hnone
        apply hharmful
        refine ⟨fun _ => hnone, fun h => ?_⟩
        rw [htag] at h
        exact absurd h (by decide)
      have hpos := List.length_pos_iff.2 hlost
      rw [heq]
      simp only [held, List.length_append, Option.getD_some]
      show _ + 0 + _ < _
      omega
    · have hlost : s.cell.getD [] ≠ [] := by
        intro hnone
        apply hharmful
        refine ⟨fun h => ?_, fun _ _ => hnone⟩
        rw [h] at htag
        exact absurd htag (by decide)
      have hpos := List.length_pos_iff.2 hlost
      rw [heq]
      simp only [held, List.length_append, Option.getD_some, List.length_nil]
      omega
    · exact absurd ⟨fun h => absurd h htable, fun h hne => absurd (hcell h) hne⟩ hharmful
  | data chunk => exact absurd trivial hharmful
  | close tag =>
    right
    obtain ⟨-, hcell, hrows, heq⟩ | ⟨hsafe, -⟩ := endTag_cases tag s
    · exact ⟨heq, hcell, hrows⟩
    · exact absurd hsafe hharmful

end

/-! ## The run -/

section
variable {U : Unicode}

/-- Nothing is added to what is held and heard. -/
theorem run_length {events : List HtmlEvent} {s t : Extractor (List String)}
    (h : commit id (feed U id s events) = .ok t) :
    (t.tables.flatMap tableChunks).length ≤ (held s ++ spoken U s events).length := by
  induction events generalizing s with
  | nil =>
    obtain ⟨hheld, hcell, hrows⟩ := commit_held h
    change held t = held s at hheld
    show _ ≤ (held s ++ []).length
    rw [List.append_nil, ← hheld]
    simp [held]
  | cons e rest ih =>
    have hstep : ∀ s', handle U id e s = .ok s' → (held s').length ≤ (held s ++ heard s e).length →
        (t.tables.flatMap tableChunks).length ≤ (held s ++ spoken U s (e :: rest)).length := by
      intro s' hs' hle
      simp only [feed, spoken, hs'] at h ⊢
      have := ih h
      simp only [List.length_append] at this hle ⊢
      omega
    by_cases hharmless : Harmless s e
    · obtain ⟨s', hs', hheld⟩ := harmless_held (U := U) hharmless
      exact hstep s' hs' (le_of_eq (by rw [hheld]))
    · obtain ⟨s', hs', hlt⟩ | ⟨herror, hcell, hrows⟩ := harmful_held (U := U) hharmless
      · exact hstep s' hs' (le_of_lt hlt)
      · simp only [feed, herror] at h
        rw [(commit_error (e := .noRow)).2 ⟨hcell, hrows⟩] at h
        cases h

theorem run_held_iff (events : List HtmlEvent) (s : Extractor (List String)) :
    (∃ t, commit id (feed U id s events) = .ok t ∧
      t.tables.flatMap tableChunks = held s ++ spoken U s events) ↔ Lossless U s events := by
  induction events generalizing s with
  | nil =>
    constructor
    · rintro ⟨t, ht, -⟩ hcell hrows
      change commit id s = .ok t at ht
      rw [(commit_error (e := .noRow)).2 ⟨hcell, hrows⟩] at ht
      cases ht
    · intro h
      cases hcommit : commit id s with
      | error e =>
        obtain ⟨hcell, hrows⟩ := commit_error.1 hcommit
        exact absurd hrows (h hcell)
      | ok t =>
        obtain ⟨hheld, hcell, hrows⟩ := commit_held hcommit
        refine ⟨t, hcommit, ?_⟩
        show _ = held s ++ []
        rw [List.append_nil, ← hheld]
        simp [held, hcell, hrows, tableChunks]
  | cons e rest ih =>
    constructor
    · rintro ⟨t, ht, heq⟩
      by_cases hharmless : Harmless s e
      · obtain ⟨s', hs', hheld⟩ := harmless_held (U := U) hharmless
        refine ⟨hharmless, ?_⟩
        intro s'' hs''
        rw [hs'] at hs''
        obtain rfl := Except.ok.inj hs''
        apply (ih s').1
        simp only [feed, spoken, hs'] at ht heq
        refine ⟨t, ht, ?_⟩
        rw [heq, hheld, List.append_assoc]
      · obtain ⟨s', hs', hlt⟩ | ⟨herror, hcell, hrows⟩ := harmful_held (U := U) hharmless
        · simp only [feed, spoken, hs'] at ht heq
          have hle := run_length ht
          rw [heq] at hle
          simp only [List.length_append] at hle hlt
          omega
        · simp only [feed, herror] at ht
          rw [(commit_error (e := .noRow)).2 ⟨hcell, hrows⟩] at ht
          cases ht
    · rintro ⟨hharmless, hrest⟩
      obtain ⟨s', hs', hheld⟩ := harmless_held (U := U) hharmless
      obtain ⟨t, ht, heq⟩ := (ih s').2 (hrest s' hs')
      refine ⟨t, ?_, ?_⟩
      · simp only [feed, hs']
        exact ht
      · simp only [spoken, hs']
        rw [heq, hheld, List.append_assoc]

/-- The emitted cells have all the chunks that arrive while a cell is open, in
document order, exactly where no event comes at a bad time. -/
theorem chunks_kept_iff (U : Unicode) (events : List HtmlEvent) :
    (∃ tables, extract U id events = .ok tables ∧
      extract U cellText events = .ok (tables.map (List.map (Line.rendered cellText))) ∧
      tables.flatMap tableChunks = spoken U {} events) ↔ Lossless U {} events := by
  rw [← run_held_iff]
  constructor
  · rintro ⟨tables, htables, -, heq⟩
    unfold extract at htables
    cases hcommit : commit id (feed U id {} events) with
    | error e =>
      rw [hcommit] at htables
      cases htables
    | ok t =>
      rw [hcommit] at htables
      obtain rfl := Except.ok.inj htables
      exact ⟨t, rfl, heq⟩
  · rintro ⟨t, ht, heq⟩
    have htables : extract U id events = .ok t.tables := by
      unfold extract
      rw [ht]
      rfl
    refine ⟨t.tables, htables, ?_, heq⟩
    rw [extract_render, htables]
    rfl

end

/-- A row with a cell of one chunk that is still open. -/
def openRow : List HtmlEvent := [.start "table" [], .start "tr" [], .start "td" [], .data "a"]

/-- A cell without its end tag is gone when the next one starts, a table when
another starts, and a cell that a table start leaves without a row ends the run. -/
theorem start_discards :
    (extract latin id (openRow ++ [.start "td" [], .data "b", .close "td", .close "table"]) =
        .ok [[⟨[(["b"], ⟨1, 1, Nat.one_pos, Nat.one_pos⟩)], false⟩]] ∧
      spoken latin {} (openRow ++ [.start "td" [], .data "b", .close "td", .close "table"]) =
        ["a", "b"]) ∧
    (extract latin id (openRow ++ [.close "td", .start "table" []]) = .ok [] ∧
      spoken latin {} (openRow ++ [.close "td", .start "table" []]) = ["a"]) ∧
    (extract latin id (openRow ++ [.start "table" [], .close "td"]) = .error .noRow ∧
      spoken latin {} (openRow ++ [.start "table" [], .close "td"]) = ["a"]) ∧
    ¬ ∀ events, ∃ tables, extract latin id events = .ok tables ∧
      extract latin cellText events = .ok (tables.map (List.map (Line.rendered cellText))) ∧
      tables.flatMap tableChunks = spoken latin {} events := by
  refine ⟨⟨rfl, rfl⟩, ⟨rfl, rfl⟩, ⟨rfl, rfl⟩, ?_⟩
  intro h
  obtain ⟨tables, htables, -, heq⟩ := h (openRow ++ [.close "td", .start "table" []])
  obtain rfl := Except.ok.inj (htables.symm.trans rfl : Except.ok tables = Except.ok [])
  cases heq

end RagPipeline.Extraction
