import RagPipeline.Extraction.Checks
import RagPipeline.Extraction.Templates

/-! # The consensus result

`_finalize_consensus`: the form of the header, the checks, and whether a human
has to look at the table. -/

set_option autoImplicit false

namespace RagPipeline.Extraction

/-- A reading that is shown to the reviewer, with what looks suspect in it. -/
structure Shown where
  backend : String
  reading : Reading
  reviewCells : List (ℕ × ℕ)
  suspectCount : ℕ
  numberFidelity : ℚ
deriving DecidableEq, Repr

structure Result where
  backends : List String
  headers : List String
  rows : List (List String)
  confidence : ℚ
  agreement : ℚ
  structuralConfidence : ℚ
  numberFidelity : ℚ
  shapeMatch : Bool
  disagreements : List Disagreement
  reviewCells : List (ℕ × ℕ)
  headerRows : List (List String)
  headerMerges : List Merge
  template : Option String
  candidates : List Shown
  reviewAllHeaders : Bool
  modelReadings : List (String × List String × List (List String))
  issues : List String
  needsReview : Bool
deriving DecidableEq, Repr

def Disagreement.isHeader : Disagreement → Bool
  | .header .. => true
  | _ => false

section
variable (U : Unicode) (ratio : List Char → List Char → ℚ)

/-- What the readings say of each other. -/
def disagreementIssues (rec_ : Reconciled) : List String :=
  if rec_.shapeMatch = false then
    ["modeller farkli sekil verdi: " ++ toString rec_.shapePrimary ++ " vs " ++
      toString rec_.shapeSecondary ++ " (yapisal ayrisma)"]
  else if rec_.disagreements ≠ [] then
    [toString rec_.disagreements.length ++
      " hucrede modeller ayristi (insan gozden gecirmeli)"]
  else []

/-- The issues of the table itself and of its two readings. -/
def tableIssues (rec_ : Reconciled) (table : Sheet) (ocr : String) : List String :=
  (validateTable U table.headers table.rows none).2 ++
    flagsToMessages (verify U table.rows ocr).2 table.headers ++
    (checkSequence U table.rows).1 ++ disagreementIssues rec_

/-- The weakest of structure, numbers and agreement. -/
def confidenceOf (rec_ : Reconciled) (table : Sheet) (ocr : String) : ℚ :=
  round (min (min (validateTable U table.headers table.rows none).1 (verify U table.rows ocr).1)
    rec_.agreement) 3

def shown (ocr : String) (backend : String) (reading : Reading) : Shown :=
  let checked := verify U reading.rows ocr
  ⟨backend, reading, checked.2.map fun f => (f.row, f.column), checked.2.length, checked.1⟩

/-- `_finalize_consensus`, from the header on. -/
def judge (rec_ : Reconciled) (table : Sheet) (hdr : HeaderInfo) (ocr : String)
    (backends : List String) (reviewThreshold : ℚ) (candidates : List (String × Reading)) :
    Result :=
  let issues := tableIssues U rec_ table ocr
  let confidence := confidenceOf U rec_ table ocr
  let template := hdr.template.filter (· ≠ "")
  let stamped := template.isSome && !hdr.undefinedForm
  let both := !rec_.shapeMatch && !stamped && candidates ≠ []
  let unknown := !both && hdr.undefinedForm
  { backends := backends
    headers := table.headers
    rows := table.rows
    confidence := confidence
    agreement := rec_.agreement
    structuralConfidence := (validateTable U table.headers table.rows none).1
    numberFidelity := (verify U table.rows ocr).1
    shapeMatch := rec_.shapeMatch
    disagreements :=
      if stamped then rec_.disagreements.filter fun d => !d.isHeader else rec_.disagreements
    reviewCells := (checkSequence U table.rows).2
    headerRows := table.headerRows
    headerMerges := table.headerMerges
    template := template
    candidates := if both then candidates.map fun (b, r) => shown U ocr b r else []
    reviewAllHeaders := unknown
    modelReadings := candidates.map fun (b, r) => (b, r.headers, r.rows)
    issues :=
      if unknown then issues ++ ["tanimlanmamis form - basliklari kontrol edin"] else issues
    needsReview := confidence < reviewThreshold || issues ≠ [] || !rec_.shapeMatch || unknown }

/-- The table that is shown, and what is known of its header. -/
def headed (rec_ : Reconciled) (templates : List Template) (candidates : List (String × Reading)) :
    Except Fault (Sheet × HeaderInfo) := do
  let stamped ← arbitrate U ratio (candidates.map Prod.snd) templates
  match stamped with
  | some sheet => return (sheet, ⟨sheet.template, false, 1⟩)
  | none =>
    resolveHeader U ratio
      ⟨rec_.headers, rec_.rows, rec_.headerRows, rec_.headerMerges, none⟩ templates

def finalizeConsensus (rec_ : Reconciled) (ocr : String) (backends : List String)
    (reviewThreshold : ℚ) (templates : List Template) (candidates : List (String × Reading)) :
    Except Fault Result := do
  let (table, hdr) ← headed U ratio rec_ templates candidates
  return judge U rec_ table hdr ocr backends reviewThreshold candidates

/-- What `run_consensus` does with the two readings of one table. -/
def consensus (primary secondary : Reading) (ocr : String) (primaryName secondaryName : String)
    (reviewThreshold : ℚ) (templates : List Template) : Except Fault Result :=
  let source := if primary.headerRows ≠ [] then primary else secondary
  let rec_ := { reconcile U primary secondary with
    headerRows := source.headerRows
    headerMerges := source.headerMerges }
  finalizeConsensus U ratio rec_ ocr [primaryName, secondaryName] reviewThreshold templates
    [(primaryName, primary), (secondaryName, secondary)]

end

/-! ## What an accepted result means -/

section
variable {U : Unicode} {ratio : List Char → List Char → ℚ} {rec_ : Reconciled} {table : Sheet}
  {hdr : HeaderInfo} {ocr : String} {backends : List String} {threshold : ℚ}
  {candidates : List (String × Reading)} {templates : List Template}

/-- Where no review is needed, no issue was found. -/
theorem issues_of_accepted
    (h : (judge U rec_ table hdr ocr backends threshold candidates).needsReview = false) :
    tableIssues U rec_ table ocr = [] := by
  simp only [judge, Bool.or_eq_false_iff, decide_eq_false_iff_not, not_not] at h
  exact h.1.1.2

theorem shapeMatch_of_issues (h : disagreementIssues rec_ = []) :
    rec_.shapeMatch = true ∧ rec_.disagreements = [] := by
  unfold disagreementIssues at h
  split at h
  case isTrue => cases h
  case isFalse hshape =>
    split at h
    case isTrue => cases h
    case isFalse hnone => exact ⟨by simpa using hshape, by simpa using hnone⟩

/-- The rows are drawn from the readings, and are the reconciled ones where no
form was stamped by arbitration. -/
theorem headed_rows (h : headed U ratio rec_ templates candidates = .ok (table, hdr)) :
    (arbitrate U ratio (candidates.map Prod.snd) templates = .ok none ∧ table.rows = rec_.rows) ∨
      arbitrate U ratio (candidates.map Prod.snd) templates ≠ .ok none ∧
        Drawn table.rows ((candidates.map Prod.snd).flatMap fullData) := by
  obtain ⟨stamped, harbitrate, h⟩ := Guard.bind_ok.1 h
  cases stamped with
  | none => exact .inl ⟨harbitrate, resolveHeader_rows h⟩
  | some sheet =>
    obtain rfl := (Prod.mk.inj (Except.ok.inj h)).1
    refine .inr ⟨?_, arbitrate_drawn harbitrate⟩
    rw [harbitrate]
    exact fun heq => Option.some_ne_none _ (Except.ok.inj heq)

end

/-- What acceptance promises of two readings and the result. Cells are alike up
to letter folding, spacing and punctuation. -/
structure Agreement (U : Unicode) (primary secondary : Reading) (arbitrated : Prop) (r : Result) :
    Prop where
  shape : primary.headers.length = secondary.headers.length ∧
    primary.rows.length = secondary.rows.length
  headers : ∀ (j : ℕ) x y, primary.headers[j]? = some x → secondary.headers[j]? = some y →
    U.squash x = U.squash y
  cells : ∀ i j x y, cellOf primary.rows i j = some x → cellOf secondary.rows i j = some y →
    U.squash x = U.squash y ∧ U.digits x = U.digits y
  shown : ¬ arbitrated → ∀ i j x y, cellOf primary.rows i j = some x →
    cellOf secondary.rows i j = some y → cellOf r.rows i j = some x
  drawn : Drawn r.rows (primary.headers :: secondary.headers :: (primary.rows ++ secondary.rows))
  width : ∀ row ∈ r.rows, row.length = r.headers.length

section
variable {U : Unicode} {ratio : List Char → List Char → ℚ} {primary secondary : Reading}
  {ocr primaryName secondaryName : String} {threshold : ℚ} {templates : List Template}
  {r : Result}

theorem fullData_subset {reading : Reading} {row : List String} (h : row ∈ fullData reading) :
    row = reading.headers ∨ row ∈ reading.rows := by
  unfold fullData at h
  split at h
  case isTrue => exact .inr h
  case isFalse =>
    split at h
    case isTrue => exact List.mem_cons.1 h
    case isFalse => exact .inr h

/-- The reconciled rows have cells of the primary only. -/
theorem drawn_reconcile : Drawn (reconcile U primary secondary).rows primary.rows := by
  unfold reconcile
  dsimp only
  split
  case isTrue => exact Drawn.refl _
  case isFalse =>
    intro row hrow c hc
    obtain ⟨⟨rp, rs⟩, hmem, rfl⟩ := List.mem_map.1 hrow
    obtain ⟨⟨x, y⟩, hxy, rfl⟩ := List.mem_map.1 hc
    exact .inr ⟨rp, (List.of_mem_zip hmem).1, (List.of_mem_zip hxy).1⟩

/-- An accepted result: the readings agree at every position both have. -/
theorem accepted_agreement (hU : U.Lawful)
    (hrun : consensus U ratio primary secondary ocr primaryName secondaryName threshold templates =
      .ok r) (haccepted : r.needsReview = false) :
    Agreement U primary secondary
      (arbitrate U ratio [primary, secondary] templates ≠ .ok none) r := by
  obtain ⟨⟨table, hdr⟩, hhead, hjudge⟩ := Guard.bind_ok.1 hrun
  obtain rfl := Except.ok.inj hjudge
  have hissues := issues_of_accepted haccepted
  simp only [tableIssues, List.append_eq_nil_iff] at hissues
  obtain ⟨⟨⟨hvalid, -⟩, -⟩, hnone⟩ := hissues
  obtain ⟨hshape, hdisagreements⟩ := shapeMatch_of_issues hnone
  obtain ⟨hlengths, hheaders, hcells⟩ := reconcile_agree hshape hdisagreements
  have hdrawn : Drawn table.rows
      (primary.headers :: secondary.headers :: (primary.rows ++ secondary.rows)) := by
    rcases headed_rows hhead with ⟨-, hrows⟩ | ⟨-, hstamped⟩
    · rw [hrows]
      exact drawn_reconcile.mono fun row hrow => by simp [hrow]
    · refine hstamped.mono fun row hrow => ?_
      simp only [List.map_cons, List.map_nil, List.flatMap_cons, List.flatMap_nil,
        List.append_nil, List.mem_append] at hrow
      rcases hrow with hrow | hrow
      · rcases fullData_subset hrow with rfl | hrow <;> simp [*]
      · rcases fullData_subset hrow with rfl | hrow <;> simp [*]
  refine ⟨hlengths, hheaders, fun i j x y hx hy => ?_, fun hplain i j x y hx hy => ?_, ?_, ?_⟩
  · have hsquash := (hcells i j x y hx hy).1
    exact ⟨hsquash, Unicode.digits_of_squash hU hsquash⟩
  · rcases headed_rows hhead with ⟨-, hrows⟩ | ⟨hstamped, -⟩
    · have hcell := (hcells i j x y hx hy).2
      rwa [← hrows] at hcell
    · exact absurd hstamped hplain
  · exact hdrawn
  · exact validateTable_nil hvalid

end

/-! ## Readings that are accepted and differ -/

/-- `is_numeric`. -/
def isNumeric (U : Unicode) (s : String) : Bool :=
  let l := (Text.strip s).toList
  l.any U.digit && l.all fun c => U.digit c || Text.isSpace c || c ∈ "-+()%.,".toList

/-- What a number in Turkish format comes to: its digits with their sign, and how
many of them are decimals. -/
def amount (U : Unicode) (s : String) : Option (ℤ × ℕ) :=
  if isNumeric U s then
    let n : ℕ := (U.digits s).foldl (fun n c => 10 * n + U.value c) 0
    let places := ((s.toList.dropWhile (· ≠ ',')).filter U.digit).length
    some (if '-' ∈ s.toList ∨ '(' ∈ s.toList then -n else n, places)
  else none

def sameAmount (a b : ℤ × ℕ) : Prop := a.1 * 10 ^ b.2 = b.1 * 10 ^ a.2

/-- Agreement in full: the same positions, nothing left out, the same text up to
letter folding and spacing, and the same numbers. -/
structure FullAgreement (U : Unicode) (primary secondary : Reading) (r : Result) : Prop where
  positions : ∀ i j, (cellOf primary.rows i j).isSome ↔ (cellOf secondary.rows i j).isSome
  complete : ∀ row ∈ primary.rows, ∀ c ∈ row, ∃ row' ∈ r.rows, c ∈ row'
  headers : ∀ (j : ℕ) x y, primary.headers[j]? = some x → secondary.headers[j]? = some y →
    U.folded x = U.folded y
  cells : ∀ i j x y, cellOf primary.rows i j = some x → cellOf secondary.rows i j = some y →
    U.folded x = U.folded y
  amounts : ∀ i j x y, cellOf primary.rows i j = some x → cellOf secondary.rows i j = some y →
    ∀ a b, amount U x = some a → amount U y = some b → sameAmount a b

/-- Small letters and decimal digits. -/
def latin : Unicode where
  alnum c := c.isAlphanum
  digit c := c.isDigit
  value c := c.toNat - 48
  lower := id
  nfc := id

theorem latin_lawful : latin.Lawful where
  alnum_of_digit c h := by
    have hrange : 48 ≤ c.toNat ∧ c.toNat ≤ 57 := by
      simpa [latin, Char.isDigit, UInt32.le_iff_toNat_le] using h
    constructor
    · have hdigit : c.isDigit = true := h
      simp [latin, Char.isAlphanum, hdigit]
    · simp only [Text.isSpace, List.mem_cons, List.not_mem_nil, or_false, decide_eq_true_eq]
      omega
  digit_trFold c h := by
    unfold trFold at h ⊢
    split <;> simp_all <;> decide
  digits_lower _ := rfl

def oneCell (cell : String) : Reading := ⟨["tutar"], [[cell]], [], []⟩

def accepts (primary secondary : Reading) (r : Result) : Prop :=
  consensus latin (fun _ _ => 0) primary secondary "1.000,50" "a" "b" (9 / 10) [] = .ok r ∧
    r.needsReview = false

/-- Three tables no human is asked to look at: one amount in two spellings, an
amount and its opposite, and a row with a cell the other reading does not have. -/
theorem accepted_without_agreement :
    (∃ r, accepts (oneCell "1.000,50") (oneCell "1000.50") r ∧
      ¬ FullAgreement latin (oneCell "1.000,50") (oneCell "1000.50") r) ∧
    (∃ r, accepts (oneCell "-5") (oneCell "5") r ∧
      ¬ FullAgreement latin (oneCell "-5") (oneCell "5") r) ∧
    ∃ r, accepts ⟨["tutar"], [["5", "9"]], [], []⟩ (oneCell "5") r ∧
      ¬ FullAgreement latin ⟨["tutar"], [["5", "9"]], [], []⟩ (oneCell "5") r := by
  refine ⟨⟨_, ⟨rfl, by decide +kernel⟩, fun h => ?_⟩, ⟨_, ⟨rfl, by decide +kernel⟩, fun h => ?_⟩,
    ⟨_, ⟨rfl, by decide +kernel⟩, fun h => ?_⟩⟩
  · have hfolded := h.cells 0 0 _ _ rfl rfl
    revert hfolded
    decide
  · have hamount := h.amounts 0 0 _ _ rfl rfl (-5, 0) (5, 0) (by decide) (by decide)
    simp [sameAmount] at hamount
  · have hposition := (h.positions 0 1).1 rfl
    cases hposition

/-- The same table read twice. -/
theorem accepted_agreement_alike : ∃ r, accepts (oneCell "1.000,50") (oneCell "1000.50") r ∧
    Agreement latin (oneCell "1.000,50") (oneCell "1000.50")
      (arbitrate latin (fun _ _ => 0) [oneCell "1.000,50", oneCell "1000.50"] [] ≠ .ok none) r := by
  refine ⟨_, ⟨rfl, by decide +kernel⟩, ?_⟩
  exact accepted_agreement latin_lawful rfl (by decide +kernel)

end RagPipeline.Extraction
