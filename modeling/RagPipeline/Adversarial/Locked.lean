import RagPipeline.Lib.Guard
import RagPipeline.Lib.JsonWrite
import RagPipeline.Lib.Text
import Mathlib.Algebra.Ring.Nat
import Mathlib.Data.List.Infix
import Mathlib.Data.String.Basic

/-! # Locked reports

`locked_runner`: what a locked report may say. The schema derives again what its counts
determine, and a second check looks for the folded texts of the cases in what is written. -/

set_option autoImplicit false

namespace RagPipeline.Locked
open Guard
open RagPipeline.JsonText (writeString writeInt writeChar)
open RagPipeline.Text (isSpace)
open RagPipeline.Words (words)

abbrev Text := List Char

variable {F : Type}

/-! ## Values -/

/-- A Python value of a report; `F` are the floats. -/
inductive Py (F : Type)
  | none
  | bool (b : Bool)
  | int (n : ℤ)
  | float (x : F)
  | str (s : String)
  | list (items : List (Py F))
  | dict (members : List (String × Py F))

/-- What is not the program's own: floats, the tables of characters, and the bound, of which
only misses and clusters are known. -/
class Platform (F : Type) where
  inUnit : F → Bool
  same : F → F → Bool
  repr : F → Text
  written : F → Text
  /-- How a list or a dictionary goes on behind its first character. -/
  inner : Py F → Text
  lower : Text → Text
  nfkd : Text → Text
  combining : Char → Bool
  isDigit : Char → Bool
  /-- `one_sided_upper_bound`. -/
  upperBound : ℕ → ℕ → F

/-- A refusal of the schema with its field path, a text of a case that is carried, or an error of
the interpreter. -/
inductive Refusal
  | schema (path why : String)
  | leak
  | raised
  deriving DecidableEq, Repr

abbrev Checked (α : Type) := Except Refusal α

abbrev Members (F : Type) := List (String × Py F)

/-- A value that is no dictionary is refused wherever its members are asked for. -/
def members : Py F → Checked (Members F)
  | .dict ms => .ok ms
  | _ => .error .raised

def keys (ms : Members F) : List String := ms.map Prod.fst

def item (ms : Members F) (k : String) : Checked (Py F) := demand (ms.lookup k) .raised

def fields (ms : Members F) (k : String) : Checked (Members F) := do
  let v ← item ms k
  members v

def number : Py F → Checked ℕ
  | .int n => demand (if 0 ≤ n then some n.toNat else none) .raised
  | _ => .error .raised

def SameKeys (ms : Members F) (names : List String) : Prop :=
  (∀ k ∈ keys ms, k ∈ names) ∧ ∀ k ∈ names, k ∈ keys ms

instance (ms : Members F) (names : List String) : Decidable (SameKeys ms names) :=
  inferInstanceAs (Decidable (_ ∧ _))

/-! ## Names -/

def wrongRow := "wrong_row"
def labelValueSwap := "label_value_swap"
def arithmeticRestatement := "arithmetic_restatement"
def unsupportedFigure := "unsupported_figure"
def questionAnswerMismatch := "question_answer_mismatch"
def forcedAnswerUnanswerable := "forced_answer_unanswerable"
def corruptedQuote := "corrupted_quote"
def inventedProvenance := "invented_provenance"

def classOrder : List String :=
  [wrongRow, labelValueSwap, arithmeticRestatement, unsupportedFigure, questionAnswerMismatch,
    forcedAnswerUnanswerable, corruptedQuote, inventedProvenance]

/-- The basis of a class in `DETECTORS`. -/
def basis (name : String) : String :=
  if name ∈ [wrongRow, labelValueSwap, questionAnswerMismatch] then "manual_upper_bound"
  else "deterministic_lower_bound"

def candidateRole := "candidate_pending_human_confirmation"
def confirmedRole := "confirmed_structural"

def populationRole (name : String) : String :=
  if basis name = "manual_upper_bound" then candidateRole else confirmedRole

def eligible (name : String) : Bool := populationRole name ≠ candidateRole

/-- `EXPECTED_DIAGNOSTIC`. -/
def expectedDiagnostic (name : String) : Option String :=
  if name = unsupportedFigure then some "kaynaksiz_sayi"
  else if name = corruptedQuote then some "uydurma_alinti"
  else if name = inventedProvenance then some "uydurma_pasaj"
  else none

/-- Where no code is expected, any flag is a catch. -/
def recallBasis (name : String) : String :=
  if expectedDiagnostic name = none then "safety_catch" else "expected_diagnostic"

def frozenPolicyMatrix : List String := ["plain", "structured_derived", "structured_explicit_page"]

def targetLockedClusters : ℕ := 30

def countKeys : List String :=
  ["n", "caught", "expected_diagnostic", "published", "control_review", "control_published"]

def cellRequired : List String :=
  ["clusters", "caught", "caught_any_flag", "recall_basis", "missed", "meets_cluster_floor"]

def cellKeys : List String := "miss_rate_upper_95" :: cellRequired

/-! ## Patterns

A `$` also matches before a newline that ends the text. -/

def anchored (p : Text → Bool) (t : Text) : Bool :=
  p t || (t.getLast? = some '\n' && p t.dropLast)

def isLowerHex (c : Char) : Bool := c.isDigit || ('a' ≤ c && c ≤ 'f')

def isNameChar (c : Char) : Bool := c.isAlphanum || c = '_' || c = '.' || c = '-'

/-- `_SHA256_HEX` and `_GIT_HEAD_HEX`. -/
def isHex (n : ℕ) : Text → Bool := anchored fun t => t.length = n && t.all isLowerHex

/-- `_FLAG_CODE`. -/
def isFlagCode : Text → Bool := anchored fun t =>
  3 ≤ t.length && t.length ≤ 40 && t.all fun c => c.isLower || c = '_'

section
variable [Platform F]

/-- A counter that may be absent. -/
def counter (counts : Members F) (k : String) : Checked ℕ :=
  match counts.lookup k with
  | some v => number v
  | none => .ok 0

/-- What counts as caught: any flag, or only the code that is expected. -/
def caughtBy (name : String) (anyFlag : ℕ) (counts : Members F) : Checked ℕ :=
  if expectedDiagnostic name = none then .ok anyFlag else counter counts "expected_diagnostic"

def isStr (v : Py F) (s : String) : Bool :=
  match v with
  | .str t => t = s
  | _ => false

def isTrue : Py F → Bool
  | .bool b => b
  | _ => false

def isNone : Py F → Bool
  | .none => true
  | _ => false

def isOptional (v : Py F) : Option String → Bool
  | some s => isStr v s
  | none => isNone v

/-- The bound is the one that is computed again. -/
def boundIs (cell : Members F) (missed n : ℕ) : Bool :=
  match cell.lookup "miss_rate_upper_95" with
  | some (.float x) => Platform.same x (Platform.upperBound missed n)
  | some _ => false
  | none => true

def classRequired : List String :=
  ["mutants", "basis", "population_role", "structural_recall_eligible", "expected_diagnostic", "policies"]

/-- One cell of the summary against the counters of the class it is derived from. -/
def checkDerived (name : String) (classPolicies : Members F) (p : String × Py F) : Checked Unit := do
  let result ← fields classPolicies p.1
  let counts ← fields result "counts"
  let cell ← members p.2
  let n ← counter counts "n"
  let anyFlag ← counter counts "caught"
  let expected ← caughtBy name anyFlag counts
  let clustersValue ← item cell "clusters"
  let clusters ← number clustersValue
  let anyValue ← item cell "caught_any_flag"
  let cellAny ← number anyValue
  let caughtValue ← item cell "caught"
  let caught ← number caughtValue
  require (clusters = n ∧ cellAny = anyFlag ∧ caught = expected) (.schema ("gate_summary." ++ name ++ "." ++ p.1)
    "bolumler arasi celiski: hucre sinif sayaclarindan turetilemiyor")

def checkSections (summary classes : Members F) (name : String) : Checked Unit := do
  let classBody ← fields classes name
  let classPolicies ← fields classBody "policies"
  let body ← fields summary name
  let cells ← fields body "policies"
  forM cells (checkDerived name classPolicies)

/-- `_fold`. -/
def fold (F : Type) [Platform F] (t : Text) : Text :=
  [' '].intercalate (words isSpace (((Platform.nfkd F) (((Platform.lower F) t).map
    fun c => if c = 'ı' then 'i' else c)).filter fun c => !(Platform.combining F) c))

/-- Parts with a comma and a space in between. -/
def listed : List Text → Text
  | [] => []
  | [s] => s
  | s :: t :: rest => s ++ ',' :: ' ' :: listed (t :: rest)

mutual

/-- `json.dumps` with `ensure_ascii=False`. -/
def dumps : Py F → Text
  | .none => ['n', 'u', 'l', 'l']
  | .bool true => ['t', 'r', 'u', 'e']
  | .bool false => ['f', 'a', 'l', 's', 'e']
  | .int n => writeInt n
  | .float x => Platform.written x
  | .str s => writeString false s.toList
  | .list items => '[' :: (listed (dumpItems items) ++ [']'])
  | .dict ms => '{' :: (listed (dumpMembers ms) ++ ['}'])

def dumpItems : List (Py F) → List Text
  | [] => []
  | v :: rest => dumps v :: dumpItems rest

def dumpMembers : List (String × Py F) → List Text
  | [] => []
  | (k, v) :: rest => (writeString false k.toList ++ ':' :: ' ' :: dumps v) :: dumpMembers rest

end

/-- `Passage`, which names its source in its citation. -/
structure Passage where
  handle : ℕ
  page : Option ℕ
  text : Text
  citation : Text
  chunkId : Option Text
  documentName : Option Text

/-- `getattr(passage, "source", None)`: a passage has no such field. -/
def Passage.source (_ : Passage) : Option Text := none

/-- What is read of a loaded case. -/
structure Case where
  setName : Text
  question : Text
  key : Text
  answer : Text
  passages : List Passage
  quotes : List Text

def join (t : Text) : Text := [' '].intercalate (words isSpace t)

def joins (c : Char) : Bool := c.isLower || c.isDigit || c = '_'

def tokens (cases : List Case) : List Text :=
  cases.map Case.setName ++ cases.flatMap fun c => c.passages.filterMap Passage.source

end

end RagPipeline.Locked
