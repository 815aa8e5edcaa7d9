import RagPipeline.Answer.Structured
import RagPipeline.Lib.Guard
import RagPipeline.Lib.JsonLayout
import RagPipeline.Lib.Text
import Mathlib.Data.List.Sort

/-! # Versioned evaluation datasets

`validate_version` and what it asks of a document, the canonical bytes of a version
and their digest, and `load_version_json`. -/

set_option autoImplicit false

namespace RagPipeline.Datasets
open Guard
open JsonText (Hooks loads writeInt writeString readInt hexDigit dumpArray dumpObject)
open RagPipeline.Answer (Json)

abbrev Text := List Char

abbrev Members := List (Text × Json)

/-- `EvalDatasetError` and its code. -/
abbrev Checked := Except String

def MIN_CASES : ℕ := 1

def MAX_CASES : ℕ := 500

def MAX_VERSION : ℤ := 2147483647

/-- Sixteen times 1024 times 1024. -/
def MAX_JSON_BYTES : ℕ := 16777216

inductive CaseType where
  | metin
  | sayisal
  | tablo
deriving DecidableEq, Repr

def CaseType.word : CaseType → Text
  | .metin => "metin".toList
  | .sayisal => "sayisal".toList
  | .tablo => "tablo".toList

structure EvalCase where
  caseKey : Text
  q : Text
  key : Text
  answer : Text
  pages : List ℤ
  type : CaseType
deriving DecidableEq, Repr

structure EvalDatasetVersion where
  version : ℤ
  cases : List EvalCase
deriving DecidableEq, Repr

/-! ## Fields -/

/-- Strict UTF-8. -/
def encode (t : Text) : ByteArray := (String.ofList t).toByteArray

def has (names : List Text) (members : Members) : Bool :=
  names.all fun name => (members.map Prod.fst).contains name

def onlyHas (names : List Text) (members : Members) : Bool :=
  members.all fun p => names.contains p.1

/-- The value of a field that is there. -/
def field (name : Text) (members : Members) : Json := (members.lookup name).getD .null

/-- `_text`, with the limit of its field. -/
def checkText (limit : ℕ) : Json → Checked Text
  | .str t => do
    require (0 < (encode t).size ∧ (encode t).size ≤ limit ∧ t = (Text.strip (String.ofList t)).toList)
      "eval_text_invalid"
    require (t.all fun c => decide (0x20 ≤ c.toNat)) "eval_text_invalid"
    return t
  | _ => .error "eval_text_invalid"

/-- `uuid.UUID` of thirty-two hex digits with hyphens anywhere; whatever else it reads is not
what it writes. -/
def parseUuid (t : Text) : Option ℕ :=
  let digits := t.filter fun c => c != '-'
  if digits.length = 32 then
    (digits.mapM hexDigit).map fun ds => ds.foldl (fun n d => n * 16 + d) 0
  else none

def hexOf : ℕ → ℕ → Text
  | 0, _ => []
  | k + 1, n => hexOf k (n / 16) ++ [Nat.digitChar (n % 16)]

/-- `str` of an identifier. -/
def uuidText (n : ℕ) : Text :=
  let h := hexOf 32 n
  h.take 8 ++ '-' :: ((h.drop 8).take 4 ++ '-' :: ((h.drop 12).take 4 ++ '-' ::
    ((h.drop 16).take 4 ++ '-' :: h.drop 20)))

/-- `UUID.version`, which is none for another variant. -/
def uuidVersion (n : ℕ) : Option ℕ :=
  if n.shiftRight 62 % 4 = 2 then some (n.shiftRight 76 % 16) else none

/-- `_case_key`. -/
def checkKey : Json → Checked Text
  | .str t => do
    let parsed ← demand (parseUuid t) "eval_case_key_invalid"
    require (uuidVersion parsed = some 4 ∧ t = uuidText parsed) "eval_case_key_invalid"
    return t
  | _ => .error "eval_case_key_invalid"

/-- The loop of `_pages`, behind the page before. -/
def pagesLoop : ℤ → List Json → Checked (List ℤ)
  | _, [] => .ok []
  | previous, .int page :: rest => do
    require (0 < page ∧ page ≤ MAX_VERSION) "eval_pages_invalid"
    require (previous < page) "eval_order_invalid"
    let more ← pagesLoop page rest
    return page :: more
  | _, _ :: _ => .error "eval_pages_invalid"

/-- `_pages`. -/
def checkPages : Json → Checked (List ℤ)
  | .arr items => do
    require (items ≠ []) "eval_pages_invalid"
    pagesLoop 0 items
  | _ => .error "eval_pages_invalid"

def checkType : Json → Checked CaseType
  | .str t =>
    if t = CaseType.metin.word then .ok .metin
    else if t = CaseType.sayisal.word then .ok .sayisal
    else if t = CaseType.tablo.word then .ok .tablo
    else .error "eval_type_invalid"
  | _ => .error "eval_type_invalid"

/-! ## Cases and versions -/

def CASE_KEYS : List Text :=
  ["case_key".toList, "q".toList, "key".toList, "answer".toList, "pages".toList, "type".toList]

def VERSION_KEYS : List Text := ["version".toList, "cases".toList]

def validateCase : Json → Checked EvalCase
  | .obj members => do
    require (has CASE_KEYS members ∧ onlyHas CASE_KEYS members) "eval_case_invalid"
    let type ← checkType (field "type".toList members)
    let caseKey ← checkKey (field "case_key".toList members)
    let q ← checkText 4096 (field "q".toList members)
    let key ← checkText 16384 (field "key".toList members)
    let answer ← checkText 16384 (field "answer".toList members)
    let pages ← checkPages (field "pages".toList members)
    return ⟨caseKey, q, key, answer, pages, type⟩
  | _ => .error "eval_case_invalid"

/-- The order of texts by their code points. -/
def textLe : Text → Text → Bool
  | [], _ => true
  | _ :: _, [] => false
  | a :: s, b :: t => a.toNat < b.toNat || (a == b && textLe s t)

def sorted {α : Type} (key : α → Text) (l : List α) : List α :=
  l.insertionSort fun a b => textLe (key a) (key b) = true

/-- That the keys of the cases are distinct and in order. -/
def checkOrder (cases : List EvalCase) : Checked Unit := do
  require (cases.map EvalCase.caseKey).Nodup "eval_case_key_duplicate"
  require (cases.map EvalCase.caseKey = sorted id (cases.map EvalCase.caseKey)) "eval_order_invalid"

def checkVersion : Json → Checked ℤ
  | .int n => do
    require (0 < n ∧ n ≤ MAX_VERSION) "eval_version_invalid"
    return n
  | _ => .error "eval_version_invalid"

def checkCases : Json → Checked (List EvalCase)
  | .arr offered => do
    require (MIN_CASES ≤ offered.length ∧ offered.length ≤ MAX_CASES) "eval_case_count_invalid"
    let cases ← offered.mapM validateCase
    checkOrder cases
    return cases
  | _ => .error "eval_case_count_invalid"

def validateVersion : Json → Checked EvalDatasetVersion
  | .obj members => do
    require (has VERSION_KEYS members ∧ onlyHas VERSION_KEYS members) "eval_version_invalid"
    let version ← checkVersion (field "version".toList members)
    let cases ← checkCases (field "cases".toList members)
    return ⟨version, cases⟩
  | _ => .error "eval_version_invalid"

/-! ## Canonical bytes -/

def caseObject (c : EvalCase) : Json :=
  .obj [("answer".toList, .str c.answer), ("case_key".toList, .str c.caseKey),
    ("key".toList, .str c.key), ("pages".toList, .arr (c.pages.map .int)), ("q".toList, .str c.q),
    ("type".toList, .str c.type.word)]

def versionObject (v : EvalDatasetVersion) : Json :=
  .obj [("cases".toList, .arr (v.cases.map caseObject)), ("version".toList, .int v.version)]

mutual

/-- `json.dumps` without blanks, the names of an object in order. No float is ever offered. -/
def dumps : Json → Text
  | .null => "null".toList
  | .bool b => if b then "true".toList else "false".toList
  | .int n => writeInt n
  | .real literal => literal
  | .str t => writeString false t
  | .arr items => dumpArray (dumpsItems items)
  | .obj members => dumpObject (sorted Prod.fst (dumpsMembers members))

def dumpsItems : List Json → List Text
  | [] => []
  | item :: rest => dumps item :: dumpsItems rest

def dumpsMembers : List (Text × Json) → List (Text × Text)
  | [] => []
  | (name, v) :: rest => (name, dumps v) :: dumpsMembers rest

end

/-- `_canonical`. -/
def canonical (value : Json) : ByteArray := encode (dumps value)

def canonicalCaseBytes (c : EvalCase) : Checked ByteArray := do
  let checked ← validateCase (caseObject c)
  return canonical (caseObject checked)

def canonicalVersionBytes (v : EvalDatasetVersion) : Checked ByteArray := do
  let checked ← validateVersion (versionObject v)
  return canonical (versionObject checked)

/-! ## Reading -/

/-- The hooks of the strict reading: a repeated name and a number that is none raise. -/
def strictHooks : Hooks Json where
  null := .null
  bool b := .bool b
  int literal := some (.int (readInt literal))
  real literal := some (.real literal)
  constant _ := none
  str t := .str t
  arr items := .arr items
  obj pairs := if (pairs.map Prod.fst).Nodup then some (.obj pairs) else none

/-- A repeated name has a code of its own, which is not told apart here. -/
def loadVersionJson (raw : ByteArray) : Checked EvalDatasetVersion := do
  require (raw.size ≠ 0 ∧ raw.size ≤ MAX_JSON_BYTES) "eval_json_invalid"
  let text ← demand (String.fromUTF8? raw) "eval_json_invalid"
  require (text.toList.head? ≠ some '\ufeff') "eval_json_invalid"
  let value ← demand (loads strictHooks text.toList) "eval_json_invalid"
  validateVersion value

/-! ## Collections of cases -/

/-- What a caller may offer as a case: a case, a dictionary, or a dictionary whose pages are a
tuple. -/
inductive Offered where
  | case (c : EvalCase)
  | value (v : Json)
  | tupled (members : Members) (pages : List Json)

/-- `_as_case`. -/
def asCase : Offered → Checked EvalCase
  | .case c => validateCase (caseObject c)
  | .value v => validateCase v
  | .tupled members pages => validateCase (.obj (members ++ [("pages".toList, .arr pages)]))

/-- `_case_sequence`. -/
def caseSequence (offered : List Offered) : Checked (List EvalCase) := do
  require (MIN_CASES ≤ offered.length ∧ offered.length ≤ MAX_CASES) "eval_case_count_invalid"
  let cases ← offered.mapM asCase
  checkOrder cases
  return cases

/-- The dictionary that stands for a case behind `normalize_cases`. -/
def normalized (c : EvalCase) : Offered :=
  .tupled [("case_key".toList, .str c.caseKey), ("q".toList, .str c.q), ("key".toList, .str c.key),
    ("answer".toList, .str c.answer), ("type".toList, .str c.type.word)] (c.pages.map .int)

/-- `normalize_cases`, whose dictionaries have the fields of the cases. -/
def normalizeCases (offered : List Offered) : Checked (List EvalCase) := caseSequence offered

class Digest where
  sha256 : ByteArray → ByteArray

section
variable [Digest]

/-- `case_digest`, not yet in hex. -/
def caseDigest (offered : Offered) : Checked ByteArray := do
  let c ← asCase offered
  let bytes ← canonicalCaseBytes c
  return Digest.sha256 bytes

/-- `version_digest`, not yet in hex. -/
def versionDigest (offered : List Offered) : Checked ByteArray := do
  let checked ← caseSequence offered
  return Digest.sha256 (canonical (.obj [("cases".toList, .arr (checked.map caseObject))]))

end

end RagPipeline.Datasets
