import Mathlib.Data.List.Dedup
import Mathlib.Data.List.DropRight
import Mathlib.Data.List.Infix
import Mathlib.Order.Defs.LinearOrder

/-! # Turkish notation

How one fact may be written: folded text, figures in either separator
convention, number words and written dates. The character tables and the
floating-point arithmetic of the host language stand as two classes; everything
else is as `tr_notation.py` has it. -/

set_option autoImplicit false

namespace RagPipeline.Answer

abbrev Text := List Char

/-- What the host language knows of characters, and in which order it walks a
set of words. -/
class Unicode where
  lower : Text → Text
  nfkd : Text → Text
  combining : Char → Bool
  isSpace : Char → Bool
  isDigit : Char → Bool
  isWord : Char → Bool
  /-- `int(text)`, which refuses a text that is too long. -/
  int : Text → Option ℕ
  setOrder : List Text → List Text

/-- Floating-point numbers: reading, rounding to so many places, and the two
operations that are used. -/
class Arithmetic (V : Type) where
  float : Text → Option V
  ofNat : ℕ → V
  round : V → ℕ → V
  mul : V → V → V
  div : V → V → V

section
variable [Unicode]

def markdown (c : Char) : Bool := c ∈ ['*', '_', '\x60', '~', '#']

/-- `text.split()`. -/
def words (s : Text) : List Text := (s.splitOnP Unicode.isSpace).filter (· ≠ [])

def joinWords (parts : List Text) : Text := [' '].intercalate parts

/-- Deleting the emphasis, and not replacing it: a model bolds the stem of a
word and leaves the suffix outside. -/
def fold (text : Text) : Text :=
  let s := (Unicode.lower text).filter fun c => !markdown c
  let s := s.map fun c => if c = 'ı' ∨ c = 'ý' then 'i' else c
  joinWords (words ((Unicode.nfkd s).filter fun c => !Unicode.combining c))

/-- Exactly three digits follow. -/
def threeDigits (rest : Text) : Bool :=
  (rest.takeWhile Unicode.isDigit).length = 3

/-- Drops a mark between a digit and a group of exactly three. The flag says
whether a digit stood in front. -/
def dropThousands (mark : Char) : Bool → Text → Text
  | _, [] => []
  | digit, c :: rest =>
    let tail := dropThousands mark (Unicode.isDigit c) rest
    if c = mark ∧ digit ∧ threeDigits rest then tail else c :: tail

def magnitudes : List (Text × ℕ) :=
  [("bin".toList, 1000), ("milyon".toList, 1000000), ("milyar".toList, 1000000000),
    ("trilyon".toList, 1000000000000)]

/-- A run of digits, points and commas, up to its last digit. -/
def figureToken (s : Text) : Text :=
  (s.takeWhile fun c => Unicode.isDigit c || c = '.' || c = ',').rdropWhile
    fun c => !Unicode.isDigit c

/-- `_FIGURE.findall`: the number says how much of a match is still to be
passed over. -/
def figuresFrom : ℕ → Text → List (Text × Option ℕ)
  | _, [] => []
  | skip + 1, _ :: rest => figuresFrom skip rest
  | 0, c :: rest =>
    if Unicode.isDigit c then
      let token := figureToken (c :: rest)
      let after := (c :: rest).drop token.length
      let word := after.dropWhile Unicode.isSpace
      match magnitudes.find? fun m => m.1.isPrefixOf word with
      | some m =>
        (token, some m.2) ::
          figuresFrom (token.length + (after.length - word.length) + m.1.length - 1) rest
      | none => (token, none) :: figuresFrom (token.length - 1) rest
    else figuresFrom 0 rest

section
variable {V : Type} [Arithmetic V] [DecidableEq V]

/-- Both conventions, since neither is reliable. -/
def readings (token : Text) : List V :=
  let turkish := (dropThousands '.' false token).map fun c => if c = ',' then '.' else c
  let english := dropThousands ',' false token
  ([turkish, english].filterMap fun s =>
    (Arithmetic.float s).map fun v : V => Arithmetic.round v 4).dedup

def numberForms (text : Text) : List (List V) :=
  (figuresFrom 0 (dropThousands ' ' false (fold text))).flatMap fun (token, magnitude) =>
    match readings token, magnitude with
    | [], _ =>
      -- a composite such as a date: its parts are the figures
      (token.splitOnP fun c => c = '.' ∨ c = ',').filterMap fun part =>
        if part ≠ [] ∧ part.all Unicode.isDigit then
          (Arithmetic.float part).map fun v : V => [v]
        else none
    | forms, some m =>
      [forms ++ forms.map fun v => Arithmetic.round (Arithmetic.mul v (Arithmetic.ofNat m)) 4]
    | forms, none => [forms]

def numbers (text : Text) : List V := (numberForms text).flatten

end

def onesTable : List (Text × ℕ) :=
  [("sifir".toList, 0), ("bir".toList, 1), ("iki".toList, 2), ("uc".toList, 3),
    ("dort".toList, 4), ("bes".toList, 5), ("alti".toList, 6), ("yedi".toList, 7),
    ("sekiz".toList, 8), ("dokuz".toList, 9)]

def tensTable : List (Text × ℕ) :=
  [("on".toList, 10), ("yirmi".toList, 20), ("otuz".toList, 30), ("kirk".toList, 40),
    ("elli".toList, 50), ("altmis".toList, 60), ("yetmis".toList, 70), ("seksen".toList, 80),
    ("doksan".toList, 90)]

def scaleTable : List (Text × ℕ) := ("yuz".toList, 100) :: magnitudes

def months : List (Text × ℕ) :=
  [("ocak".toList, 1), ("subat".toList, 2), ("mart".toList, 3), ("nisan".toList, 4),
    ("mayis".toList, 5), ("haziran".toList, 6), ("temmuz".toList, 7), ("agustos".toList, 8),
    ("eylul".toList, 9), ("ekim".toList, 10), ("kasim".toList, 11), ("aralik".toList, 12)]

def suffixes : List Text :=
  ["nden", "ndan", "larin", "lerin", "lari", "leri", "imiz", "iniz", "umuz", "unuz", "nin",
    "nun", "lar", "ler", "den", "dan", "ten", "tan", "dir", "dur", "tir", "tur", "yle", "yla",
    "ya", "ye", "yi", "yu", "de", "da", "te", "ta", "le", "la", "in", "un", "im", "um", "si",
    "su", "ni", "nu", "ne", "na", "i", "u", "e", "a"].map String.toList

/-- What is left of a word when one ending is taken off. -/
def shorter (word : Text) : List Text :=
  if word.length < 3 then []
  else suffixes.filterMap fun suffix =>
    if suffix.isSuffixOf word ∧ 2 ≤ word.length - suffix.length then
      some (word.take (word.length - suffix.length))
    else none

def stemRounds : ℕ → List Text → List Text → List Text
  | 0, found, _ => found
  | n + 1, found, frontier =>
    let next := ((frontier.flatMap shorter).filter fun s => !found.contains s).dedup
    stemRounds n (found ++ next) next

def stems (word : Text) : List Text := stemRounds 3 [word] [word]

inductive WordKind where
  | unit
  | scale
deriving DecidableEq, Repr

/-- The first root that settles it; an inflected `bir` is never the number. -/
def classifyRoots : List Text → Option (WordKind × ℕ)
  | [] => none
  | root :: rest =>
    if root = "bir".toList then none
    else match onesTable.lookup root, tensTable.lookup root with
      | some n, _ => some (.unit, n)
      | none, some n => some (.unit, n)
      | none, none => classifyRoots rest

def classify (token : Text) : Option (WordKind × ℕ) :=
  match onesTable.lookup token, tensTable.lookup token, scaleTable.lookup token with
  | some n, _, _ => some (.unit, n)
  | none, some n, _ => some (.unit, n)
  | none, none, some n => some (.scale, n)
  | none, none, none => classifyRoots (Unicode.setOrder (stems token))

/-- `total`, `current` and `previous` of the loop over a run of number words. -/
def runValueFrom (total current : ℕ) (previous : Option ℕ) :
    List (WordKind × ℕ) → Option ℕ
  | [] => some (total + current)
  | (.unit, value) :: rest =>
    if previous.any (· ≤ value) then none
    else runValueFrom total (current + value) (some value) rest
  | (.scale, value) :: rest =>
    let counted := if current = 0 then 1 else current
    if value = 100 then runValueFrom total (counted * 100) none rest
    else runValueFrom (total + counted * value) 0 none rest

def runValue (items : List (WordKind × ℕ)) : Option ℕ := runValueFrom 0 0 none items

/-- `flush`: a run of scale words only and a lone `bir` stay as they are. -/
def flush (run : List (Text × WordKind × ℕ)) : List Text :=
  let tokens := run.map Prod.fst
  let items := run.map Prod.snd
  if items.any (·.1 = .unit) ∧ tokens ≠ ["bir".toList] then
    match runValue items with
    | some value => [(toString value).toList]
    | none => tokens
  else tokens

def expandRuns : List (Text × WordKind × ℕ) → List Text → List Text
  | run, [] => flush run
  | run, token :: rest =>
    match classify token with
    | some found => expandRuns (run ++ [(token, found)]) rest
    | none => flush run ++ token :: expandRuns [] rest

def expandCardinals (text : Text) : Text := joinWords (expandRuns [] (words text))

/-- A match of `_DATE_WORDS` at the start: what it is rewritten to, and how
long it is. -/
def dateAt (s : Text) : Option (Text × ℕ) := do
  let day := s.takeWhile Unicode.isDigit
  let afterDay := s.drop day.length
  let name := afterDay.dropWhile Unicode.isSpace
  guard ((day.length = 1 ∨ day.length = 2) ∧ name.length < afterDay.length)
  let month ← months.find? fun m => m.1.isPrefixOf name
  let afterMonth := name.drop month.1.length
  let tail := afterMonth.dropWhile Unicode.isSpace
  let year := tail.takeWhile Unicode.isDigit
  guard (tail.length < afterMonth.length ∧ year.length = 4)
  let number ← Unicode.int day
  return ((toString number).toList ++ '.' :: (toString month.2).toList ++ '.' :: year,
    s.length - tail.length + 4)

def expandMonthsFrom : ℕ → Bool → Text → Text
  | _, _, [] => []
  | skip + 1, _, c :: rest => expandMonthsFrom skip (Unicode.isDigit c) rest
  | 0, digit, c :: rest =>
    match if digit then none else dateAt (c :: rest) with
    | some (date, length) => date ++ expandMonthsFrom (length - 1) (Unicode.isDigit c) rest
    | none => c :: expandMonthsFrom 0 (Unicode.isDigit c) rest

def expandMonths (text : Text) : Text := expandMonthsFrom 0 false text

def normalize (text : Text) : Text := expandCardinals (expandMonths (fold text))

end

end RagPipeline.Answer

/-! # The structured reply and its context

What a model was asked for, how it is found in the text of a reply, and the
context that it has to stay inside. -/

namespace RagPipeline.Answer

inductive Json where
  | null
  | bool (b : Bool)
  | int (n : ℤ)
  | real (literal : Text)
  | str (s : Text)
  | arr (items : List Json)
  | obj (members : List (Text × Json))

/-- `json.loads` with the hooks the guard gives it: repeated fields and
non-finite numbers are refused. -/
class Decoder where
  loads : Text → Option Json

structure Evidence where
  pasaj : ℕ
  alinti : Text
deriving DecidableEq, Repr

structure Parsed where
  dayanak : List Evidence
  cevap : Text
deriving DecidableEq, Repr

inductive Reply where
  | object (members : List (Text × Json))
  | text (s : Text)
  | other

/-- The two fields of an object that has these two and no other. -/
def twoFields (a b : Text) (members : List (Text × Json)) : Option (Json × Json) :=
  match members with
  | [(x, v), (y, w)] => if x = a ∧ y = b then some (v, w) else if x = b ∧ y = a then some (w, v) else none
  | _ => none

section
variable [Unicode]

def blank (s : Text) : Bool := s.all Unicode.isSpace

def validEvidence : Json → Option Evidence
  | .obj members =>
    match twoFields "pasaj".toList "alinti".toList members with
    | some (.int handle, .str quote) =>
      if 1 ≤ handle ∧ blank quote = false then some ⟨handle.toNat, quote⟩ else none
    | _ => none
  | _ => none

/-- `_valid_structured`, with the object it has found valid. -/
def validStructured (members : List (Text × Json)) : Option Parsed :=
  match twoFields "dayanak".toList "cevap".toList members with
  | some (.arr items, .str answer) =>
    if blank answer then none else (items.mapM validEvidence).map fun dayanak => ⟨dayanak, answer⟩
  | _ => none

end

/-- Reads one container from its opening on: whether it closed, and how much
was read. Nothing is returned where the text ends first. -/
def readContainer : List Char → Bool → Bool → Text → Option (Bool × ℕ)
  | _, _, _, [] => none
  | stack, true, escaped, c :: rest =>
    let next :=
      if escaped then readContainer stack true false rest
      else if c = '\\' then readContainer stack true true rest
      else if c = '"' then readContainer stack false false rest
      else readContainer stack true false rest
    next.map fun (closed, n) => (closed, n + 1)
  | stack, false, _, c :: rest =>
    if c = '"' then (readContainer stack true false rest).map fun (closed, n) => (closed, n + 1)
    else if c = '{' ∨ c = '[' then
      (readContainer (c :: stack) false false rest).map fun (closed, n) => (closed, n + 1)
    else if c = '}' ∨ c = ']' then
      let expected := if c = '}' then '{' else '['
      match stack with
      | [] => some (false, 1)
      | top :: stack =>
        if top ≠ expected then some (false, 1)
        else if stack = [] then some (true, 1)
        else (readContainer stack false false rest).map fun (closed, n) => (closed, n + 1)
    else (readContainer stack false false rest).map fun (closed, n) => (closed, n + 1)

/-- `_json_containers`; the number says how much of a container is still to be
passed over. -/
def jsonContainers : ℕ → Text → List Text
  | _, [] => []
  | skip + 1, _ :: rest => jsonContainers skip rest
  | 0, c :: rest =>
    if c = '{' ∨ c = '[' then
      match readContainer [] false false (c :: rest) with
      | none => []
      | some (closed, n) =>
        let later := jsonContainers (n - 1) rest
        if closed then (c :: rest).take n :: later else later
    else jsonContainers 0 rest

section
variable [Unicode] [Decoder]

def parseStructured (text : Text) : Option Parsed :=
  (jsonContainers 0 text).findSome? fun candidate =>
    match Decoder.loads candidate with
    | some (.obj members) => validStructured members
    | _ => none

def parsedReply : Reply → Option Parsed
  | .object members => validStructured members
  | .text s => parseStructured s
  | .other => none

end

/-- Provenance of one retrieved passage. -/
structure Passage where
  handle : ℕ
  page : Option ℕ
  text : Text
  citation : Text
  chunkId : Option Text
  documentName : Option Text
  handle_pos : 1 ≤ handle
  page_pos : ∀ n ∈ page, 1 ≤ n

structure RagContext where
  passages : List Passage
  numbered : Bool
  unique : (passages.map Passage.handle).Nodup

namespace RagContext

/-- `by_handle().get(handle)`. -/
def find (context : RagContext) (handle : ℕ) : Option Passage :=
  context.passages.find? fun p => p.handle = handle

theorem find_handle {context : RagContext} {handle : ℕ} {p : Passage}
    (h : context.find handle = some p) : p ∈ context.passages ∧ p.handle = handle :=
  ⟨List.mem_of_find?_eq_some h, by simpa using List.find?_some h⟩

end RagContext

/-- A passage that the reply names as its evidence. -/
def Names (context : RagContext) (parsed : Parsed) (p : Passage) : Prop :=
  ∃ item ∈ parsed.dayanak, context.find item.pasaj = some p

end RagPipeline.Answer
