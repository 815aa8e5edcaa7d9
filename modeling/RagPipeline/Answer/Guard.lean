import RagPipeline.Answer.Structured
import RagPipeline.Lib.Guard
import Mathlib.Data.List.Sort

/-! # The answer guard

`check_structured` scopes every check to what the answer said it used, and
`validate_structured` publishes nothing that carries a flag. -/

set_option autoImplicit false

namespace RagPipeline.Answer
open RagPipeline.Guard (require)

inductive Status where
  | answered
  | abstained
  | reviewRequired
deriving DecidableEq, Repr

inductive CitationSource where
  | model
  | derived
deriving DecidableEq, Repr

structure PageCitation where
  page : ℕ
  source : CitationSource
  chunkId : Option Text
  documentName : Option Text
deriving DecidableEq, Repr

/-- What the guard raises instead of deciding. -/
inductive Raised where
  | value (message : String)
deriving DecidableEq, Repr

/-- A flag with what it lists. -/
inductive Flag (V : Type) where
  | bicimsizYanit
  | dayanaksizYanit
  | uydurmaPasaj (handles : List ℕ)
  | uydurmaAlinti (handles : List ℕ)
  | eksikSayfa
  | kaynaksizSayi (figures : List (List V))
  | alintisizSayi (figures : List (List V))
  | kaynaksizSayfa (pages : List ℕ)
deriving DecidableEq, Repr

structure GuardResult (V : Type) where
  status : Status
  answer : Option Text
  diagnostics : List (Flag V)
  citations : List PageCitation
deriving DecidableEq, Repr

section
variable [Unicode]

def abstention : Text := "bu bilgi mevcut belgelerde bulunamadi".toList

def surroundingPunctuation : List Char := " \t\r\n.!?;:\"'".toList

/-- `s.strip(_SURROUNDING_PUNCTUATION)`. -/
def stripPunctuation (s : Text) : Text :=
  (s.dropWhile (· ∈ surroundingPunctuation)).rdropWhile (· ∈ surroundingPunctuation)

def isAbstention (answer : Text) : Bool := stripPunctuation (fold answer) = abstention

/-- `sayfa` where case is ignored; the long s counts as one there. -/
def sayfa : List (List Char) := [['s', 'S', 'ſ'], ['a', 'A'], ['y', 'Y'], ['f', 'F'], ['a', 'A']]

/-- A page citation at the start: its number, and how long it is. -/
def pageAt (s : Text) : Option (Text × ℕ) :=
  let after := (s.drop 5).dropWhile Unicode.isSpace
  let number := after.takeWhile Unicode.isDigit
  if 5 ≤ s.length ∧ (s.zip sayfa).all (fun (c, cs) => c ∈ cs) ∧ number ≠ [] then
    some (number, s.length - after.length + number.length)
  else none

/-- `_PAGE_NUMBER.findall`. -/
def pageNumbers : ℕ → Text → List Text
  | _, [] => []
  | skip + 1, _ :: rest => pageNumbers skip rest
  | 0, c :: rest =>
    match pageAt (c :: rest) with
    | some (number, length) => number :: pageNumbers (length - 1) rest
    | none => pageNumbers 0 rest

/-- `_ANSWER_PAGE.sub(" ", …)`. -/
def stripPages : ℕ → Text → Text
  | _, [] => []
  | skip + 1, _ :: rest => stripPages skip rest
  | 0, c :: rest =>
    match pageAt (c :: rest) with
    | some (_, length) => ' ' :: stripPages (length - 1) rest
    | none => c :: stripPages 0 rest

/-- The pages an answer cites, in order and none twice. `int` refuses a number
that is too long. -/
def citedPages (answer : Text) : Except Raised (List ℕ) :=
  match (pageNumbers 0 answer).mapM Unicode.int with
  | some pages => .ok (pages.dedup.insertionSort (· ≤ ·))
  | none => .error (.value "Exceeds the limit for integer string conversion")

section Figures
variable {V : Type} [Arithmetic V] [LinearOrder V]

def rateDivisor : List (Text × ℕ) :=
  [("yuz binde".toList, 100000), ("on binde".toList, 10000), ("milyonda".toList, 1000000),
    ("binde".toList, 1000), ("yuzde".toList, 100)]

/-- `_RATE.findall`; the flag says whether a word character stands in front. -/
def rates : ℕ → Bool → Text → List (ℕ × Text)
  | _, _, [] => []
  | skip + 1, _, c :: rest => rates skip (Unicode.isWord c) rest
  | 0, inWord, c :: rest =>
    let later := rates 0 (Unicode.isWord c) rest
    match if inWord then none else rateDivisor.find? fun r => r.1.isPrefixOf (c :: rest) with
    | none => later
    | some (word, divisor) =>
      let after := (c :: rest).drop word.length
      let number := after.dropWhile Unicode.isSpace
      let token := number.takeWhile fun d => Unicode.isDigit d || d = '.' || d = ','
      if number.length < after.length ∧ token.head?.any Unicode.isDigit then
        (divisor, token) ::
          rates (word.length + (after.length - number.length) + token.length - 1)
            (Unicode.isWord c) rest
      else later

/-- A rate phrase as a fraction and as a percentage. -/
def derivedFigures (context : Text) : List V :=
  (rates 0 false context).flatMap fun (divisor, token) =>
    (readings token).flatMap fun v : V =>
      [Arithmetic.round (Arithmetic.div v (Arithmetic.ofNat divisor)) 10,
        Arithmetic.round (Arithmetic.div (Arithmetic.mul v (Arithmetic.ofNat 100))
          (Arithmetic.ofNat divisor)) 10]

/-- The figures that an answer states: page citations point at a source and
are no claim about the world. -/
def statedFigures (answer : Text) : List (List V) := numberForms (normalize (stripPages 0 answer))

/-- `supported`. -/
def supportedFigures (context : Text) (derive : Bool) : List V :=
  numbers (normalize context) ++ if derive then derivedFigures (normalize context) else []

/-- Small numbers are left out, where a minimum is given. -/
def belowMinimum (minimum : V) (forms : List V) : Bool :=
  minimum ≠ Arithmetic.ofNat 0 && forms.all (· < minimum)

def unsupportedFigures (answer context : Text) (minimum : V) (derive : Bool) : List (List V) :=
  ((statedFigures answer).filter fun forms =>
    forms ≠ [] && !(forms.any (· ∈ supportedFigures context derive)) &&
      !belowMinimum minimum forms).map fun forms => forms.insertionSort (· ≤ ·)

end Figures

/-- `_quoted`. -/
def quoted (parsed : Parsed) : Text :=
  " \n ".toList.intercalate (parsed.dayanak.map Evidence.alinti)

def handles (parsed : Parsed) : List ℕ := (parsed.dayanak.map Evidence.pasaj).eraseDups

/-- The one page all claimed evidence resolves to. -/
def unambiguousEvidencePage (parsed : Parsed) (context : RagContext) : Option ℕ :=
  match (handles parsed).mapM context.find with
  | none => none
  | some passages =>
    match (passages.map Passage.page).dedup with
    | [some page] => some page
    | _ => none

/-- The first citation of each chunk. -/
def oncePerChunk (citations : List PageCitation) : List PageCitation :=
  citations.foldl (fun seen c => if seen.any (·.chunkId = c.chunkId) then seen else seen ++ [c]) []

/-- `citations_for`: the passages of one page that have an identity, or the
bare page. A citation of page zero cannot be built. -/
def citationsFor (passages : List Passage) (source : CitationSource) (page : ℕ) :
    Except Raised (List PageCitation) := do
  require (1 ≤ page) (.value "citation page must be a positive integer")
  let enriched := (passages.filter fun p => p.page = some page ∧ p.chunkId.isSome).map fun p =>
    PageCitation.mk page source p.chunkId p.documentName
  let once := oncePerChunk enriched
  return if once = [] then [⟨page, source, none, none⟩] else once

def pageCitations (parsed : Parsed) (context : RagContext) :
    Except Raised (List PageCitation) := do
  if isAbstention parsed.cevap then return []
  let passages := (handles parsed).filterMap context.find
  let modelPages ← citedPages parsed.cevap
  if modelPages ≠ [] then
    return (← modelPages.mapM (citationsFor passages .model)).flatten
  match unambiguousEvidencePage parsed context with
  | some page => citationsFor passages .derived page
  | none => return []

section Check
variable [Decoder] {V : Type} [Arithmetic V] [LinearOrder V]

def block : Text := "\n\n---\n\n".toList

/-- The handles that exist, in the order of the evidence. -/
def cited (parsed : Parsed) (context : RagContext) : List Passage :=
  parsed.dayanak.filterMap fun item => context.find item.pasaj

def badHandles (parsed : Parsed) (context : RagContext) : List ℕ :=
  (parsed.dayanak.filter fun item => (context.find item.pasaj).isNone).map Evidence.pasaj

/-- A quote that is no fragment of the passage it names. A quote that folds to
nothing is no such quote. -/
def badQuote (context : RagContext) (item : Evidence) : Bool :=
  (context.find item.pasaj).any fun p =>
    fold item.alinti ≠ [] && !decide (fold item.alinti <:+: fold p.text)

def badQuotes (parsed : Parsed) (context : RagContext) : List ℕ :=
  (parsed.dayanak.filter (badQuote context)).map Evidence.pasaj

/-- Cited pages that no named passage has; where none of these has a page,
nothing is compared. -/
def strayPages (parsed : Parsed) (context : RagContext) : Except Raised (List ℕ) :=
  let known := (cited parsed context).filterMap Passage.page
  if known = [] then .ok []
  else (citedPages parsed.cevap).map fun pages => pages.filter (· ∉ known)

def checkParsed (parsed : Parsed) (context : RagContext) (minimum : V) (derive : Bool) :
    Except Raised (List (Flag V)) := do
  let abstained := isAbstention parsed.cevap
  let passages := cited parsed context
  let noEvidence := if !abstained && parsed.dayanak.isEmpty then [Flag.dayanaksizYanit] else []
  let handleFlags := match badHandles parsed context with
    | [] => []
    | bad => [Flag.uydurmaPasaj bad]
  let quoteFlags := match badQuotes parsed context with
    | [] => []
    | bad => [Flag.uydurmaAlinti (bad.dedup.insertionSort (· ≤ ·))]
  let pages ← if abstained then pure [] else citedPages parsed.cevap
  let pageFlags :=
    if !abstained && pages.isEmpty && (unambiguousEvidencePage parsed context).isNone then
      [Flag.eksikSayfa]
    else []
  let scope := block.intercalate (passages.map Passage.text)
  let figureFlags :=
    match unsupportedFigures parsed.cevap scope minimum derive with
    | [] =>
      match unsupportedFigures parsed.cevap (quoted parsed) minimum derive with
      | [] => []
      | loose => [Flag.alintisizSayi loose]
    | figures => [Flag.kaynaksizSayi figures]
  let stray ← strayPages parsed context
  let strayFlags := if stray = [] then [] else [Flag.kaynaksizSayfa stray]
  return noEvidence ++ handleFlags ++ quoteFlags ++ pageFlags ++ figureFlags ++ strayFlags

def checkStructured (reply : Reply) (context : RagContext) (minimum : V) (derive : Bool) :
    Except Raised (List (Flag V)) := do
  require (context.numbered = true) (.value "structured answers require a numbered RagContext")
  match parsedReply reply with
  | none => return [.bicimsizYanit]
  | some parsed => checkParsed parsed context minimum derive

def validateStructured (reply : Reply) (context : RagContext) (minimum : V) (derive : Bool) :
    Except Raised (GuardResult V) := do
  let diagnostics ← checkStructured reply context minimum derive
  match parsedReply reply with
  | none => return ⟨.reviewRequired, none, diagnostics, []⟩
  | some parsed =>
    let citations ← pageCitations parsed context
    if diagnostics ≠ [] then return ⟨.reviewRequired, none, diagnostics, citations⟩
    let status := if isAbstention parsed.cevap then Status.abstained else .answered
    return ⟨status, some parsed.cevap, diagnostics, citations⟩

end Check
end

end RagPipeline.Answer
