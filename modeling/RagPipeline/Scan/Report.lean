import RagPipeline.Diagnostics.Summary
import RagPipeline.Lib.Guard
import RagPipeline.Lib.Regex
import RagPipeline.Lib.Text
import Mathlib.Data.Char
import Mathlib.Data.List.Dedup
import Mathlib.Data.List.Lex
import Mathlib.Data.List.Sort
import Mathlib.Order.Lex

/-! # What a leak scan looks for

The folding of a text, the secret patterns and the placeholders that clear them,
the invisible characters, and the tokens that look like keys. -/

set_option autoImplicit false

namespace RagPipeline.Scan
open Regex Words
open RagPipeline.Text (isSpace)
open RagPipeline.Diagnostics (isDecimal)

abbrev Text := List Char

/-- The tables of Unicode that are not written out here, and the entropy of a token, which is
computed in floating point and compared with the floor. -/
class Tables where
  lower : Text → Text
  nfkd : Text → Text
  combining : Char → Bool
  alnum : Char → Bool
  aboveFloor : Text → Bool

/-! ## Folding -/

section
variable [Tables]

def dotless : Char → Char
  | 'İ' => 'i'
  | 'I' => 'i'
  | 'ı' => 'i'
  | 'ý' => 'i'
  | c => c

def fold (text : Text) : Text :=
  [' '].intercalate (words isSpace
    ((Tables.nfkd (Tables.lower (text.map dotless))).filter fun c => !Tables.combining c))

end

/-! ## Secrets -/

inductive Label where
  | dsnKimlikli
  | awsAnahtari
  | pemAnahtari
  | skAnahtari
  | bearerJetonu
  | apiAnahtari
deriving DecidableEq, Repr

/-- A character whatever its case, with the ones that fold to it. -/
def either (c : Char) : Char → Bool := fun d =>
  d == c || d == Char.ofNat (c.toNat - 32) ||
    (c == 'i' && (d == '\u0130' || d == '\u0131')) || (c == 's' && d == '\u017f') ||
    (c == 'k' && d == '\u212a')

/-- A word of small letters, whatever its case. -/
def caseless (word : Text) : Regex := word.foldr (fun c r => .seq (.char (either c)) r) .epsilon

def notSpace (c : Char) : Bool := !isSpace c

def between (a b c : Char) : Bool := a ≤ c && c ≤ b

def letterOrDigit (c : Char) : Bool := between 'A' 'Z' c || between 'a' 'z' c || between '0' '9' c

def quote (c : Char) : Bool := c == '\'' || c == '"'

def is (c : Char) : Regex := .char (· == c)

def word (text : String) : Regex := lit text.toList

/-- `SECRETS`. -/
def Label.pattern : Label → Regex
  | .dsnKimlikli => seqAll [caseless "postgres".toList, opt (caseless "ql".toList), word "://",
      plus notSpace, is ':', plus notSpace, is '@']
  | .awsAnahtari => .seq (word "AKIA")
      (times 16 (.char fun c => between '0' '9' c || between 'A' 'Z' c))
  | .pemAnahtari => seqAll [word "-----BEGIN ", opt (word "ENCRYPTED "),
      opt (altAll [word "RSA ", word "EC ", word "DSA ", word "OPENSSH "]), word "PRIVATE KEY-----"]
  | .skAnahtari => .seq (word "sk-") (atLeast 20 letterOrDigit)
  | .bearerJetonu => seqAll [word "Bearer", plus isSpace,
      atLeast 16 fun c => letterOrDigit c || c == '.' || c == '_' || c == '-']
  | .apiAnahtari => seqAll [caseless "api".toList, opt (.char fun c => c == '_' || c == '-'),
      caseless "key".toList, .star isSpace, .char fun c => c == ':' || c == '=', .star isSpace,
      .char quote, atLeast 8 fun c => !quote c]

/-- In the order of their names. -/
def labels : List Label :=
  [.apiAnahtari, .awsAnahtari, .bearerJetonu, .dsnKimlikli, .pemAnahtari, .skAnahtari]

/-- `_SECRET_CORES`: the group a label's credential stands in, if it has an extractor. -/
def Label.core : Label → Option (Text → Option Text)
  | .dsnKimlikli => some (group
      (seqAll [word "://", .star fun c => !(c == ':' || c == '/' || c == '@' || isSpace c), is ':'])
      (plus fun c => !(c == '@' || isSpace c)) (is '@'))
  | .apiAnahtari => some (group (.char quote) (atLeast 8 fun c => !quote c) .epsilon)
  | .bearerJetonu => some (group (.seq (caseless "bearer".toList) (plus isSpace)) (plus notSpace)
      .epsilon)
  | _ => none

section
variable [Tables]

/-- `[\w-]`. -/
def wordOrDash (c : Char) : Bool := Tables.alnum c || c == '_' || c == '-'

/-- `_PLACEHOLDER_TOKEN`. -/
def placeholderToken : Regex :=
  seqAll [.bos,
    altAll [caseless "change".toList |>.seq (is '_') |>.seq (caseless "me".toList),
      caseless "degistir".toList, atLeast 3 (· == '.'),
      seqAll [is '<', .char (· != '>'), atMost (· != '>') 39, is '>'],
      seqAll [caseless "enter".toList, is '_', caseless "your".toList, .star wordOrDash],
      seqAll [.star wordOrDash, is '_', caseless "here".toList],
      seqAll [caseless "yer".toList, is '_', caseless "tutucu".toList, .star wordOrDash]],
    .eos]

/-- `_documented_placeholder`. -/
def documentedPlaceholder (label : Label) (matched : Text) : Bool :=
  match label.core with
  | none => false
  | some core => !(placeholderToken.greedy ((core matched).getD matched)
      ((core matched).getD matched)).isEmpty

/-- The labels with a match that no placeholder clears. -/
def secretLabels (body : Text) : List Label :=
  labels.filter fun label =>
    (finditer label.pattern body).any fun m => !documentedPlaceholder label m.2

end

/-! ## Invisible characters -/

inductive Ghost where
  | nbsp
  | nnbsp
  | zwsp
  | bom
  | bidi
deriving DecidableEq, Repr

/-- `INVISIBLE`. -/
def invisible : List (Char × Ghost) :=
  [('\u00a0', .nbsp), ('\u202f', .nnbsp), ('\u200b', .zwsp), ('\ufeff', .bom),
    ('\u202a', .bidi), ('\u202b', .bidi), ('\u202c', .bidi), ('\u202d', .bidi), ('\u202e', .bidi),
    ('\u2066', .bidi), ('\u2067', .bidi), ('\u2068', .bidi), ('\u2069', .bidi)]

/-- The labels of the invisible characters that a text has, in the order of their names. -/
def ghosts (body : Text) : List Ghost :=
  [Ghost.bidi, .bom, .nbsp, .nnbsp, .zwsp].filter fun label =>
    invisible.any fun p => p.2 == label && body.contains p.1

/-! ## Tokens -/

/-- `_ENTROPY_TOKEN`. -/
def entropyToken : Regex :=
  seqAll [.char quote, atLeast 20 fun c => letterOrDigit c || c == '+' || c == '/' || c == '=' ||
    c == '_' || c == '-', .char quote]

/-- The lines of the tokens above the floor, one for each token. -/
def entropicLines [Tables] (body : Text) : List ℕ :=
  ((finditer entropyToken body).filter fun m =>
    Tables.aboveFloor ((m.2.drop 1).dropLast)).map fun m => m.1.count '\n' + 1

/-! ## Names -/

def nameCharacter (c : Char) : Bool := between 'a' 'z' c || between '0' '9' c

/-- `_stem_search`, going through a text behind a character. -/
def stemFrom (piece : Text) : Option Char → Text → Bool
  | before, [] => piece.isEmpty && !before.any nameCharacter
  | before, c :: t =>
    (piece.isPrefixOf (c :: t) && !before.any nameCharacter &&
      !((c :: t).drop piece.length).head?.any nameCharacter) || stemFrom piece (some c) t

def stemSearch (piece folded : Text) : Bool := stemFrom piece none folded

/-- `_is_specific`: a run of at least two digits that are not all zeros. -/
def isSpecific (piece : Text) : Bool :=
  (finditer (atLeast 2 isDecimal) piece).any fun m => m.2.any (· != '0')

end RagPipeline.Scan

/-! # One pass over a set of texts

`scan`: the windows of every text, the marks of each of them, and the two
haystacks walked against the windows. -/

namespace RagPipeline.Scan
open Guard Cut
open RagPipeline.Diagnostics (linesFrom)
open scoped RagPipeline.Text

/-! ## Dictionaries -/

abbrev Dict (ν : Type) := List (Text × ν)

namespace Dict

variable {ν : Type}

def put (d : Dict ν) (k : Text) (v : ν) : Dict ν :=
  if k ∈ d.map Prod.fst then d.map fun p => if p.1 = k then (k, v) else p else d ++ [(k, v)]

def get (d : Dict ν) (k : Text) : Option ν := (d.find? fun p => p.1 = k).map Prod.snd

/-- An entry for a name where there is something to say of it. -/
def note (d : Dict ν) (k : Text) : Option ν → Dict ν
  | none => d
  | some v => d.put k v

def update (d d' : Dict ν) : Dict ν := d'.foldl (fun d p => d.put p.1 p.2) d

end Dict

/-- `sorted`. -/
def sorted {α : Type} [LinearOrder α] (l : List α) : List α := l.insertionSort fun a b => a ≤ b

/-! ## The corpora -/

/-- What `build_corpora` returns, but for the number of files that contributed. -/
structure Corpora where
  documents : Text
  full : Text
  dataStems : List Text
  vocabStems : List Text
  imageCount : ℕ
  outputUnreadable : List Text
  outputImages : List Text
  outputUnknown : List Text
deriving DecidableEq, Repr

/-- The pieces that are looked for in texts. -/
def longEnough (stems : List Text) : List Text := stems.filter fun s => decide (4 ≤ s.length)

/-! ## The report -/

structure Hit where
  pencere : ℕ
  satirlar : List ℕ
deriving DecidableEq, Repr

structure Entropic where
  adet : ℕ
  satirlar : List ℕ
deriving DecidableEq, Repr

structure Report where
  files : ℕ
  documentHits : Dict Hit
  documentProseHits : Dict Hit
  fullOnlyHits : Dict Hit
  secrets : Dict (List Label)
  testSecrets : Dict (List Label)
  invisible : Dict (List Ghost)
  stemHits : Dict (List Text)
  stemVocabHits : Dict (List Text)
  yuksekEntropi : Dict Entropic
  kapsamDisi : List Text
deriving DecidableEq, Repr

def Report.empty : Report := ⟨0, [], [], [], [], [], [], [], [], [], []⟩

/-- What a pass has so far: its report, the windows with the names they are from, and the
texts by their names. -/
structure Taken where
  report : Report
  windows : List (Text × Text)
  bodies : Dict Text

/-- `folded[i:i + width]` for every place that leaves room. -/
def windowsOf (width : ℕ) (folded : Text) : List Text :=
  (List.range (folded.length + 1 - width)).map fun i => (folded.drop i).take width

def masked (piece : Text) : Text :=
  piece.take 1 ++ List.replicate (piece.length - 2) '*' ++ piece.drop (piece.length - 1)

def ifAny {α : Type} (l : List α) : Option (List α) := if l.isEmpty then none else some l

/-- The masked pieces that a folded text has. -/
def foundStems (stems : List Text) (folded : Text) : List Text :=
  sorted ((stems.filter fun piece => stemSearch piece folded).map masked)

/-- A path that routes its secrets to triage. -/
def fixturePath (name : Text) : Bool :=
  "tests/".toList.isPrefixOf name || "tests\\".toList.isPrefixOf name

def entropic (lines : List ℕ) : Option Entropic :=
  if lines.isEmpty then none else some ⟨lines.length, (sorted lines.dedup).take 6⟩

section
variable [Tables] (corpora : Corpora) (width : ℕ)

/-- `take`: one text under its name. -/
def take (s : Taken) (item : Text × Text) : Taken :=
  let (name, body) := item
  let folded := fold body
  { report := { s.report with
      files := s.report.files + 1
      secrets := s.report.secrets.note name
        (if fixturePath name then none else ifAny (secretLabels body))
      testSecrets := s.report.testSecrets.note name
        (if fixturePath name then ifAny (secretLabels body) else none)
      invisible := s.report.invisible.note name (ifAny (ghosts body))
      stemHits := s.report.stemHits.note name
        ((ifAny (foundStems (longEnough corpora.dataStems) folded)).map (·.take 8))
      stemVocabHits := s.report.stemVocabHits.note name
        ((ifAny (foundStems (longEnough corpora.vocabStems) folded)).map (·.take 8))
      yuksekEntropi := s.report.yuksekEntropi.note name (entropic (entropicLines body)) }
    windows := s.windows ++ (windowsOf width folded).map fun w => (w, name)
    bodies := s.bodies.put name body }

def taken (items : List (Text × Text)) : Taken :=
  items.foldl (take corpora width) ⟨.empty, [], []⟩

/-- `sweep`: the windows of a corpus that some text has too, with the names of those texts. -/
def sweep (windows : List (Text × Text)) (corpus : Text) : List (Text × List Text) :=
  ((windowsOf width corpus).eraseDups.filter fun piece => windows.any fun p => p.1 == piece).map
    fun piece => (piece, sorted ((windows.filter fun p => p.1 == piece).map Prod.snd).dedup)

/-- `_locate_lines`. -/
def locateLines (body window : Text) : List ℕ :=
  let found := (((linesFrom [] false body).zipIdx 1).filter fun p =>
    decide (window <:+: fold p.1)).map Prod.snd
  if found.isEmpty then [0] else found.take 3

/-- One window of one text, counted where it was found. -/
def locate (bodies : Dict Text) (d : Dict Hit) (p : Text × Text) : Dict Hit :=
  let entry := (d.get p.2).getD ⟨0, []⟩
  d.put p.2 ⟨entry.pencere + 1, entry.satirlar ++ locateLines ((bodies.get p.2).getD []) p.1⟩

/-- The hits of a bucket, by name, the first lines of each. -/
def located (bodies : Dict Text) (found : List (Text × List Text)) : Dict Hit :=
  let pairs := found.flatMap fun p => p.2.map fun name => (p.1, name)
  let d := pairs.foldl (locate bodies) []
  (d.insertionSort fun p q => p.1 ≤ q.1).map fun p =>
    (p.1, ⟨p.2.pencere, (sorted p.2.satirlar.dedup).take 6⟩)

/-! ## The files -/

/-- The last part of a path. -/
def finalName (name : Text) : Text := (afterLast (· == '/') name).getD name

/-- `Path(name).suffix`. -/
def pathSuffix (name : Text) : Text :=
  match afterLast (· == '.') (finalName name) with
  | none => []
  | some tail => if tail.length + 1 < (finalName name).length ∧ tail ≠ [] then '.' :: tail else []

/-- `Path(name).stem`. -/
def pathStem (name : Text) : Text :=
  (finalName name).take ((finalName name).length - (pathSuffix name).length)

/-- `TEXT_SUFFIXES`. -/
def textSuffixes : List Text :=
  [".txt", ".md", ".json", ".jsonl", ".csv", ".py", ".ts", ".yml", ".yaml", ".toml", ".cfg",
    ".sql", ".sh", ".ini", ".pem", ".example", ".env", ""].map String.toList

def textual (name : Text) : Bool := textSuffixes.contains (Tables.lower (pathSuffix name))

/-- A name, whether a file is there, and what reading it gives. -/
structure Source where
  name : Text
  isFile : Bool
  content : Option Text
deriving DecidableEq, Repr

/-- The text of a file, where it has one. -/
def Source.body (f : Source) : Option (Text × Text) :=
  if textual f.name then f.content.map fun body => (f.name, body) else none

/-- `kapsam_disi`: what is there and was not read. -/
def skipped (files : List Source) : List Text :=
  sorted ((files.filter fun f => f.body.isNone && f.isFile).map Source.name)

/-- `scan`. Every file of a commit is there. -/
def scan (files : List Source) (extraBodies : List (Text × Text)) : Except String Report := do
  require (files ≠ []) "tarama girdisi bos: bu TEMIZ degil, BASARISIZDIR"
  let t := taken corpora width (files.filterMap Source.body ++ extraBodies)
  require (t.report.files ≠ 0) "hicbir dosya okunamadi: bu TEMIZ degil, BASARISIZDIR"
  let inDocuments := sweep width t.windows corpora.documents
  let inFull := (sweep width t.windows corpora.full).filter fun p =>
    !inDocuments.any fun q => q.1 == p.1
  return { t.report with
    kapsamDisi := skipped files
    documentHits := located t.bodies (inDocuments.filter fun p => isSpecific p.1)
    documentProseHits := located t.bodies (inDocuments.filter fun p => !isSpecific p.1)
    fullOnlyHits := located t.bodies inFull }

end

end RagPipeline.Scan

/-! # The verdict

`main`: the scan of the working tree, of one commit, or of several with their
reports merged, and what the process exits with. -/

namespace RagPipeline.Scan
open Guard

/-- A commit: its files by name, and what `git show` gives for a name. -/
structure Commit where
  id : Text
  message : Text
  files : List Text
  content : Text → Option Text

/-- What the scan finds around it. The corpora may fail to be built. -/
structure Environment where
  corpora : Except String Corpora
  tree : List Source
  staged : List (Text × Option Text)

inductive Verdict where
  | clean
  | triage
  | failed
deriving DecidableEq, Repr

namespace Verdict

def exitCode : Verdict → ℕ
  | clean => 0
  | triage => 2
  | failed => 1

def ofFlags (hard triage : Bool) : Verdict :=
  if hard then failed else if triage then .triage else clean

def worse : Verdict → Verdict → Verdict
  | failed, _ => failed
  | _, failed => failed
  | triage, _ => triage
  | _, triage => triage
  | clean, clean => clean

def worst (l : List Verdict) : Verdict := l.foldr worse clean

end Verdict

/-- `tracked_files`. -/
def trackedFiles (e : Environment) (commits : List Commit) : List Text :=
  if commits.isEmpty then sorted (e.tree.map Source.name).dedup
  else sorted (commits.flatMap Commit.files).dedup

/-- `commit_messages`. -/
def Commit.messageBody (c : Commit) : Text × Text :=
  ("commit-mesaji:".toList ++ c.id.take 12, c.message)

def Commit.sources (c : Commit) : List Source :=
  (sorted c.files.dedup).map fun name => ⟨name, true, c.content name⟩

def Environment.sources (e : Environment) : List Source :=
  (sorted (e.tree.map Source.name).dedup).filterMap fun name => e.tree.find? fun f => f.name == name

/-- What is staged, as files of their own. -/
def Environment.stagedBodies (e : Environment) : List (Text × Text) :=
  e.staged.filterMap fun p => p.2.map fun body => (p.1 ++ " (staged)".toList, body)

/-- The buckets that are merged, and the number of files. -/
def Report.merge (r partial' : Report) : Report where
  files := r.files + partial'.files
  documentHits := r.documentHits.update partial'.documentHits
  documentProseHits := r.documentProseHits.update partial'.documentProseHits
  fullOnlyHits := r.fullOnlyHits.update partial'.fullOnlyHits
  secrets := r.secrets.update partial'.secrets
  testSecrets := r.testSecrets.update partial'.testSecrets
  invisible := r.invisible.update partial'.invisible
  stemHits := r.stemHits.update partial'.stemHits
  stemVocabHits := r.stemVocabHits.update partial'.stemVocabHits
  yuksekEntropi := r.yuksekEntropi.update partial'.yuksekEntropi
  kapsamDisi := r.kapsamDisi

/-- The buckets that fail the scan. -/
def Report.hard (r : Report) : Bool :=
  !(r.documentHits.isEmpty && r.secrets.isEmpty && r.invisible.isEmpty && r.stemHits.isEmpty)

/-- The buckets that need a look. -/
def Report.soft (r : Report) : Bool :=
  !(r.testSecrets.isEmpty && r.stemVocabHits.isEmpty && r.yuksekEntropi.isEmpty &&
    r.documentProseHits.isEmpty && r.fullOnlyHits.isEmpty)

/-- Something of the corpora could not be read. -/
def Corpora.incomplete (c : Corpora) : Bool :=
  !(c.outputUnreadable.isEmpty && c.outputImages.isEmpty && c.outputUnknown.isEmpty &&
    c.imageCount == 0)

section
variable [Tables] (e : Environment)

/-- The files that have the name of a source. -/
def nameHits (corpora : Corpora) (files : List Text) : List Text :=
  sorted (files.filter fun name => decide (5 ≤ (pathStem name).length) &&
    (corpora.dataStems ++ corpora.vocabStems).contains (fold (pathStem name))).dedup

def Commit.scanned (corpora : Corpora) (width : ℕ) (c : Commit) : Except String Report :=
  scan corpora width c.sources [c.messageBody]

/-- The report that `main` judges: each commit for itself where there are several. -/
def report (corpora : Corpora) (commits : List Commit) (width : ℕ) : Except String Report :=
  match commits with
  | [] => scan corpora width e.sources e.stagedBodies
  | [c] => c.scanned corpora width
  | _ => do
    let parts ← commits.mapM (Commit.scanned corpora width)
    return parts.foldl Report.merge .empty

/-- `main`, up to what it exits with. -/
def judged (commits : List Commit) (width : ℕ) : Except String Verdict := do
  require (8 ≤ width ∧ width ≤ 64)
    "pencere 8-64 araliginda olmali: cok dar her seyi, cok genis hicbir seyi eslestirir -- ikisi de false-clean uretir"
  let corpora ← e.corpora
  let r ← report e corpora commits width
  return .ofFlags r.hard (r.soft || !(nameHits corpora (trackedFiles e commits)).isEmpty ||
    !r.kapsamDisi.isEmpty || corpora.incomplete)

/-- A process that raises exits as one that fails. -/
def verdict (commits : List Commit) (width : ℕ) : Verdict :=
  match judged e commits width with
  | .ok v => v
  | .error _ => .failed

end

end RagPipeline.Scan
