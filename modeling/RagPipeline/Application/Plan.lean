import RagPipeline.Application.Tree
import Mathlib.Data.List.Infix

/-! # The journal of one application

The record `_write_journal` writes and `_read_journal` reads back: its states
and their transition table, its moves, its schema and the text `json.dump`
makes of it. The text matters for one thing, its size: a journal longer than
the ceiling is written without complaint and can never be read back. -/

set_option autoImplicit false

namespace RagPipeline.Application

inductive JournalState where
  | registered
  | prepared
  | applying
  | applied
  | rollingBack
  | rolledBack
  | failed
deriving DecidableEq, Repr

namespace JournalState

def text : JournalState → String
  | registered => "registered"
  | prepared => "prepared"
  | applying => "applying"
  | applied => "applied"
  | rollingBack => "rolling_back"
  | rolledBack => "rolled_back"
  | failed => "failed"

def allowedJournalTransitions : JournalState → List JournalState
  | registered => [prepared, rollingBack, failed]
  | prepared => [applying, rollingBack, failed]
  | applying => [applied, rollingBack, failed]
  | rollingBack => [rolledBack, failed]
  | applied => []
  | rolledBack => []
  | failed => []

end JournalState

structure Move where
  index : ℕ
  fromPlace : Place
  toPlace : Place
  sha256 : String
  mode : ℕ
deriving DecidableEq, Repr

structure Identity where
  applicationId : String
  repoId : String
  runId : String
  workspaceId : String
  baselineSha : String
  manifestDigest : String
  candidateFingerprint : String
  createdAt : String
deriving DecidableEq, Repr

structure Payload where
  identity : Identity
  state : JournalState
  moves : List Move
  directories : List Path
  appliedIndex : ℕ
deriving DecidableEq, Repr

def pathText (path : Path) : String := "/".intercalate path

def digits (base width value : ℕ) : String :=
  let ds := Nat.toDigits base value
  String.ofList (List.replicate (width - ds.length) '0' ++ ds)

def Slot.name (slot : Slot) : String := String.ofList [slot.letter] ++ digits 10 4 slot.number

def Place.side : Place → String
  | .repo _ => "repo"
  | .hold _ => "hold"

def Place.name : Place → String
  | .repo path => pathText path
  | .hold slot => slot.name

def modeText (mode : ℕ) : String := "0o" ++ digits 8 1 mode

def isHex (length : ℕ) (text : String) : Bool :=
  text.toList.length == length && text.toList.all fun c => c.isDigit || ('a' ≤ c && c ≤ 'f')

def isIdentifier (text : String) : Bool :=
  let low := fun c : Char => c.isDigit || ('a' ≤ c && c ≤ 'z')
  match text.toList with
  | [] => false
  | c :: rest => low c && 2 ≤ rest.length && rest.length ≤ 63 &&
    rest.all fun c => low c || c == '_' || c == '-'

def isTimestamp (text : String) : Bool :=
  let shape := "dddd-dd-ddTdd:dd:ddZ".toList
  text.toList.length == shape.length &&
    (shape.zip text.toList).all fun (s, c) => if s == 'd' then c.isDigit else s == c

def boundedName (text : String) : Bool := 1 ≤ text.length && text.length ≤ 1024

def Move.schemaAccepts (move : Move) : Bool :=
  boundedName move.fromPlace.name && boundedName move.toPlace.name && isHex 64 move.sha256 &&
    (modeText move.mode).length ≤ 16

/-- `JOURNAL_SCHEMA`. The two version numbers, the set of states and the sides
are settled by the types here, and the index is a natural number. -/
def Payload.schemaAccepts (payload : Payload) : Bool :=
  isHex 32 payload.identity.applicationId && isHex 32 payload.identity.repoId &&
    isIdentifier payload.identity.runId && isHex 32 payload.identity.workspaceId &&
    isHex 40 payload.identity.baselineSha && isHex 64 payload.identity.manifestDigest &&
    isHex 64 payload.identity.candidateFingerprint && isTimestamp payload.identity.createdAt &&
    payload.moves.length ≤ 100000 && payload.moves.all Move.schemaAccepts &&
    payload.directories.length ≤ 100000 &&
    payload.directories.all fun path => boundedName (pathText path)

def jsonChar (c : Char) : String :=
  let unicode := fun n : ℕ => "\\u" ++ digits 16 4 n
  if c == '"' then "\\\""
  else if c == '\\' then "\\\\"
  else if c == '\n' then "\\n"
  else if c == '\r' then "\\r"
  else if c == '\t' then "\\t"
  else if c.toNat == 12 then "\\f"
  else if c.toNat == 8 then "\\b"
  else if 32 ≤ c.toNat && c.toNat ≤ 126 then String.ofList [c]
  else if c.toNat < 65536 then unicode c.toNat
  -- the surrogate pair of a character outside the basic plane
  else unicode (0xd800 + (c.toNat - 65536) / 1024) ++ unicode (0xdc00 + (c.toNat - 65536) % 1024)

def jsonString (text : String) : String :=
  "\"" ++ String.join (text.toList.map jsonChar) ++ "\""

def jsonArray (items : List String) : String := "[" ++ ", ".intercalate items ++ "]"

def jsonObject (fields : List (String × String)) : String :=
  "\x7b" ++ ", ".intercalate (fields.map fun (key, value) => jsonString key ++ ": " ++ value)
    ++ "\x7d"

def Move.text (move : Move) : String :=
  jsonObject [("from_name", jsonString move.fromPlace.name), ("from_side", jsonString move.fromPlace.side),
    ("index", digits 10 1 move.index), ("mode", jsonString (modeText move.mode)),
    ("sha256", jsonString move.sha256), ("to_name", jsonString move.toPlace.name),
    ("to_side", jsonString move.toPlace.side)]

/-- `json.dump(payload, stream, sort_keys=True)`, the text of the file. -/
def Payload.text (payload : Payload) : String :=
  jsonObject [("application_id", jsonString payload.identity.applicationId),
    ("applied_index", digits 10 1 payload.appliedIndex),
    ("baseline_sha", jsonString payload.identity.baselineSha),
    ("candidate_fingerprint", jsonString payload.identity.candidateFingerprint),
    ("created_at", jsonString payload.identity.createdAt),
    ("directories", jsonArray (payload.directories.map fun path => jsonString (pathText path))),
    ("journal_version", "1"),
    ("manifest_digest", jsonString payload.identity.manifestDigest),
    ("moves", jsonArray (payload.moves.map Move.text)),
    ("protocol_version", jsonString "1.0"),
    ("repo_id", jsonString payload.identity.repoId),
    ("run_id", jsonString payload.identity.runId),
    ("state", jsonString payload.state.text),
    ("workspace_id", jsonString payload.identity.workspaceId)]

def journalCeiling : ℕ := 2 ^ 22

def Payload.Readable (payload : Payload) : Prop :=
  payload.text.utf8ByteSize ≤ journalCeiling

instance (payload : Payload) : Decidable payload.Readable :=
  inferInstanceAs (Decidable (_ ≤ _))

/-- Whether the schema accepts a journal does not depend on how far it got. -/
@[simp] theorem schemaAccepts_progress (payload : Payload) (state : JournalState) (n : ℕ) :
    { payload with state := state, appliedIndex := n }.schemaAccepts = payload.schemaAccepts :=
  rfl

end RagPipeline.Application

/-! # The plan of an application

`_plan` turns a candidate into moves: an added file is placed, a modified one
is parked and replaced, a deleted one is parked. `_missing_directories` lists
the parents that the added files still lack, outermost first. Nothing is
written here. -/

namespace RagPipeline.Application
open UndoLog

inductive ChangeKind where
  | added
  | modified
  | deleted
deriving DecidableEq, Repr

structure Change where
  path : Path
  kind : ChangeKind
  mode : ℕ
  sha256 : String
deriving DecidableEq, Repr

/-- `maxItems` of `changed_files` in the implementer's reply, which a change
set has to equal before it becomes a candidate. -/
def maxChangedFiles : ℕ := 200

/-- A change set as `_semantic_changes` derives it from two trees: canonical
paths, no path twice, and no path under another, since a name that is a file
on one side and a directory on the other is refused there. -/
structure Candidate where
  changes : List Change
  canonical : ∀ c ∈ changes, Canonical c.path
  apart : changes.Pairwise fun c d => ¬ c.path <+: d.path ∧ ¬ d.path <+: c.path
  bounded : changes.length ≤ maxChangedFiles

theorem Candidate.slots_bounded (candidate : Candidate) :
    0 + candidate.changes.length ≤ 10000 := by
  have h := candidate.bounded
  simp only [maxChangedFiles] at h
  omega

structure Plan where
  moves : List Move
  staged : List (Slot × Change)
  wanted : List Path
deriving DecidableEq, Repr

def stagedSlot (slot : ℕ) : Slot := ⟨'s', slot⟩

def backupSlot (slot : ℕ) : Slot := ⟨'b', slot⟩

def placeMove (slot index : ℕ) (change : Change) : Move :=
  ⟨index, .hold (stagedSlot slot), .repo change.path, change.sha256, change.mode⟩

def parkMove (slot index : ℕ) (change : Change) (current : Evidence) : Move :=
  ⟨index, .repo change.path, .hold (backupSlot slot), current.sha256, current.mode⟩

section
variable [Host]

def cleanEquivalent (relative : Path) (current baseline : Bytes) :
    Except ApplicationError Bool :=
  match Host.cleanEquivalent relative current baseline with
  | .ok same => .ok same
  | .error message => .error (.refused message)

/-- What a modified or deleted target has to be, and is: the operator's copy
of the baseline. -/
def baselineTarget (reference : FileTree) (change : Change) (current : Option Evidence) :
    Except ApplicationError Evidence := do
  match ← fileEvidence reference change.path with
  | none => throw (.mainCheckoutMismatch "taban surumde hedef yok")
  | some baseline =>
    match current with
    | none => throw (.mainCheckoutMismatch "degistirilecek hedef yok")
    | some current =>
      if current.mode ≠ baseline.mode then
        throw (.mainCheckoutMismatch "hedef taban surumden sapmis")
      if current.sha256 ≠ baseline.sha256 then
        if !(← cleanEquivalent change.path current.data baseline.data) then
          throw (.mainCheckoutMismatch "hedef taban surumden sapmis")
      return current

def planChange (main reference : FileTree) (slot index : ℕ) (change : Change) :
    Except ApplicationError Plan := do
  let parts ← split change.path
  let current ← fileEvidence main change.path
  match change.kind with
  | .added =>
    if current.isSome then throw (.mainCheckoutMismatch "eklenecek hedef zaten var")
    return ⟨[placeMove slot index change], [(stagedSlot slot, change)], [parts.dropLast]⟩
  | .modified =>
    let current ← baselineTarget reference change current
    return ⟨[parkMove slot index change current, placeMove slot (index + 1) change],
      [(stagedSlot slot, change)], []⟩
  | .deleted =>
    let current ← baselineTarget reference change current
    return ⟨[parkMove slot index change current], [], []⟩

def planFrom (main reference : FileTree) : ℕ → ℕ → List Change → Except ApplicationError Plan
  | _, _, [] => .ok ⟨[], [], []⟩
  | slot, index, change :: rest => do
    let here ← planChange main reference slot index change
    let later ← planFrom main reference (slot + 1) (index + here.moves.length) rest
    return ⟨here.moves ++ later.moves, here.staged ++ later.staged, here.wanted ++ later.wanted⟩

def plan (candidate : Candidate) (main reference : FileTree) : Except ApplicationError Plan :=
  planFrom main reference 0 0 candidate.changes

end

def missingParents (main : FileTree) : List Path → Path → Path →
    Except ApplicationError (List Path)
  | missing, _, [] => .ok missing
  | missing, walked, name :: rest =>
    let here := walked ++ [name]
    if here ∈ missing then missingParents main missing here rest
    else if walked ∈ missing then missingParents main (missing ++ [here]) here rest
    else do
      directory main walked
      match main.lookup (.repo here) with
      | none => missingParents main (missing ++ [here]) here rest
      | some .dir => missingParents main missing here rest
      | some _ => throw (.containment "ust dizin siradan bir dizin degil")

/-- `asked` of the source is not kept: asking again about a name that was
answered gives the answer it gave. -/
def missingDirectoriesFrom (main : FileTree) : List Path → List Path →
    Except ApplicationError (List Path)
  | missing, [] => .ok missing
  | missing, parts :: rest => do
    missingDirectoriesFrom main (← missingParents main missing [] parts) rest

def missingDirectories (main : FileTree) (wanted : List Path) :
    Except ApplicationError (List Path) :=
  missingDirectoriesFrom main [] wanted

section
variable [Host]

theorem baselineTarget_current {reference : FileTree} {change : Change}
    {current : Option Evidence} {target : Evidence}
    (h : baselineTarget reference change current = .ok target) : current = some target := by
  unfold baselineTarget at h
  obtain ⟨baseline, -, h⟩ := bind_eq_ok.1 h
  cases baseline with
  | none => cases h
  | some baseline =>
    cases current with
    | none => cases h
    | some current =>
      dsimp only at h
      split at h
      · cases h
      · split at h
        · obtain ⟨same, -, h⟩ := bind_eq_ok.1 h
          cases same with
          | false => cases h
          | true => exact congrArg some (Except.ok.inj h)
        · exact congrArg some (Except.ok.inj h)

/-- What one change contributes to a plan, and what it saw at its path. -/
theorem planChange_cases {main reference : FileTree} {slot index : ℕ} {change : Change}
    {p : Plan} (hc : Canonical change.path)
    (h : planChange main reference slot index change = .ok p) :
    (change.kind = .added ∧ fileEvidence main change.path = .ok none ∧
      p = ⟨[placeMove slot index change], [(stagedSlot slot, change)],
        [change.path.dropLast]⟩) ∨
    (∃ current, change.kind = .modified ∧ fileEvidence main change.path = .ok (some current) ∧
      p = ⟨[parkMove slot index change current, placeMove slot (index + 1) change],
        [(stagedSlot slot, change)], []⟩) ∨
    (∃ current, change.kind = .deleted ∧ fileEvidence main change.path = .ok (some current) ∧
      p = ⟨[parkMove slot index change current], [], []⟩) := by
  unfold planChange at h
  obtain ⟨parts, hp, h⟩ := bind_eq_ok.1 h
  obtain rfl : change.path = parts := Except.ok.inj (hc.symm.trans hp)
  obtain ⟨current, he, h⟩ := bind_eq_ok.1 h
  cases hk : change.kind with
  | added =>
    simp only [hk] at h
    cases current with
    | none => exact .inl ⟨rfl, he, (Except.ok.inj h).symm⟩
    | some _ => cases h
  | modified =>
    simp only [hk] at h
    obtain ⟨target, ht, h⟩ := bind_eq_ok.1 h
    rw [baselineTarget_current ht] at he
    exact .inr (.inl ⟨target, rfl, he, (Except.ok.inj h).symm⟩)
  | deleted =>
    simp only [hk] at h
    obtain ⟨target, ht, h⟩ := bind_eq_ok.1 h
    rw [baselineTarget_current ht] at he
    exact .inr (.inr ⟨target, rfl, he, (Except.ok.inj h).symm⟩)

theorem planFrom_cons {main reference : FileTree} {slot index : ℕ} {change : Change}
    {rest : List Change} {p : Plan}
    (h : planFrom main reference slot index (change :: rest) = .ok p) :
    ∃ here later, planChange main reference slot index change = .ok here ∧
      planFrom main reference (slot + 1) (index + here.moves.length) rest = .ok later ∧
      p = ⟨here.moves ++ later.moves, here.staged ++ later.staged,
        here.wanted ++ later.wanted⟩ := by
  rw [planFrom] at h
  obtain ⟨here, hh, h⟩ := bind_eq_ok.1 h
  obtain ⟨later, hl, h⟩ := bind_eq_ok.1 h
  exact ⟨here, later, hh, hl, (Except.ok.inj h).symm⟩

end

end RagPipeline.Application
