import RagPipeline.Changes.Semantic
import RagPipeline.Changes.Reach

/-! # A repair of an audited candidate

`run_verified_repair` derives the candidate that stands, lets the implementer
edit it, and measures twice: what the call moved, and what now separates the
reference tree from the final one. Every comparison of paths is one of folded
spellings. -/

set_option autoImplicit false

namespace RagPipeline.Changes
open Guard Patch

/-- What `_canonical` lets the walker list. -/
def Canonical (path : Text) : Prop :=
  ∃ parts : List Text, parts ≠ [] ∧ path = joinSlash parts ∧ ∀ part ∈ parts,
    part ≠ [] ∧ part ≠ ['.'] ∧ part ≠ ['.', '.'] ∧ '\\' ∉ part ∧ '/' ∉ part

/-- A tree as the walker lists it. -/
structure Scanned where
  manifest : Manifest
  canonical : ∀ e ∈ manifest.entries, Canonical e.path.toList

structure Scope where
  allowed : List Text
  forbidden : List Text
  taskRelative : Option Text

structure MainSnapshot where
  rootIdentity : String
  digest : String
deriving DecidableEq

/-- What the call reads before it starts the implementer: the task with its
bindings, the reference and the implementer's tree, the main checkout. -/
structure Before where
  scope : Except ChangeSetError Scope
  pair : Except ChangeSetError (Scanned × Scanned)
  main : Except ChangeSetError MainSnapshot

/-- What it reads when the implementer is through. -/
structure After where
  binding : Except ChangeSetError Unit
  taskMoved : Bool
  main : Except ChangeSetError MainSnapshot
  pair : Except ChangeSetError (Scanned × Scanned)

/-- The arguments of `run_verified_repair`, their own forms already checked. -/
structure RepairRequest where
  runId : String
  workspaceId : String
  baselineSha : String
  previousFingerprint : String
  previousChangedFiles : List Text

/-- The implementer's reply. A declared item that is no text is `none`. -/
structure Reply where
  runId : Option String
  changedFiles : List (Option Text)
  status : String

structure Outcome where
  reply : Reply
  exitCode : ℤ
  durationMs : ℕ
  stdoutBytes : ℕ
  stderrBytes : ℕ
  schemaSha256 : String
  event : String

structure VerifiedChangeSet where
  runId : String
  workspaceId : String
  baselineSha : String
  status : String
  changedFiles : List String
  added : ℕ
  modified : ℕ
  deleted : ℕ
  fingerprint : String
  exitCode : ℤ
  durationMs : ℕ
  stdoutBytes : ℕ
  stderrBytes : ℕ
  schemaSha256 : String
  event : String

inductive RepairFailure where
  | refused (e : ChangeSetError)
  | implementer
deriving DecidableEq

def ChangeKind.text : ChangeKind → String
  | .added => "added"
  | .modified => "modified"
  | .deleted => "deleted"

/-- `_fingerprint`: one line a change, its fields apart by a NUL. -/
def fingerprint (digest : Text → String) (changes : List Change) : String :=
  digest (changes.flatMap fun c => [Char.ofNat 0].intercalate
    [c.path.toList, c.kind.text.toList, c.mode.toList, c.sha256.toList] ++ ['\n'])

section
variable (P : Platform) (digest : Text → String)

/-- The control plane, then the task file, then forbidden, then allowed. -/
def authorize (scope : Scope) (path : Text) : Except ChangeSetError Unit := do
  require (isControlPlane P path = false)
    (.unsafeChange "kontrol duzlemi degistirildi" .controlPlaneModified)
  require ((scope.taskRelative.all fun task => fold P path ≠ fold P task) = true)
    (.unsafeChange "gorev dosyasi degistirildi" .pathNotAllowed)
  require (covered P path scope.forbidden = false ∧ covered P path scope.allowed = true)
    (.unsafeChange "izin verilmeyen yol degistirildi" .pathNotAllowed)

def authorizeAll (scope : Scope) (changes : List Change) : Except ChangeSetError Unit :=
  forM changes fun c => authorize P scope c.path.toList

def foldedPaths (changes : List Change) : List Text :=
  changes.map fun c => fold P c.path.toList

def sameSet (a b : List Text) : Bool := a.all b.contains && b.all a.contains

/-- `_read_pair`. -/
def readPair (pair : Scanned × Scanned) : Except ChangeSetError (Projection × Projection) := do
  require (pair.1.manifest.rootIdentity ≠ pair.2.manifest.rootIdentity)
    (.unsafeChange "iki kok ayni nesne" .pathNotAllowed)
  let reference ← project pair.1.manifest
  let implementer ← project pair.2.manifest
  return (reference, implementer)

def exactPathSet (paths : List Text) : Except ChangeSetError (List Text) := do
  require (paths.map (fold P)).Nodup
    (.evidenceUnavailable "onceki aday dosya listesi yinelemeli")
  return paths.map (fold P)

/-- The candidate that the repair starts from. -/
structure Start where
  expected : List Text
  scope : Scope
  reference : Projection
  candidate : Projection
  prior : List Change
  main : MainSnapshot

/-- Everything up to the implementer's call: the candidate on the disk is
authorised in its own right, and is the audited one. -/
def repairStart (request : RepairRequest) (before : Before) : Except ChangeSetError Start := do
  let expected ← exactPathSet P request.previousChangedFiles
  let scope ← before.scope
  let pair ← before.pair
  let (reference, candidate) ← readPair pair
  let prior ← semanticChanges reference candidate
  authorizeAll P scope prior
  require (fingerprint digest prior = request.previousFingerprint)
    (.unsafeChange "onarim denetlenen adaya baglanamadi" .pathNotAllowed)
  require (sameSet (foldedPaths P prior) expected = true)
    (.unsafeChange "onarim baska bir dosya kumesini adliyor" .pathNotAllowed)
  let main ← before.main
  return ⟨expected, scope, reference, candidate, prior, main⟩

/-- What a path of either tree is compared by. -/
def sameProjection (p q : Projection) : Prop :=
  ∀ path ∈ bothPaths p q, p.get path = q.get path

instance (p q : Projection) : Decidable (sameProjection p q) :=
  List.decidableBAll _ _

/-- Everything that must not have moved, then both change sets. -/
def verifyAfter (start : Start) (after : After) :
    Except ChangeSetError (List Change × List Change) := do
  after.binding
  require (after.taskMoved = false) (.unsafeChange "gorev dosyasi degistirildi" .pathNotAllowed)
  let main ← after.main
  require (main = start.main) (.unsafeChange "ana calisma agaci degistirildi" .pathNotAllowed)
  let pair ← after.pair
  let (reference, implementer) ← readPair pair
  require (sameProjection reference start.reference)
    (.unsafeChange "referans agac degistirildi" .pathNotAllowed)
  let total ← semanticChanges reference implementer
  authorizeAll P start.scope total
  let delta ← semanticChanges start.candidate implementer
  require ((foldedPaths P delta).all start.expected.contains = true)
    (.unsafeChange "onarim onceki adayin disina cikti" .pathNotAllowed)
  return (delta, total)

def countKind (kind : ChangeKind) (changes : List Change) : ℕ :=
  changes.countP fun c => c.kind = kind

/-- `_accept_repair`: the declaration is about this call, the result about the
candidate. -/
def acceptRepair (request : RepairRequest) (outcome : Outcome) (delta total : List Change) :
    Except ChangeSetError VerifiedChangeSet := do
  let reply := outcome.reply
  require (reply.runId = some request.runId) (.declarationMismatch "yanit baska bir kosuyu adliyor")
  require (reply.changedFiles.all Option.isSome = true)
    (.declarationMismatch "bildirilen dosya listesi tam metin degil")
  let canonical := reply.changedFiles.reduceOption.map (fold P)
  require canonical.Nodup (.declarationMismatch "bildirilen dosya listesi yinelemeli")
  require (sameSet canonical (foldedPaths P delta) = true)
    (.declarationMismatch "bildirilen onarim gerceklesenle birebir ayni degil")
  require (reply.status = "implemented" ∨ delta.isEmpty = true)
    (.declarationMismatch "tamamlanmamis yanit yine de dosya degistirdi")
  return {
    runId := request.runId
    workspaceId := request.workspaceId
    baselineSha := request.baselineSha
    status := reply.status
    changedFiles := total.map Change.path
    added := countKind .added total
    modified := countKind .modified total
    deleted := countKind .deleted total
    fingerprint := fingerprint digest total
    exitCode := outcome.exitCode
    durationMs := outcome.durationMs
    stdoutBytes := outcome.stdoutBytes
    stderrBytes := outcome.stderrBytes
    schemaSha256 := outcome.schemaSha256
    event := outcome.event }

/-- `run_verified_repair`. The trees are measured on every exit of the
implementer, and a violation outranks its failure. -/
def runVerifiedRepair (request : RepairRequest) (before : Before)
    (outcome : Except Unit Outcome) (after : After) : Except RepairFailure VerifiedChangeSet := do
  let start ← (repairStart P digest request before).mapError .refused
  let (delta, total) ← (verifyAfter P start after).mapError .refused
  let outcome ← outcome.mapError fun _ => .implementer
  (acceptRepair P digest request outcome delta total).mapError .refused

end

end RagPipeline.Changes
