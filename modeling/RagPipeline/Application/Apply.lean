import RagPipeline.Application.Directories
import RagPipeline.Lib.Effects

/-! # Applying, rolling back and recovering

`_apply`, `_rollback` and `recover_application` as programs over the disk and
the two local variables the failure path reads. Every durable effect is a
commit, so a death of the process can fall after any of them, between the link
and the unlink of one rename included. A step that raises is named by the
caller: `fault` is the one step of the forward run at which the host raises. -/

set_option autoImplicit false

namespace RagPipeline.Application
open Effects Effects.Program

/-- What survives the process: the checkout with the slot files, whether the
holder and its slot directory exist, and the journal. -/
structure Disk where
  tree : FileTree
  holder : Bool
  slots : Bool
  journal : Option Payload

structure Process where
  disk : Disk
  payload : Option Payload
  slotsTree : Bool

def Process.withTree (s : Process) (tree : FileTree) : Process :=
  { s with disk := { s.disk with tree := tree } }

def Process.withJournal (s : Process) (journal : Option Payload) : Process :=
  { s with disk := { s.disk with journal := journal } }

abbrev App := Program Process ApplicationError

inductive StagePhase where
  | read
  | create
  | write
  | mode
  | readBack
deriving DecidableEq, Repr

/-- The steps of the forward run that can raise. A journal write can raise
before the new text has its name, or after. -/
inductive Step where
  | holder
  | journal (state : JournalState) (appliedIndex : ℕ) (visible : Bool)
  | readBack
  | slotsDirectory
  | openHolder
  | openSlots
  | stage (slot : Slot) (phase : StagePhase)
  | makeDirectory (path : Path)
  | openDirectory (path : Path)
  | link (index : ℕ)
  | unlink (index : ℕ)
  | fsyncRoot
  | verify
deriving DecidableEq, Repr

def mayRaise (fault : Option Step) (step : Step) : App Unit :=
  if fault = some step then raise .interrupted else Program.pure ()

def onDisk (f : Disk → Except ApplicationError Disk) : App Unit :=
  commit fun s =>
    match f s.disk with
    | .ok disk => .ok { s with disk := disk }
    | .error e => .error e

def onTree (f : FileTree → Except ApplicationError FileTree) : App Unit :=
  onDisk fun disk =>
    match f disk.tree with
    | .ok tree => .ok { disk with tree := tree }
    | .error e => .error e

def askTree {α : Type} (f : FileTree → Except ApplicationError α) : App α :=
  ask fun s => f s.disk.tree

def setPayload (payload : Payload) : App Unit :=
  assign fun s => { s with payload := some payload }

def writeJournal (fault : Option Step) (payload : Payload) : App Unit := do
  mayRaise fault (.journal payload.state payload.appliedIndex false)
  onDisk fun disk =>
    if payload.schemaAccepts then .ok { disk with journal := some payload }
    else .error (.refused "uygulama gunlugu yazilamadi")
  mayRaise fault (.journal payload.state payload.appliedIndex true)

/-- One legal step of the journal, and the local variable after it. -/
def advanceJournal (fault : Option Step) (payload : Payload) (target : JournalState) :
    App Payload := do
  if target ∉ payload.state.allowedJournalTransitions then
    raise (.refused "uygulama gunlugu izinsiz gecis")
  else
    let payload := { payload with state := target }
    writeJournal fault payload
    setPayload payload
    return payload

def readJournal (disk : Disk) : Except ApplicationError Payload :=
  match disk.journal with
  | none => .error (.refused "uygulama gunlugu yok")
  | some payload =>
    if payload.Readable then
      if payload.schemaAccepts then .ok payload
      else .error (.refused "uygulama gunlugu sozlesmeye uymuyor")
    else .error (.containment "uygulama gunlugu okunamadi")

/-- The mode a staged file ends with: `set_handle_mode` leaves the mode of the
create where no bit is recorded. -/
def stagedMode (change : Change) : ℕ :=
  let bits := change.mode % 0o10000
  if bits = 0 then 0o644 else bits

def eraseHold : Place → FileTree → FileTree
  | .hold slot, t => t.erase (.hold slot)
  | .repo _, t => t

def currentPayload (fallback : Payload) : App Payload := do
  return (← Program.read).payload.getD fallback

section
variable [Host]

def writeSlot (fault : Option Step) (slot : Slot) (phase : StagePhase) (n : Node) : App Unit := do
  mayRaise fault (.stage slot phase)
  onTree fun t => .ok (t.insert (.hold slot) n)

def stageFile (fault : Option Step) (implementer : FileTree) (slot : Slot) (change : Change) :
    App Unit := do
  let name := Place.hold slot
  mayRaise fault (.stage slot .read)
  let source ← ask fun _ =>
    match fileEvidence implementer change.path with
    | .ok (some source) =>
      if source.sha256 = change.sha256 then .ok source
      else .error (.containment "aday dosyasi kanitla ayni degil")
    | .ok none => .error (.containment "aday dosyasi bulunamadi")
    | .error e => .error e
  mayRaise fault (.stage slot .create)
  onTree fun t =>
    if t.lookup name = none then .ok (t.insert name (.file [] 0o644))
    else .error (.refused "aday dosyasi hazirlanamadi")
  writeSlot fault slot .write (.file source.data 0o644)
  writeSlot fault slot .mode (.file source.data (stagedMode change))
  mayRaise fault (.stage slot .readBack)
  ask fun s =>
    match childEvidence s.disk.tree name with
    | .ok (some written) =>
      if written.sha256 = change.sha256 then .ok ()
      else .error (.refused "hazirlanan dosya geri okunamadi")
    | .ok none => .error (.refused "hazirlanan dosya geri okunamadi")
    | .error e => .error e

def stage (fault : Option Step) (implementer : FileTree) (staged : List (Slot × Change)) :
    App Unit :=
  forEach staged fun (slot, change) => stageFile fault implementer slot change

/-- `_Tree.directory` with `create`. -/
def createDirectory (fault : Option Step) : Path → Path → App Unit
  | _, [] => Program.pure ()
  | walked, name :: rest => do
    let here := walked ++ [name]
    match (← Program.read).disk.tree.lookup (.repo here) with
    | some .dir => createDirectory fault here rest
    | some _ => raise (.containment "ust dizin siradan bir dizin degil")
    | none =>
      mayRaise fault (.makeDirectory here)
      onTree fun t => .ok (t.insert (.repo here) .dir)
      mayRaise fault (.openDirectory here)
      createDirectory fault here rest

def createDirectories (fault : Option Step) (directories : List Path) : App Unit :=
  forEach directories fun relative => do
    let parts ← ask fun _ => split relative
    createDirectory fault [] parts

def executeMove (fault : Option Step) (move : Move) : App Unit := do
  let (source, target) ← askTree (moveEnds move)
  mayRaise fault (.link move.index)
  onTree fun t => linkChild t source target
  mayRaise fault (.unlink move.index)
  onTree fun t => .ok (t.erase source)

def applyMoves (fault : Option Step) (payload : Payload) (moves : List Move) : App Unit :=
  forEach moves fun move => do
    let payload := { payload with appliedIndex := move.index + 1 }
    setPayload payload
    writeJournal fault payload
    executeMove fault move

def undoMove (move : Move) : App Unit := do
  if ← askTree (landed move) then executeMove none (reverseMove move)
  else Program.pure ()

def undoMoves (payload : Payload) (moves : List Move) : App Unit :=
  forEach (moves.take payload.appliedIndex).reverse fun move => do
    undoMove move
    let payload := { payload with appliedIndex := move.index }
    setPayload payload
    writeJournal none payload

def removeDirectories (directories : List Path) : App Unit :=
  forEach directories.reverse fun relative => onTree (removeDirectory relative)

def rollback (payload : Payload) (moves : List Move) : App Unit := do
  let payload ← advanceJournal none payload .rollingBack
  rescue
    (do
      undoMoves payload moves
      removeDirectories payload.directories)
    fun _ => do
      let payload ← currentPayload payload
      writeJournal none { payload with state := .failed }
      raise (.rollbackFailed "geri alma dogrulanamadi")
  let payload ← currentPayload payload
  let _ ← advanceJournal none payload .rolledBack

def dropJournal : App Unit := onDisk fun disk => .ok { disk with journal := none }

/-- `shutil.rmtree` of the holder, in the order the host lists it. The slot
files are the holder's ends of the moves. -/
def removeHolder (moves : List Move) : App Unit := do
  if Host.listsJournalFirst then dropJournal
  forEach moves fun move => onTree fun t =>
    .ok (eraseHold move.toPlace (eraseHold move.fromPlace t))
  onDisk fun disk => .ok { disk with slots := false }
  if !Host.listsJournalFirst then dropJournal
  onDisk fun disk => .ok { disk with holder := false }

/-- What `_apply` is called with besides the candidate: the identities of the
run, the two trees of the workspace, and the sentence with which `_verify`
will refuse the checkout it is shown, if it does. -/
structure Call where
  identity : Identity
  reference : FileTree
  implementer : FileTree
  verify : FileTree → Option String

structure ApplicationReport where
  identity : Identity
  appliedFiles : List Path
  added : ℕ
  modified : ℕ
  deleted : ℕ
  rollbackPerformed : Bool
deriving DecidableEq, Repr

def registeredPayload (call : Call) (p : Plan) (directories : List Path) : Payload :=
  ⟨call.identity, .registered, p.moves, directories, 0⟩

/-- `_read_journal(holder) != payload`, asked of what was just written. -/
def readBack (payload : Payload) (disk : Disk) : Except ApplicationError Unit := do
  if (← readJournal disk) ≠ payload then
    throw (.refused "uygulama gunlugu geri okunamadi")

/-- The first phase of `_apply`: the plan, the holder, and a journal that has
been read back. -/
def registerApplication (fault : Option Step) (candidate : Candidate) (call : Call) :
    App (Plan × Payload) := do
  let p ← askTree fun main => plan candidate main call.reference
  let directories ← askTree fun main => missingDirectories main p.wanted
  mayRaise fault .holder
  onDisk fun disk =>
    if disk.holder then .error (.refused "uygulama dizini zaten var")
    else .ok { disk with holder := true }
  let payload := registeredPayload call p directories
  setPayload payload
  writeJournal fault payload
  mayRaise fault .readBack
  ask fun s => readBack payload s.disk
  return (p, payload)

/-- The slot directory, from whose opening on a raise is rolled back. -/
def openSlots (fault : Option Step) : App Unit := do
  mayRaise fault .slotsDirectory
  onDisk fun disk => .ok { disk with slots := true }
  mayRaise fault .openHolder
  assign fun s => { s with slotsTree := true }
  mayRaise fault .openSlots

/-- The phases that change the slots and the checkout. -/
def advanceCheckout (fault : Option Step) (call : Call) (p : Plan) (payload : Payload) :
    App Unit := do
  stage fault call.implementer p.staged
  let payload ← advanceJournal fault payload .prepared
  createDirectories fault payload.directories
  let payload ← advanceJournal fault payload .applying
  applyMoves fault payload p.moves

def finishApplication (fault : Option Step) (call : Call) (payload : Payload) : App Unit := do
  mayRaise fault .fsyncRoot
  mayRaise fault .verify
  askTree fun t =>
    match call.verify t with
    | none => .ok ()
    | some sentence => .error (.concurrentMainChange sentence)
  let payload ← currentPayload payload
  let _ ← advanceJournal fault payload .applied

def applyBody (fault : Option Step) (candidate : Candidate) (call : Call) : App Unit := do
  let (p, payload) ← registerApplication fault candidate call
  openSlots fault
  advanceCheckout fault call p payload
  finishApplication fault call payload

/-- `except BaseException as primary`: a rollback where the slots were open,
and the holder removed where there is one. -/
def applyHandler (primary : ApplicationError) : App Unit := do
  let s ← Program.read
  match s.payload with
  | none => raise primary
  | some payload =>
    if s.slotsTree then rollback payload payload.moves
    removeHolder payload.moves
    raise primary

def apply (fault : Option Step) (candidate : Candidate) (call : Call) : App ApplicationReport := do
  rescue (applyBody fault candidate call) applyHandler
  let moves := ((← Program.read).payload.map Payload.moves).getD []
  removeHolder moves
  let kinds := candidate.changes.map Change.kind
  return {
    identity := call.identity
    appliedFiles := candidate.changes.map Change.path
    added := kinds.count .added
    modified := kinds.count .modified
    deleted := kinds.count .deleted
    rollbackPerformed := false }

structure RecoveryReport where
  applicationId : String
  state : JournalState
  rolledBack : Bool
deriving DecidableEq, Repr

/-- A record of a rollback that was not proven is walked again from the table. -/
def Payload.reopened (payload : Payload) : Payload :=
  if payload.state = .failed then { payload with state := .applying } else payload

def finishRecovery (applicationId : String) (payload : Payload) : App RecoveryReport := do
  setPayload payload
  rollback payload payload.moves
  removeHolder payload.moves
  return ⟨applicationId, .rolledBack, true⟩

def recoverApplication (repoId applicationId : String) : App RecoveryReport := do
  let s ← Program.read
  if s.disk.holder = false then
    raise (.refused "uygulama kaydi yok")
  else
    let payload ← ask fun s => readJournal s.disk
    if payload.identity.applicationId ≠ applicationId ∨ payload.identity.repoId ≠ repoId then
      raise (.containment "uygulama kaydi bu depoya ait degil")
    else if payload.state = .applied ∨ payload.state = .rolledBack then
      return ⟨applicationId, payload.state, false⟩
    else if s.disk.slots = false then
      raise (.containment "hedef ust dizini yok")
    else
      finishRecovery applicationId payload.reopened

end

end RagPipeline.Application
