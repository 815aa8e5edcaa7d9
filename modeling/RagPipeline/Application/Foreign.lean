import RagPipeline.Application.Directories
import RagPipeline.Application.Apply
import RagPipeline.Lib.Process

/-! # An application among other processes

The same programs, one file system call at a time. Between two calls another
process may make a directory in the checkout, and the host may refuse any call.
`_missing_directories` plans before anything is made; what the application made
and what its rollback took away is recorded beside the disk. -/

set_option autoImplicit false

namespace RagPipeline.Application.Foreign
open Processes (transact)

/-- `planned` is what `_missing_directories` has found missing, `made` is what
`create_child_directory` made (`_Tree.created`), and `removed` is what
`remove_child_directory` took away. No code reads these three. -/
structure Site where
  process : Process
  planned : List Path
  made : List Path
  removed : List Path

/-- `create_child_directory` and `_Tree.created`. -/
def Site.make (s : Site) (path : Path) : Site :=
  { s with
    process := s.process.withTree (s.process.disk.tree.insert (.repo path) .dir)
    made := s.made ++ [path] }

/-- The clock of a call says whether the host refuses it. -/
abbrev Road := ExceptT ApplicationError (Processes.Process Site Bool)

def mayRaise : Road Unit := transact fun refused s => if refused then .error .interrupted else .ok (s, ())

def ask {α : Type} (f : Process → Except ApplicationError α) : Road α :=
  transact fun _ s => (f s.process).map fun a => (s, a)

def change (f : Process → Except ApplicationError Process) : Road Unit :=
  transact fun _ s => (f s.process).map fun p => ({ s with process := p }, ())

def onDisk (f : Disk → Except ApplicationError Disk) : Road Unit :=
  change fun p => (f p.disk).map fun d => { p with disk := d }

def onTree (f : FileTree → Except ApplicationError FileTree) : Road Unit :=
  onDisk fun d => (f d.tree).map fun t => { d with tree := t }

def askTree {α : Type} (f : FileTree → Except ApplicationError α) : Road α :=
  ask fun p => f p.disk.tree

def setPayload (payload : Payload) : Road Unit :=
  change fun p => .ok { p with payload := some payload }

def writeJournal (payload : Payload) : Road Unit := do
  mayRaise
  onDisk fun disk =>
    if payload.schemaAccepts then .ok { disk with journal := some payload }
    else .error (.refused "uygulama gunlugu yazilamadi")
  mayRaise

def advanceJournal (payload : Payload) (target : JournalState) : Road Payload := do
  if target ∉ payload.state.allowedJournalTransitions then
    throw (.refused "uygulama gunlugu izinsiz gecis")
  else
    writeJournal { payload with state := target }
    setPayload { payload with state := target }
    return { payload with state := target }

def currentPayload (fallback : Payload) : Road Payload :=
  ask fun p => .ok (p.payload.getD fallback)

def forEach {β : Type} (body : β → Road Unit) : List β → Road Unit
  | [] => pure ()
  | b :: rest => do
    body b
    forEach body rest

/-! ## The parents of the added files -/

def askMissing (walked here : Path) : Road Bool :=
  transact fun _ s => do
    directory s.process.disk.tree walked
    match s.process.disk.tree.lookup (.repo here) with
    | none => .ok ({ s with planned := s.planned ++ [here] }, true)
    | some .dir => .ok (s, false)
    | some _ => .error (.containment "ust dizin siradan bir dizin degil")

/-- Its parent is known absent: nothing is asked. -/
def noteMissing (here : Path) : Road Unit :=
  transact fun _ s => .ok ({ s with planned := s.planned ++ [here] }, ())

/-- `missing` and `asked`. -/
abbrev Found := List Path × List Path

def missingParents (walked : Path) : Path → Found → Road Found
  | [], found => pure found
  | name :: rest, (missing, asked) =>
    let here := walked ++ [name]
    if here ∈ asked then missingParents here rest (missing, asked)
    else if walked ∈ missing then do
      noteMissing here
      missingParents here rest (missing ++ [here], here :: asked)
    else do
      if ← askMissing walked here then
        missingParents here rest (missing ++ [here], here :: asked)
      else missingParents here rest (missing, here :: asked)

def missingDirectories : List Path → Found → Road (List Path)
  | [], found => pure found.1
  | parts :: rest, found => do
    let found ← missingParents [] parts found
    missingDirectories rest found

/-- A level of `_Tree.directory` with `create`: the question, the create, which
may find the name taken meanwhile, and the handle. -/
def openLevel (here : Path) : Road Unit := do
  match ← askTree fun t => .ok (t.lookup (.repo here)) with
  | some .dir => pure ()
  | some _ => throw (.containment "ust dizin siradan bir dizin degil")
  | none =>
    mayRaise
    transact fun _ s =>
      if s.process.disk.tree.lookup (.repo here) = none then
        .ok (s.make here, ())
      else .ok (s, ())
  mayRaise
  askTree fun t =>
    if t.lookup (.repo here) = some .dir then .ok ()
    else .error (.containment "hedef ust dizini acilamadi")

def createDirectory (walked : Path) : Path → Road Unit
  | [] => pure ()
  | name :: rest => do
    openLevel (walked ++ [name])
    createDirectory (walked ++ [name]) rest

def createDirectories : List Path → Road Unit :=
  forEach fun relative => do
    let parts ← ask fun _ => split relative
    createDirectory [] parts

section
variable [Host]

/-! ## Staging and moving -/

def stageFile (implementer : FileTree) (slot : Slot) (change : Change) : Road Unit := do
  let name := Place.hold slot
  mayRaise
  let source ← ask fun _ =>
    match fileEvidence implementer change.path with
    | .ok (some source) =>
      if source.sha256 = change.sha256 then .ok source
      else .error (.containment "aday dosyasi kanitla ayni degil")
    | .ok none => .error (.containment "aday dosyasi bulunamadi")
    | .error e => .error e
  mayRaise
  onTree fun t =>
    if t.lookup name = none then .ok (t.insert name (.file [] 0o644))
    else .error (.refused "aday dosyasi hazirlanamadi")
  mayRaise
  onTree fun t => .ok (t.insert name (.file source.data 0o644))
  mayRaise
  onTree fun t => .ok (t.insert name (.file source.data (stagedMode change)))
  mayRaise
  askTree fun t =>
    match childEvidence t name with
    | .ok (some written) =>
      if written.sha256 = change.sha256 then .ok ()
      else .error (.refused "hazirlanan dosya geri okunamadi")
    | .ok none => .error (.refused "hazirlanan dosya geri okunamadi")
    | .error e => .error e

def stage (implementer : FileTree) : List (Slot × Change) → Road Unit :=
  forEach fun (slot, change) => stageFile implementer slot change

def executeMove (move : Move) : Road Unit := do
  let (source, target) ← askTree (moveEnds move)
  mayRaise
  onTree fun t => linkChild t source target
  mayRaise
  onTree fun t => .ok (t.erase source)

def applyMoves (payload : Payload) : List Move → Road Unit :=
  forEach fun move => do
    setPayload { payload with appliedIndex := move.index + 1 }
    writeJournal { payload with appliedIndex := move.index + 1 }
    executeMove move

/-! ## Rolling back -/

def undoMove (move : Move) : Road Unit := do
  mayRaise
  if ← askTree (landed move) then executeMove (reverseMove move)
  else pure ()

def undoMoves (payload : Payload) (moves : List Move) : Road Unit :=
  (forEach fun move => do
    undoMove move
    setPayload { payload with appliedIndex := move.index }
    writeJournal { payload with appliedIndex := move.index })
    (moves.take payload.appliedIndex).reverse

def removeOne (relative : Path) : Road Unit := do
  mayRaise
  transact fun _ s => do
    let parts ← split relative
    let t ← removeDirectory relative s.process.disk.tree
    if t.lookup (.repo parts) = none then
      return ({ s with process := s.process.withTree t, removed := parts :: s.removed }, ())
    else return (s, ())

/-- `_rollback` goes by the directories of the journal. -/
def removeDirectories (directories : List Path) : Road Unit := forEach removeOne directories.reverse

def rollback (payload : Payload) (moves : List Move) : Road Unit := do
  let payload ← advanceJournal payload .rollingBack
  tryCatch
    (do
      undoMoves payload moves
      removeDirectories payload.directories)
    fun _ => do
      let payload ← currentPayload payload
      writeJournal { payload with state := .failed }
      throw (.rollbackFailed "geri alma dogrulanamadi")
  let payload ← currentPayload payload
  let _ ← advanceJournal payload .rolledBack

def dropJournal : Road Unit := onDisk fun disk => .ok { disk with journal := none }

def removeHolder (moves : List Move) : Road Unit := do
  mayRaise
  if Host.listsJournalFirst then dropJournal
  (forEach fun move => onTree fun t =>
    .ok (eraseHold move.toPlace (eraseHold move.fromPlace t))) moves
  mayRaise
  onDisk fun disk => .ok { disk with slots := false }
  if !Host.listsJournalFirst then dropJournal
  mayRaise
  onDisk fun disk => .ok { disk with holder := false }

/-! ## The application and its recovery -/

def planMoves (candidate : Candidate) (call : Call) : Road Plan :=
  askTree fun main => plan candidate main call.reference

def openJournal (payload : Payload) : Road Unit := do
  mayRaise
  onDisk fun disk =>
    if disk.holder then .error (.refused "uygulama dizini zaten var")
    else .ok { disk with holder := true }
  setPayload payload
  writeJournal payload
  mayRaise
  ask fun p => readBack payload p.disk

def openSlots : Road Unit := do
  mayRaise
  onDisk fun disk => .ok { disk with slots := true }
  mayRaise
  change fun p => .ok { p with slotsTree := true }
  mayRaise

def advanceCheckout (call : Call) (p : Plan) (payload : Payload) : Road Unit := do
  stage call.implementer p.staged
  let payload ← advanceJournal payload .prepared
  createDirectories payload.directories
  let payload ← advanceJournal payload .applying
  applyMoves payload p.moves

def finishApplication (call : Call) (payload : Payload) : Road Unit := do
  mayRaise
  askTree fun t =>
    match call.verify t with
    | none => .ok ()
    | some sentence => .error (.concurrentMainChange sentence)
  let payload ← currentPayload payload
  let _ ← advanceJournal payload .applied

/-- `_apply` from the journal on. -/
def applyPlanned (call : Call) (p : Plan) (directories : List Path) : Road Unit := do
  let payload := registeredPayload call p directories
  openJournal payload
  openSlots
  advanceCheckout call p payload
  finishApplication call payload

def applyHandler (primary : ApplicationError) : Road Unit := do
  match ← ask fun p => .ok (p.payload, p.slotsTree) with
  | (none, _) => throw primary
  | (some payload, slotsTree) =>
    if slotsTree then rollback payload payload.moves
    tryCatch (removeHolder payload.moves) fun _ => pure ()
    throw primary

def apply (candidate : Candidate) (call : Call) : Road Unit := do
  tryCatch
    (do
      let p ← planMoves candidate call
      let directories ← missingDirectories p.wanted ([], [])
      applyPlanned call p directories)
    applyHandler
  let payload ← ask fun p => .ok p.payload
  tryCatch (removeHolder ((payload.map Payload.moves).getD []))
    fun _ => throw (.cleanupFailed "uygulama dizini silinemedi")

/-- `recover_application`, of a new process. -/
def recover (repoId applicationId : String) : Road Unit := do
  if (← ask fun p => .ok p.disk.holder) = false then throw (.refused "uygulama kaydi yok")
  else
    let payload ← ask fun p => readJournal p.disk
    if payload.identity.applicationId ≠ applicationId ∨ payload.identity.repoId ≠ repoId then
      throw (.containment "uygulama kaydi bu depoya ait degil")
    else if payload.state = .applied ∨ payload.state = .rolledBack then pure ()
    else if (← ask fun p => .ok p.disk.slots) = false then
      throw (.containment "hedef ust dizini yok")
    else
      setPayload payload.reopened
      rollback payload.reopened payload.moves
      removeHolder payload.moves

end

end RagPipeline.Application.Foreign
