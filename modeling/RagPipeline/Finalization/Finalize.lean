import RagPipeline.Finalization.Gates
import RagPipeline.Lib.Effects
import Mathlib.Algebra.Group.Nat.Defs

/-! # `finalize`: the archive, then the removals -/

set_option autoImplicit false

namespace RagPipeline.Finalization
open Runner Guard Effects

/-- A file that goes into the archive. -/
inductive Source where
  | stateFile (f : StateFile)
  | record (w : String)
  | owner (w : String)
  | candidate (w : String) (path : List String)
  | task (name : String)
deriving DecidableEq

def entryNode : Entry → Node
  | .file b => .file b
  | _ => .other

namespace Source

def node (d : Disk) : Source → Option Node
  | .stateFile f => d.files f
  | .record w => d.record (recordName w)
  | .owner w => (d.holders w).bind fun holder => (holder.entry [ownerName]).map entryNode
  | .candidate w path =>
    (d.holders w).bind fun holder => (holder.entry ("implementer" :: path)).map entryNode
  | .task _ => d.task

def archiveName : Source → List String
  | .stateFile f => ["state", f.name]
  | .record w => ["state", "flat-workspaces", recordName w]
  | .owner _ => ["workspace", ownerName]
  | .candidate _ path => "candidate" :: path
  | .task name => ["task", name]

end Source

def maxFileBytes : ℕ := 64 * 2 ^ 20

def sourceBytes (what : String) : Option Node → Except Refusal Bytes
  | none => .error (.archiveWriteFailed (what ++ " okunamadi"))
  | some .other => .error (.archiveContainmentFailed (what ++ " siradan bir dosya degil"))
  | some (.file b) => do
    require (b.length ≤ maxFileBytes) (.archiveWriteFailed (what ++ " sozlesme tavanini asiyor"))
    return b

def sources (found : Findings) (d : Disk) : List Source :=
  (archivedStateFiles.filter fun f => (d.files f).isSome).map .stateFile ++
    (match found.holder with
    | some (w, _) => .record w :: .owner w :: found.candidates.map (.candidate w)
    | none => []) ++
    (match found.task with
    | some task => [.task task.name]
    | none => [])

def absent (found : Findings) (d : Disk) : List String :=
  (archivedStateFiles.filter fun f => (d.files f).isNone).map StateFile.name ++
    (if found.holder.isNone then ["flat-workspaces/kayit", ownerName] else []) ++
    if found.task.isNone then ["gorev-dosyasi"] else []

/-- One file into the archive, where no file of that name is. -/
def copyVerified (archive : String) (name : List String) (data : Bytes) :
    Program Disk Refusal Unit :=
  Program.commit fun d =>
    let a := (d.archive archive).getD .empty
    if a.files name = none then .ok (d.setArchive archive (a.addFile name data))
    else .error (.archiveWriteFailed "arsiv dosyasi zaten var")

def copyAll (h : Host) (archive : String) : List Source → Program Disk Refusal (List FileEntry)
  | [] => pure []
  | source :: rest => do
    let data ← Program.ask fun d => sourceBytes "arsiv kaynagi" (source.node d)
    copyVerified archive source.archiveName data
    let entries ← copyAll h archive rest
    return ⟨source.archiveName, data.length, h.sha256 data⟩ :: entries

/-- `_verify_sources_unchanged`. -/
def sourcesUnchanged (h : Host) (copied : List (Source × FileEntry)) (d : Disk) :
    Except Refusal Unit :=
  forM copied fun c => do
    let data ← sourceBytes "arsiv kaynagi" (c.1.node d)
    require (h.sha256 data = c.2.sha256)
      (.archiveVerificationFailed "arsiv kaynagi kopyalama sirasinda degisti")

def FileEntry.path (e : FileEntry) : String := "/".intercalate e.name

def manifestPayload (st : StateDoc) (r : Request) (found : Findings) (entries : List FileEntry)
    (missing : List String) : Manifest where
  runId := st.runId
  terminalState := st.state
  stopReason := st.stopReason.getD .completed
  baselineSha := found.binding.map Binding.baselineSha
  manifestDigest := found.binding.map Binding.manifestDigest
  workspaceId := found.binding.map Binding.workspaceId
  evaluatorStatus := st.evaluatorStatus
  evaluatorFindingCount := st.findingCount
  shipment := found.shipment
  shippedCommit := r.shippedCommit
  ciRunId := r.ciRunId
  requestedModels := st.requestedModels
  files := entries.insertionSort fun a b => a.path ≤ b.path
  absent := missing.insertionSort fun a b => a ≤ b
  fileCount := entries.length

/-- The closed schema of the manifest. -/
def Manifest.valid (m : Manifest) : Prop :=
  isRunId m.runId ∧ m.terminalState ∈ terminalStates ∧
    (∀ s ∈ m.baselineSha, isHex 40 s) ∧ (∀ s ∈ m.manifestDigest, isHex 64 s) ∧
    (∀ s ∈ m.workspaceId, isHex 32 s) ∧ (∀ s ∈ m.evaluatorStatus, s.length ≤ 32) ∧
    (∀ s ∈ m.shippedCommit, isHex 40 s) ∧ m.files.length ≤ 4096 ∧
    (∀ e ∈ m.files, 1 ≤ e.path.length ∧ e.path.length ≤ 512 ∧ isHex 64 e.sha256) ∧
    m.absent.length ≤ 64 ∧ (∀ s ∈ m.absent, 1 ≤ s.length ∧ s.length ≤ 64)

instance (m : Manifest) : Decidable m.valid := by
  unfold Manifest.valid
  infer_instance

def assertManifest (m : Manifest) : Except Refusal Unit := do
  require m.valid (.archiveVerificationFailed "arsiv manifesti sema disi")
  require (m.fileCount = m.files.length)
    (.archiveVerificationFailed "arsiv manifesti dosya sayisiyla uyusmuyor")

/-- A document of the archive itself. -/
def writeDocument (archive : String) (f : Archive → Archive) : Program Disk Refusal Unit :=
  Program.commit fun d => .ok (d.setArchive archive (f ((d.archive archive).getD .empty)))

/-- `_build_archive`: every byte copied, and the completion recorded last. -/
def buildArchive (h : Host) (r : Request) (st : StateDoc) (found : Findings) (archive : String) :
    Program Disk Refusal Manifest := do
  let d ← Program.read
  let list := sources found d
  writeDocument archive id
  let entries ← copyAll h archive list
  Program.ask (sourcesUnchanged h (list.zip entries))
  let m := manifestPayload st r found entries (absent found d)
  Program.ask fun _ => assertManifest m
  writeDocument archive fun a => { a with manifest := some m }
  writeDocument archive fun a => { a with complete := true }
  return m

/-- `_verify_existing`: an archive of an earlier call, proven again. -/
def verifyExisting (h : Host) (runId : String) (a : Archive) : Except Refusal Manifest := do
  let m ← demand a.manifest (.archiveVerificationFailed "arsiv manifesti okunamadi")
  assertManifest m
  require (m.runId = runId) (.archiveContainmentFailed "arsiv baska bir kosuya ait")
  forM m.files fun e => do
    let data ← demand (a.files e.name) (.archiveVerificationFailed "arsiv dosyasi eksik")
    require (data.length = e.size ∧ h.sha256 data = e.sha256)
      (.archiveVerificationFailed "arsiv dosyasi bozulmus")
  return m

/-- The digest the archive holds for a name, of the last entry that has it. -/
def digestOf (files : List FileEntry) (name : List String) : Option String :=
  ((files.filter fun e => e.name = name).getLast?).map FileEntry.sha256

def stateDigest (m : Manifest) (f : StateFile) : Option String := digestOf m.files ["state", f.name]

/-- `shutil.rmtree`, entry by entry, the holder itself last. -/
def removeTree (w : String) : Holder → Program Disk Refusal Unit
  | [] => Program.commit fun d => .ok (d.setHolder w none)
  | _ :: rest => do
    Program.commit fun d => .ok (d.setHolder w (some rest))
    removeTree w rest

/-- `_assert_removable`. -/
def assertRemovable (h : Host) (w : String) (d : Disk) : Except Refusal Holder := do
  let refusal := Refusal.workspaceCleanupFailed "calisma alani birakilamadi"
  let record ← demand (loadRecord h w d) refusal
  require (record.repoId = h.repoId) refusal
  require (holderFor h w ∉ [h.runnerTempRoot, h.stateDir, h.repo]) refusal
  demand (d.holders w) refusal

/-- `flat_workspace.remove`. -/
def removeWorkspace (h : Host) (w : String) : Program Disk Refusal Unit := do
  let holder ← Program.ask (assertRemovable h w)
  removeTree w holder
  Program.commit fun d => .ok (d.dropRecord (recordName w))

def assertUnlinkable (h : Host) (expected : String) : Option Node → Except Refusal Bool
  | none => .ok false
  | some .other => .error (.stateCleanupFailed "durum belgesi siradan bir dosya degil")
  | some (.file b) => do
    require (b.length ≤ maxFileBytes) (.archiveVerificationFailed "arsiv kopyasi geri okunamadi")
    require (h.sha256 b = expected) (.stateCleanupFailed "durum belgesi arsivlenenden farkli")
    return true

def unlinkVerified (h : Host) (f : StateFile) (expected : String) : Program Disk Refusal Bool := do
  let present ← Program.ask fun d => assertUnlinkable h expected (d.files f)
  if present then
    Program.commit fun d => .ok (d.setFile f none)
    return true
  else return false

/-- The state documents that the archive covers, one exact name at a time. -/
def unlinkAll (h : Host) (m : Manifest) : List StateFile → Program Disk Refusal (List StateFile)
  | [] => pure []
  | f :: rest =>
    match stateDigest m f with
    | none => unlinkAll h m rest
    | some expected => do
      let gone ← unlinkVerified h f expected
      let removed ← unlinkAll h m rest
      return if gone then f :: removed else removed

def removeTask (h : Host) (task : Task) : Program Disk Refusal Unit := do
  let data ← Program.ask fun d => sourceBytes "gorev dosyasi" d.task
  Program.ask fun _ => require (h.sha256 data = task.digest)
    (.taskManifestMismatch "gorev dosyasi kaldirilmadan once degisti")
  Program.commit fun d => .ok (d.setTask none)

def releaseWorkspace (h : Host) : Option (String × Holder) → Program Disk Refusal Unit
  | some (w, _) => removeWorkspace h w
  | none => pure ()

def releaseTask (h : Host) : Option Task → Program Disk Refusal Unit
  | some task => removeTask h task
  | none => pure ()

/-- `_cleanup`: the workspace, the state documents, the task manifest. -/
def cleanup (h : Host) (found : Findings) (m : Manifest) :
    Program Disk Refusal (List StateFile) := do
  releaseWorkspace h found.holder
  let removed ← unlinkAll h m removableStateFiles
  releaseTask h found.task
  return removed

inductive FinalizeStatus where
  | finalized
  | alreadyFinalized
deriving DecidableEq

structure FinalizeResult where
  status : FinalizeStatus
  runId : String
  terminalState : State
  stopReason : StopReason
  shipment : Shipment
  archiveName : String
  archivedFileCount : ℕ
  removedWorkspace : Bool
  removedStateFiles : List StateFile
  removedTaskManifest : Bool
  readyForNewTask : Bool
  recoveredPartialArchive : Bool
  pendingApplications : List String
deriving DecidableEq

/-- `_ready`. -/
def ready (h : Host) (d : Disk) : Bool :=
  h.pendingApplications.isEmpty && d.ledger.isEmpty && d.strays.isEmpty &&
    removableStateFiles.all fun f => (d.files f).isNone

/-- `_find_finalized`: a complete archive that names the run, the first by name. -/
def findFinalized (runId : String) (d : Disk) : Except Refusal (Option (String × Manifest)) :=
  let sorted := d.archives.insertionSort fun a b => a.1 ≤ b.1
  match sorted.findSome? fun e =>
    if e.2.complete then (e.2.manifest.filter (·.runId = runId)).map fun m => (e.1, m)
    else none with
  | none => .ok none
  | some (name, m) => do
    assertManifest m
    return some (name, m)

def alreadyFinalized (h : Host) (r : Request) (d : Disk) : Except Refusal FinalizeResult := do
  let found ← findFinalized r.expectedRunId d
  let (name, m) ← demand found (.runNotTerminal "sonlandirilacak kosu yok")
  return {
    status := .alreadyFinalized
    runId := m.runId
    terminalState := m.terminalState
    stopReason := m.stopReason
    shipment := m.shipment
    archiveName := name
    archivedFileCount := m.fileCount
    removedWorkspace := false
    removedStateFiles := []
    removedTaskManifest := false
    readyForNewTask := ready h d
    recoveredPartialArchive := false
    pendingApplications := h.pendingApplications }

/-- The archive to clean up against, built or found, and whether it was found. -/
def archiveRun (h : Host) (r : Request) (st : StateDoc) (found : Findings) (name : String) :
    Program Disk Refusal (Manifest × Bool) := do
  let d ← Program.read
  match d.archive name with
  | some a =>
    Program.ask fun _ => require (a.complete = true)
      (.partialArchivePresent "tamamlanmamis arsiv dizini var")
    let m ← Program.ask fun _ => verifyExisting h st.runId a
    return (m, true)
  | none =>
    let m ← buildArchive h r st found name
    return (m, false)

/-- `_finalize_locked`. -/
def finalizeLocked (h : Host) (r : Request) : Program Disk Refusal FinalizeResult := do
  let state ← Program.ask (readState h)
  match state with
  | none => Program.ask (alreadyFinalized h r)
  | some st =>
    let found ← Program.ask (gates h r st)
    let name := archiveNameFor st.runId st.state r.shippedCommit
    let (m, recovered) ← archiveRun h r st found name
    let removed ← cleanup h found m
    let d ← Program.read
    return {
      status := .finalized
      runId := st.runId
      terminalState := st.state
      stopReason := st.stopReason.getD .completed
      shipment := found.shipment
      archiveName := name
      archivedFileCount := m.fileCount
      removedWorkspace := found.holder.isSome
      removedStateFiles := removed
      removedTaskManifest := found.task.isSome
      readyForNewTask := ready h d
      recoveredPartialArchive := recovered
      pendingApplications := h.pendingApplications }

/-- `finalize` under the lock of the repository. `claim` is what taking the lock
writes into its file. -/
def finalize (h : Host) (r : Request) (claim : Bytes) : Program Disk Refusal FinalizeResult := do
  Program.commit fun d => .ok (d.setFile .lock (some (.file claim)))
  finalizeLocked h r

end RagPipeline.Finalization
