import RagPipeline.Lib.Guard
import RagPipeline.Runner.Contract
import Mathlib.Data.List.Sort

/-! # What `finalize` reads and removes

The state directory by document, the ledger of flat workspaces, the holders
under the runner's temporary root, the task manifest, and the archive root by
name. Nobody else writes here while the repository's lock is held. An operation
of the host either happens or the process dies before it: an unlink that the
host refuses is not modelled. -/

set_option autoImplicit false

namespace RagPipeline.Finalization
open Runner

abbrev Bytes := List UInt8

/-- What stands under a name. `other` is a directory, a link or a device. -/
inductive Node where
  | file (bytes : Bytes)
  | other
deriving DecidableEq

inductive StateFile where
  | state
  | backup
  | binding
  | events
  | receipt
  | findings
  | lock
deriving DecidableEq

def StateFile.name : StateFile → String
  | .state => "state.json"
  | .backup => "state.json.backup"
  | .binding => "binding.json"
  | .events => "events.jsonl"
  | .receipt => "acceptance-receipt.json"
  | .findings => "findings.json"
  | .lock => "run.lock"

def mandatoryStateFiles : List StateFile := [.state]

def optionalStateFiles : List StateFile := [.backup, .binding, .events, .receipt, .findings]

def keptStateFiles : List StateFile := [.lock]

/-- In the order of removal. -/
def removableStateFiles : List StateFile := mandatoryStateFiles ++ optionalStateFiles

def archivedStateFiles : List StateFile :=
  mandatoryStateFiles ++ optionalStateFiles ++ keptStateFiles

/-- One entry of a holder, by its path from the holder. -/
inductive Entry where
  | dir (identity : String)
  | file (bytes : Bytes)
  | other
deriving DecidableEq

def Entry.isFile : Entry → Bool
  | .file _ => true
  | _ => false

/-- The entries of a holder in the order in which `shutil.rmtree` comes to them. -/
abbrev Holder := List (List String × Entry)

def Holder.entry (d : Holder) (path : List String) : Option Entry :=
  (d.find? fun e => e.1 = path).map Prod.snd

/-- What `finalize` reads of the state document. -/
structure StateDoc where
  state : State
  runId : String
  stopReason : Option StopReason
  requestedModels : List (String × String)
  evaluatorStatus : Option String
  findingCount : Option ℕ
deriving DecidableEq

structure Binding where
  runId : String
  repoId : String
  workspaceId : String
  baselineSha : String
  manifestDigest : String
deriving DecidableEq

/-- A record of the ledger. -/
structure Record where
  workspaceId : String
  repoId : String
  runId : String
  baselineSha : String
  baselineDigest : Option String
  ready : Bool
  markerVersion : ℕ
  referenceIdentity : Option String
  implementerIdentity : Option String
deriving DecidableEq

/-- The owner marker inside a holder. -/
structure Marker where
  markerVersion : ℕ
  workspaceId : String
  repoId : String
  runId : String
  baselineSha : String
deriving DecidableEq

inductive Shipment where
  | shipped
  | unshipped
  | notApplicable
deriving DecidableEq

structure FileEntry where
  name : List String
  size : ℕ
  sha256 : String
deriving DecidableEq

structure Manifest where
  runId : String
  terminalState : State
  stopReason : StopReason
  baselineSha : Option String
  manifestDigest : Option String
  workspaceId : Option String
  evaluatorStatus : Option String
  evaluatorFindingCount : Option ℕ
  shipment : Shipment
  shippedCommit : Option String
  ciRunId : Option String
  requestedModels : List (String × String)
  files : List FileEntry
  absent : List String
  fileCount : ℕ
deriving DecidableEq

/-- One archive directory. `manifest` is none where the document is missing or
cannot be read, and `complete` says whether the completion record is there. -/
structure Archive where
  files : List String → Option Bytes
  manifest : Option Manifest
  complete : Bool

def Archive.empty : Archive := ⟨fun _ => none, none, false⟩

def Archive.addFile (a : Archive) (name : List String) (data : Bytes) : Archive :=
  ⟨Function.update a.files name (some data), a.manifest, a.complete⟩

structure Disk where
  files : StateFile → Option Node
  /-- Other names in the state directory. -/
  strays : List String
  ledger : List (String × Node)
  holders : String → Option Holder
  task : Option Node
  archives : List (String × Archive)

namespace Disk

def record (d : Disk) (name : String) : Option Node :=
  (d.ledger.find? fun e => e.1 = name).map Prod.snd

def archive (d : Disk) (name : String) : Option Archive :=
  (d.archives.find? fun e => e.1 = name).map Prod.snd

def setFile (d : Disk) (f : StateFile) (n : Option Node) : Disk :=
  { d with files := Function.update d.files f n }

def setHolder (d : Disk) (w : String) (h : Option Holder) : Disk :=
  { d with holders := Function.update d.holders w h }

def dropRecord (d : Disk) (name : String) : Disk :=
  { d with ledger := d.ledger.filter fun e => e.1 ≠ name }

def setTask (d : Disk) (n : Option Node) : Disk := { d with task := n }

/-- An archive directory, created where it was not. -/
def setArchive (d : Disk) (name : String) (a : Archive) : Disk :=
  { d with archives := d.archives.filter (fun e => e.1 ≠ name) ++ [(name, a)] }

end Disk

/-- The answers of git about the repository, as long as the task manifest
stands where it stood. The state directory is ignored by git. -/
structure Git where
  head : Except Unit (List String)
  originMain : Except Unit (List String)
  staged : Except Unit (List String)
  stagedAt : String → Except Unit (List String)
  tracked : String → Except Unit (List String)
  changed : Except Unit (List String)
  untracked : Except Unit (List String)

/-- The rest of the host: digests, the readers of the documents with their
schemas, the change authority, the applications that have not finished, and
where things are, in the form the file system compares by. -/
structure Host where
  sha256 : Bytes → String
  readState : Bytes → Option StateDoc
  readBinding : Bytes → Option Binding
  readRecord : Bytes → Option Record
  readMarker : Bytes → Option Marker
  repoId : String
  /-- `derive_candidate_changes`: the paths that changed and are not deleted. -/
  derive : Bytes → Binding → Bytes → Holder → Option (List (List String))
  pendingApplications : List String
  git : Git
  repo : String
  stateDir : String
  applyRoot : String
  runnerTempRoot : String

/-- Where the caller says the task manifest is. `relative` is none outside the
repository. -/
structure TaskPath where
  name : String
  relative : Option String

/-- What the file system says about the archive root. -/
inductive RootKind where
  | missing
  | link
  | notDirectory
  | directory (resolved : String)

/-- The arguments of `finalize`, their own forms already checked. -/
structure Request where
  archiveRoot : RootKind
  expectedRunId : String
  taskPath : Option TaskPath
  shippedCommit : Option String
  ciRunId : Option String

inductive Refusal where
  | runNotTerminal (message : String)
  | stateBindingFailed (message : String)
  | pendingApplication (message : String)
  | archiveContainmentFailed (message : String)
  | archiveWriteFailed (message : String)
  | archiveVerificationFailed (message : String)
  | partialArchivePresent (message : String)
  | taskManifestMismatch (message : String)
  | shipmentMismatch (message : String)
  | candidateScopeRefused (message : String)
  | workspaceCleanupFailed (message : String)
  | stateCleanupFailed (message : String)
  | refused (message : String)
deriving DecidableEq

end RagPipeline.Finalization

/-! # Everything `finalize` asks before it writes -/

namespace RagPipeline.Finalization
open Runner Guard

def hexDigits : List Char :=
  ['0', '1', '2', '3', '4', '5', '6', '7', '8', '9', 'a', 'b', 'c', 'd', 'e', 'f']

def isHex (n : ℕ) (s : String) : Prop :=
  s.toList.length = n ∧ ∀ c ∈ s.toList, c ∈ hexDigits

instance (n : ℕ) (s : String) : Decidable (isHex n s) :=
  @instDecidableAnd _ _ _ (List.decidableBAll _ _)

def isRunId (s : String) : Prop :=
  s.toList.take 5 = "kosu-".toList ∧ isHex 24 (String.ofList (s.toList.drop 5))

instance (s : String) : Decidable (isRunId s) := inferInstanceAs (Decidable (_ ∧ _))

def stateWord : State → String
  | .preflight => "preflight"
  | .implementing => "implementing"
  | .acceptance => "acceptance"
  | .auditing => "auditing"
  | .repairing => "repairing"
  | .acceptance2 => "acceptance_2"
  | .finalAuditing => "final_auditing"
  | .approved => "approved"
  | .blocked => "blocked"
  | .failed => "failed"

/-- Closed facts only, so that a second call lands on the same name. What the
source checks here again, the gates have checked. -/
def archiveNameFor (runId : String) (terminal : State) (shippedCommit : Option String) : String :=
  match shippedCommit with
  | none => stateWord terminal ++ "-" ++ runId
  | some commit =>
    stateWord terminal ++ "-" ++ runId ++ "-" ++ String.ofList (commit.toList.take 12)

def readState (h : Host) (d : Disk) : Except Refusal (Option StateDoc) :=
  match d.files .state with
  | none => .ok none
  | some .other => .error (.stateBindingFailed "durum belgesi okunamadi")
  | some (.file b) => do
    let st ← demand (h.readState b) (.stateBindingFailed "durum belgesi okunamadi")
    return some st

def readBinding (h : Host) (d : Disk) : Except Refusal (Option Binding) :=
  match d.files .binding with
  | none => .ok none
  | some .other => .error (.stateBindingFailed "kosu baglamasi okunamadi")
  | some (.file b) => do
    let binding ← demand (h.readBinding b) (.stateBindingFailed "kosu baglamasi okunamadi")
    return some binding

def bindRun (h : Host) (r : Request) (st : StateDoc) (d : Disk) :
    Except Refusal (Option Binding) := do
  require (st.state ∈ terminalStates) (.runNotTerminal "kosu terminal durumda degil")
  require (isRunId st.runId) (.stateBindingFailed "kosu kimligi beklenen bicimde degil")
  require (st.runId = r.expectedRunId)
    (.stateBindingFailed "durum belgesi beklenen kosuyu adlamiyor")
  let binding ← readBinding h d
  require (∀ b ∈ binding, b.runId = st.runId)
    (.stateBindingFailed "kosu baglamasi baska bir kosuyu adliyor")
  require (∀ b ∈ binding, b.repoId = h.repoId)
    (.stateBindingFailed "kosu baglamasi baska bir depoyu adliyor")
  return binding

def recordName (w : String) : String := w ++ ".json"

/-- `_load_record`. -/
def loadRecord (h : Host) (w : String) (d : Disk) : Option Record :=
  match d.record (recordName w) with
  | some (.file b) => h.readRecord b
  | _ => none

def ownerName : String := "workspace-owner.json"

def markerCeiling : ℕ := 4096

/-- `inspect_holder`: the marker and the identities of both roots, and none
where the holder is not the one that was built. -/
def inspectHolder (h : Host) (holder : Holder) : Option (Marker × String × String) :=
  match holder.entry [ownerName], holder.entry ["reference"], holder.entry ["implementer"] with
  | some (.file b), some (.dir reference), some (.dir implementer) =>
    if b.length ≤ markerCeiling ∧ holder.entry ["reference", ".git"] = none ∧
        holder.entry ["implementer", ".git"] = none then
      (h.readMarker b).map fun marker => (marker, reference, implementer)
    else none
  | _, _, _ => none

/-- `flat_workspace.assert_binding`. -/
def assertBinding (h : Host) (w runId baselineSha : String) (holder : Holder) (d : Disk) : Prop :=
  match loadRecord h w d, inspectHolder h holder with
  | some record, some (marker, reference, implementer) =>
    record.repoId = h.repoId ∧ record.ready ∧ record.runId = runId ∧
      record.baselineSha = baselineSha ∧ record.baselineDigest.any (·.length = 64) ∧
      marker.workspaceId = record.workspaceId ∧ marker.repoId = record.repoId ∧
      marker.runId = record.runId ∧ marker.baselineSha = record.baselineSha ∧
      marker.markerVersion = record.markerVersion ∧
      record.referenceIdentity = some reference ∧ record.implementerIdentity = some implementer
  | _, _ => False

instance (h : Host) (w runId baselineSha : String) (holder : Holder) (d : Disk) :
    Decidable (assertBinding h w runId baselineSha holder d) := by
  unfold assertBinding
  split <;> infer_instance

/-- The workspace that the binding names, or a proven absence. What stands in
half is refused. -/
def bindHolder (h : Host) (runId : String) (b : Binding) (d : Disk) :
    Except Refusal (Option (String × Holder)) :=
  match d.record (recordName b.workspaceId), d.holders b.workspaceId with
  | some (.file _), some holder => do
    require ((holder.entry [ownerName]).any Entry.isFile)
      (.stateBindingFailed "calisma alani sahiplik isareti yok")
    require (assertBinding h b.workspaceId runId b.baselineSha holder d)
      (.stateBindingFailed "calisma alani baglamasi uyusmuyor")
    return some (b.workspaceId, holder)
  | some (.file _), none => .error (.stateBindingFailed "calisma alani kaydi var ama tutucu yok")
  | _, some _ => .error (.stateBindingFailed "calisma alani kaydi yok ama tutucu var")
  | _, none => .ok none

def bindWorkspace (h : Host) (runId : String) (d : Disk) :
    Option Binding → Except Refusal (Option (String × Holder))
  | none => do
    require (∀ e ∈ d.ledger, e.2 = .other)
      (.stateBindingFailed "baglama olmadan calisma alani kaydi var")
    return none
  | some b => bindHolder h runId b d

structure Task where
  bytes : Bytes
  name : String
  relative : String
  digest : String

def gitLines (answer : Except Unit (List String)) (e : Refusal) : Except Refusal (List String) :=
  answer.mapError fun _ => e

/-- The four gates that make the task manifest removable. -/
def bindTask (h : Host) (r : Request) (binding : Option Binding) (d : Disk) :
    Except Refusal (Option Task) :=
  match r.taskPath with
  | none => .ok none
  | some path =>
    match d.task with
    | none => .error (.taskManifestMismatch "gorev dosyasi yok")
    | some .other => .error (.taskManifestMismatch "gorev dosyasi siradan bir dosya degil")
    | some (.file b) => do
      let relative ← demand path.relative
        (.taskManifestMismatch "gorev dosyasi depo agacinin disinda")
      require (some (h.sha256 b) = binding.map Binding.manifestDigest)
        (.taskManifestMismatch "gorev dosyasi bu kosuya ait degil")
      let tracked ← gitLines (h.git.tracked relative)
        (.taskManifestMismatch "depo durumu olculemedi")
      require (tracked = []) (.taskManifestMismatch "gorev dosyasi git tarafindan izleniyor")
      let staged ← gitLines (h.git.stagedAt relative)
        (.taskManifestMismatch "depo durumu olculemedi")
      require (staged = []) (.taskManifestMismatch "gorev dosyasi indekse alinmis")
      return some ⟨b, path.name, relative, h.sha256 b⟩

/-- What the repository supports of the shipment claim. -/
def shipment (h : Host) (r : Request) (terminal : State) (task : Option Task) :
    Except Refusal Shipment :=
  match r.shippedCommit with
  | none => .ok (if terminal = .approved then .unshipped else .notApplicable)
  | some commit => do
    let unmeasured := Refusal.shipmentMismatch "depo durumu olculemedi"
    require (isHex 40 commit) (.shipmentMismatch "gonderilen commit beklenen bicimde degil")
    require (terminal = .approved)
      (.shipmentMismatch "gonderilen commit yalniz onaylanmis kosu icin")
    let head ← gitLines h.git.head unmeasured
    require (head.headD "" = commit) (.shipmentMismatch "HEAD gonderilen commit degil")
    let origin ← gitLines h.git.originMain unmeasured
    require (origin.headD "" = commit) (.shipmentMismatch "origin/main gonderilen commit degil")
    let staged ← gitLines h.git.staged unmeasured
    require (staged = []) (.shipmentMismatch "indekste degisiklik var")
    let changed ← gitLines h.git.changed unmeasured
    let untracked ← gitLines h.git.untracked unmeasured
    require (∀ name ∈ changed ++ untracked, some name = task.map Task.relative)
      (.shipmentMismatch "calisma agacinda gorev dosyasi disinda degisiklik var")
    return .shipped

/-- Same, inside or above. -/
def overlaps (left right : String) : Prop :=
  left = right ∨ (right ++ "/").toList <+: left.toList ∨ (left ++ "/").toList <+: right.toList

instance (left right : String) : Decidable (overlaps left right) :=
  inferInstanceAs (Decidable (_ ∨ _ ∨ _))

def holderFor (h : Host) (w : String) : String := h.runnerTempRoot ++ "/agent-loop-flat-" ++ w

def assertArchiveRoot (h : Host) (r : Request) (holder : Option String) :
    Except Refusal Unit :=
  match r.archiveRoot with
  | .missing => .error (.archiveContainmentFailed "arsiv koku yok")
  | .link => .error (.archiveContainmentFailed "arsiv koku yeniden ayrisma noktasi")
  | .notDirectory => .error (.archiveContainmentFailed "arsiv koku bir dizin degil")
  | .directory resolved =>
    require (∀ other ∈ [h.repo, h.stateDir, h.applyRoot, h.runnerTempRoot] ++
        (holder.map (holderFor h)).toList, ¬ overlaps resolved other)
      (.archiveContainmentFailed "arsiv koku kosu agaclariyla cakisiyor")

/-- Which files of the workspace are the candidate. -/
def candidatePaths (h : Host) (binding : Option Binding) (holder : Option (String × Holder))
    (task : Option Task) (d : Disk) : Except Refusal (List (List String)) :=
  match holder, binding with
  | some (w, holder), some b => do
    let task ← demand task
      (.candidateScopeRefused "aday kaniti gorev dosyasi olmadan turetilemez")
    let record := match d.record (recordName w) with
      | some (.file bytes) => bytes
      | _ => []
    demand (h.derive task.bytes b record holder)
      (.candidateScopeRefused "aday kaniti turetilemedi")
  | _, _ => .ok []

/-- What the gates have found. -/
structure Findings where
  binding : Option Binding
  holder : Option (String × Holder)
  task : Option Task
  shipment : Shipment
  candidates : List (List String)

/-- Everything between the state document and the first write. -/
def gates (h : Host) (r : Request) (st : StateDoc) (d : Disk) : Except Refusal Findings := do
  let binding ← bindRun h r st d
  require (h.pendingApplications = []) (.pendingApplication "bitmemis uygulama var")
  let holder ← bindWorkspace h st.runId d binding
  let task ← bindTask h r binding d
  let shipment ← shipment h r st.state task
  assertArchiveRoot h r (holder.map Prod.fst)
  let candidates ← candidatePaths h binding holder task d
  return ⟨binding, holder, task, shipment, candidates⟩

end RagPipeline.Finalization
