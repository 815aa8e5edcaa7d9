import RagPipeline.Lib.Transition
import Mathlib.Data.List.AList
import Mathlib.Data.List.Sort

/-! # The ledger of flat workspaces

A workspace is a holder directory with two copies of a baseline and a marker,
and a record in the ledger that says whose it is. `create` writes the record
before the directory, `remove` unlinks it after the directory is gone. A call
takes one file-system step at a time, any of which may fail, and may die before
any of them. -/

set_option autoImplicit false

namespace RagPipeline.Workspace

abbrev Bytes := List UInt8

/-- `Limits`. -/
def maxFileBytes : ℕ := 64 <<< 20

def maxTotalBytes : ℕ := 1024 <<< 20

def markerVersion : ℕ := 1

/-- An entry of the baseline's tree, with the bytes git answered for it. -/
structure Blob where
  path : String
  exec : Bool
  oid : String
  data : Bytes

/-- A line of the manifest: path, mode, object id and length. -/
def Blob.line (b : Blob) : String × Bool × String × ℕ := (b.path, b.exec, b.oid, b.data.length)

inductive Status where
  | registered
  | materializing
  | ready
  | failed
deriving DecidableEq, Repr

/-- `_ALLOWED_TRANSITIONS`. -/
def Status.allowed : Status → List Status
  | .registered => [.materializing]
  | .materializing => [.ready, .failed]
  | .ready => []
  | .failed => []

/-- What a record gains with `READY`. -/
structure Evidence where
  baselineDigest : String
  evidenceDigest : String
  referenceIdentity : String
  implementerIdentity : String
  markerVersion : ℕ

structure Marker (I : Type) where
  workspaceId : I
  repoId : String
  runId : String
  baselineSha : String
  markerVersion : ℕ

structure Record (I : Type) where
  workspaceId : I
  repoId : String
  runId : String
  baselineSha : String
  createdAt : String
  status : Status
  evidence : Option Evidence
  /-- The schema's condition on a `READY` record. -/
  proved : status = .ready → evidence.isSome

/-- The two roots of a holder. -/
inductive Side where
  | reference
  | implementer
deriving DecidableEq, Repr

inductive Entry (I : Type) where
  | root (side : Side) (identity : String)
  | file (side : Side) (path : String) (exec : Bool) (data : Bytes)
  | marker (m : Marker I)

structure Disk (I : Type) where
  records : AList fun _ : I => Record I
  holders : AList fun _ : I => List (Entry I)

/-- Where the ledger and the holders are, how a repository is identified and
how the two digests are formed. A ledger or a repository is never itself the
directory of a holder. -/
structure Place (I P : Type) where
  tempRoot : P
  stateDir : P
  holderFor : I → P
  repoPath : P → P
  repoIdentity : P → String
  baselineDigest : List (String × Bool × String × ℕ) → String
  digestOf : List (String × Bool × Bytes) → String
  apart : ∀ id repo, holderFor id ∉ [tempRoot, stateDir, repoPath repo]

structure FlatWorkspace (I : Type) where
  workspaceId : I
  baselineSha : String
  baselineDigest : String

structure Orphan (I : Type) where
  workspaceId : I
  runId : String
  status : Status
  holderExists : Bool
deriving DecidableEq, Repr

/-- How a call ends. A refusal says whether the cleanup note was added. -/
inductive Ending (I : Type) where
  | refused (message : String) (noted : Bool)
  | died
  | workspace (w : FlatWorkspace I)
  | removed
  | orphans (l : List (Orphan I))

/-- What `_materialise` has still to write. -/
inductive Work where
  | mkdir (side : Side)
  | blob (side : Side) (b : Blob)

/-- `create` and `remove`, once their workspace is known. -/
inductive Stage where
  /-- `_set_status(MATERIALIZING)`. -/
  | advancing
  /-- `holder.mkdir()`. -/
  | making
  | materialising (rest : List Work) (toplam : ℕ)
  | comparing
  | marking (e : Evidence)
  | inspecting (e : Evidence)
  /-- `_set_status(READY)`. -/
  | finishing (e : Evidence)
  /-- `_after_failure`, from its removal of the tree on. -/
  | clearing (message : String)
  | judging (message : String) (cleaned : Bool)
  | dropping (message : String)
  | failing (message : String)
  /-- `remove`, past `_assert_removable`. -/
  | deleting
  | unlinking

inductive Phase (I : Type) where
  | reading
  | registering
  | under (id : I) (stage : Stage)
  | binding (workspaceId : Option I)
  | asserting (workspaceId : Option I)
  | listing (runId : Option String)
  | ended (e : Ending I)

structure Call (I P : Type) where
  repo : P
  runId : String
  baselineSha : String
  girisler : List Blob
  phase : Phase I

/-- What the world decides for a step: whether its system calls and git's
answers are good, the id that is minted and the time, the identity of a new
directory, and the entry that goes next from a tree. -/
structure Choice (I : Type) where
  ok : Bool
  id : I
  now : String
  identity : String
  entry : ℕ

section
variable {I P : Type} [DecidableEq I]

namespace Disk

def load (d : Disk I) (id : I) : Except String (Record I) :=
  match d.records.lookup id with
  | none => .error "calisma alani kaydi yok"
  | some record => .ok record

def writeRecord (d : Disk I) (id : I) (r : Record I) : Disk I :=
  { d with records := d.records.insert id r }

def dropRecord (d : Disk I) (id : I) : Disk I := { d with records := d.records.erase id }

def setHolder (d : Disk I) (id : I) (entries : List (Entry I)) : Disk I :=
  { d with holders := d.holders.insert id entries }

def dropHolder (d : Disk I) (id : I) : Disk I := { d with holders := d.holders.erase id }

/-- The entries of a holder, or none of them where there is no directory. -/
def entries (d : Disk I) (id : I) : List (Entry I) := (d.holders.lookup id).getD []

def addEntry (d : Disk I) (id : I) (e : Entry I) : Disk I := d.setHolder id (d.entries id ++ [e])

/-- `_set_status`: the record to be written, or a refusal. -/
def transition (d : Disk I) (id : I) (status : Status) (changes : Option Evidence)
    (h : status = .ready → changes.isSome) : Except String (Record I) := do
  let record ← d.load id
  if status ∈ record.status.allowed then
    .ok { record with
      status := status
      evidence := changes <|> record.evidence
      proved := fun hs => by simp [h hs] }
  else .error "izinsiz durum gecisi"

end Disk

/-- A step of `rmtree`: takes one entry out of a tree, or the directory itself when it
is empty. -/
def rmtreeStep (d : Disk I) (id : I) (entry : ℕ) : Disk I :=
  match d.entries id with
  | [] => d.dropHolder id
  | e :: rest => d.setHolder id ((e :: rest).eraseIdx (entry % (e :: rest).length))

def rootOf (side : Side) : List (Entry I) → Option String
  | [] => none
  | .root s identity :: rest => if s = side then some identity else rootOf side rest
  | _ :: rest => rootOf side rest

def filesOf (side : Side) : List (Entry I) → List (String × Bool × Bytes)
  | [] => []
  | .file s path exec data :: rest =>
    if s = side then (path, exec, data) :: filesOf side rest else filesOf side rest
  | _ :: rest => filesOf side rest

def markerOf : List (Entry I) → Option (Marker I)
  | [] => none
  | .marker m :: _ => some m
  | _ :: rest => markerOf rest

/-- A name `_refuse_git` does not let through. -/
def underGit (path : String) : Bool := path == ".git" || path.startsWith ".git/"

def openRootChild (side : Side) (entries : List (Entry I)) : Except String String :=
  match rootOf side entries with
  | none => .error "calisma alani koku yok"
  | some identity =>
    if (filesOf side entries).any fun f => underGit f.1 then
      .error "calisma alaninda git denetim duzlemi var"
    else .ok identity

def inspectHolder (d : Disk I) (id : I) : Except String (Marker I × String × String) := do
  let some entries := d.holders.lookup id | .error "calisma alani dizini acilamadi"
  let some marker := markerOf entries | .error "calisma alani sahiplik isareti yok"
  let reference ← openRootChild .reference entries
  let implementer ← openRootChild .implementer entries
  .ok (marker, reference, implementer)

/-- `compare_roots`. -/
def compareRoots (place : Place I P) (d : Disk I) (id : I) :
    Except String (String × String × String) := do
  let entries := d.entries id
  let some reference := rootOf .reference entries | .error "calisma alani okunamadi"
  let some implementer := rootOf .implementer entries | .error "calisma alani okunamadi"
  if filesOf .reference entries ≠ filesOf .implementer entries then
    .error "iki agac ayni icerikle baslamiyor"
  if reference = implementer then .error "iki kok ayni nesne"
  .ok (place.digestOf (filesOf .reference entries), reference, implementer)

/-- `marker_payload`. -/
def markerPayload (r : Record I) : Marker I :=
  ⟨r.workspaceId, r.repoId, r.runId, r.baselineSha, markerVersion⟩

/-- `_authorised_record`. An id the pattern does not match names nothing. -/
def authorisedRecord (place : Place I P) (repo : P) (d : Disk I) (workspaceId : Option I) :
    Except String (I × Record I) := do
  let some id := workspaceId | .error "gecersiz calisma alani kimligi"
  let record ← d.load id
  if record.repoId ≠ place.repoIdentity repo then .error "kayit bu depoya ait degil"
  .ok (id, record)

def assertBinding (place : Place I P) (c : Call I P) (d : Disk I) (workspaceId : Option I) :
    Except String (FlatWorkspace I) := do
  let (id, record) ← authorisedRecord place c.repo d workspaceId
  if record.status ≠ .ready then .error "calisma alani hazir degil"
  if record.runId ≠ c.runId then .error "kayit bu kosuya ait degil"
  if record.baselineSha ≠ c.baselineSha then .error "kayit bu taban surumune ait degil"
  let some evidence := record.evidence | .error "taban ozeti kayitta yok"
  let (marker, reference, implementer) ← inspectHolder d id
  if (marker.workspaceId, marker.repoId, marker.runId, marker.baselineSha) ≠
      (record.workspaceId, record.repoId, record.runId, record.baselineSha) then
    .error "sahiplik isareti kayitla uyusmuyor"
  if marker.markerVersion ≠ evidence.markerVersion then
    .error "sahiplik isareti kayitla uyusmuyor"
  if reference ≠ evidence.referenceIdentity ∨ implementer ≠ evidence.implementerIdentity then
    .error "calisma alani kokleri degistirilmis"
  .ok ⟨id, c.baselineSha, evidence.baselineDigest⟩

def assertRemovable [DecidableEq P] (place : Place I P) (repo : P) (d : Disk I)
    (workspaceId : Option I) : Except String I := do
  let (id, _) ← authorisedRecord place repo d workspaceId
  if place.holderFor id ∈ [place.tempRoot, place.stateDir, place.repoPath repo] then
    .error "hedef genis bir dizin"
  if id ∉ d.holders then .error "calisma alani dizini yok"
  .ok id

/-- The records of a repository whose holder is missing or unfinished. -/
def findOrphans [LinearOrder I] (place : Place I P) (repo : P) (d : Disk I)
    (runId : Option String) : List (Orphan I) :=
  (d.records.keys.insertionSort (· ≤ ·)).filterMap fun id =>
    (d.records.lookup id).bind fun record =>
      if record.repoId ≠ place.repoIdentity repo then none
      else if runId.any (record.runId != ·) then none
      else
        let holder := d.entries id
        let eksik := id ∉ d.holders ∨ rootOf .reference holder = none ∨
          rootOf .implementer holder = none
        if eksik ∨ record.status ≠ .ready then
          some ⟨id, record.runId, record.status, decide (id ∈ d.holders)⟩
        else none

end

end RagPipeline.Workspace

/-! # The calls on the ledger, step by step

`advance` is one step of one call. A step whose system call fails leaves the
disk as it was, and sends a `create` that has written its record to
`_after_failure`. -/

namespace RagPipeline.Workspace

section
variable {I P : Type} [LinearOrder I] [DecidableEq P] (place : Place I P)

def Call.at (c : Call I P) (id : I) (stage : Stage) : Call I P :=
  { c with phase := .under id stage }

def Call.finish (c : Call I P) (e : Ending I) : Call I P := { c with phase := .ended e }

/-- A failure of `create` before the holder is its own goes to the question
whether anything is there; a later one removes the tree first. -/
def Call.stranger (c : Call I P) (id : I) (message : String) : Call I P :=
  c.at id (.judging message true)

def Call.owner (c : Call I P) (id : I) (message : String) : Call I P :=
  c.at id (.clearing message)

/-- The record `create` writes ahead. -/
def Call.registered (c : Call I P) (id : I) (now : String) : Record I where
  workspaceId := id
  repoId := place.repoIdentity c.repo
  runId := c.runId
  baselineSha := c.baselineSha
  createdAt := now
  status := .registered
  evidence := none
  proved := fun h => by cases h

/-- One source, two destinations. -/
def materialise (girisler : List Blob) : List Work :=
  .mkdir .reference :: .mkdir .implementer ::
    girisler.flatMap fun b => [.blob .reference b, .blob .implementer b]

/-- A status that `_set_status` may write, and the step on from there. -/
def withStatus (d : Disk I) (id : I) (ok : Bool)
    (answer : Except String (Record I)) (next : Call I P) (failed : String → Call I P) :
    Disk I × Call I P :=
  match answer with
  | .error message => (d, failed message)
  | .ok record =>
    if ok then (d.writeRecord id record, next)
    else (d, failed "calisma alani kaydi yazilamadi")

def advanceStage (choice : Choice I) (d : Disk I) (c : Call I P) (id : I) :
    Stage → Disk I × Call I P
  | .advancing =>
    withStatus d id choice.ok (d.transition id .materializing none (fun h => by cases h))
      (c.at id .making) (c.stranger id)
  | .making =>
    if id ∈ d.holders then (d, c.stranger id "calisma alani dizini zaten var")
    else if choice.ok then
      (d.setHolder id [], c.at id (.materialising (materialise c.girisler) 0))
    else (d, c.stranger id "calisma alani dizini yaratilamadi")
  | .materialising [] _ => (d, c.at id .comparing)
  | .materialising (.mkdir side :: rest) toplam =>
    if choice.ok then
      (d.addEntry id (.root side choice.identity), c.at id (.materialising rest toplam))
    else (d, c.owner id "isletim sistemi hatasi")
  | .materialising (.blob .reference b :: rest) toplam =>
    if ¬ choice.ok then (d, c.owner id "nesne baytlari okunamadi")
    else if maxFileBytes < b.data.length then
      (d, c.owner id "dosya sozlesme tavanini asiyor")
    else if maxTotalBytes < toplam + b.data.length then
      (d, c.owner id "toplam boyut sozlesme tavanini asiyor")
    else (d.addEntry id (.file .reference b.path b.exec b.data),
      c.at id (.materialising rest (toplam + b.data.length)))
  | .materialising (.blob .implementer b :: rest) toplam =>
    if choice.ok then
      (d.addEntry id (.file .implementer b.path b.exec b.data),
        c.at id (.materialising rest toplam))
    else (d, c.owner id "isletim sistemi hatasi")
  | .comparing =>
    match compareRoots place d id with
    | .error message => (d, c.owner id message)
    | .ok (kanit, reference, implementer) =>
      if choice.ok then
        (d, c.at id (.marking ⟨place.baselineDigest (c.girisler.map Blob.line), kanit,
          reference, implementer, markerVersion⟩))
      else (d, c.owner id "calisma alani okunamadi")
  | .marking e =>
    match d.records.lookup id, choice.ok with
    | some record, true => (d.addEntry id (.marker (markerPayload record)), c.at id (.inspecting e))
    | _, _ => (d, c.owner id "sahiplik isareti yazilamadi")
  | .inspecting e =>
    match inspectHolder d id with
    | .error message => (d, c.owner id message)
    | .ok _ =>
      if choice.ok then (d, c.at id (.finishing e))
      else (d, c.owner id "calisma alani dizini acilamadi")
  | .finishing e =>
    -- outside the try: a failure here leaves holder and record as they are
    withStatus d id choice.ok (d.transition id .ready (some e) (fun _ => rfl))
      (c.finish (.workspace ⟨id, c.baselineSha, e.baselineDigest⟩))
      fun message => c.finish (.refused message false)
  | .clearing message =>
    if choice.ok then
      match d.entries id with
      | [] => (rmtreeStep d id choice.entry, c.at id (.judging message true))
      | _ :: _ => (rmtreeStep d id choice.entry, c.at id (.clearing message))
    else (d, c.at id (.judging message false))
  | .judging message cleaned =>
    if cleaned ∧ id ∉ d.holders then (d, c.at id (.dropping message))
    else (d, c.at id (.failing message))
  | .dropping message =>
    if choice.ok then (d.dropRecord id, c.finish (.refused message false))
    else (d, c.finish (.refused message true))
  | .failing message =>
    withStatus d id choice.ok (d.transition id .failed none (fun h => by cases h))
      (c.finish (.refused message true)) fun _ => c.finish (.refused message true)
  | .deleting =>
    if choice.ok then
      match d.entries id with
      | [] => (rmtreeStep d id choice.entry, c.at id .unlinking)
      | _ :: _ => (rmtreeStep d id choice.entry, c.at id .deleting)
    else (d, c.finish (.refused "calisma alani silinemedi" false))
  | .unlinking =>
    if choice.ok then (d.dropRecord id, c.finish .removed)
    else (d, c.finish (.refused "calisma alani kaydi silinemedi" false))

def advance (choice : Choice I) (d : Disk I) (c : Call I P) : Option (Disk I × Call I P) :=
  match c.phase with
  | .ended _ => none
  | .reading =>
    some (d, if ¬ choice.ok then c.finish (.refused "taban surumu okunamadi" false)
      else if c.girisler = [] then c.finish (.refused "taban surumu bos" false)
      else { c with phase := .registering })
  | .registering =>
    some (if choice.ok then
        (d.writeRecord choice.id (c.registered place choice.id choice.now),
          c.at choice.id .advancing)
      else (d, c.finish (.refused "calisma alani kaydi yazilamadi" false)))
  | .under id stage => some (advanceStage place choice d c id stage)
  | .binding workspaceId =>
    some (d, c.finish (match assertBinding place c d workspaceId with
      | .error message => .refused message false
      | .ok w => .workspace w))
  | .asserting workspaceId =>
    some (d, match assertRemovable place c.repo d workspaceId with
      | .error message => c.finish (.refused message false)
      | .ok id => c.at id .deleting)
  | .listing runId => some (d, c.finish (.orphans (findOrphans place c.repo d runId)))

/-- The four entrances. What the commit holds is the repository's answer. -/
inductive Request (I P : Type) where
  | create (repo : P) (runId baselineSha : String) (girisler : List Blob)
  | assertBinding (repo : P) (runId : String) (workspaceId : Option I) (baselineSha : String)
  | remove (repo : P) (workspaceId : Option I)
  | findOrphans (repo : P) (runId : Option String)

omit [LinearOrder I] [DecidableEq P] in
def Request.call : Request I P → Call I P
  | .create repo runId baselineSha girisler => ⟨repo, runId, baselineSha, girisler, .reading⟩
  | .assertBinding repo runId workspaceId baselineSha =>
    ⟨repo, runId, baselineSha, [], .binding workspaceId⟩
  | .remove repo workspaceId => ⟨repo, "", "", [], .asserting workspaceId⟩
  | .findOrphans repo runId => ⟨repo, "", "", [], .listing runId⟩

/-- The disk and the latest call. -/
structure State (I P : Type) where
  disk : Disk I
  call : Option (Call I P)

inductive Event (I P : Type) where
  | start (request : Request I P)
  | run (choice : Choice I)
  | die

/-- No call is under way. -/
def State.AtRest (s : State I P) : Prop := ∀ c, s.call = some c → ∃ e, c.phase = .ended e

def State.atRest (s : State I P) : Bool :=
  s.call.all fun c =>
    match c.phase with
    | .ended _ => true
    | _ => false

def exec (s : State I P) : Event I P → Option (State I P)
  | .start request => if s.atRest then some { s with call := some request.call } else none
  | .run choice =>
    s.call.bind fun c => (advance place choice s.disk c).map fun (d, c') => ⟨d, some c'⟩
  | .die =>
    if s.atRest then none
    else some { s with call := s.call.map fun c => c.finish .died }

open Transition

/-- Calls one after another, on a ledger that starts empty. -/
def system : System (State I P) (Event I P) where
  initial s := s.disk = ⟨∅, ∅⟩ ∧ s.call = none
  step s e s' := exec place s e = some s'

end

end RagPipeline.Workspace
