import RagPipeline.Index.Served
import RagPipeline.Lib.Process
import RagPipeline.Lib.Text

/-! # The run of an attempt

`ingest_attempt` and the functions that call it under an attempt. Every
statement they send is a transaction of its own; what the clock says, what
others commit in between and what is raised on the way is not theirs to decide. -/

set_option autoImplicit false

namespace RagPipeline.Index
open Guard Table Transition Processes Text

/-- Something is left after `strip`. -/
def ParsedChunk.usable (c : ParsedChunk) : Bool := c.text.toList.any fun ch => !isSpace ch

/-- What a run that does not raise reports. -/
inductive Verdict where
  | done
  | partially (note : String)
deriving DecidableEq, Repr

abbrev Ingest (α : Type) : Type := ExceptT Refusal (Process World Time) α

structure Staging where
  batch : List (PreparedRow × Vectors)
  copyPairs : List PreparedRow
  manifest : List String

/-- Where something may be raised before the next write. `turn` is a turn of
the loop, the points after it are statements of that turn. -/
inductive Point where
  | path
  | connect
  | ready
  | superseded
  | allocate
  | fingerprint
  | contentKeys
  | lease
  | turn (index : ℕ)
  | upsert (index : ℕ)
  | renew (index : ℕ)
  | rest
  | copy
  | promote
  | count
deriving DecidableEq, Repr

/-- What the run calls and what happens to it: the embedding, after its
retries, the names of the exceptions it notes, and what each point raises. -/
structure Services where
  embed : String → Except Refusal Vectors
  typeName : Refusal → String
  fingerprint : String
  raises : Point → Option Refusal

/-- The private copy a run parses: its digest before and after the parse, the
note of the parse failures where there are any, and the chunks. -/
structure Snapshot where
  digest : Except Refusal String
  failures : Except Refusal (Option String)
  digestAfter : Except Refusal String
  chunks : Except Refusal (List ParsedChunk)

/-- The early phase of `ingest_attempt`. -/
def Snapshot.parse (snapshot : Snapshot) (a : IngestAttempt) :
    Except Refusal (List ParsedChunk × Option String) := do
  let actual ← snapshot.digest
  require (actual = a.candidateSha) (.runtimeError
    "anlik goruntu bagli adayin baytlari degil; indeks el degmedi")
  let failures ← snapshot.failures
  let again ← snapshot.digestAfter
  require (again = actual) (.runtimeError
    "anlik goruntu ingest sirasinda degisti -- mevcut indeks korundu")
  let chunks ← snapshot.chunks
  return (chunks, failures)

section
variable [Deployment]

def Services.meets (services : Services) (p : Point) : Ingest Unit :=
  match services.raises p with
  | none => pure ()
  | some e => throw e

def perform (act : Time → Action) : Ingest Unit :=
  transact fun now w => do
    let w ← (act now).perform w
    return (w, ())

def heartbeat (a : IngestAttempt) : Ingest Unit := perform fun now => .heartbeat a now

def allocate (a : IngestAttempt) : Ingest ℕ :=
  transact fun _ w => do
    let r ← allocateGeneration a w.store
    let w ← (Action.allocate a).perform w
    return (w, r.2)

def readContentKeys (fingerprint : String) : Ingest (List String) :=
  transact fun _ w => .ok (w, existingContentKeys fingerprint w.store)

/-- `_refuse_if_superseded`. -/
def refuseIfSuperseded (a : IngestAttempt) : Ingest Unit :=
  transact fun _ w => do
    let d ← demand w.store.document (.attemptLeaseLost
      "belge kaydi yok; bu deneme artik hicbir sey yazamaz")
    require (d.candidateId = some a.candidateId) (.attemptFenced
      "aday parse sirasinda degisti; bu deneme cevrildi ve hicbir sey yazmadi")
    return (w, ())

/-- `_close_attempt`: a refusal that only says the lease is gone is absorbed. -/
def closeAttempt (a : IngestAttempt) (status : AttemptOutcome) (note : Option String) :
    Ingest Unit :=
  tryCatch (perform fun now => .recordOutcome a status note now) fun
    | .attemptFenced _ => pure ()
    | .attemptLeaseLost _ => pure ()
    | e => throw e

/-- `except BaseException` around a phase without a connection: the attempt is
closed by `abandon_attempt`, and what was raised goes on. -/
def guarded {α : Type} (services : Services) (a : IngestAttempt) (early : Except Refusal α) :
    Ingest α :=
  match early with
  | .ok x => pure x
  | .error e => do
    closeAttempt a .error (some (services.typeName e))
    throw e

def prepare (fingerprint : String) (generation : ℕ) (c : ParsedChunk) (index : ℕ) : PreparedRow where
  id := chunkId c index generation
  text := c.text
  sourceTag := c.sourceTag
  generation := generation
  contentKey := contentKey c index
  embeddingFingerprint := fingerprint

/-- One turn of the loop. A batch is written as soon as it has 32 rows. -/
def stageChunk (services : Services) (a : IngestAttempt) (generation : ℕ) (already : List String)
    (c : ParsedChunk) (index : ℕ) (st : Staging) : Ingest Staging := do
  services.meets (.turn index)
  if c.usable then
    let row := prepare services.fingerprint generation c index
    let manifest := st.manifest ++ [row.id]
    if row.contentKey ∈ already then
      return { st with manifest := manifest, copyPairs := st.copyPairs ++ [row] }
    else
      let vectors ← liftExcept (services.embed c.text)
      let batch := st.batch ++ [(row, vectors)]
      if 32 ≤ batch.length then
        services.meets (.upsert index)
        perform fun _ => .upsert batch a
        services.meets (.renew index)
        heartbeat a
        return { st with manifest := manifest, batch := [] }
      else return { st with manifest := manifest, batch := batch }
  else return st

def stageChunks (services : Services) (a : IngestAttempt) (generation : ℕ)
    (already : List String) : List (ParsedChunk × ℕ) → Staging → Ingest Staging
  | [], st => return st
  | (c, index) :: rest, st => do
    let st ← stageChunk services a generation already c index st
    stageChunks services a generation already rest st

def writeRest (services : Services) (a : IngestAttempt) (batch : List (PreparedRow × Vectors)) :
    Ingest Unit :=
  if batch.isEmpty then pure ()
  else do
    services.meets .rest
    perform fun _ => .upsert batch a

/-- Everything staged, the copies last. Returns the manifest. -/
def stageGeneration (services : Services) (a : IngestAttempt) (generation : ℕ)
    (already : List String) (chunks : List ParsedChunk) : Ingest (List String) := do
  let st ← stageChunks services a generation already chunks.zipIdx ⟨[], [], []⟩
  writeRest services a st.batch
  services.meets .copy
  perform fun _ => .copy st.copyPairs a
  return st.manifest

/-- The handler around the loop catches what is an `Exception`. -/
def stageOrClose (services : Services) (a : IngestAttempt) (generation : ℕ)
    (already : List String) (chunks : List ParsedChunk) : Ingest (List String) :=
  tryCatch (stageGeneration services a generation already chunks) fun e => do
    if e.isException then
      closeAttempt a .error (some (services.typeName e))
    throw e

/-- The verdict, and the promotion of a complete parse. -/
def finishRun (services : Services) (a : IngestAttempt) (generation : ℕ) (manifest : List String)
    (failures : Option String) : Ingest Verdict :=
  match failures with
  | some note => do
    closeAttempt a .partially (some note)
    services.meets .count
    return .partially note
  | none => do
    services.meets .promote
    perform fun now => .promote generation a.observedActive manifest a.candidateSha
      a.candidateId a.attemptId now
    services.meets .count
    return .done

/-- What follows once something usable was parsed, or a failure was. -/
def indexChunks (services : Services) (chunks : List ParsedChunk) (failures : Option String)
    (a : IngestAttempt) : Ingest Verdict := do
  services.meets .allocate
  let generation ← allocate a
  services.meets .fingerprint
  services.meets .contentKeys
  let already ← readContentKeys services.fingerprint
  services.meets .lease
  heartbeat a
  let manifest ← stageOrClose services a generation already chunks
  finishRun services a generation manifest failures

/-- The part of a run that has a connection. -/
def indexParsed (services : Services) (chunks : List ParsedChunk) (failures : Option String)
    (a : IngestAttempt) : Ingest Verdict := do
  services.meets .connect
  services.meets .ready
  services.meets .superseded
  refuseIfSuperseded a
  if chunks.all (fun c => !c.usable) ∧ failures = none then do
    closeAttempt a .error (some "parse kullanilabilir icerik uretmedi")
    throw (.runtimeError "parse kullanilabilir icerik uretmedi -- mevcut indeks korundu")
  else indexChunks services chunks failures a

def ingestAttempt (services : Services) (snapshot : Snapshot) (a : IngestAttempt) :
    Ingest Verdict := do
  let parsed ← guarded services a (snapshot.parse a)
  indexParsed services parsed.1 parsed.2 a

/-- The bytes of a source, as a run knows them. -/
structure SourceBody where
  isBytes : Bool
  digest : String
deriving DecidableEq, Repr

/-- What storage and the file system give a run, or raise. -/
structure Sources where
  canonicalUuid : String → Option String
  uuidText : Uuid → String
  readVersionSource : String → String → String → String → Except Refusal SourceBody
  canonicalSnapshotName : String → Except Refusal String
  snapshotBytes : SourceBody → String → Except Refusal Snapshot
  snapshotOf : String → Except Refusal Snapshot

/-- The early phase of `ingest_verified_source`. -/
def verifiedSnapshot (sources : Sources) (body : SourceBody) (canonicalFilename sha : String)
    (a : IngestAttempt) : Except Refusal Snapshot := do
  require (body.isBytes = true) (.runtimeError "dogrulanmis kaynak bayt olmali")
  require (isDigest sha) (.runtimeError "dogrulanmis kaynak ozeti gecersiz")
  require (body.digest = sha) (.runtimeError "dogrulanmis kaynak ozetiyle eslesmiyor")
  require (a.candidateSha = sha) (.runtimeError "surum kaynagi denemenin adayina bagli degil")
  let name ← sources.canonicalSnapshotName canonicalFilename
  sources.snapshotBytes body name

def ingestVerifiedSource (services : Services) (sources : Sources) (body : SourceBody)
    (canonicalFilename sha : String) (a : IngestAttempt) : Ingest Verdict := do
  let snapshot ← guarded services a (verifiedSnapshot sources body canonicalFilename sha a)
  ingestAttempt services snapshot a

/-- The early phase of `ingest_version_source`. -/
def versionSource (sources : Sources) (tenantId documentId versionId sha : String)
    (a : IngestAttempt) : Except Refusal SourceBody := do
  let boundDocument ← demand (sources.canonicalUuid documentId)
    (.runtimeError "surum belge kimligi gecersiz")
  require (documentId = boundDocument) (.runtimeError "surum belge kimligi kanonik degil")
  require (Deployment.documentId = boundDocument)
    (.runtimeError "surum kaynagi baska bir belge denemesine ait")
  let boundVersion ← demand (sources.canonicalUuid versionId)
    (.runtimeError "surum kimligi gecersiz")
  require (versionId = boundVersion) (.runtimeError "surum kimligi kanonik degil")
  require (sources.uuidText a.candidateId = boundVersion)
    (.runtimeError "surum kaynagi baska bir aday denemesine ait")
  sources.readVersionSource tenantId documentId versionId sha

def ingestVersionSource (services : Services) (sources : Sources)
    (tenantId documentId versionId canonicalFilename sha : String) (a : IngestAttempt) :
    Ingest Verdict := do
  let body ← guarded services a (versionSource sources tenantId documentId versionId sha a)
  ingestVerifiedSource services sources body canonicalFilename sha a

/-- `main`, called with an attempt. The name is taken from the path before
anything is guarded. -/
def ingestMain (services : Services) (sources : Sources) (path : String) (a : IngestAttempt) :
    Ingest Verdict := do
  services.meets .path
  let snapshot ← guarded services a (sources.snapshotOf path)
  ingestAttempt services snapshot a

end

end RagPipeline.Index
