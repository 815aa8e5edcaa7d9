import RagPipeline.Datasets.Survival

/-! # The life of a dataset

The five transactions on evaluation datasets and the events they write. Each takes
the row of its dataset for update before it reads what it decides on, so that the
transactions on one dataset follow each other, and one that is refused is rolled back. -/

set_option autoImplicit false

namespace RagPipeline.Datasets
open Guard Transition
open scoped RagPipeline.Text

inductive EventType where
  | datasetCreated
  | versionCreated
  | versionCasesReplaced
  | versionPublished
  | datasetRetired
deriving DecidableEq

structure EventRow where
  dataset : Uuid
  version : Option Uuid
  actor : Uuid
  eventType : EventType
  baseRevision : Option ℤ
  resultingRevision : ℤ
  caseCount : Option ℕ
  contentSha256 : Option ByteArray

/-- The rows of one tenant, with the slugs of its datasets and their events, the last one first. -/
structure Archive where
  store : Store
  slugs : List Text
  events : List EventRow

/-- Who calls, and whether a dataset of its own may be inserted. -/
structure Caller extends Authority where
  actor : Uuid
  mayCreate : Bool

/-- `^[a-z0-9]+(?:-[a-z0-9]+)*$`: parts between hyphens, none of them empty. -/
def isSlug (slug : Text) : Bool :=
  (slug.splitOn '-').all fun part =>
    !part.isEmpty && part.all fun c => c.isDigit || ('a' ≤ c && c ≤ 'z')

/-! ## The transactions -/

def Store.versionsOf (s : Store) (d : Uuid) : List VersionRow := s.versions.filter fun r => r.dataset = d

def Store.hasDraft (s : Store) (d : Uuid) : Bool := (s.versionsOf d).any fun r => r.state = .draft

/-- `COALESCE(max(version_number), 0) + 1`. -/
def Store.nextVersionNumber (s : Store) (d : Uuid) : ℤ :=
  (((s.versionsOf d).map VersionRow.versionNumber).max?).getD 0 + 1

/-- The update of one dataset row. -/
def Store.updateDataset (s : Store) (d : Uuid) (f : DatasetRow → DatasetRow) : Store :=
  { s with datasets := s.datasets.map fun row => if row.id = d then f row else row }

def requireActor (c : Caller) : Except Refusal Unit := require (c.actor ≠ 0) (.access "eval aktoru gecersiz")

/-- `create_eval_dataset`, with the two ids that were drawn. -/
def createEvalDataset (c : Caller) (slug label : Text) (datasetId versionId : Uuid) (t : Archive) :
    Except Refusal Archive := do
  requireActor c
  require (1 ≤ slug.length ∧ slug.length ≤ 80 ∧ 1 ≤ label.length ∧ label.length ≤ 160)
    (.access "eval dataset tanimi gecersiz")
  require (c.epoch.isSome) (.access "eval tenant bulunamadi")
  require (isSlug slug = true ∧ c.mayCreate = true) .database
  require (slug ∉ t.slugs ∧ datasetId ∉ t.store.datasets.map DatasetRow.id ∧
    versionId ∉ t.store.versions.map VersionRow.id) (.conflict "eval dataset slug zaten var")
  return {
    store := {
      datasets := ⟨datasetId, true, 1, none⟩ :: t.store.datasets
      versions := ⟨versionId, datasetId, 1, .draft, 1, 0, none⟩ :: t.store.versions
      cases := t.store.cases }
    slugs := slug :: t.slugs
    events := ⟨datasetId, some versionId, c.actor, .versionCreated, none, 1, some 0, none⟩ ::
      ⟨datasetId, none, c.actor, .datasetCreated, none, 1, none, none⟩ :: t.events }

/-- `create_eval_draft`, with the id that was drawn. -/
def createEvalDraft (c : Caller) (datasetId : Uuid) (expectedRevision : ℤ) (versionId : Uuid) (t : Archive) :
    Except Refusal Archive := do
  requireActor c
  require (1 ≤ expectedRevision) (.conflict "eval dataset revision gecersiz")
  require (c.epoch.isSome) (.access "eval tenant bulunamadi")
  let dataset ← demand (t.store.dataset? c.toAuthority datasetId) (.access "eval dataset bulunamadi")
  require (dataset.active = true) (.state "eval dataset aktif degil")
  require (dataset.revision = expectedRevision) (.conflict "eval dataset degisti")
  require (t.store.hasDraft datasetId = false) (.state "eval draft zaten var")
  require (versionId ∉ t.store.versions.map VersionRow.id) .database
  let version : VersionRow := ⟨versionId, datasetId, t.store.nextVersionNumber datasetId, .draft, 1, 0, none⟩
  return {
    store := { t.store with versions := version :: t.store.versions }.updateDataset datasetId fun row =>
      { row with revision := row.revision + 1 }
    slugs := t.slugs
    events := ⟨datasetId, some versionId, c.actor, .versionCreated, some expectedRevision, dataset.revision + 1,
      some 0, none⟩ :: t.events }

/-- `retire_eval_dataset`. -/
def retireEvalDataset (c : Caller) (datasetId : Uuid) (expectedRevision expectedPolicyEpoch : ℤ) (t : Archive) :
    Except Refusal Archive := do
  requireActor c
  require (1 ≤ expectedRevision ∧ 1 ≤ expectedPolicyEpoch) (.conflict "eval emeklilik kapisi gecersiz")
  let epoch ← demand c.epoch (.access "eval tenant bulunamadi")
  require (epoch = expectedPolicyEpoch) (.conflict "eval politikasi degisti")
  let dataset ← demand (t.store.dataset? c.toAuthority datasetId) (.access "eval dataset bulunamadi")
  require (dataset.active = true) (.state "eval dataset aktif degil")
  require (dataset.revision = expectedRevision) (.conflict "eval dataset veya politika degisti")
  require (t.store.hasDraft datasetId = false) (.state "eval taslak acikken emekli edilemez")
  return {
    store := t.store.updateDataset datasetId fun row =>
      { row with
        active := false
        revision := row.revision + 1 }
    slugs := t.slugs
    events := ⟨datasetId, none, c.actor, .datasetRetired, some expectedRevision, dataset.revision + 1,
      none, none⟩ :: t.events }

section
variable [Digest]

/-- `replace_eval_cases` with its event. -/
def replaceCases (c : Caller) (datasetId versionId : Uuid) (expectedRevision : ℤ) (offered : List Offered)
    (t : Archive) : Except Refusal Archive := do
  requireActor c
  let (store, replaced) ← replaceEvalCases c.toAuthority datasetId versionId expectedRevision offered t.store
  return {
    store := store
    slugs := t.slugs
    events := ⟨datasetId, some versionId, c.actor, .versionCasesReplaced, some expectedRevision,
      replaced.revision, some replaced.caseCount, some replaced.contentSha256⟩ :: t.events }

/-- `publish_eval_version` with its event, which speaks of the dataset's revision. -/
def publishVersion (c : Caller) (datasetId versionId : Uuid) (expectedRevision expectedPolicyEpoch : ℤ)
    (expectedDraftSha256 : ByteArray) (t : Archive) : Except Refusal Archive := do
  requireActor c
  let (store, published) ← publishEvalVersion c.toAuthority datasetId versionId expectedRevision
    expectedPolicyEpoch expectedDraftSha256 t.store
  let dataset ← demand (t.store.dataset? c.toAuthority datasetId) (.access "eval version bulunamadi")
  return {
    store := store
    slugs := t.slugs
    events := ⟨datasetId, some versionId, c.actor, .versionPublished, some dataset.revision,
      published.datasetRevision, some published.caseCount, some published.contentSha256⟩ :: t.events }

/-! ## Runs -/

inductive Request where
  | createDataset (slug label : Text) (datasetId versionId : Uuid)
  | createDraft (datasetId : Uuid) (expectedRevision : ℤ) (versionId : Uuid)
  | replace (datasetId versionId : Uuid) (expectedRevision : ℤ) (offered : List Offered)
  | publish (datasetId versionId : Uuid) (expectedRevision expectedPolicyEpoch : ℤ)
      (expectedDraftSha256 : ByteArray)
  | retire (datasetId : Uuid) (expectedRevision expectedPolicyEpoch : ℤ)

def Request.run (c : Caller) (t : Archive) : Request → Except Refusal Archive
  | .createDataset slug label datasetId versionId => createEvalDataset c slug label datasetId versionId t
  | .createDraft datasetId expectedRevision versionId => createEvalDraft c datasetId expectedRevision versionId t
  | .replace datasetId versionId expectedRevision offered =>
    replaceCases c datasetId versionId expectedRevision offered t
  | .publish datasetId versionId expectedRevision expectedPolicyEpoch expectedDraftSha256 =>
    publishVersion c datasetId versionId expectedRevision expectedPolicyEpoch expectedDraftSha256 t
  | .retire datasetId expectedRevision expectedPolicyEpoch =>
    retireEvalDataset c datasetId expectedRevision expectedPolicyEpoch t

/-- What is committed: the result, or what was there. -/
def Request.commit (c : Caller) (q : Request) (t : Archive) : Archive :=
  match q.run c t with
  | .ok t' => t'
  | .error _ => t

/-- Any calls by anyone, from a tenant without datasets. -/
def lifecycle : System Archive (Caller × Request) where
  initial t := t = ⟨⟨[], [], []⟩, [], []⟩
  step t call t' := t' = call.2.commit call.1 t

end

end RagPipeline.Datasets
