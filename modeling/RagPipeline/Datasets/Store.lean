import RagPipeline.Datasets.Encoding
import RagPipeline.Lib.Transition

/-! # Drafts and published versions

`replace_eval_cases` and `publish_eval_version` over the rows they read and write:
what is digested when a draft is replaced is what is digested when it is published. -/

set_option autoImplicit false

namespace RagPipeline.Datasets
open Guard Transition
open RagPipeline.Answer (Json)

/-- Digests are compared byte by byte. -/
local instance bytesEq : DecidableEq ByteArray := ByteArray.instDecidableEq

abbrev Uuid := ℕ

/-- `EvalDatasetError`, the refusals of the store, and a constraint of the database. -/
inductive Refusal where
  | contract (code : String)
  | access (message : String)
  | state (message : String)
  | conflict (message : String)
  | database

inductive VersionState where
  | draft
  | published
deriving DecidableEq

structure VersionRow where
  id : Uuid
  dataset : Uuid
  versionNumber : ℤ
  state : VersionState
  revision : ℤ
  caseCount : ℕ
  contentSha256 : Option ByteArray

structure CaseRow where
  version : Uuid
  caseKey : Uuid
  ordinal : ℕ
  question : Text
  documentKey : Text
  expectedAnswer : Text
  pages : List ℤ
  questionType : CaseType
  contentSha256 : ByteArray

structure DatasetRow where
  id : Uuid
  active : Bool
  revision : ℤ
  currentVersion : Option Uuid

/-- The rows of one tenant; a table has no order of its own. -/
structure Store where
  datasets : List DatasetRow
  versions : List VersionRow
  cases : List CaseRow

/-- What the database says of the caller: the policy epoch of its tenant, and the datasets
whose owner it can write for. -/
structure Authority where
  epoch : Option ℤ
  canWrite : Uuid → Bool

/-! ## Constraints -/

def octets (least most : ℕ) (t : Text) : Prop := least ≤ (encode t).size ∧ (encode t).size ≤ most

instance (least most : ℕ) (t : Text) : Decidable (octets least most t) := instDecidableAnd

/-- The check constraints of a case row. -/
def CaseRow.Checked (r : CaseRow) : Prop :=
  (1 ≤ r.ordinal ∧ r.ordinal ≤ 500) ∧ octets 1 4096 r.question ∧ octets 1 16384 r.documentKey ∧
    octets 1 16384 r.expectedAnswer ∧ (1 ≤ r.pages.length ∧ r.pages.length ≤ 100) ∧
    (∀ page ∈ r.pages, 0 < page) ∧ r.pages.Pairwise (fun a b => a < b) ∧ r.contentSha256.size = 32

instance (r : CaseRow) : Decidable r.Checked := instDecidableAnd

/-- What an insertion of rows for one version has to satisfy, their keys being unique too. -/
def Insertable (rows : List CaseRow) : Prop :=
  (∀ r ∈ rows, r.Checked) ∧ (rows.map CaseRow.caseKey).Nodup ∧ (rows.map CaseRow.ordinal).Nodup

instance (rows : List CaseRow) : Decidable (Insertable rows) := instDecidableAnd

/-! ## Replacing the cases of a draft -/

section
variable [Digest]

/-- The rows of the cases, numbered from the ordinal on. -/
def caseRows (versionId : Uuid) : ℕ → List EvalCase → Except Refusal (List CaseRow)
  | _, [] => .ok []
  | ordinal, c :: rest => do
    let caseKey ← demand (parseUuid c.caseKey) (.access "eval kimligi gecersiz")
    let sha ← (caseDigest (normalized c)).mapError Refusal.contract
    let more ← caseRows versionId (ordinal + 1) rest
    return ⟨versionId, caseKey, ordinal, c.q, c.key, c.answer, c.pages, c.type, sha⟩ :: more

structure Replaced where
  revision : ℤ
  caseCount : ℕ
  contentSha256 : ByteArray

def Store.dataset? (s : Store) (a : Authority) (datasetId : Uuid) : Option DatasetRow :=
  s.datasets.find? fun d => d.id = datasetId ∧ a.canWrite d.id = true

def Store.version? (s : Store) (datasetId versionId : Uuid) : Option VersionRow :=
  s.versions.find? fun r => r.id = versionId ∧ r.dataset = datasetId

/-- `replace_eval_cases`; a refusal leaves no trace. -/
def replaceEvalCases (a : Authority) (datasetId versionId : Uuid) (expectedRevision : ℤ)
    (offered : List Offered) (s : Store) : Except Refusal (Store × Replaced) := do
  let cases ← (normalizeCases offered).mapError Refusal.contract
  require (1 ≤ expectedRevision) (.conflict "eval version revision gecersiz")
  require (a.epoch.isSome) (.access "eval tenant bulunamadi")
  let _ ← demand (s.dataset? a datasetId) (.access "eval draft bulunamadi")
  let version ← demand (s.version? datasetId versionId) (.access "eval draft bulunamadi")
  require (version.state = .draft) (.state "eval version yayinlanmis")
  require (version.revision = expectedRevision) (.conflict "eval version degisti")
  let rows ← caseRows versionId 1 cases
  require (Insertable rows) .database
  let digest ← (versionDigest (cases.map normalized)).mapError Refusal.contract
  return ({
    datasets := s.datasets
    versions := s.versions.map fun r =>
      if r.id = versionId then { r with caseCount := rows.length, revision := r.revision + 1 } else r
    cases := s.cases.filter (fun r => r.version ≠ versionId) ++ rows },
    ⟨version.revision + 1, rows.length, digest⟩)

/-! ## Publishing -/

/-- A row as it is selected, the key as text. -/
def CaseRow.selected (r : CaseRow) : Offered :=
  .value (.obj [("case_key".toList, .str (uuidText r.caseKey)), ("q".toList, .str r.question),
    ("key".toList, .str r.documentKey), ("answer".toList, .str r.expectedAnswer),
    ("pages".toList, .arr (r.pages.map .int)), ("type".toList, .str r.questionType.word)])

/-- The rows of a version in the order of their ordinals. -/
def Store.ordered (s : Store) (versionId : Uuid) : List CaseRow :=
  (s.cases.filter fun r => r.version = versionId).insertionSort fun a b => a.ordinal ≤ b.ordinal

/-- The cases and the digest that a publication computes from the stored rows. -/
def recomputed (s : Store) (versionId : Uuid) : Except Refusal (List EvalCase × ByteArray) := do
  let cases ← (normalizeCases ((s.ordered versionId).map CaseRow.selected)).mapError Refusal.contract
  let digest ← (versionDigest (cases.map normalized)).mapError Refusal.contract
  return (cases, digest)

structure Published where
  revision : ℤ
  caseCount : ℕ
  contentSha256 : ByteArray
  versionNumber : ℤ
  datasetRevision : ℤ
  policyEpoch : ℤ

/-- `publish_eval_version`; the expected digest is compared before it is written in hex. -/
def publishEvalVersion (a : Authority) (datasetId versionId : Uuid)
    (expectedRevision expectedPolicyEpoch : ℤ) (expectedDraftSha256 : ByteArray) (s : Store) :
    Except Refusal (Store × Published) := do
  require (1 ≤ expectedRevision ∧ 1 ≤ expectedPolicyEpoch ∧ expectedDraftSha256.size = 32)
    (.conflict "eval yayin kapisi gecersiz")
  let epoch ← demand a.epoch (.access "eval tenant bulunamadi")
  require (epoch = expectedPolicyEpoch) (.conflict "eval politikasi degisti")
  let dataset ← demand (s.dataset? a datasetId) (.access "eval version bulunamadi")
  let version ← demand (s.version? datasetId versionId) (.access "eval version bulunamadi")
  require (dataset.active = true ∧ version.state = .draft) (.state "eval version yayinlanamaz")
  require (version.revision = expectedRevision) (.conflict "eval version veya politika degisti")
  let (cases, digest) ← recomputed s versionId
  require (digest = expectedDraftSha256) (.conflict "eval taslak ozeti degisti")
  return ({
    datasets := s.datasets.map fun d =>
      if d.id = datasetId then { d with currentVersion := some versionId, revision := d.revision + 1 }
      else d
    versions := s.versions.map fun r =>
      if r.id = versionId then { r with
        state := .published
        caseCount := cases.length
        contentSha256 := some digest
        revision := r.revision + 1 } else r
    cases := s.cases },
    ⟨version.revision + 1, cases.length, digest, version.versionNumber, dataset.revision + 1, epoch⟩)

/-! ## Runs -/

inductive Op where
  /-- A dataset or a next draft is created, with a fresh first version row. -/
  | create (version : VersionRow)
  | replace (a : Authority) (datasetId versionId : Uuid) (expectedRevision : ℤ) (offered : List Offered)
  | publish (a : Authority) (datasetId versionId : Uuid) (expectedRevision expectedPolicyEpoch : ℤ)
      (expectedDraftSha256 : ByteArray)
  /-- Whatever else is done to the datasets. -/
  | datasets (rows : List DatasetRow)

/-- The rows of the cases may come to stand in any order. -/
inductive Step (s : Store) : Op → Store → Prop
  | create {version : VersionRow} : (∀ r ∈ s.versions, r.id ≠ version.id) →
      Step s (.create version) { s with versions := version :: s.versions }
  | replace {a : Authority} {datasetId versionId : Uuid} {expectedRevision : ℤ} {offered : List Offered}
      {s' : Store} {replaced : Replaced} {rows : List CaseRow} :
      replaceEvalCases a datasetId versionId expectedRevision offered s = .ok (s', replaced) →
      rows.Perm s'.cases →
      Step s (.replace a datasetId versionId expectedRevision offered) { s' with cases := rows }
  | publish {a : Authority} {datasetId versionId : Uuid} {expectedRevision expectedPolicyEpoch : ℤ}
      {expectedDraftSha256 : ByteArray} {s' : Store} {published : Published} :
      publishEvalVersion a datasetId versionId expectedRevision expectedPolicyEpoch expectedDraftSha256 s =
        .ok (s', published) →
      Step s (.publish a datasetId versionId expectedRevision expectedPolicyEpoch expectedDraftSha256) s'
  | datasets {rows : List DatasetRow} : Step s (.datasets rows) { s with datasets := rows }

/-- From a store without versions. -/
def drafts : System Store Op where
  initial s := s.versions = [] ∧ s.cases = []
  step := Step

end

end RagPipeline.Datasets
