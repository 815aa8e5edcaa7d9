import RagPipeline.Index.Attempt
import Mathlib.Data.List.MinMax
import Mathlib.Data.Finset.Card

/-! # Staging chunks

The two writes that fill a generation: `upsert_chunks` inserts freshly embedded
rows, `copy_chunks_into_generation` inserts rows whose vectors come from a
stored predecessor. Which chunks go which way is decided beforehand by
`existing_content_keys`. -/

set_option autoImplicit false

namespace RagPipeline.Index
open Guard Table

/-- A text splits at its first bar in one way only. -/
theorem split_bar {x y z w : List Char} (hx : '|' ∉ x) (hy : '|' ∉ y)
    (h : x ++ '|' :: z = y ++ '|' :: w) : x = y ∧ z = w := by
  induction x generalizing y with
  | nil =>
    cases y with
    | nil => exact ⟨rfl, (List.cons.inj h).2⟩
    | cons b y => exact absurd (List.mem_cons_self) ((List.cons.inj h).1 ▸ hy)
  | cons a x ih =>
    cases y with
    | nil => exact absurd (List.mem_cons_self) ((List.cons.inj h).1 ▸ hx)
    | cons b y =>
      obtain ⟨rfl, htail⟩ := List.cons.inj h
      obtain ⟨rfl, hz⟩ := ih (fun hm => hx (.tail _ hm)) (fun hm => hy (.tail _ hm)) htail
      exact ⟨rfl, hz⟩

theorem bar_notMem_toString (n : ℕ) : '|' ∉ (toString n).toList := by
  intro h
  rw [Nat.toString_eq_repr, Nat.toList_repr] at h
  exact absurd (Nat.isDigit_of_mem_toDigits (by decide) (by decide) h) (by decide)

theorem toString_injective : Function.Injective (toString : ℕ → String) := by
  intro m n h
  simp only [Nat.toString_eq_repr] at h
  have hdigits := congrArg String.toList h
  rw [Nat.toList_repr, Nat.toList_repr] at hdigits
  rw [← Nat.ofDigitChars_toDigits (b := 10) (by decide) (by decide) (n := m), hdigits,
    Nat.ofDigitChars_toDigits (by decide) (by decide)]

/-- A chunk the parse produced. -/
structure ParsedChunk where
  text : String
  sourceTag : String
deriving DecidableEq, Repr

section
variable [Deployment]

def contentKeyText (c : ParsedChunk) (index : ℕ) : String :=
  Deployment.documentId ++ "|" ++ c.sourceTag ++ "|" ++ toString index ++ "|" ++ c.text

def chunkIdText (c : ParsedChunk) (index generation : ℕ) : String :=
  Deployment.documentId ++ "|g" ++ toString generation ++ "|" ++ c.sourceTag ++ "|" ++
    toString index ++ "|" ++ c.text

/-- What the chunk is, whichever generation carries it. -/
def contentKey (c : ParsedChunk) (index : ℕ) : String := Deployment.uuid5 (contentKeyText c index)

/-- Which row it is. -/
def chunkId (c : ParsedChunk) (index generation : ℕ) : String :=
  Deployment.uuid5 (chunkIdText c index generation)

/-- An id tells its generation, and what the chunk is. -/
theorem chunkIdText_inj {c c' : ParsedChunk} {i i' g g' : ℕ}
    (h : chunkIdText c i g = chunkIdText c' i' g') :
    g = g' ∧ contentKeyText c i = contentKeyText c' i' := by
  have hlist := congrArg String.toList h
  simp only [chunkIdText, String.toList_append, List.append_assoc] at hlist
  have hrest := List.append_cancel_left (List.append_cancel_left hlist)
  obtain ⟨hdigits, htail⟩ := split_bar (bar_notMem_toString g) (bar_notMem_toString g') hrest
  refine ⟨toString_injective (String.toList_injective hdigits), String.toList_injective ?_⟩
  simp only [contentKeyText, String.toList_append, List.append_assoc]
  exact congrArg (fun t => Deployment.documentId.toList ++ '|' :: t) htail

theorem chunkId_inj {c c' : ParsedChunk} {i i' g g' : ℕ} (h : chunkId c i g = chunkId c' i' g') :
    g = g' ∧ contentKey c i = contentKey c' i' := by
  obtain ⟨hg, htext⟩ := chunkIdText_inj (Deployment.uuid5_injective h)
  exact ⟨hg, congrArg Deployment.uuid5 htext⟩

end

/-- A row as the ingest prepares it, without its vectors. -/
structure PreparedRow where
  id : String
  text : String
  sourceTag : String
  generation : ℕ
  contentKey : String
  embeddingFingerprint : String
deriving DecidableEq, Repr

def PreparedRow.chunk (row : PreparedRow) (version : Uuid) (vectors : Vectors) : ChunkRow :=
  ⟨row.id, some version, row.text, row.sourceTag, vectors, row.generation, some row.contentKey,
    some row.embeddingFingerprint⟩

/-- Where a copy may take its vectors from. -/
def ChunkRow.precedes (c : ChunkRow) (version : Uuid) (row : PreparedRow) : Prop :=
  (c.versionId = some version ∨ c.versionId = none) ∧ c.contentKey = some row.contentKey ∧
    c.embeddingFingerprint = some row.embeddingFingerprint

instance (c : ChunkRow) (version : Uuid) (row : PreparedRow) :
    Decidable (c.precedes version row) := by
  unfold ChunkRow.precedes
  infer_instance

/-- The newest of them. -/
def predecessor (version : Uuid) (row : PreparedRow) (chunks : List ChunkRow) : Option ChunkRow :=
  (chunks.filter fun c => c.precedes version row).argmax ChunkRow.generation

def copyRow (version : Uuid) (chunks : List ChunkRow) (row : PreparedRow) : List ChunkRow :=
  match predecessor version row chunks with
  | none => chunks
  | some c => insertNew ChunkRow.id chunks (row.chunk version c.vectors)

def copyRows (version : Uuid) (chunks : List ChunkRow) (rows : List PreparedRow) : List ChunkRow :=
  rows.foldl (copyRow version) chunks

def insertChunkRows (version : Uuid) (chunks : List ChunkRow)
    (rows : List (PreparedRow × Vectors)) : List ChunkRow :=
  insertAll ChunkRow.id chunks (rows.map fun (row, vectors) => row.chunk version vectors)

def existingContentKeys (fingerprint : String) (s : Store) : List String :=
  (s.chunks.filter fun c => c.embeddingFingerprint = some fingerprint).filterMap
    ChunkRow.contentKey

section
variable [Deployment]

def upsertChunks (rows : List (PreparedRow × Vectors)) (a : IngestAttempt) (s : Store) :
    Except Refusal Store := do
  let _ ← authority a s
  require (rows = [] ∨ s.hasVersion a.candidateId) (.databaseError "chunks_version_fk")
  return { s with chunks := insertChunkRows a.candidateId s.chunks rows }

def copyChunksIntoGeneration (rows : List PreparedRow) (a : IngestAttempt) (s : Store) :
    Except Refusal Store := do
  let _ ← authority a s
  require (rows = [] ∨ s.hasVersion a.candidateId) (.databaseError "chunks_version_fk")
  return { s with chunks := copyRows a.candidateId s.chunks rows }

end

theorem upsertChunks_ok {rows : List (PreparedRow × Vectors)} {a : IngestAttempt} {s s' : Store}
    (h : upsertChunks rows a s = .ok s') :
    ∃ d, authority a s = .ok d ∧
      s' = { s with chunks := insertChunkRows a.candidateId s.chunks rows } := by
  simp only [upsertChunks, bind_ok, require_ok, exists_unit, pure_ok] at h
  obtain ⟨d, hd, -, rfl⟩ := h
  exact ⟨d, hd, rfl⟩

theorem copyChunksIntoGeneration_ok {rows : List PreparedRow} {a : IngestAttempt} {s s' : Store}
    (h : copyChunksIntoGeneration rows a s = .ok s') :
    ∃ d, authority a s = .ok d ∧
      s' = { s with chunks := copyRows a.candidateId s.chunks rows } := by
  simp only [copyChunksIntoGeneration, bind_ok, require_ok, exists_unit, pure_ok] at h
  obtain ⟨d, hd, -, rfl⟩ := h
  exact ⟨d, hd, rfl⟩

theorem predecessor_isSome {version : Uuid} {row : PreparedRow} {chunks : List ChunkRow} :
    (∃ c, predecessor version row chunks = some c) ↔ ∃ c ∈ chunks, c.precedes version row := by
  have hnone : predecessor version row chunks = none ↔ ∀ c ∈ chunks, ¬ c.precedes version row := by
    rw [predecessor, List.argmax_eq_none, List.filter_eq_nil_iff]
    simp
  rw [← Option.ne_none_iff_exists', Ne, hnone]
  simp

theorem copyRow_eq (version : Uuid) (chunks : List ChunkRow) (row : PreparedRow) :
    ∃ rows, copyRow version chunks row = insertAll ChunkRow.id chunks rows ∧
      ∀ c ∈ rows, ∃ vectors, c = row.chunk version vectors := by
  unfold copyRow
  cases predecessor version row chunks with
  | none => exact ⟨[], rfl, by simp⟩
  | some p => exact ⟨[row.chunk version p.vectors], rfl, by simp⟩

theorem subset_copyRow {version : Uuid} {chunks : List ChunkRow} {row : PreparedRow} :
    chunks ⊆ copyRow version chunks row := by
  obtain ⟨rows, h, -⟩ := copyRow_eq version chunks row
  rw [h]
  exact subset_insertAll

theorem subset_copyRows {version : Uuid} {chunks : List ChunkRow} {rows : List PreparedRow} :
    chunks ⊆ copyRows version chunks rows := by
  induction rows generalizing chunks with
  | nil => exact List.Subset.refl chunks
  | cons row rest ih => exact List.Subset.trans subset_copyRow ih

/-- A copied row has an id that was free, and is one of those prepared. -/
theorem mem_copyRows {version : Uuid} {chunks : List ChunkRow} {rows : List PreparedRow}
    {c : ChunkRow} (h : c ∈ copyRows version chunks rows) :
    c ∈ chunks ∨ c.id ∉ chunks.map ChunkRow.id ∧
      ∃ row ∈ rows, ∃ vectors, c = row.chunk version vectors := by
  induction rows generalizing chunks with
  | nil => exact .inl h
  | cons row rest ih =>
    obtain ⟨new, hnew, hrow⟩ := copyRow_eq version chunks row
    rcases ih h with h | ⟨hid, row', hrow', hc⟩
    · rw [hnew] at h
      rcases mem_insertAll h with h | ⟨h, hid⟩
      · exact .inl h
      · exact .inr ⟨hid, row, List.mem_cons_self, hrow c h⟩
    · refine .inr ⟨fun hmem => hid ?_, row', List.mem_cons_of_mem _ hrow', hc⟩
      exact List.map_subset _ subset_copyRow hmem

theorem nodup_copyRows {version : Uuid} {chunks : List ChunkRow} {rows : List PreparedRow}
    (h : (chunks.map ChunkRow.id).Nodup) :
    ((copyRows version chunks rows).map ChunkRow.id).Nodup := by
  induction rows generalizing chunks with
  | nil => exact h
  | cons row rest ih =>
    obtain ⟨new, hnew, -⟩ := copyRow_eq version chunks row
    exact ih (hnew ▸ nodup_insertAll h)

end RagPipeline.Index

/-! # What is served

`promote_generation` and `activate_document_version`, with the trigger that
stands behind both: it counts the rows of the build the pointer is moved to,
compares the digest, and writes the receipt of a build an attempt has just
completed. -/

namespace RagPipeline.Index
open Guard Table

def BuildRow.key (b : BuildRow) : Uuid × ℕ := (b.versionId, b.generation)

/-- The receipt the trigger writes while an attempt holds the row. -/
def Store.receipt (s : Store) (old new : DocumentRow) (version : VersionRow) (readyCount : ℕ) :
    Except Refusal Store :=
  match old.attemptId with
  | none => .ok s
  | some attempt => do
    require (0 < new.activeGeneration) (.databaseError "document_version_builds.generation")
    require (∃ a ∈ s.attempts, a.attemptId = attempt)
      (.databaseError "document_version_builds.attempt_id")
    let row : BuildRow :=
      ⟨version.id, new.activeGeneration, version.contentSha256, attempt, readyCount⟩
    return { s with builds := insertNew BuildRow.key s.builds row }

def BuildRow.certifies (b : BuildRow) (old new : DocumentRow) (readyCount : ℕ) : Prop :=
  some b.versionId = new.activeVersionId ∧ b.generation = new.activeGeneration ∧
    some b.contentSha256 = new.activeContentSha ∧
    (old.attemptId = none ∨ some b.attemptId = old.attemptId) ∧ b.chunkCount = readyCount

instance (b : BuildRow) (old new : DocumentRow) (readyCount : ℕ) :
    Decidable (b.certifies old new readyCount) := by
  unfold BuildRow.certifies
  infer_instance

/-- `record_document_version_activation`, without its event row. -/
def recordVersionActivation (old new : DocumentRow) (s : Store) : Except Refusal Store :=
  if new.activeVersionId = old.activeVersionId ∧ new.activeGeneration = old.activeGeneration then
    .ok s
  else if new.purgedAt ≠ none ∧ old.purgedAt = none ∧ new.activeVersionId = none then .ok s
  else do
    let id ← demand new.activeVersionId (.databaseError "active version cannot be cleared")
    let version ← demand (s.versions.find? fun v => v.id = id)
      (.databaseError "query returned no rows")
    let readyCount := (s.build id new.activeGeneration).length
    require (1 ≤ readyCount ∧ some version.contentSha256 = new.activeContentSha)
      (.databaseError "active version build is not ready")
    let s ← s.receipt old new version readyCount
    require (∃ b ∈ s.builds, b.certifies old new readyCount)
      (.databaseError "active version build receipt is missing")
    return s

theorem receipt_ok {s s' : Store} {old new : DocumentRow} {version : VersionRow} {n : ℕ}
    (h : s.receipt old new version n = .ok s') :
    old.attemptId = none ∧ s' = s ∨ ∃ attempt, old.attemptId = some attempt ∧
      0 < new.activeGeneration ∧ (∃ a ∈ s.attempts, a.attemptId = attempt) ∧
      s' = { s with
        builds := insertNew BuildRow.key s.builds
          ⟨version.id, new.activeGeneration, version.contentSha256, attempt, n⟩ } := by
  unfold Store.receipt at h
  cases ha : old.attemptId with
  | none =>
    rw [ha] at h
    exact .inl ⟨rfl, (Except.ok.inj h).symm⟩
  | some attempt =>
    rw [ha] at h
    simp only [bind_ok, require_ok, exists_unit, pure_ok] at h
    exact .inr ⟨attempt, rfl, h.1, h.2.1, h.2.2.symm⟩

/-- The trigger writes receipts only. -/
theorem recordVersionActivation_frame {old new : DocumentRow} {s s' : Store}
    (h : recordVersionActivation old new s = .ok s') :
    ∃ builds, s' = { s with builds := builds } := by
  unfold recordVersionActivation at h
  split at h
  case isTrue => exact ⟨s.builds, (Except.ok.inj h).symm⟩
  case isFalse =>
    split at h
    case isTrue => exact ⟨s.builds, (Except.ok.inj h).symm⟩
    case isFalse =>
      simp only [bind_ok, require_ok, demand_ok, exists_unit, pure_ok] at h
      obtain ⟨_, -, v, -, -, t, ht, -, rfl⟩ := h
      rcases receipt_ok ht with ⟨-, rfl⟩ | ⟨_, -, -, -, rfl⟩
      · exact ⟨t.builds, rfl⟩
      · exact ⟨_, rfl⟩

/-- The trigger of a pointer that moves to a build. -/
theorem recordVersionActivation_ok {old new : DocumentRow} {s s' : Store} {version : Uuid}
    (hnew : new.activeVersionId = some version)
    (hmoved : ¬ (new.activeVersionId = old.activeVersionId ∧
      new.activeGeneration = old.activeGeneration)) :
    recordVersionActivation old new s = .ok s' ↔
      ∃ v, s.versions.find? (fun v => v.id = version) = some v ∧
        1 ≤ (s.build version new.activeGeneration).length ∧
        some v.contentSha256 = new.activeContentSha ∧
        s.receipt old new v (s.build version new.activeGeneration).length = .ok s' ∧
        ∃ b ∈ s'.builds, b.certifies old new (s.build version new.activeGeneration).length := by
  unfold recordVersionActivation
  rw [if_neg hmoved, if_neg (by simp [hnew])]
  simp only [bind_ok, require_ok, demand_ok, exists_unit, pure_ok, hnew, Option.some.injEq]
  constructor
  · rintro ⟨_, rfl, v, hv, ⟨hcount, hsha⟩, s'', hr, hb, rfl⟩
    exact ⟨v, hv, hcount, hsha, hr, hb⟩
  · rintro ⟨v, hv, hcount, hsha, hr, hb⟩
    exact ⟨_, rfl, v, hv, ⟨hcount, hsha⟩, s', hr, hb, rfl⟩

/-- Rows of the winner, and rows a receipt covers. -/
def Store.retains (s : Store) (version : Uuid) (generation : ℕ) (c : ChunkRow) : Prop :=
  (c.generation = generation ∧ c.versionId = some version) ∨
    ∃ b ∈ s.builds, some b.versionId = c.versionId ∧ b.generation = c.generation

instance (s : Store) (version : Uuid) (generation : ℕ) (c : ChunkRow) :
    Decidable (s.retains version generation c) := by
  unfold Store.retains
  infer_instance

def Store.sweep (s : Store) (version : Uuid) (generation : ℕ) : Store :=
  { s with chunks := deleteWhere (fun c => ¬ s.retains version generation c) s.chunks }

section
variable [Deployment]

/-- `_explain_failed_promotion`. -/
def explainFailedPromotion (d : DocumentRow) (candidate attempt : Uuid) : Refusal :=
  if d.candidateId ≠ some candidate then
    .attemptFenced "aday degisti; bu kosu cevrildi ve terfi ETMEDI"
  else if d.attemptId ≠ some attempt then
    .attemptLeaseLost "lease artik bu denemenin degil; bu kosu terfi ETMEDI"
  else .valueError
    "aktif nesil ya da aday kimligi bu kosunun baglandigindan farkli; es zamanli bir islem kazandi, bu kosu terfi ETMEDI"

def recordInconsistent : Refusal := .attemptRecordInconsistent
  "belge satiri lease'i bu denemede gosteriyor ama deneme kaydi kapatilamadi (kayit yok ya da zaten terminal); terfi geri alindi"

/-- The record of the attempt must be there and running. -/
def runningRecord (candidate attempt : Uuid) (s : Store) : Except Refusal Unit :=
  match s.attempts.find? fun a => a.attemptId = attempt ∧ a.candidateId = candidate with
  | none => .error recordInconsistent
  | some a =>
    if a.status = some .superseded then
      .error (.attemptLeaseLost "lease artik bu denemenin degil; bu kosu terfi ETMEDI")
    else require (a.status = none) recordInconsistent

omit [Deployment] in
theorem runningRecord_ok {candidate attempt : Uuid} {s : Store} :
    runningRecord candidate attempt s = .ok () ↔
      ∃ a, s.attempts.find? (fun a => a.attemptId = attempt ∧ a.candidateId = candidate) = some a ∧
        a.status = none := by
  unfold runningRecord
  cases s.attempts.find? fun a => a.attemptId = attempt ∧ a.candidateId = candidate with
  | none => simp
  | some a =>
    by_cases ha : a.status = some .superseded
    · simp [ha]
    · simp [ha, require_ok]

def manifestRefusal (ids staged : Finset String) : Refusal :=
  let missing := (ids \ staged).card
  let foreign := (staged \ ids).card
  .valueError (s!"manifest uyusmuyor: {missing} eksik, " ++
    s!"{foreign} yabanci satir; terfi reddedildi")

def DocumentRow.promoted (d : DocumentRow) (version : Uuid) (generation : ℕ) (sha : String) :
    DocumentRow :=
  { d with
    activeVersionId := some version
    activeGeneration := generation
    activeContentSha := some sha
    revision := d.revision + 1
    status := "done"
    statusNote := none
    attemptId := none
    attemptOwner := none
    attemptExpiresAt := none }

/-- The staged rows are read before any lock. Only the holder of the lease
stages rows under this version, so they are the ones the swap finds. -/
def promoteGeneration (generation expectedActive : ℕ) (manifestIds : List String)
    (contentSha256 : String) (candidate attempt : Uuid) (now : Time) (s : Store) :
    Except Refusal Store := do
  let ids := manifestIds.toFinset
  require (ids ≠ ∅) (.valueError
    "bos manifest terfi edemez: sifir satirli bir nesli aktif yapmak saglam indeksi silmekle aynidir")
  require (contentSha256 ≠ "") (.valueError
    "terfi servis edilecek baytlarin ozetini ister; ozetsiz terfi reddedildi")
  let staged := ((s.build candidate generation).map ChunkRow.id).toFinset
  require (staged = ids) (manifestRefusal ids staged)
  runningRecord candidate attempt s
  let d ← demand s.document (.valueError
    "aktif nesil ya da aday kimligi bu kosunun baglandigindan farkli; es zamanli bir islem kazandi, bu kosu terfi ETMEDI")
  require (d.activeGeneration = expectedActive ∧ d.candidateId = some candidate ∧
    d.attemptId = some attempt) (explainFailedPromotion d candidate attempt)
  let new := d.promoted candidate generation contentSha256
  let s ← s.updateDocument d new
  let s ← recordVersionActivation d new s
  let s := { s with
    attempts := updateWhere
      (fun a => a.attemptId = attempt ∧ a.candidateId = candidate ∧ a.status = none)
      (fun a => { a with status := some .done, endedAt := some now }) s.attempts }
  return s.sweep candidate generation

theorem promoteGeneration_ok {generation expectedActive : ℕ} {manifestIds : List String}
    {contentSha256 : String} {candidate attempt : Uuid} {now : Time} {s s' : Store} :
    promoteGeneration generation expectedActive manifestIds contentSha256 candidate attempt now s =
        .ok s' ↔
      manifestIds.toFinset ≠ ∅ ∧ contentSha256 ≠ "" ∧
      ((s.build candidate generation).map ChunkRow.id).toFinset = manifestIds.toFinset ∧
      runningRecord candidate attempt s = .ok () ∧
      ∃ d, s.document = some d ∧ d.activeGeneration = expectedActive ∧
        d.candidateId = some candidate ∧ d.attemptId = some attempt ∧
        (d.purgedAt = none ∨ d.promoted candidate generation contentSha256 = d) ∧
        ∃ t, recordVersionActivation d (d.promoted candidate generation contentSha256)
            (s.withDocument (d.promoted candidate generation contentSha256)) = .ok t ∧
          s' = ({ t with
            attempts := updateWhere
              (fun a => a.attemptId = attempt ∧ a.candidateId = candidate ∧ a.status = none)
              (fun a => { a with status := some .done, endedAt := some now }) t.attempts
            }).sweep candidate generation := by
  simp only [promoteGeneration, bind_ok, demand_ok, require_ok, exists_unit, pure_ok]
  constructor
  · rintro ⟨hids, hsha, hstaged, hrun, d, hd, ⟨hact, hcand, hatt⟩, s1, hup, t, ht, rfl⟩
    rw [updateDocument_ok (by rfl)] at hup
    obtain ⟨hp, rfl⟩ := hup
    exact ⟨hids, hsha, hstaged, hrun, d, hd, hact, hcand, hatt, hp, t, ht, rfl⟩
  · rintro ⟨hids, hsha, hstaged, hrun, d, hd, hact, hcand, hatt, hp, t, ht, rfl⟩
    exact ⟨hids, hsha, hstaged, hrun, d, hd, ⟨hact, hcand, hatt⟩, _,
      (updateDocument_ok (by rfl)).2 ⟨hp, rfl⟩, t, ht, rfl⟩

structure Activation where
  activeGeneration : ℕ
  revision : ℕ
  changed : Bool
deriving DecidableEq, Repr

/-- The newest build of a version whose rows are all there. -/
def readyBuild (version : Uuid) (s : Store) : Option BuildRow :=
  (s.builds.filter fun b => b.versionId = version ∧
    b.chunkCount = (s.build version b.generation).length).argmax BuildRow.generation

def DocumentRow.activated (d : DocumentRow) (version : Uuid) (generation : ℕ) (sha : String) :
    DocumentRow :=
  { d with
    activeVersionId := some version
    activeGeneration := generation
    activeContentSha := some sha
    status := "done"
    statusNote := none
    revision := d.revision + 1 }

/-- `none` where the document or a ready build of the version is not there. -/
def activateDocumentVersion (version : Uuid) (expectedRevision : ℕ) (verifiedSourceSha : String)
    (s : Store) : Except Refusal (Store × Option Activation) :=
  match s.document with
  | none => .ok (s, none)
  | some d => do
    require (d.attemptId = none) (.lifecycleConflict
      "aktif ingest surerken belge surumu etkinlestirilemez")
    require (d.archivedAt = none) (.lifecycleConflict
      "arsivlenmis belgede surum etkinlestirilemez")
    require (d.revision = expectedRevision) (.versionConflict "belge surum revizyonu degisti")
    require (¬ s.hasActiveJob) (.lifecycleConflict
      "etkin ingest job varken belge surumu etkinlestirilemez")
    match s.versions.find? (fun v => v.id = version), readyBuild version s with
    | some v, some b => do
      require (v.contentSha256 = verifiedSourceSha) (.versionConflict
        "saklanan kaynak kaniti surum ozetiyle eslesmiyor")
      if d.activeVersionId = some version ∧ d.activeGeneration = b.generation then
        return (s, some ⟨b.generation, expectedRevision, false⟩)
      else do
        let new := d.activated version b.generation v.contentSha256
        let s ← s.updateDocument d new
        let s ← recordVersionActivation d new s
        return (s, some ⟨b.generation, new.revision, true⟩)
    | _, _ => .ok (s, none)

theorem activateDocumentVersion_ok {version : Uuid} {expectedRevision : ℕ} {sha : String}
    {s : Store} {r : Store × Option Activation}
    (h : activateDocumentVersion version expectedRevision sha s = .ok r) :
    r.1 = s ∨ ∃ d v b t, s.document = some d ∧ d.attemptId = none ∧ d.archivedAt = none ∧
      d.revision = expectedRevision ∧ ¬ s.hasActiveJob ∧
      s.versions.find? (fun v => v.id = version) = some v ∧ readyBuild version s = some b ∧
      v.contentSha256 = sha ∧
      ¬ (d.activeVersionId = some version ∧ d.activeGeneration = b.generation) ∧
      recordVersionActivation d (d.activated version b.generation v.contentSha256)
        (s.withDocument (d.activated version b.generation v.contentSha256)) = .ok t ∧
      r = (t, some ⟨b.generation, d.revision + 1, true⟩) := by
  unfold activateDocumentVersion at h
  cases hd : s.document with
  | none =>
    rw [hd] at h
    exact .inl (by rw [← Except.ok.inj h])
  | some d =>
    simp only [hd, bind_ok, require_ok, exists_unit] at h
    obtain ⟨hatt, harch, hrev, hjob, h⟩ := h
    split at h
    case h_2 => exact .inl (by rw [← Except.ok.inj h])
    case h_1 v b hv hb =>
      simp only [bind_ok, require_ok, exists_unit] at h
      obtain ⟨hsha, h⟩ := h
      split at h
      case isTrue => exact .inl (by rw [← Except.ok.inj h])
      case isFalse hmoved =>
        simp only [bind_ok, pure_ok] at h
        obtain ⟨s1, hup, t, ht, rfl⟩ := h
        rw [updateDocument_ok (by rfl)] at hup
        obtain ⟨-, rfl⟩ := hup
        exact .inr ⟨d, v, b, t, rfl, hatt, harch, hrev, hjob, hv, hb, hsha, hmoved, ht, rfl⟩

end

end RagPipeline.Index
