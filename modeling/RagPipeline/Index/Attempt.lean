import RagPipeline.Index.Store

/-! # The candidate gate

`stage_candidate` and `finalize_candidate_publication`. Staging other bytes
mints a new candidate, empties the lease and closes every running attempt of
another candidate, all in one transaction; staging the recorded bytes again
changes none of that. -/

set_option autoImplicit false

namespace RagPipeline.Index
open Guard Table

/-- A row as `INSERT INTO documents` leaves it. -/
def insertedRow (filename fileType : String) (sha : Option String) (candidate : Uuid) :
    DocumentRow where
  filename := filename
  fileType := fileType
  status := "pending"
  statusNote := none
  contentSha256 := sha
  candidateId := some candidate
  candidateState := some .staged
  attemptId := none
  attemptOwner := none
  attemptExpiresAt := none
  activeVersionId := none
  activeGeneration := 0
  activeContentSha := none
  lastGeneration := 0
  lastVersionNumber := 0
  revision := 0
  archivedAt := none
  purgedAt := none

/-- No hash is offered, or the offer is the recorded candidate. -/
def DocumentRow.keepsCandidate (d : DocumentRow) (sha : Option String) : Prop :=
  sha = none ∨ (d.contentSha256 = sha ∧ d.candidateId ≠ none)

instance (d : DocumentRow) (sha : Option String) : Decidable (d.keepsCandidate sha) :=
  inferInstanceAs (Decidable (_ ∨ _))

/-- The `DO UPDATE` of the upsert. -/
def DocumentRow.staged (d : DocumentRow) (sha : Option String) (candidate : Uuid) : DocumentRow :=
  if d.keepsCandidate sha then { d with contentSha256 := sha.or d.contentSha256 }
  else { d with
    contentSha256 := sha.or d.contentSha256
    candidateId := some candidate
    candidateState := some .staged
    attemptId := none
    attemptOwner := none
    attemptExpiresAt := none }

@[simp] theorem staged_purgedAt (d : DocumentRow) (sha : Option String) (candidate : Uuid) :
    (d.staged sha candidate).purgedAt = d.purgedAt := by
  unfold DocumentRow.staged
  split <;> rfl

/-- The arms of the gate. `fresh` is what the statement before it saw of the
chunks, with no lock on the row. -/
def DocumentRow.admits (d : DocumentRow) (sha : Option String) (allowReplace fresh : Bool) : Prop :=
  allowReplace = true ∨ sha = none ∨ d.contentSha256 = sha ∨
    (d.activeContentSha = none ∧ fresh = true)

instance (d : DocumentRow) (sha : Option String) (allowReplace fresh : Bool) :
    Decidable (d.admits sha allowReplace fresh) :=
  inferInstanceAs (Decidable (_ ∨ _))

/-- The `CHECK` on the digest of a version. -/
def isDigest (sha : String) : Prop :=
  sha.toList.length = 64 ∧ ∀ c ∈ sha.toList, c ∈ "0123456789abcdef".toList

instance (sha : String) : Decidable (isDigest sha) :=
  @instDecidableAnd _ _ _ (List.decidableBAll _ _)

/-- The version of a candidate, numbered and inserted once. -/
def Store.registerVersion (s : Store) (d : DocumentRow) (sha : Option String) : Store :=
  match sha, d.candidateId with
  | some digest, some candidate =>
    if s.hasVersion candidate then s
    else { s with
      document := some { d with lastVersionNumber := d.lastVersionNumber + 1 }
      versions := s.versions ++ [⟨candidate, d.lastVersionNumber + 1, digest⟩] }
  | _, _ => s

theorem registerVersion_eq {s : Store} {d : DocumentRow} {sha : Option String}
    (h : s.document = some d) :
    ∃ n versions, s.registerVersion d sha =
      { s with
        document := some { d with lastVersionNumber := n }
        versions := s.versions ++ versions } := by
  unfold Store.registerVersion
  split
  · split
    · exact ⟨_, [], by rw [← h]; simp⟩
    · exact ⟨_, _, rfl⟩
  · exact ⟨d.lastVersionNumber, [], by rw [← h]; simp⟩

/-- Every running attempt that meets a condition is closed by the system. -/
def Store.supersede (s : Store) (p : AttemptRow → Prop) [DecidablePred p] (now : Time) : Store :=
  { s with
    attempts := updateWhere (fun a => a.status = none ∧ p a)
      (fun a => { a with status := some .superseded, endedAt := some now }) s.attempts }

theorem map_attemptId_supersede {s : Store} (p : AttemptRow → Prop) [DecidablePred p]
    (now : Time) :
    (s.supersede p now).attempts.map AttemptRow.attemptId = s.attempts.map AttemptRow.attemptId :=
  map_updateWhere fun _ _ => rfl

section
variable [Deployment]

/-- The first statement of the transaction: the row, inserted or updated. -/
def upsertRow (filename fileType : String) (sha : Option String) (allowReplace fresh : Bool)
    (candidate : Uuid) (s : Store) : Except Refusal (Store × DocumentRow) :=
  match s.document with
  | none =>
    let d := insertedRow filename fileType sha candidate
    .ok (s.withDocument d, d)
  | some d => do
    require (d.admits sha allowReplace fresh) (.candidateConflict
      "ayni dosya adi farkli icerikle zaten kayitli; dosyayi yeniden adlandir ya da bilincli degistirme icin replace yetkisi ver")
    let s ← s.updateDocument d (d.staged sha candidate)
    return (s, d.staged sha candidate)

/-- Returns the candidate and the canonical filename. -/
def stageCandidate (filename fileType : String) (sha : Option String) (allowReplace fresh : Bool)
    (candidate : Uuid) (now : Time) (s : Store) :
    Except Refusal (Store × Option Uuid × String) := do
  let (s, d) ← upsertRow filename fileType sha allowReplace fresh candidate s
  let registered := s.registerVersion d sha
  require (∀ v ∈ registered.versions, v ∈ s.versions ∨ isDigest v.contentSha256)
    (.databaseError "document_versions_content_sha256_check")
  return (registered.supersede (fun a => some a.candidateId ≠ d.candidateId) now,
    d.candidateId, d.filename)

theorem stageCandidate_ok {filename fileType : String} {sha : Option String}
    {allowReplace fresh : Bool} {candidate : Uuid} {now : Time} {s : Store}
    {r : Store × Option Uuid × String}
    (h : stageCandidate filename fileType sha allowReplace fresh candidate now s = .ok r) :
    ∃ d, (s.document = none ∧ d = insertedRow filename fileType sha candidate ∨
        ∃ old, s.document = some old ∧ d = old.staged sha candidate ∧
          old.admits sha allowReplace fresh ∧ (old.purgedAt = none ∨ d = old)) ∧
      (∀ v ∈ ((s.withDocument d).registerVersion d sha).versions,
        v ∈ s.versions ∨ isDigest v.contentSha256) ∧
      r = (((s.withDocument d).registerVersion d sha).supersede
        (fun a => some a.candidateId ≠ d.candidateId) now, d.candidateId, d.filename) := by
  simp only [stageCandidate, bind_ok, require_ok, exists_unit, pure_ok, Prod.exists] at h
  obtain ⟨s', d, hup, hdigest, h⟩ := h
  refine ⟨d, ?_⟩
  unfold upsertRow at hup
  cases hd : s.document with
  | none =>
    rw [hd] at hup
    obtain ⟨rfl, rfl⟩ := Prod.mk.inj (Except.ok.inj hup)
    exact ⟨.inl ⟨rfl, rfl⟩, hdigest, h.symm⟩
  | some old =>
    rw [hd] at hup
    simp only [bind_ok, require_ok, exists_unit, pure_ok, Prod.mk.injEq,
      updateDocument_ok (staged_purgedAt old sha candidate)] at hup
    obtain ⟨hadm, s'', ⟨hlive, rfl⟩, rfl, rfl⟩ := hup
    exact ⟨.inr ⟨old, rfl, rfl, hadm, hlive⟩, hdigest, h.symm⟩

/-- Returns whether the candidate was still the recorded one. -/
def finalizeCandidatePublication (candidate : Uuid) (s : Store) : Except Refusal (Store × Bool) :=
  match s.document with
  | none => .ok (s, false)
  | some d =>
    if d.candidateId = some candidate then do
      let s ← s.updateDocument d { d with candidateState := some .published }
      return (s, true)
    else .ok (s, false)

theorem finalizeCandidatePublication_ok {candidate : Uuid} {s : Store} {r : Store × Bool}
    (h : finalizeCandidatePublication candidate s = .ok r) :
    r.1 = s ∧ r.2 = false ∨ ∃ d, s.document = some d ∧ d.candidateId = some candidate ∧
      r = (s.withDocument { d with candidateState := some .published }, true) := by
  unfold finalizeCandidatePublication at h
  cases hd : s.document with
  | none =>
    rw [hd] at h
    obtain rfl := Except.ok.inj h
    exact .inl ⟨rfl, rfl⟩
  | some d =>
    rw [hd] at h
    by_cases hc : d.candidateId = some candidate
    · simp only [if_pos hc, bind_ok, pure_ok] at h
      obtain ⟨s', hup, rfl⟩ := h
      rw [updateDocument_ok (by rfl)] at hup
      exact .inr ⟨d, rfl, hc, by rw [hup.2]⟩
    · simp only [if_neg hc] at h
      obtain rfl := Except.ok.inj h
      exact .inl ⟨rfl, rfl⟩

end

end RagPipeline.Index

/-! # Attempts

`begin_attempt` takes the lease of a published candidate, and everything an
attempt writes afterwards goes through `_authority`, which compares the
recorded candidate and the lease of the row with the attempt's own. -/

namespace RagPipeline.Index
open Guard Table

structure IngestAttempt where
  attemptId : Uuid
  candidateId : Uuid
  candidateSha : String
  observedActive : ℕ
deriving DecidableEq, Repr

/-- A queue entry that a worker holds at this moment. -/
def IngestJobRow.ownedBy (job : IngestJobRow) (id : Uuid) (worker : String) (now : Time) : Prop :=
  job.id = id ∧ job.status = .running ∧ job.workerId = some worker ∧
    ∃ t ∈ job.leaseExpiresAt, now < t

instance (job : IngestJobRow) (id : Uuid) (worker : String) (now : Time) :
    Decidable (job.ownedBy id worker now) := by
  unfold IngestJobRow.ownedBy
  infer_instance

/-- The queue gate: no job for a direct call, the caller's own live job for a
worker. -/
def queueAdmits (job : Option (Uuid × String)) (now : Time) (s : Store) : Except Refusal Unit :=
  let activeJob := s.jobs.find? fun j => j.active
  match job with
  | none => require (activeJob = none) (.ingestJobConflict
      "etkin ingest job varken dogrudan deneme baslatilamaz")
  | some (id, worker) => require (∃ j ∈ activeJob, j.ownedBy id worker now)
      (.ingestJobOwnershipLost "ingest job bu worker icin canli ve bagli degil")

def leaseLive (d : DocumentRow) (now : Time) : Prop := ∃ t ∈ d.attemptExpiresAt, now < t

instance (d : DocumentRow) (now : Time) : Decidable (leaseLive d now) :=
  inferInstanceAs (Decidable (∃ t ∈ d.attemptExpiresAt, now < t))

section
variable [Deployment]

def leaseTtl : Time := Deployment.attemptLeaseSeconds * 1000000

def DocumentRow.leased (d : DocumentRow) (attempt : Uuid) (owner : String) (now : Time) :
    DocumentRow :=
  { d with
    attemptId := some attempt
    attemptOwner := some owner
    attemptExpiresAt := some (now + leaseTtl) }

/-- `attempts.candidate_sha` is not null, and its version is one of the
document's: a candidate without either is refused by the database. -/
def beginAttempt (owner : String) (job : Option (Uuid × String)) (attempt : Uuid) (now : Time)
    (s : Store) : Except Refusal (Store × IngestAttempt) := do
  let d ← demand s.document (.valueError "belge kaydi yok; deneme baslatilamaz")
  require (d.archivedAt = none) (.lifecycleConflict
    "arsivlenmis belge icin ingest denemesi baslatilamaz")
  require (d.candidateState = some .published) (.candidateNotPublished
    "aday yayimlanmis degil; bu belge simdilik islenemez")
  let candidate ← demand d.candidateId (.candidateNotPublished
    "aday yayimlanmis degil; bu belge simdilik islenemez")
  queueAdmits job now s
  require (d.attemptId = none ∨ ¬ leaseLive d now) (.attemptAlreadyRunning
    "bu belge icin canli bir deneme var; lease sahibi baska bir kosu")
  let s := s.supersede (fun a => some a.attemptId = d.attemptId) now
  let s ← s.updateDocument d (d.leased attempt owner now)
  let sha ← demand d.contentSha256 (.databaseError "attempts.candidate_sha")
  require (s.hasVersion candidate) (.databaseError "attempts_version_fk")
  require (∀ a ∈ s.attempts, a.attemptId ≠ attempt) (.databaseError "attempts_pkey")
  let row : AttemptRow := ⟨attempt, candidate, sha, d.activeGeneration, owner, none, none, none⟩
  return ({ s with attempts := s.attempts ++ [row] },
    ⟨attempt, candidate, sha, d.activeGeneration⟩)

theorem beginAttempt_ok {owner : String} {job : Option (Uuid × String)} {attempt : Uuid}
    {now : Time} {s : Store} {r : Store × IngestAttempt}
    (h : beginAttempt owner job attempt now s = .ok r) :
    ∃ d candidate sha, s.document = some d ∧ d.archivedAt = none ∧
      d.candidateState = some .published ∧ d.candidateId = some candidate ∧
      d.contentSha256 = some sha ∧ queueAdmits job now s = .ok () ∧
      (d.attemptId = none ∨ ¬ leaseLive d now) ∧ s.hasVersion candidate ∧
      attempt ∉ s.attempts.map AttemptRow.attemptId ∧
      (d.purgedAt = none ∨ d.leased attempt owner now = d) ∧
      r.1 = { s.supersede (fun a => some a.attemptId = d.attemptId) now with
        document := some (d.leased attempt owner now)
        attempts := (s.supersede (fun a => some a.attemptId = d.attemptId) now).attempts ++
          [⟨attempt, candidate, sha, d.activeGeneration, owner, none, none, none⟩] } ∧
      r.2 = ⟨attempt, candidate, sha, d.activeGeneration⟩ := by
  simp only [beginAttempt, bind_ok, demand_ok, require_ok, exists_unit, pure_ok] at h
  obtain ⟨d, hd, harch, hst, cand, hcand, hq, hlease, s', hup, sha, hsha, hv, hpk, rfl⟩ := h
  rw [updateDocument_ok (by rfl)] at hup
  obtain ⟨hlive, rfl⟩ := hup
  refine ⟨d, cand, sha, hd, harch, hst, hcand, hsha, hq, hlease, hv, ?_, hlive, rfl, rfl⟩
  intro hmem
  rw [← map_attemptId_supersede (fun a => some a.attemptId = d.attemptId) now] at hmem
  obtain ⟨a, ha, hid⟩ := List.mem_map.1 hmem
  exact hpk a ha hid

/-- What an attempt is still allowed to do, decided by the row. -/
def authority (a : IngestAttempt) (s : Store) : Except Refusal DocumentRow := do
  let d ← demand s.document (.attemptLeaseLost "belge kaydi yok; bu deneme gecersiz")
  require (d.candidateId = some a.candidateId) (.attemptFenced
    "aday degisti; bu deneme cevrildi ve hicbir sey yazamaz")
  require (d.attemptId = some a.attemptId) (.attemptLeaseLost
    "lease devralindi; bu worker artik yazamaz")
  return d

omit [Deployment] in
theorem authority_ok {a : IngestAttempt} {s : Store} {d : DocumentRow} :
    authority a s = .ok d ↔ s.document = some d ∧ d.candidateId = some a.candidateId ∧
      d.attemptId = some a.attemptId := by
  simp only [authority, bind_ok, demand_ok, require_ok, exists_unit, pure_ok]
  constructor
  · rintro ⟨d', hd, hc, ha, rfl⟩
    exact ⟨hd, hc, ha⟩
  · rintro ⟨hd, hc, ha⟩
    exact ⟨d, hd, hc, ha, rfl⟩

/-- `GREATEST` passes over a null expiry. -/
def heartbeatAttempt (a : IngestAttempt) (now : Time) (s : Store) : Except Refusal Store := do
  let d ← authority a s
  let fresh := now + leaseTtl
  let expiry := match d.attemptExpiresAt with
    | none => fresh
    | some t => max fresh (t + 1000)
  s.updateDocument d { d with attemptExpiresAt := some expiry }

theorem heartbeatAttempt_ok {a : IngestAttempt} {now : Time} {s s' : Store}
    (h : heartbeatAttempt a now s = .ok s') :
    ∃ d t, authority a s = .ok d ∧ s' = s.withDocument { d with attemptExpiresAt := some t } := by
  simp only [heartbeatAttempt, bind_ok] at h
  obtain ⟨d, hd, h⟩ := h
  rw [updateDocument_ok (by rfl)] at h
  exact ⟨d, _, hd, h.2⟩

def DocumentRow.released (d : DocumentRow) : DocumentRow :=
  { d with attemptId := none, attemptOwner := none, attemptExpiresAt := none }

def recordAttemptOutcome (a : IngestAttempt) (status : AttemptOutcome) (note : Option String)
    (now : Time) (s : Store) : Except Refusal Store := do
  require (status ∈ AttemptOutcome.workerWritable) (.attemptOutcomeNotWritable
    "bu sonucu worker yazamaz")
  let d ← authority a s
  let attempts := updateWhere (fun row => row.attemptId = a.attemptId)
    (fun row => { row with status := some status, note := note, endedAt := some now }) s.attempts
  ({ s with attempts := attempts }).updateDocument d d.released

theorem recordAttemptOutcome_ok {a : IngestAttempt} {status : AttemptOutcome}
    {note : Option String} {now : Time} {s s' : Store}
    (h : recordAttemptOutcome a status note now s = .ok s') :
    ∃ d, authority a s = .ok d ∧ status ∈ AttemptOutcome.workerWritable ∧
      s' = { s with
        document := some d.released
        attempts := updateWhere (fun row => row.attemptId = a.attemptId)
          (fun row => { row with status := some status, note := note, endedAt := some now })
          s.attempts } := by
  simp only [recordAttemptOutcome, bind_ok, require_ok, exists_unit] at h
  obtain ⟨hw, d, hd, h⟩ := h
  rw [updateDocument_ok (by rfl)] at h
  exact ⟨d, hd, hw, h.2⟩

def allocateGeneration (a : IngestAttempt) (s : Store) : Except Refusal (Store × ℕ) := do
  let d ← authority a s
  let s ← s.updateDocument d { d with lastGeneration := d.lastGeneration + 1 }
  return (s, d.lastGeneration + 1)

theorem allocateGeneration_ok {a : IngestAttempt} {s : Store} {r : Store × ℕ}
    (h : allocateGeneration a s = .ok r) :
    ∃ d, authority a s = .ok d ∧
      r = (s.withDocument { d with lastGeneration := d.lastGeneration + 1 },
        d.lastGeneration + 1) := by
  simp only [allocateGeneration, bind_ok, pure_ok] at h
  obtain ⟨d, hd, s', hup, rfl⟩ := h
  rw [updateDocument_ok (by rfl)] at hup
  exact ⟨d, hd, by rw [hup.2]⟩

end

end RagPipeline.Index
