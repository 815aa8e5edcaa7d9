import RagPipeline.Index.Promote
import RagPipeline.Lib.Gate

/-! # The locks of one document

The transactions of an upload and of an ingest run, statement by statement. All
but `promote_generation` lock the document row before an attempt row; a
promotion proves and locks the record of its attempt first. Run with nothing
beside it, each is the operation of the same name. -/

set_option autoImplicit false

namespace RagPipeline.Index
open Guard Table Locks Transition

/-- What a statement can lock: the row of the document, of an attempt, of a queue
entry, and the advisory lock on the filename. -/
inductive Row where
  | document
  | attempt (id : Uuid)
  | job (id : Uuid)
  | filename
deriving DecidableEq, Repr

/-- Every lock here is exclusive. A foreign key that points to the document or
an attempt is checked by transactions that hold the row already. -/
instance : Exclusion Row where
  excludes r r' := r = r'
  symm h := by simpa [eq_comm] using h

theorem excludes_iff (r r' : Row) : Exclusion.excludes r r' ↔ r = r' := decide_eq_true_iff

abbrev DocumentScript := Script Store Row Refusal

namespace Store

def documentRow (s : Store) : List Row := if s.document = none then [] else [.document]

def attemptRows (p : AttemptRow → Prop) [DecidablePred p] (s : Store) : List Row :=
  ((s.attempts.filter p).map fun a => Row.attempt a.attemptId).dedup

def activeJobRow (s : Store) : List Row :=
  ((s.jobs.find? fun j => j.active).map fun j => Row.job j.id).toList

end Store

section
variable [Deployment]

/-- `UPDATE documents`, of the row as it is. -/
def updateRow (f : DocumentRow → DocumentRow) (rest : DocumentScript) : DocumentScript :=
  .statement Store.documentRow
    (fun s => match s.document with
      | none => .ok id
      | some d => do
        let _ ← s.updateDocument d (f d)
        return fun c => c.withDocument (f d))
    fun _ => rest

/-- `UPDATE attempts … WHERE …`. -/
def updateAttempts (p : AttemptRow → Prop) [DecidablePred p] (f : AttemptRow → AttemptRow)
    (rest : DocumentScript) : DocumentScript :=
  .statement (Store.attemptRows p)
    (fun _ => .ok fun c => { c with attempts := updateWhere p f c.attempts })
    fun _ => rest

def supersedeAttempts (p : AttemptRow → Prop) [DecidablePred p] (now : Time)
    (rest : DocumentScript) : DocumentScript :=
  updateAttempts (fun a => a.status = none ∧ p a)
    (fun a => { a with status := some .superseded, endedAt := some now }) rest

def authorityScript (a : IngestAttempt) (rest : DocumentScript) : DocumentScript :=
  .read Store.documentRow fun s => match authority a s with
    | .ok _ => rest
    | .error e => .abort e

def stageScript (filename fileType : String) (sha : Option String) (allowReplace : Bool)
    (candidate : Uuid) (now : Time) : DocumentScript :=
  .read (fun _ => [.filename]) fun _ =>
  .read (fun _ => []) fun before =>
  let fresh := decide (before.document = none ∨ before.chunks = [])
  .statement (fun _ => [.document])
    (fun s => do
      let (_, d) ← upsertRow filename fileType sha allowReplace fresh candidate s
      return fun c => c.withDocument d)
    fun _ =>
  .statement Store.documentRow
    (fun s => match s.document with
      | none => .ok id
      | some d => do
        let registered := s.registerVersion d sha
        require (∀ v ∈ registered.versions, v ∈ s.versions ∨ isDigest v.contentSha256)
          (.databaseError "document_versions_content_sha256_check")
        return fun c => c.registerVersion d sha)
    fun s =>
  supersedeAttempts (fun a => some a.candidateId ≠ s.document.bind DocumentRow.candidateId) now
    .commit

def beginScript (owner : String) (job : Option (Uuid × String)) (attempt : Uuid) (now : Time) :
    DocumentScript :=
  .read Store.documentRow fun s =>
  .demand s.document (.valueError "belge kaydi yok; deneme baslatilamaz") fun d =>
  .require (d.archivedAt = none) (.lifecycleConflict
    "arsivlenmis belge icin ingest denemesi baslatilamaz") <|
  .require (d.candidateState = some .published) (.candidateNotPublished
    "aday yayimlanmis degil; bu belge simdilik islenemez") <|
  .demand d.candidateId (.candidateNotPublished
    "aday yayimlanmis degil; bu belge simdilik islenemez") fun candidate =>
  .read Store.activeJobRow fun s => match queueAdmits job now s with
    | .error e => .abort e
    | .ok () =>
      .require (d.attemptId = none ∨ ¬ leaseLive d now) (.attemptAlreadyRunning
        "bu belge icin canli bir deneme var; lease sahibi baska bir kosu") <|
      supersedeAttempts (fun a => some a.attemptId = d.attemptId) now <|
      updateRow (fun d => d.leased attempt owner now) <|
      .statement (fun _ => [])
        (fun s => do
          let sha ← demand d.contentSha256 (.databaseError "attempts.candidate_sha")
          require (s.hasVersion candidate) (.databaseError "attempts_version_fk")
          require (∀ a ∈ s.attempts, a.attemptId ≠ attempt) (.databaseError "attempts_pkey")
          let row : AttemptRow :=
            ⟨attempt, candidate, sha, d.activeGeneration, owner, none, none, none⟩
          return fun c => { c with attempts := c.attempts ++ [row] })
        fun _ => .commit

def outcomeScript (a : IngestAttempt) (status : AttemptOutcome) (note : Option String)
    (now : Time) : DocumentScript :=
  .require (status ∈ AttemptOutcome.workerWritable) (.attemptOutcomeNotWritable
    "bu sonucu worker yazamaz") <|
  authorityScript a <|
  updateAttempts (fun row => row.attemptId = a.attemptId)
    (fun row => { row with status := some status, note := note, endedAt := some now }) <|
  updateRow DocumentRow.released .commit

def upsertScript (rows : List (PreparedRow × Vectors)) (a : IngestAttempt) : DocumentScript :=
  authorityScript a <|
  .statement (fun _ => [])
    (fun s => do
      require (rows = [] ∨ s.hasVersion a.candidateId) (.databaseError "chunks_version_fk")
      return fun c => { c with chunks := insertChunkRows a.candidateId c.chunks rows })
    fun _ => .commit

/-- The row the swap of a promotion is about, where there is one. -/
def promotable (expectedActive : ℕ) (candidate attempt : Uuid) (s : Store) :
    Option DocumentRow :=
  s.document.filter fun d => d.activeGeneration = expectedActive ∧
    d.candidateId = some candidate ∧ d.attemptId = some attempt

/-- The swap, and what it sweeps. -/
def swapScript (generation expectedActive : ℕ) (contentSha256 : String)
    (candidate attempt : Uuid) (now : Time) : DocumentScript :=
  .statement
    (fun s => if promotable expectedActive candidate attempt s = none then [] else [.document])
    (fun s => match promotable expectedActive candidate attempt s with
      | none => .ok id
      | some d => do
        let new := d.promoted candidate generation contentSha256
        let s ← s.updateDocument d new
        let s ← recordVersionActivation d new s
        return fun c => { c with document := some new, builds := s.builds })
    fun s => match promotable expectedActive candidate attempt s with
      | none => .read (fun _ => []) fun s =>
        .abort (match s.document with
          | none => .valueError
            "aktif nesil ya da aday kimligi bu kosunun baglandigindan farkli; es zamanli bir islem kazandi, bu kosu terfi ETMEDI"
          | some d => explainFailedPromotion d candidate attempt)
      | some _ =>
        updateAttempts
          (fun a => a.attemptId = attempt ∧ a.candidateId = candidate ∧ a.status = none)
          (fun a => { a with status := some .done, endedAt := some now }) <|
        .statement (fun _ => []) (fun _ => .ok fun c => c.sweep candidate generation)
          fun _ => .commit

/-- The record of the attempt, locked with nothing in front of it. -/
def runningRecordScript (candidate attempt : Uuid) (rest : DocumentScript) : DocumentScript :=
  .read (Store.attemptRows fun a => a.attemptId = attempt ∧ a.candidateId = candidate) fun s =>
  match runningRecord candidate attempt s with
  | .ok () => rest
  | .error e => .abort e

def promoteScript (generation expectedActive : ℕ) (manifestIds : List String)
    (contentSha256 : String) (candidate attempt : Uuid) (now : Time) : DocumentScript :=
  let ids := manifestIds.toFinset
  .require (ids ≠ ∅) (.valueError
    "bos manifest terfi edemez: sifir satirli bir nesli aktif yapmak saglam indeksi silmekle aynidir") <|
  .require (contentSha256 ≠ "") (.valueError
    "terfi servis edilecek baytlarin ozetini ister; ozetsiz terfi reddedildi") <|
  .read (fun _ => []) fun s =>
  let staged := ((s.build candidate generation).map ChunkRow.id).toFinset
  .require (staged = ids) (manifestRefusal ids staged) <|
  runningRecordScript candidate attempt <|
  swapScript generation expectedActive contentSha256 candidate attempt now

inductive Call where
  | stage (filename fileType : String) (sha : Option String) (allowReplace : Bool)
      (candidate : Uuid) (now : Time)
  | begin (owner : String) (job : Option (Uuid × String)) (attempt : Uuid) (now : Time)
  | outcome (a : IngestAttempt) (status : AttemptOutcome) (note : Option String) (now : Time)
  | upsert (rows : List (PreparedRow × Vectors)) (a : IngestAttempt)
  | promote (generation expectedActive : ℕ) (manifestIds : List String)
      (contentSha256 : String) (candidate attempt : Uuid) (now : Time)

namespace Call

def script : Call → DocumentScript
  | stage filename fileType sha allowReplace candidate now =>
    stageScript filename fileType sha allowReplace candidate now
  | begin owner job attempt now => beginScript owner job attempt now
  | outcome a status note now => outcomeScript a status note now
  | upsert rows a => upsertScript rows a
  | promote generation expectedActive manifestIds contentSha256 candidate attempt now =>
    promoteScript generation expectedActive manifestIds contentSha256 candidate attempt now

/-- The same call as one operation. -/
def perform : Call → Store → Except Refusal Store
  | stage filename fileType sha allowReplace candidate now, s =>
    (stageCandidate filename fileType sha allowReplace
      (decide (s.document = none ∨ s.chunks = [])) candidate now s).map Prod.fst
  | begin owner job attempt now, s => (beginAttempt owner job attempt now s).map Prod.fst
  | outcome a status note now, s => recordAttemptOutcome a status note now s
  | upsert rows a, s => upsertChunks rows a s
  | promote generation expectedActive manifestIds contentSha256 candidate attempt now, s =>
    promoteGeneration generation expectedActive manifestIds contentSha256 candidate attempt now s

end Call

/-! ## Each script is its operation -/

theorem upsertRow_ok {filename fileType : String} {sha : Option String}
    {allowReplace fresh : Bool} {candidate : Uuid} {s s' : Store} {d : DocumentRow}
    (h : upsertRow filename fileType sha allowReplace fresh candidate s = .ok (s', d)) :
    s' = s.withDocument d := by
  unfold upsertRow at h
  cases hd : s.document with
  | none =>
    rw [hd] at h
    obtain ⟨rfl, rfl⟩ := Prod.mk.inj (Except.ok.inj h)
    rfl
  | some old =>
    rw [hd] at h
    simp only [bind_ok, require_ok, exists_unit, pure_ok, Prod.mk.injEq,
      updateDocument_ok (staged_purgedAt old sha candidate)] at h
    obtain ⟨-, t, ⟨-, rfl⟩, rfl, rfl⟩ := h
    rfl

omit [Deployment] in
theorem promotable_some {expectedActive : ℕ} {candidate attempt : Uuid} {s : Store}
    {d : DocumentRow} :
    promotable expectedActive candidate attempt s = some d ↔ s.document = some d ∧
      d.activeGeneration = expectedActive ∧ d.candidateId = some candidate ∧
        d.attemptId = some attempt := by
  simp [promotable, Option.filter_eq_some_iff]

section
variable {s : Store} {rest : DocumentScript}

theorem alone_updateRow {f : DocumentRow → DocumentRow} {d : DocumentRow}
    (h : s.document = some d) :
    (updateRow f rest).alone s = s.updateDocument d (f d) >>= rest.alone := by
  rw [updateRow, Script.alone_statement, h]
  simp only [Store.updateDocument, bind_assoc, pure_bind]

theorem alone_updateRow_commit {f : DocumentRow → DocumentRow} {d : DocumentRow}
    (h : s.document = some d) :
    (updateRow f .commit).alone s = s.updateDocument d (f d) := by
  rw [alone_updateRow h]
  exact bind_pure _

omit [Deployment] in
theorem alone_updateAttempts {q : AttemptRow → Prop} [DecidablePred q]
    {f : AttemptRow → AttemptRow} :
    (updateAttempts q f rest).alone s =
      rest.alone { s with attempts := updateWhere q f s.attempts } := rfl

omit [Deployment] in
theorem alone_authorityScript {a : IngestAttempt} :
    (authorityScript a rest).alone s = authority a s >>= fun _ => rest.alone s := by
  rw [authorityScript, Script.alone_read]
  cases authority a s <;> rfl

end

theorem stageScript_alone (filename fileType : String) (sha : Option String)
    (allowReplace : Bool) (candidate : Uuid) (now : Time) (s : Store) :
    (stageScript filename fileType sha allowReplace candidate now).alone s =
      (stageCandidate filename fileType sha allowReplace
        (decide (s.document = none ∨ s.chunks = [])) candidate now s).map Prod.fst := by
  simp only [stageScript, stageCandidate, Script.alone_read, Script.alone_statement, supersedeAttempts,
    alone_updateAttempts, bind_assoc, pure_bind]
  cases hup : upsertRow filename fileType sha allowReplace
      (decide (s.document = none ∨ s.chunks = [])) candidate s with
  | error e => rfl
  | ok r =>
    obtain ⟨s', d⟩ := r
    obtain rfl := upsertRow_ok hup
    simp only [ok_bind, map_bind]
    exact bind_assoc _ _ _

theorem beginScript_alone (owner : String) (job : Option (Uuid × String)) (attempt : Uuid)
    (now : Time) (s : Store) :
    (beginScript owner job attempt now).alone s =
      (beginAttempt owner job attempt now s).map Prod.fst := by
  simp only [beginScript, beginAttempt, Script.alone_read, Script.alone_demand, Script.alone_require, map_bind]
  cases hd : s.document with
  | none => rfl
  | some d =>
    simp only [demand_some, ok_bind]
    refine bind_congr fun _ => bind_congr fun _ => bind_congr fun candidate => ?_
    cases hq : queueAdmits job now s with
    | error e => rfl
    | ok u =>
      simp only [ok_bind, Script.alone_require, supersedeAttempts, alone_updateAttempts]
      refine bind_congr fun _ => ?_
      refine (alone_updateRow (d := d) ?_).trans ?_
      · exact hd
      refine bind_congr fun t => ?_
      simp only [Script.alone_statement, bind_assoc, pure_bind]
      rfl

theorem outcomeScript_alone (a : IngestAttempt) (status : AttemptOutcome) (note : Option String)
    (now : Time) (s : Store) :
    (outcomeScript a status note now).alone s = recordAttemptOutcome a status note now s := by
  simp only [outcomeScript, recordAttemptOutcome, Script.alone_require, alone_authorityScript]
  congr 1
  funext _
  cases hd : authority a s with
  | error e => rfl
  | ok d =>
    have hdoc := (authority_ok.1 hd).1
    simp only [ok_bind, alone_updateAttempts]
    exact alone_updateRow_commit hdoc

omit [Deployment] in
theorem upsertScript_alone (rows : List (PreparedRow × Vectors)) (a : IngestAttempt) (s : Store) :
    (upsertScript rows a).alone s = upsertChunks rows a s := by
  simp only [upsertScript, upsertChunks, alone_authorityScript, Script.alone_statement, bind_assoc,
    pure_bind]
  rfl

theorem promoteScript_alone (generation expectedActive : ℕ) (manifestIds : List String)
    (contentSha256 : String) (candidate attempt : Uuid) (now : Time) (s : Store) :
    (promoteScript generation expectedActive manifestIds contentSha256 candidate attempt now).alone
        s =
      promoteGeneration generation expectedActive manifestIds contentSha256 candidate attempt now
        s := by
  simp only [promoteScript, runningRecordScript, swapScript, promoteGeneration, Script.alone_read,
    Script.alone_require]
  refine bind_congr fun _ => bind_congr fun _ => bind_congr fun _ => ?_
  cases hrun : runningRecord candidate attempt s with
  | error e => rfl
  | ok u =>
    simp only [ok_bind, Script.alone_statement]
    cases hd : s.document with
    | none =>
      have hnone : promotable expectedActive candidate attempt s = none := by
        simp [promotable, hd]
      simp [hnone, Script.alone_read, Script.alone, hd, demand]
    | some d =>
      by_cases hmatch : d.activeGeneration = expectedActive ∧ d.candidateId = some candidate ∧
          d.attemptId = some attempt
      · have hsome := promotable_some.2 ⟨hd, hmatch⟩
        simp only [hsome, demand_some, ok_bind, require_true hmatch, bind_assoc]
        cases hup : s.updateDocument d (d.promoted candidate generation contentSha256) with
        | error e => rfl
        | ok t =>
          obtain rfl := ((updateDocument_ok (by rfl)).1 hup).2
          simp only [ok_bind]
          cases ht : recordVersionActivation d (d.promoted candidate generation contentSha256)
              (s.withDocument (d.promoted candidate generation contentSha256)) with
          | error e => rfl
          | ok t =>
            obtain ⟨builds, rfl⟩ := recordVersionActivation_frame ht
            rfl
      · have hnone : promotable expectedActive candidate attempt s = none := by
          simpa [promotable, hd] using hmatch
        simp [hnone, Script.alone_read, Script.alone, hd, demand, require_false hmatch]

/-- Each transaction, run with nothing beside it, is the operation it is made of. -/
theorem Call.script_alone (c : Call) (s : Store) : c.script.alone s = c.perform s := by
  cases c with
  | stage => exact stageScript_alone _ _ _ _ _ _ _
  | begin => exact beginScript_alone _ _ _ _ _
  | outcome => exact outcomeScript_alone _ _ _ _ _
  | upsert => exact upsertScript_alone _ _ _
  | promote => exact promoteScript_alone _ _ _ _ _ _ _ _

/-! ## The order of the locks -/

section
variable {taken : Bool}

omit [Deployment] in
/-- One id names at most one row. -/
theorem attemptRows_of_id (s : Store) (id : Uuid) (q : AttemptRow → Prop) [DecidablePred q] :
    s.attemptRows (fun a => a.attemptId = id ∧ q a) = [] ∨
      s.attemptRows (fun a => a.attemptId = id ∧ q a) = [.attempt id] := by
  unfold Store.attemptRows
  generalize hl : (s.attempts.filter fun a => a.attemptId = id ∧ q a).map
    (fun a => Row.attempt a.attemptId) = l
  have hall : ∀ r ∈ l, r = .attempt id := by
    intro r hr
    rw [← hl] at hr
    obtain ⟨a, ha, rfl⟩ := List.mem_map.1 hr
    have hid : a.attemptId = id ∧ q a := by simpa using (List.mem_filter.1 ha).2
    rw [hid.1]
  rw [List.eq_replicate_of_mem hall]
  by_cases hlen : l.length = 0
  · left
    simp [hlen]
  · exact .inr (List.replicate_dedup hlen)

omit [Deployment] in
theorem gated_documentRow {next : Store → DocumentScript}
    (h : ∀ s, s.document = none → (next s).Gated .document taken) :
    (Script.read Store.documentRow next).Gated .document taken := by
  intro s
  by_cases hd : s.document = none
  · exact .inr (.inl ⟨if_pos hd, fun f hf => ⟨(Except.ok.inj hf).symm, h s hd⟩⟩)
  · exact .inl (if_neg hd)

omit [Deployment] in
theorem gated_read {next : Store → DocumentScript} (h : ∀ s, (next s).Gated .document taken) :
    (Script.read (fun _ => []) next).Gated .document taken :=
  fun s => .inr (.inl ⟨rfl, fun _ hf => ⟨(Except.ok.inj hf).symm, h s⟩⟩)

omit [Deployment] in
theorem gated_authority {a : IngestAttempt} {rest : DocumentScript} :
    (authorityScript a rest).Gated .document taken := by
  refine gated_documentRow fun s hd => ?_
  have hrefused : authority a s =
      .error (.attemptLeaseLost "belge kaydi yok; bu deneme gecersiz") := by
    simp [authority, demand, hd]
  rw [hrefused]
  trivial

omit [Deployment] in
theorem gated_runningRecord {candidate attempt : Uuid} {rest : DocumentScript}
    (h : ∀ taken, rest.Gated .document taken) :
    (runningRecordScript candidate attempt rest).Gated .document false := by
  have hnext : ∀ taken s, (match runningRecord candidate attempt s with
      | .ok () => rest
      | .error e => .abort e : DocumentScript).Gated .document taken := by
    intro taken s
    cases runningRecord candidate attempt s with
    | error e => trivial
    | ok u => exact h taken
  intro s
  rcases attemptRows_of_id s attempt fun a => a.candidateId = candidate with hnone | hone
  · exact .inr (.inl ⟨hnone, fun f hf => ⟨(Except.ok.inj hf).symm, hnext false s⟩⟩)
  · exact .inr (.inr ⟨rfl, _, hone, fun s' f hf => ⟨(Except.ok.inj hf).symm, hnext true s'⟩⟩)

theorem gated_swap (generation expectedActive : ℕ) (contentSha256 : String)
    (candidate attempt : Uuid) (now : Time) :
    (swapScript generation expectedActive contentSha256 candidate attempt now).Gated .document
      taken := by
  intro s
  cases hp : promotable expectedActive candidate attempt s with
  | some d => exact .inl (by simp [hp])
  | none =>
    refine .inr (.inl ⟨if_pos hp, fun f hf => ⟨?_, ?_⟩⟩)
    · simp only [hp] at hf
      exact (Except.ok.inj hf).symm
    · simp only [hp]
      exact gated_read fun _ => trivial

theorem Call.gated (c : Call) : c.script.Gated .document false := by
  cases c with
  | stage =>
    intro s
    refine .inr (.inr ⟨rfl, .filename, rfl, fun s' f hf => ⟨(Except.ok.inj hf).symm, ?_⟩⟩)
    exact gated_read fun _ _ => Or.inl rfl
  | begin =>
    refine gated_documentRow fun s hd => ?_
    rw [hd]
    trivial
  | outcome => exact gated_require fun _ => gated_authority
  | upsert => exact gated_authority
  | promote =>
    refine gated_require fun _ => gated_require fun _ => gated_read fun s => gated_require fun _ => ?_
    exact gated_runningRecord fun _ => gated_swap _ _ _ _ _ _

end

end

end RagPipeline.Index

/-! # Who waits for whom

The transactions of one document in any interleaving of their statements. The
document row is the gate: only a promotion has a row before it. A promotion
that proves its record while a transaction behind the gate is still to write
that record ends in a deadlock; in every run where that does not happen no two
transactions wait for each other. -/

namespace RagPipeline.Index
open Locks Transition

section
variable [Deployment]

/-- Any number of calls on one document, over any rows. -/
def documentLocks (τ : Type) [DecidableEq τ] : System (Locks.World τ Store Row Refusal) (Event τ) :=
  lockSystem τ (fun _ => True) fun p => ∃ c : Call, p = c.script

theorem calm_runs_never_deadlock {τ : Type} [DecidableEq τ] {w : Locks.World τ Store Row Refusal}
    (h : ((documentLocks τ).only (Calm .document)).Reachable w) (t u : τ) :
    ¬ (w.waits t u ∧ w.waits u t) := by
  refine no_mutual_wait excludes_iff ?_ h
  rintro p ⟨c, rfl⟩
  exact c.gated

end

section
attribute [local instance] sampleDeployment

/-- One attempt whose lease has run out, with everything staged. -/
def contendedStore : Store where
  document := some { insertedRow "a.pdf" "pdf" (some "ozet") 5 with
    candidateState := some .published
    attemptId := some 1
    attemptOwner := some "w"
    attemptExpiresAt := some 10 }
  versions := [⟨5, 1, "ozet"⟩]
  attempts := [⟨1, 5, "ozet", 0, "w", none, none, none⟩]
  chunks := [⟨"c", some 5, "metin", "p1", ⟨"d", "s"⟩, 1, none, none⟩]
  builds := []
  jobs := []
  holds := []
  purgeJobs := []
  policy := none
  policyEpoch := 0

/-- The worker promotes while another takes its lease over. -/
def contendedWorld : Locks.World Bool Store Row Refusal where
  committed := contendedStore
  transactions
    | true => .new (Call.promote 1 0 ["c"] "ozet" 5 1 20).script
    | false => .new (Call.begin "v" none 2 20).script
  locks := []

theorem contendedWorld_initial : (documentLocks Bool).initial contendedWorld := by
  refine ⟨trivial, rfl, fun t => ?_⟩
  cases t with
  | true => exact ⟨_, ⟨_, rfl⟩, rfl⟩
  | false => exact ⟨_, ⟨_, rfl⟩, rfl⟩

/-- A step that gives nothing out, or meets no other lock. -/
def quietExec (w : Locks.World Bool Store Row Refusal) (e : Event Bool) :
    Option (Locks.World Bool Store Row Refusal) :=
  if (w.transactions e.who).awaiting = [] ∨ ∀ l ∈ w.locks, l.1 = e.who then w.happen e else none

theorem quietExec_calm {w w' : Locks.World Bool Store Row Refusal} {e : Event Bool}
    (h : quietExec w e = some w') :
    ((documentLocks Bool).only (Calm .document)).step w e w' := by
  unfold quietExec at h
  split at h
  case isTrue hquiet => exact ⟨calm_of_alone hquiet, h⟩
  case isFalse => cases h

/-- The promotion has both its rows when the takeover comes. -/
def promotedFirst : List (Event Bool) :=
  [.step true, .step true, .step true, .step true, .step true, .step false]

def queuedWorld : Locks.World Bool Store Row Refusal :=
  (System.play quietExec contendedWorld promotedFirst).getD contendedWorld

theorem queuedWorld_calm : ((documentLocks Bool).only (Calm .document)).Reachable queuedWorld := by
  have hplay : System.play quietExec contendedWorld promotedFirst = some queuedWorld := rfl
  exact System.reachable_play (fun _ _ _ => quietExec_calm) (.start contendedWorld_initial) hplay

theorem calm_runs_never_deadlock_queued : queuedWorld.waits false true ∧
    ¬ queuedWorld.waits true false := by
  have hwaits : queuedWorld.waits false true :=
    ⟨by decide, .document, rfl, .document, .head _, rfl⟩
  exact ⟨hwaits, fun h => calm_runs_never_deadlock queuedWorld_calm false true ⟨hwaits, h⟩⟩

/-- The promotion locks its record, the takeover the document; then each goes on. -/
def crossing : List (Event Bool) :=
  [.step true, .step true, .step true, .step false, .step false, .step false, .step false,
    .step true]

def crossedWorld : Locks.World Bool Store Row Refusal :=
  (System.play Locks.World.happen contendedWorld crossing).getD contendedWorld

theorem crossedWorld_locks :
    crossedWorld.locks = [(false, .document), (true, .attempt 1)] := rfl

theorem promotion_deadlocks : ∃ w, (documentLocks Bool).Reachable w ∧
    w.waits true false ∧ w.waits false true := by
  have hplay : System.play Locks.World.happen contendedWorld crossing = some crossedWorld := rfl
  have hreach : (documentLocks Bool).Reachable crossedWorld :=
    System.reachable_play (fun _ _ _ h => h) (.start contendedWorld_initial) hplay
  refine ⟨crossedWorld, hreach, ⟨by decide, .document, rfl, .document, ?_, rfl⟩,
    ⟨by decide, .attempt 1, rfl, .attempt 1, ?_, rfl⟩⟩
  · simp [Locks.World.holds, crossedWorld_locks]
  · simp [Locks.World.holds, crossedWorld_locks]

end

end RagPipeline.Index
