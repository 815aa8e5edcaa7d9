import RagPipeline.Index.OneAttempt

/-! # What a transaction does to what is served

Six kinds of steps: most leave the stored chunks, the receipts and the served
pointer alone, and each of the others changes them in one way. -/

set_option autoImplicit false

namespace RagPipeline.Index
open Guard Table Transition Fence

namespace Store

/-- The served version, its generation and the digest of its bytes. -/
def active (s : Store) : Option Uuid × ℕ × Option String :=
  match s.document with
  | none => (none, 0, none)
  | some d => (d.activeVersionId, d.activeGeneration, d.activeContentSha)

def isPurged (s : Store) : Prop := ∃ d, s.document = some d ∧ d.purgedAt ≠ none

def counter (s : Store) : ℕ :=
  match s.document with
  | none => 0
  | some d => d.lastGeneration

end Store

section
variable {s s' : Store} {d new : DocumentRow}

theorem active_row (hd : s.document = some d) :
    s.active = (d.activeVersionId, d.activeGeneration, d.activeContentSha) := by
  simp [Store.active, hd]

theorem counter_row (hd : s.document = some d) : s.counter = d.lastGeneration := by
  simp [Store.counter, hd]

theorem isPurged_row (hd : s.document = some d) : s.isPurged ↔ d.purgedAt ≠ none := by
  simp [Store.isPurged, hd]

/-- The columns of the row that say what is served. -/
structure SameRow (s s' : Store) : Prop where
  active : s'.active = s.active
  counter : s'.counter = s.counter
  purged : s'.isPurged ↔ s.isPurged

theorem SameRow.of_document (h : s'.document = s.document) : SameRow s s' where
  active := by simp [Store.active, h]
  counter := by simp [Store.counter, h]
  purged := by simp [Store.isPurged, h]

theorem SameRow.of_row (hd : s.document = some d) (hs' : s'.document = some new)
    (hactive : (new.activeVersionId, new.activeGeneration, new.activeContentSha) =
      (d.activeVersionId, d.activeGeneration, d.activeContentSha))
    (hcounter : new.lastGeneration = d.lastGeneration) (hpurged : new.purgedAt = d.purgedAt) :
    SameRow s s' where
  active := by rw [active_row hd, active_row hs', hactive]
  counter := by rw [counter_row hd, counter_row hs', hcounter]
  purged := by rw [isPurged_row hd, isPurged_row hs', hpurged]

end

/-- A running attempt and a generation that is its own. -/
structure Holds (w : World) (a : AttemptRow) (generation : ℕ) : Prop where
  mem : a ∈ w.store.attempts
  running : a.status = none
  own : (a.attemptId, generation) ∈ w.allocated

structure SameBuilds (w w' : World) : Prop where
  builds : w'.store.builds = w.store.builds
  promoted : w'.promoted = w.promoted

/-- Nothing that is served, staged or handed out has changed. -/
structure Quiet (w w' : World) : Prop where
  row : SameRow w.store w'.store
  chunks : w'.store.chunks = w.store.chunks
  allocated : w'.allocated = w.allocated
  builds : SameBuilds w w'

section
variable [Deployment]

inductive Footprint (w w' : World) : Prop where
  | quiet (same : Quiet w w')
  | allocate (attempt : Uuid) (active : w'.store.active = w.store.active)
      (purged : w'.store.isPurged ↔ w.store.isPurged)
      (counter : w'.store.counter = w.store.counter + 1)
      (chunks : w'.store.chunks = w.store.chunks)
      (allocated : w'.allocated = w.allocated ++ [(attempt, w.store.counter + 1)])
      (builds : SameBuilds w w')
  | fill (row : SameRow w.store w'.store) (allocated : w'.allocated = w.allocated)
      (builds : SameBuilds w w') (subset : w.store.chunks ⊆ w'.store.chunks)
      (staged : ∀ c ∈ w'.store.chunks, c ∈ w.store.chunks ∨
        ∃ a, Holds w a c.generation ∧ c.versionId = some a.candidateId ∧
          ∃ chunk index, c.id = chunkId chunk index c.generation)
      (distinct : (w.store.chunks.map ChunkRow.id).Nodup → (w'.store.chunks.map ChunkRow.id).Nodup)
  | promote (a : AttemptRow) (generation : ℕ) (ids : Finset String) (version : VersionRow)
      (live : ¬ w.store.isPurged) (holds : Holds w a generation)
      (mem : version ∈ w.store.versions)
      (candidate : version.id = a.candidateId)
      (staged : ((w.store.build version.id generation).map ChunkRow.id).toFinset = ids)
      (nonempty : 1 ≤ (w.store.build version.id generation).length)
      (closed : ∀ a' ∈ w'.store.attempts, a'.attemptId = a.attemptId → a'.status ≠ none)
      (builds : w'.store.builds = w.store.builds ++ [⟨version.id, generation,
        version.contentSha256, a.attemptId, (w.store.build version.id generation).length⟩])
      (promoted : w'.promoted = w.promoted ++ [⟨version.id, generation, ids⟩])
      (chunks : w'.store.chunks =
        deleteWhere (fun c => ¬ w'.store.retains version.id generation c) w.store.chunks)
      (active : w'.store.active = (some version.id, generation, some version.contentSha256))
      (purged : w'.store.isPurged ↔ w.store.isPurged)
      (counter : w'.store.counter = w.store.counter) (allocated : w'.allocated = w.allocated)
  | activate (b : BuildRow) (mem : b ∈ w.store.builds)
      (active : w'.store.active = (some b.versionId, b.generation, some b.contentSha256))
      (purged : w'.store.isPurged ↔ w.store.isPurged)
      (counter : w'.store.counter = w.store.counter) (chunks : w'.store.chunks = w.store.chunks)
      (allocated : w'.allocated = w.allocated) (builds : SameBuilds w w')
  | purge (purged : w'.store.isPurged) (counter : w'.store.counter = w.store.counter)
      (chunks : w'.store.chunks = []) (allocated : w'.allocated = w.allocated)
      (builds : SameBuilds w w')

/-- A row of a generation that was handed to the attempt, under the id of it. -/
def PreparedRow.ownedBy (row : PreparedRow) (attempt : Uuid) (w : World) : Prop :=
  (attempt, row.generation) ∈ w.allocated ∧ ∃ c index, row.id = chunkId c index row.generation

/-- What an ingest asks for: it stages and promotes generations of its own. -/
def Action.orderly (w : World) : Action → Prop
  | .upsert rows a => ∀ row ∈ rows, row.1.ownedBy a.attemptId w
  | .copy rows a => ∀ row ∈ rows, row.ownedBy a.attemptId w
  | .promote generation _ _ _ _ attempt _ => (attempt, generation) ∈ w.allocated
  | _ => True

end

section
variable [Deployment] {w w' : World}

/-- The documents that only an ingest fills. -/
def orderlySystem : System World Action := documentSystem.only Action.orderly

/-- The steps that are orderly whatever the world. -/
def Action.plain : Action → Bool
  | .upsert _ _ | .copy _ _ | .promote _ _ _ _ _ _ _ => false
  | _ => true

theorem reachable_plain {l : List Action}
    (h : System.play (fun w a => if a.plain then a.exec w else none) World.empty l = some w) :
    orderlySystem.Reachable w := by
  refine System.reachable_play (fun s a s' hs => ?_) (.start empty_initial) h
  cases a <;> first
    | exact ⟨trivial, exec_step hs⟩
    | cases hs

theorem orderly_next {act : Action} (h : orderlySystem.Reachable w) (hown : act.orderly w)
    (hs : act.exec w = some w') : orderlySystem.Reachable w' := h.next ⟨hown, exec_step hs⟩

omit [Deployment] in
/-- Who passes the authority check has a running record. -/
theorem authority_holder {a : IngestAttempt} {d : DocumentRow} (hs : w.store.exclusive)
    (h : authority a w.store = .ok d) : ∃ row ∈ w.store.attempts, row.attemptId = a.attemptId ∧
      row.status = none ∧ row.candidateId = a.candidateId := by
  obtain ⟨hd, hcand, hatt⟩ := authority_ok.1 h
  obtain ⟨-, row, hrow, hid, hr⟩ := hs.held _ ((fence_holder hd).trans hatt)
  have hsame := (running_subject hs hd hrow hr).1.symm.trans hcand
  exact ⟨row, hrow, hid, hr, Option.some.inj hsame⟩

theorem stage_quiet {filename fileType : String} {sha : Option String}
    {allowReplace fresh : Bool} {candidate : Uuid} {now : Time} {r : Store × Option Uuid × String}
    (h : stageCandidate filename fileType sha allowReplace fresh candidate now w.store = .ok r) :
    Quiet w (w.withStore r.1) := by
  obtain ⟨d, hrow, -, rfl⟩ := stageCandidate_ok h
  obtain ⟨n, versions, hreg⟩ := @registerVersion_eq (w.store.withDocument d) _ sha rfl
  simp only [hreg]
  refine ⟨?_, rfl, rfl, ⟨rfl, rfl⟩⟩
  rcases hrow with ⟨hnone, rfl⟩ | ⟨old, hold, rfl, -, -⟩
  · constructor <;>
      simp [Store.active, Store.counter, Store.isPurged, Store.supersede, hnone, insertedRow]
  · by_cases hkeep : old.keepsCandidate sha
    · rw [staged_keep hkeep]
      exact .of_row hold rfl rfl rfl rfl
    · refine .of_row hold rfl ?_ ?_ ?_ <;> simp [DocumentRow.staged, if_neg hkeep]

theorem finalize_quiet {candidate : Uuid} {r : Store × Bool}
    (h : finalizeCandidatePublication candidate w.store = .ok r) :
    Quiet w (w.withStore r.1) := by
  rcases finalizeCandidatePublication_ok h with ⟨h, -⟩ | ⟨d, hd, -, rfl⟩
  · rw [h]
    exact ⟨(.of_document rfl), rfl, rfl, ⟨rfl, rfl⟩⟩
  · exact ⟨(.of_row hd rfl rfl rfl rfl), rfl, rfl, ⟨rfl, rfl⟩⟩

theorem begin_quiet {owner : String} {job : Option (Uuid × String)} {attempt : Uuid}
    {now : Time} {r : Store × IngestAttempt}
    (h : beginAttempt owner job attempt now w.store = .ok r) : Quiet w (w.withStore r.1) := by
  obtain ⟨d, candidate, sha, hd, -, -, -, -, -, -, -, -, -, hr, -⟩ := beginAttempt_ok h
  rw [hr]
  exact ⟨(.of_row hd rfl rfl rfl rfl), rfl, rfl, ⟨rfl, rfl⟩⟩

theorem heartbeat_quiet {a : IngestAttempt} {now : Time} {s : Store}
    (h : heartbeatAttempt a now w.store = .ok s) : Quiet w (w.withStore s) := by
  obtain ⟨d, t, hauth, rfl⟩ := heartbeatAttempt_ok h
  exact ⟨(.of_row (authority_ok.1 hauth).1 rfl rfl rfl rfl), rfl, rfl, ⟨rfl, rfl⟩⟩

theorem recordOutcome_quiet {a : IngestAttempt} {status : AttemptOutcome}
    {note : Option String} {now : Time} {s : Store}
    (h : recordAttemptOutcome a status note now w.store = .ok s) :
    Quiet w (w.withStore s) := by
  obtain ⟨d, hauth, -, rfl⟩ := recordAttemptOutcome_ok h
  exact ⟨(.of_row (authority_ok.1 hauth).1 rfl rfl rfl rfl), rfl, rfl, ⟨rfl, rfl⟩⟩

theorem allocate_footprint {a : IngestAttempt} {r : Store × ℕ}
    (h : allocateGeneration a w.store = .ok r) : Footprint w
      { w with store := r.1, allocated := w.allocated ++ [(a.attemptId, r.2)] } := by
  obtain ⟨d, hauth, rfl⟩ := allocateGeneration_ok h
  have hd := (authority_ok.1 hauth).1
  refine .allocate a.attemptId ?_ ?_ ?_ rfl ?_ ⟨rfl, rfl⟩
  · rw [active_row hd]
    rfl
  · rw [isPurged_row hd, isPurged_row rfl]
  · rw [counter_row hd]
    rfl
  · rw [counter_row hd]

theorem upsert_footprint {rows : List (PreparedRow × Vectors)} {a : IngestAttempt} {s : Store}
    (hs : w.store.exclusive) (hown : Action.orderly w (.upsert rows a))
    (h : upsertChunks rows a w.store = .ok s) : Footprint w (w.withStore s) := by
  obtain ⟨d, hauth, rfl⟩ := upsertChunks_ok h
  obtain ⟨row, hrow, hid, hr, hcand⟩ := authority_holder hs hauth
  refine .fill (.of_document rfl) rfl ⟨rfl, rfl⟩ subset_insertAll (fun c hc => ?_) nodup_insertAll
  refine (mem_insertAll hc).imp_right fun ⟨hnew, _⟩ => ?_
  obtain ⟨⟨prepared, vectors⟩, hmem, rfl⟩ := List.mem_map.1 hnew
  obtain ⟨hgen, hname⟩ := hown _ hmem
  exact ⟨row, ⟨hrow, hr, hid ▸ hgen⟩, congrArg some hcand.symm, hname⟩

theorem copy_footprint {rows : List PreparedRow} {a : IngestAttempt} {s : Store}
    (hs : w.store.exclusive) (hown : Action.orderly w (.copy rows a))
    (h : copyChunksIntoGeneration rows a w.store = .ok s) : Footprint w (w.withStore s) := by
  obtain ⟨d, hauth, rfl⟩ := copyChunksIntoGeneration_ok h
  obtain ⟨row, hrow, hid, hr, hcand⟩ := authority_holder hs hauth
  refine .fill (.of_document rfl) rfl ⟨rfl, rfl⟩ subset_copyRows (fun c hc => ?_) nodup_copyRows
  refine (mem_copyRows hc).imp_right fun ⟨_, prepared, hmem, vectors, hnew⟩ => ?_
  subst hnew
  obtain ⟨hgen, hname⟩ := hown _ hmem
  exact ⟨row, ⟨hrow, hr, hid ▸ hgen⟩, congrArg some hcand.symm, hname⟩

theorem promote_footprint {generation expectedActive : ℕ} {manifestIds : List String}
    {sha : String} {candidate attempt : Uuid} {now : Time} {s : Store}
    (hs : w.store.exclusive) (hown : (attempt, generation) ∈ w.allocated)
    (hunbuilt : ∀ a g, Holds w a g → ¬ w.store.isPurged →
      (a.candidateId, g) ∉ w.store.builds.map BuildRow.key ∧
        ¬ (w.store.active.1 = some a.candidateId ∧ w.store.active.2.1 = g))
    (h : promoteGeneration generation expectedActive manifestIds sha candidate attempt now w.store =
      .ok s) : Footprint w { w with
        store := s
        promoted := w.promoted ++ [⟨candidate, generation, manifestIds.toFinset⟩] } := by
  obtain ⟨-, -, hstaged, hrun, d, hd, -, hcand, hatt, hlive, t, ht, hs'⟩ := promoteGeneration_ok.1 h
  obtain ⟨a, hfind, hr⟩ := runningRecord_ok.1 hrun
  have ha := List.mem_of_find?_eq_some hfind
  have hids := List.find?_some hfind
  simp only [decide_eq_true_eq] at hids
  obtain ⟨rfl, rfl⟩ := hids
  have hunpurged : d.purgedAt = none := by
    refine hlive.resolve_right fun heq => ?_
    rw [← heq] at hatt
    cases hatt
  have hnot : ¬ w.store.isPurged := by
    rw [isPurged_row hd]
    exact not_not.2 hunpurged
  have hnew := hunbuilt a generation ⟨ha, hr, hown⟩ hnot
  rw [active_row hd] at hnew
  have hmoved : ¬ (some a.candidateId = d.activeVersionId ∧ generation = d.activeGeneration) :=
    fun heq => hnew.2 ⟨heq.1.symm, heq.2.symm⟩
  obtain ⟨v, hv, hcount, hsha, hreceipt, -⟩ := (recordVersionActivation_ok rfl hmoved).1 ht
  have hvid : v.id = a.candidateId := by simpa using List.find?_some hv
  have hvmem : v ∈ w.store.versions := List.mem_of_find?_eq_some hv
  rcases receipt_ok hreceipt with ⟨hfree, -⟩ | ⟨attempt, hattempt, -, -, rfl⟩
  · rw [hatt] at hfree
    cases hfree
  obtain rfl : a.attemptId = attempt := Option.some.inj (hatt.symm.trans hattempt)
  have hbuilds : insertNew BuildRow.key w.store.builds ⟨v.id, generation, v.contentSha256,
      a.attemptId, (w.store.build a.candidateId generation).length⟩ = w.store.builds ++
        [⟨v.id, generation, v.contentSha256, a.attemptId,
          (w.store.build a.candidateId generation).length⟩] :=
    if_neg (by rw [BuildRow.key, hvid]; exact hnew.1)
  subst hs'
  refine .promote a generation manifestIds.toFinset v hnot ⟨ha, hr, hown⟩ hvmem hvid ?_ ?_ ?_ ?_ ?_
    ?_ ?_ ?_ ?_ rfl
  · rw [hvid]
    exact hstaged
  · rw [hvid]
    exact hcount
  · intro a' ha' hid' hopen
    rcases mem_updateWhere.1 ha' with ⟨e, -, -, rfl⟩ | ⟨hmem, hskip⟩
    · cases hopen
    · obtain rfl : a' = a := hs.ident_inj hmem ha hid'
      exact hskip ⟨rfl, rfl, hr⟩
  · rw [hvid] at hbuilds ⊢
    exact hbuilds
  · rw [hvid]
  · rw [hvid]
    rfl
  · rw [hvid, hsha]
    exact active_row (d := d.promoted a.candidateId generation sha) rfl
  · rw [isPurged_row hd, isPurged_row rfl]
    rfl
  · rw [counter_row hd, counter_row rfl]
    rfl

theorem activate_footprint {version : Uuid} {expectedRevision : ℕ} {sha : String}
    {r : Store × Option Activation}
    (h : activateDocumentVersion version expectedRevision sha w.store = .ok r) :
    Footprint w (w.withStore r.1) := by
  rcases activateDocumentVersion_ok h with
    h | ⟨d, v, b, t, hd, hatt, -, -, -, -, -, -, hmoved, ht, rfl⟩
  · rw [h]
    exact .quiet ⟨.of_document rfl, rfl, rfl, ⟨rfl, rfl⟩⟩
  · have hmoved' : ¬ (some version = d.activeVersionId ∧ b.generation = d.activeGeneration) :=
      fun heq => hmoved ⟨heq.1.symm, heq.2.symm⟩
    obtain ⟨v', -, -, -, hreceipt, b', hb', hcert⟩ := (recordVersionActivation_ok rfl hmoved').1 ht
    rcases receipt_ok hreceipt with ⟨-, rfl⟩ | ⟨attempt, hattempt, -⟩
    · obtain ⟨hversion, hgeneration, hdigest, -, -⟩ := hcert
      refine .activate b' hb' ?_ ?_ ?_ rfl rfl ⟨rfl, rfl⟩
      · rw [hversion, hgeneration, hdigest]
        exact active_row rfl
      · rw [isPurged_row hd, isPurged_row rfl]
        rfl
      · rw [counter_row hd, counter_row rfl]
        rfl
    · rw [hatt] at hattempt
      cases hattempt

theorem archive_quiet {archived : Bool} {now : Time} {r : Store × Option (Option Time)}
    (h : setDocumentArchived archived now w.store = .ok r) : Quiet w (w.withStore r.1) := by
  rcases setDocumentArchived_ok h with h | ⟨d, hd, -, -, -, -, hr⟩
  · rw [h]
    exact ⟨(.of_document rfl), rfl, rfl, ⟨rfl, rfl⟩⟩
  · rw [hr]
    exact ⟨(.of_row hd rfl rfl rfl rfl), rfl, rfl, ⟨rfl, rfl⟩⟩

theorem purge_footprint {worker : String} {maxAttempts : ℕ} {now : Time} {s : Store}
    (h : claimed worker maxAttempts now w.store
      (fun s claim => completeDocumentPurge claim.jobId worker now s) = .ok s) :
    Footprint w (w.withStore s) := by
  obtain ⟨r, hclaim, hdone⟩ := claimed_ok.1 h
  obtain ⟨d, job, hd, -, -, -, hr, -⟩ := claimDocumentPurge_some hclaim
  obtain ⟨-, d', hd', -, -, -, -, -, rfl⟩ := completeDocumentPurge_ok.1 hdone
  rw [hr] at hd'
  obtain rfl : d = d' := Option.some.inj (hd.symm.trans hd')
  refine .purge ?_ ?_ rfl rfl ⟨?_, rfl⟩
  · exact ⟨_, rfl, by simp [DocumentRow.purged]⟩
  · rw [counter_row hd, counter_row rfl]
    rfl
  · rw [hr]
    rfl

omit [Deployment] in
theorem failPurge_quiet {worker failureCode : String} {maxAttempts : ℕ} {now : Time}
    {s : Store} (h : claimed worker maxAttempts now w.store
      (fun s claim => failDocumentPurge claim.jobId worker failureCode s) = .ok s) :
    Quiet w (w.withStore s) := by
  obtain ⟨r, hclaim, hdone⟩ := claimed_ok.1 h
  obtain ⟨d, job, -, -, -, -, hr, -⟩ := claimDocumentPurge_some hclaim
  rw [failDocumentPurge_ok hdone, hr]
  exact ⟨(.of_document rfl), rfl, rfl, ⟨rfl, rfl⟩⟩

theorem Footprint.allocated_subset (h : Footprint w w') : w.allocated ⊆ w'.allocated := by
  cases h with
  | allocate attempt active purged counter chunks allocated builds => rw [allocated]; simp
  | quiet same => rw [same.allocated]; simp
  | fill row allocated builds subset staged distinct => rw [allocated]; simp
  | promote a generation ids version live holds mem candidate staged nonempty closed builds
      promoted chunks active purged counter allocated => rw [allocated]; simp
  | activate b mem active purged counter chunks allocated builds => rw [allocated]; simp
  | purge purged counter chunks allocated builds => rw [allocated]; simp

theorem step_footprint {act : Action} (hs : w.store.exclusive)
    (hunbuilt : ∀ a g, Holds w a g → ¬ w.store.isPurged →
      (a.candidateId, g) ∉ w.store.builds.map BuildRow.key ∧
        ¬ (w.store.active.1 = some a.candidateId ∧ w.store.active.2.1 = g))
    (h : orderlySystem.step w act w') : Footprint w w' := by
  obtain ⟨hown, -, h⟩ := h
  cases act <;> simp only [Action.perform, bind_ok, pure_ok] at h
  case stage =>
    obtain ⟨r, h, rfl⟩ := h
    exact .quiet (stage_quiet h)
  case finalize =>
    obtain ⟨r, h, rfl⟩ := h
    exact .quiet (finalize_quiet h)
  case begin =>
    obtain ⟨r, h, rfl⟩ := h
    exact .quiet (begin_quiet h)
  case heartbeat =>
    obtain ⟨s, h, rfl⟩ := h
    exact .quiet (heartbeat_quiet h)
  case recordOutcome =>
    obtain ⟨s, h, rfl⟩ := h
    exact .quiet (recordOutcome_quiet h)
  case allocate =>
    obtain ⟨r, h, rfl⟩ := h
    exact allocate_footprint h
  case upsert =>
    obtain ⟨s, h, rfl⟩ := h
    exact upsert_footprint hs hown h
  case copy =>
    obtain ⟨s, h, rfl⟩ := h
    exact copy_footprint hs hown h
  case promote =>
    obtain ⟨s, h, rfl⟩ := h
    exact promote_footprint hs hown hunbuilt h
  case activate =>
    obtain ⟨r, h, rfl⟩ := h
    exact activate_footprint h
  case archive =>
    obtain ⟨r, h, rfl⟩ := h
    exact .quiet (archive_quiet h)
  case setPolicy =>
    obtain ⟨s, h, rfl⟩ := h
    rw [updateTenantRetentionPolicy_ok h]
    exact .quiet ⟨.of_document rfl, rfl, rfl, ⟨rfl, rfl⟩⟩
  case hold =>
    obtain ⟨s, h, rfl⟩ := h
    obtain ⟨d, -, -, -, rfl⟩ := createDocumentLegalHold_ok h
    exact .quiet ⟨.of_document rfl, rfl, rfl, ⟨rfl, rfl⟩⟩
  case release =>
    obtain ⟨s, h, rfl⟩ := h
    rw [releaseDocumentLegalHold_ok h]
    exact .quiet ⟨.of_document rfl, rfl, rfl, ⟨rfl, rfl⟩⟩
  case schedule =>
    obtain ⟨s, h, rfl⟩ := h
    obtain ⟨d, archivedAt, -, -, -, -, -, -, -, -, rfl⟩ := scheduleDocumentPurge_ok h
    exact .quiet ⟨.of_document rfl, rfl, rfl, ⟨rfl, rfl⟩⟩
  case purge =>
    obtain ⟨s, h, rfl⟩ := h
    exact purge_footprint h
  case failPurge =>
    obtain ⟨s, h, rfl⟩ := h
    exact .quiet (failPurge_quiet h)
  case queue =>
    obtain rfl := Except.ok.inj h
    exact .quiet ⟨.of_document rfl, rfl, rfl, ⟨rfl, rfl⟩⟩

/-- While an attempt holds the lease, whoever writes in no attempt's name
changes nothing that is served or staged. -/
theorem held_quiet {act : Action} {attempt : Uuid} (hheld : w.store.fence.holder = some attempt)
    (hact : act.actor = none) (h : documentSystem.step w act w') : Quiet w w' := by
  obtain ⟨-, h⟩ := h
  cases act <;> simp only [Action.actor, reduceCtorEq] at hact <;>
    simp only [Action.perform, bind_ok, pure_ok] at h
  case stage =>
    obtain ⟨r, h, rfl⟩ := h
    exact stage_quiet h
  case finalize =>
    obtain ⟨r, h, rfl⟩ := h
    exact finalize_quiet h
  case begin =>
    obtain ⟨r, h, rfl⟩ := h
    exact begin_quiet h
  case activate =>
    obtain ⟨r, h, rfl⟩ := h
    rcases activateDocumentVersion_ok h with h | ⟨d, v, b, t, hd, hfree, -⟩
    · rw [h]
      exact ⟨.of_document rfl, rfl, rfl, ⟨rfl, rfl⟩⟩
    · rw [fence_holder hd, hfree] at hheld
      cases hheld
  case archive =>
    obtain ⟨r, h, rfl⟩ := h
    exact archive_quiet h
  case setPolicy =>
    obtain ⟨s, h, rfl⟩ := h
    rw [updateTenantRetentionPolicy_ok h]
    exact ⟨.of_document rfl, rfl, rfl, ⟨rfl, rfl⟩⟩
  case hold =>
    obtain ⟨s, h, rfl⟩ := h
    obtain ⟨d, -, -, -, rfl⟩ := createDocumentLegalHold_ok h
    exact ⟨.of_document rfl, rfl, rfl, ⟨rfl, rfl⟩⟩
  case release =>
    obtain ⟨s, h, rfl⟩ := h
    rw [releaseDocumentLegalHold_ok h]
    exact ⟨.of_document rfl, rfl, rfl, ⟨rfl, rfl⟩⟩
  case schedule =>
    obtain ⟨s, h, rfl⟩ := h
    obtain ⟨d, archivedAt, -, -, -, -, -, -, -, -, rfl⟩ := scheduleDocumentPurge_ok h
    exact ⟨.of_document rfl, rfl, rfl, ⟨rfl, rfl⟩⟩
  case purge =>
    obtain ⟨s, h, rfl⟩ := h
    obtain ⟨r, hclaim, -⟩ := claimed_ok.1 h
    obtain ⟨d, job, hd, -, -, hgate, -, -⟩ := claimDocumentPurge_some hclaim
    rw [fence_holder hd, hgate.2.2.1] at hheld
    cases hheld
  case failPurge =>
    obtain ⟨s, h, rfl⟩ := h
    exact failPurge_quiet h
  case queue =>
    obtain rfl := Except.ok.inj h
    exact ⟨.of_document rfl, rfl, rfl, ⟨rfl, rfl⟩⟩

end

end RagPipeline.Index
