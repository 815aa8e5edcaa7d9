import RagPipeline.Index.System
import RagPipeline.Lib.Fence

/-! # One live attempt

The document row and the attempts beside it are a fenced resource: each
transaction is one move of it, and so at most one attempt is unfinished, it is
the one the row names, and nothing an attempt whose record is closed asks for
is ever committed. -/

set_option autoImplicit false

namespace RagPipeline.Index
open Guard Table Transition Fence

/-- What an attempt works on: a candidate with its digest, over the generation
that is served. -/
structure Subject where
  candidateId : Uuid
  contentSha256 : String
  activeGeneration : ℕ
deriving DecidableEq

def DocumentRow.subject (d : DocumentRow) : Option Subject :=
  match d.candidateId, d.contentSha256 with
  | some candidate, some sha => some ⟨candidate, sha, d.activeGeneration⟩
  | _, _ => none

theorem subject_some {d : DocumentRow} {x : Subject} : d.subject = some x ↔
    d.candidateId = some x.candidateId ∧ d.contentSha256 = some x.contentSha256 ∧
      d.activeGeneration = x.activeGeneration := by
  obtain ⟨candidate, sha, generation⟩ := x
  unfold DocumentRow.subject
  cases d.candidateId <;> cases d.contentSha256 <;> simp

theorem subject_congr {d new : DocumentRow} (hcand : new.candidateId = d.candidateId)
    (hsha : new.contentSha256 = d.contentSha256)
    (hactive : new.activeGeneration = d.activeGeneration) : new.subject = d.subject := by
  rw [DocumentRow.subject, DocumentRow.subject, hcand, hsha, hactive]

def attemptReading : Reading Uuid Subject AttemptRow where
  ident := AttemptRow.attemptId
  candidate a := ⟨a.candidateId, a.candidateSha, a.observedActive⟩
  running a := a.status = none

/-- What a document row and the attempts say about who may write. -/
def fenceState (document : Option DocumentRow) (attempts : List AttemptRow) :
    State Uuid Subject AttemptRow where
  candidate := document.bind DocumentRow.subject
  published := ∃ d, document = some d ∧ d.candidateState = some .published ∧ d.purgedAt = none
  holder := document.bind DocumentRow.attemptId
  entries := attempts

def Store.fence (s : Store) : State Uuid Subject AttemptRow := fenceState s.document s.attempts

abbrev Moves (s s' : Store) : Prop := attemptReading.Move s.fence s'.fence

def Store.exclusive (s : Store) : Prop := attemptReading.Exclusive s.fence

section
variable {s s' : Store}

theorem fence_row {d : DocumentRow} (hd : s.document = some d) : s.fence =
    ⟨d.subject, d.candidateState = some .published ∧ d.purgedAt = none, d.attemptId,
      s.attempts⟩ := by
  simp [Store.fence, fenceState, hd]

theorem fence_holder {d : DocumentRow} (hd : s.document = some d) :
    s.fence.holder = d.attemptId := by
  rw [fence_row hd]

theorem fence_candidate {d : DocumentRow} (hd : s.document = some d) :
    s.fence.candidate = d.subject := by
  rw [fence_row hd]

theorem fence_free (hd : s.document = none) : s.fence.holder = none := by
  simp [Store.fence, fenceState, hd]

theorem Moves.refl (s : Store) : Moves s s := .still rfl id rfl rfl

/-- Only other columns of the row were written. -/
theorem Moves.of_row {d new : DocumentRow} (hd : s.document = some d)
    (hs' : s'.document = some new) (hattempts : s'.attempts = s.attempts)
    (hsubject : new.subject = d.subject)
    (hpublished : d.candidateState = some .published → new.candidateState = some .published)
    (hpurged : new.purgedAt = d.purgedAt)
    (hattempt : new.attemptId = d.attemptId) : Moves s s' := by
  rw [Moves, fence_row hd, fence_row hs']
  exact .still hsubject (fun h => ⟨hpublished h.1, hpurged.trans h.2⟩) hattempt hattempts

theorem Moves.of_same (hdocument : s'.document = s.document) (hattempts : s'.attempts = s.attempts) :
    Moves s s' := by
  apply Reading.Move.still <;> simp [Store.fence, fenceState, hdocument, hattempts]

theorem closes_supersede (p : AttemptRow → Prop) [DecidablePred p] (now : Time) :
    attemptReading.Closes p s.attempts (s.supersede p now).attempts :=
  Reading.closes_updateWhere (fun _ _ => Iff.rfl) (fun _ => rfl) (fun _ => rfl) fun _ => by
    simp [attemptReading]

/-- A running attempt has what the row offers. -/
theorem running_subject {d : DocumentRow} {a : AttemptRow} (hs : s.exclusive)
    (hd : s.document = some d) (ha : a ∈ s.attempts) (hr : a.status = none) :
    d.candidateId = some a.candidateId ∧ d.contentSha256 = some a.candidateSha ∧
      d.activeGeneration = a.observedActive :=
  subject_some.1 ((fence_candidate hd).symm.trans (hs.running a ha hr).2)

theorem or_keeps {d : DocumentRow} {sha : Option String} (h : d.keepsCandidate sha) :
    sha.or d.contentSha256 = d.contentSha256 := by
  rcases h with rfl | ⟨hsha, -⟩
  · rfl
  · rw [hsha, Option.or_self]

theorem staged_keep {d : DocumentRow} {sha : Option String} {candidate : Uuid}
    (h : d.keepsCandidate sha) :
    d.staged sha candidate = { d with contentSha256 := sha.or d.contentSha256 } := if_pos h

theorem staged_mint {d : DocumentRow} {sha : Option String} {candidate : Uuid}
    (h : ¬ d.keepsCandidate sha) :
    (d.staged sha candidate).candidateId = some candidate ∧
      (d.staged sha candidate).attemptId = none := by
  rw [DocumentRow.staged, if_neg h]
  exact ⟨rfl, rfl⟩

/-- Other bytes are offered with a digest. -/
theorem staged_subject {d : DocumentRow} {sha : Option String} {candidate : Uuid}
    (h : ¬ d.keepsCandidate sha) : ∃ x, (d.staged sha candidate).subject = some x := by
  cases sha with
  | none => exact absurd (.inl rfl) h
  | some digest =>
    refine ⟨⟨candidate, digest, d.activeGeneration⟩, ?_⟩
    rw [DocumentRow.staged, if_neg h]
    rfl

/-- Nothing is closed where every running attempt has the recorded candidate. -/
theorem supersede_quiet {p : AttemptRow → Prop} [DecidablePred p] {now : Time}
    (h : ∀ a ∈ s.attempts, a.status = none → ¬ p a) :
    (s.supersede p now).attempts = s.attempts :=
  updateWhere_of_forall_not fun a ha hp => h a ha hp.1 hp.2

section
variable [Deployment]

theorem stage_moves {filename fileType : String} {sha : Option String} {allowReplace fresh : Bool}
    {candidate : Uuid} {now : Time} {r : Store × Option Uuid × String} (hs : s.exclusive)
    (hminted : ∀ d, s.document = some d → d.candidateId ≠ some candidate)
    (h : stageCandidate filename fileType sha allowReplace fresh candidate now s = .ok r) :
    Moves s r.1 := by
  obtain ⟨d, hrow, -, rfl⟩ := stageCandidate_ok h
  obtain ⟨n, versions, hreg⟩ := @registerVersion_eq (s.withDocument d) _ sha rfl
  simp only [hreg]
  rcases hrow with ⟨hnone, hinserted⟩ | ⟨old, hold, rfl, -, -⟩
  · -- a first row: nobody ran without one
    have hfree := fence_free hnone
    have hquiet : ∀ a ∈ s.attempts, a.status ≠ none := fun a ha => hs.idle hfree ha
    refine .idle hfree ?_ (supersede_quiet fun a ha hr => absurd hr (hquiet a ha))
    simp [Store.fence, fenceState, Store.supersede, hinserted, insertedRow]
  · by_cases hkeep : old.keepsCandidate sha
    · rw [staged_keep hkeep]
      refine .of_row hold rfl (supersede_quiet fun a ha hr hne => hne ?_) ?_ id rfl rfl
      · exact (running_subject hs hold ha hr).1.symm
      · exact subject_congr rfl (or_keeps hkeep) rfl
    · obtain ⟨hcand, hatt⟩ := @staged_mint _ _ candidate hkeep
      have hnew := hminted old hold
      rw [Moves, fence_row hold, fence_row (s := Store.supersede _ _ _) rfl]
      have hsubject : ({ old.staged sha candidate with lastVersionNumber := n }).subject =
          (old.staged sha candidate).subject := rfl
      have hother : ∀ x, (old.staged sha candidate).subject = some x → x.candidateId = candidate :=
        fun x hx => Option.some.inj ((subject_some.1 hx).1.symm.trans hcand)
      refine .fence (fun heq => ?_) hatt (Reading.closes_updateWhere (fun a ha => ?_)
        (fun _ => rfl) (fun _ => rfl) fun _ => by simp [attemptReading])
      · obtain ⟨x, hx⟩ := @staged_subject _ _ candidate hkeep
        have hold' := (subject_some.1 (heq.symm.trans (hsubject.trans hx))).1
        exact hnew (hother x hx ▸ hold')
      · refine and_congr_right fun hr => ⟨fun hne heq => hne ?_, fun _ heq => hnew ?_⟩
        · have hsame := hother _ (hsubject.symm.trans heq.symm)
          exact (congrArg some hsame).trans hcand.symm
        · rw [(running_subject hs hold ha hr).1, heq]
          exact hcand

theorem finalize_moves {candidate : Uuid} {r : Store × Bool}
    (h : finalizeCandidatePublication candidate s = .ok r) : Moves s r.1 := by
  rcases finalizeCandidatePublication_ok h with ⟨h, -⟩ | ⟨d, hd, -, rfl⟩
  · rw [h]
    exact .refl s
  · exact .of_row hd rfl rfl rfl (fun _ => rfl) rfl rfl

theorem begin_moves {owner : String} {job : Option (Uuid × String)} {attempt : Uuid} {now : Time}
    {r : Store × IngestAttempt} (hs : s.exclusive)
    (h : beginAttempt owner job attempt now s = .ok r) : Moves s r.1 := by
  obtain ⟨d, candidate, sha, hd, -, hstate, hcand, hsha, -, -, -, hfresh, hlive, hr, -⟩ :=
    beginAttempt_ok h
  have hunpurged : d.purgedAt = none := by
    refine hlive.resolve_right fun heq => ?_
    have hheld : d.attemptId = some attempt := by rw [← heq]; rfl
    obtain ⟨-, a, ha, hid, -⟩ := hs.held attempt ((fence_holder hd).trans hheld)
    exact hfresh (List.mem_map.2 ⟨a, ha, hid⟩)
  have hcloses := closes_supersede (s := s) (fun a => some a.attemptId = d.attemptId) now
  rw [hr, Moves, fence_row hd, fence_row rfl]
  have hsubject : d.subject = some ⟨candidate, sha, d.activeGeneration⟩ :=
    subject_some.2 ⟨hcand, hsha, rfl⟩
  exact .take ⟨attempt, candidate, sha, d.activeGeneration, owner, none, none, none⟩ _
    ⟨hstate, hunpurged⟩ hsubject rfl hfresh hcloses rfl ⟨hstate, hunpurged⟩ rfl rfl

theorem heartbeat_moves {a : IngestAttempt} {now : Time} (h : heartbeatAttempt a now s = .ok s') :
    Moves s s' := by
  obtain ⟨d, t, hauth, rfl⟩ := heartbeatAttempt_ok h
  exact .of_row (authority_ok.1 hauth).1 rfl rfl rfl id rfl rfl

/-- The record a holder closes is running. -/
theorem recordOutcome_moves {a : IngestAttempt} {status : AttemptOutcome} {note : Option String}
    {now : Time} (hs : s.exclusive) (h : recordAttemptOutcome a status note now s = .ok s') :
    Moves s s' := by
  obtain ⟨d, hauth, -, rfl⟩ := recordAttemptOutcome_ok h
  obtain ⟨hd, -, hatt⟩ := authority_ok.1 hauth
  have hholder : s.fence.holder = some a.attemptId := (fence_holder hd).trans hatt
  refine .finish hholder rfl (Reading.closes_updateWhere (fun e he => ?_) (fun _ => rfl)
    (fun _ => rfl) ?_)
  · have hrunning : e.attemptId = a.attemptId → e.status = none := fun hid =>
      (hs.holder_iff he).1 (hholder.trans (congrArg some hid.symm))
    exact ⟨fun hid => ⟨hrunning hid, hid⟩, And.right⟩
  · simp [attemptReading]

theorem allocate_moves {a : IngestAttempt} {r : Store × ℕ} (h : allocateGeneration a s = .ok r) :
    Moves s r.1 := by
  obtain ⟨d, hauth, rfl⟩ := allocateGeneration_ok h
  exact .of_row (authority_ok.1 hauth).1 rfl rfl rfl id rfl rfl

theorem promote_moves {generation expectedActive : ℕ} {manifestIds : List String} {sha : String}
    {candidate attempt : Uuid} {now : Time} (hs : s.exclusive)
    (h : promoteGeneration generation expectedActive manifestIds sha candidate attempt now s =
      .ok s') : Moves s s' := by
  obtain ⟨-, -, -, -, d, hd, -, hcand, hatt, -, t, ht, rfl⟩ := promoteGeneration_ok.1 h
  obtain ⟨builds, rfl⟩ := recordVersionActivation_frame ht
  have hholder : s.fence.holder = some attempt := (fence_holder hd).trans hatt
  refine .finish hholder rfl (Reading.closes_updateWhere (fun e he => ?_) (fun _ => rfl)
    (fun _ => rfl) ?_)
  · constructor
    · exact fun h => ⟨h.2.2, h.1⟩
    · rintro ⟨hr, hid⟩
      have hsame := (running_subject hs hd he hr).1.symm.trans hcand
      exact ⟨hid, Option.some.inj hsame, hr⟩
  · simp [attemptReading]

theorem activate_moves {version : Uuid} {expectedRevision : ℕ} {sha : String}
    {r : Store × Option Activation}
    (h : activateDocumentVersion version expectedRevision sha s = .ok r) : Moves s r.1 := by
  rcases activateDocumentVersion_ok h with h | ⟨d, v, b, t, hd, hatt, -, -, -, -, -, -, -, ht, rfl⟩
  · rw [h]
    exact .refl s
  · obtain ⟨builds, rfl⟩ := recordVersionActivation_frame ht
    exact .idle ((fence_holder hd).trans hatt) hatt rfl

theorem archive_moves {archived : Bool} {now : Time} {r : Store × Option (Option Time)}
    (h : setDocumentArchived archived now s = .ok r) : Moves s r.1 := by
  rcases setDocumentArchived_ok h with h | ⟨d, hd, -, -, -, -, hr⟩
  · rw [h]
    exact .refl s
  · rw [hr]
    exact .of_row hd rfl rfl rfl id rfl rfl

theorem purge_moves {worker : String} {maxAttempts : ℕ} {now : Time}
    (h : claimed worker maxAttempts now s
      (fun s claim => completeDocumentPurge claim.jobId worker now s) = .ok s') : Moves s s' := by
  obtain ⟨r, hclaim, hdone⟩ := claimed_ok.1 h
  obtain ⟨d, job, hd, -, -, -, hr, -⟩ := claimDocumentPurge_some hclaim
  obtain ⟨-, d', hd', -, -, hatt, -, -, rfl⟩ := completeDocumentPurge_ok.1 hdone
  rw [hr] at hd'
  obtain rfl : d = d' := Option.some.inj (hd.symm.trans hd')
  refine .idle ((fence_holder hd).trans hatt) rfl ?_
  rw [hr]
  rfl

omit [Deployment] in
theorem failPurge_moves {worker failureCode : String} {maxAttempts : ℕ} {now : Time}
    (h : claimed worker maxAttempts now s
      (fun s claim => failDocumentPurge claim.jobId worker failureCode s) = .ok s') :
    Moves s s' := by
  obtain ⟨r, hclaim, hdone⟩ := claimed_ok.1 h
  obtain ⟨d, job, -, -, -, -, hr, -⟩ := claimDocumentPurge_some hclaim
  rw [failDocumentPurge_ok hdone, hr]
  exact .of_same rfl rfl

/-- Each transaction is one move. -/
theorem step_moves {w w' : World} {a : Action} (hs : w.store.exclusive)
    (h : documentSystem.step w a w') : Moves w.store w'.store := by
  obtain ⟨hminted, h⟩ := h
  cases a <;> simp only [Action.perform, bind_ok, pure_ok] at h
  case stage =>
    obtain ⟨r, h, rfl⟩ := h
    exact stage_moves hs hminted.2 h
  case finalize =>
    obtain ⟨r, h, rfl⟩ := h
    exact finalize_moves h
  case begin =>
    obtain ⟨r, h, rfl⟩ := h
    exact begin_moves hs h
  case heartbeat =>
    obtain ⟨s, h, rfl⟩ := h
    exact heartbeat_moves h
  case recordOutcome =>
    obtain ⟨s, h, rfl⟩ := h
    exact recordOutcome_moves hs h
  case allocate =>
    obtain ⟨r, h, rfl⟩ := h
    exact allocate_moves h
  case upsert =>
    obtain ⟨s, h, rfl⟩ := h
    obtain ⟨d, -, rfl⟩ := upsertChunks_ok h
    exact .of_same rfl rfl
  case copy =>
    obtain ⟨s, h, rfl⟩ := h
    obtain ⟨d, -, rfl⟩ := copyChunksIntoGeneration_ok h
    exact .of_same rfl rfl
  case promote =>
    obtain ⟨s, h, rfl⟩ := h
    exact promote_moves hs h
  case activate =>
    obtain ⟨r, h, rfl⟩ := h
    exact activate_moves h
  case archive =>
    obtain ⟨r, h, rfl⟩ := h
    exact archive_moves h
  case setPolicy =>
    obtain ⟨s, h, rfl⟩ := h
    rw [updateTenantRetentionPolicy_ok h]
    exact .of_same rfl rfl
  case hold =>
    obtain ⟨s, h, rfl⟩ := h
    obtain ⟨d, -, -, -, rfl⟩ := createDocumentLegalHold_ok h
    exact .of_same rfl rfl
  case release =>
    obtain ⟨s, h, rfl⟩ := h
    rw [releaseDocumentLegalHold_ok h]
    exact .of_same rfl rfl
  case schedule =>
    obtain ⟨s, h, rfl⟩ := h
    obtain ⟨d, archivedAt, -, -, -, -, -, -, -, -, rfl⟩ := scheduleDocumentPurge_ok h
    exact .of_same rfl rfl
  case purge =>
    obtain ⟨s, h, rfl⟩ := h
    exact purge_moves h
  case failPurge =>
    obtain ⟨s, h, rfl⟩ := h
    exact failPurge_moves h
  case queue =>
    obtain rfl := Except.ok.inj h
    exact .of_same rfl rfl

theorem migrated_exclusive (h : Migrated s) : s.exclusive := by
  have hfree : s.fence.holder = none := by
    cases hd : s.document with
    | none => exact fence_free hd
    | some d => exact (fence_holder hd).trans (h.idle d hd).1
  refine ⟨h.attemptIds, fun a ha hr => absurd hr (h.closed a ha), fun x hx => ?_⟩
  rw [hfree] at hx
  cases hx

theorem reachable_exclusive {w : World} (h : documentSystem.Reachable w) : w.store.exclusive := by
  induction h with
  | start h => exact migrated_exclusive h.1
  | next _ hstep ih => exact (step_moves ih hstep).exclusive ih

/-- A closed record stays as it is. -/
theorem closed_stays {w w' : World} {a : AttemptRow} (h : documentSystem.Reachable w)
    (ha : a ∈ w.store.attempts) (hclosed : a.status ≠ none) (hl : documentSystem.Later w w') :
    a ∈ w'.store.attempts := by
  refine System.stable (P := fun w => a ∈ w.store.attempts) (fun w act w' hr ha hstep => ?_) h ha hl
  exact (step_moves (reachable_exclusive hr) hstep).finished ha hclosed

/-- Who writes in an attempt's name passes the check on the row. -/
theorem actor_holder {w w' : World} {act : Action} {attempt : Uuid}
    (hact : act.actor = some attempt) (h : act.perform w = .ok w') :
    ∃ d, w.store.document = some d ∧ d.attemptId = some attempt := by
  have hauth : ∀ x d, x.attemptId = attempt → authority x w.store = .ok d →
      ∃ d, w.store.document = some d ∧ d.attemptId = some attempt := fun x d hx hok => by
    obtain ⟨hd, -, hatt⟩ := authority_ok.1 hok
    exact ⟨d, hd, hx ▸ hatt⟩
  cases act <;> simp only [Action.actor, Option.some.injEq, reduceCtorEq] at hact <;>
    simp only [Action.perform, bind_ok, pure_ok] at h
  case heartbeat =>
    obtain ⟨s, h, -⟩ := h
    obtain ⟨d, t, hok, -⟩ := heartbeatAttempt_ok h
    exact hauth _ d hact hok
  case recordOutcome =>
    obtain ⟨s, h, -⟩ := h
    obtain ⟨d, hok, -⟩ := recordAttemptOutcome_ok h
    exact hauth _ d hact hok
  case allocate =>
    obtain ⟨r, h, -⟩ := h
    obtain ⟨d, hok, -⟩ := allocateGeneration_ok h
    exact hauth _ d hact hok
  case upsert =>
    obtain ⟨s, h, -⟩ := h
    obtain ⟨d, hok, -⟩ := upsertChunks_ok h
    exact hauth _ d hact hok
  case copy =>
    obtain ⟨s, h, -⟩ := h
    obtain ⟨d, hok, -⟩ := copyChunksIntoGeneration_ok h
    exact hauth _ d hact hok
  case promote =>
    obtain ⟨s, h, -⟩ := h
    obtain ⟨-, -, -, -, d, hd, -, -, hatt, -⟩ := promoteGeneration_ok.1 h
    exact ⟨d, hd, hact ▸ hatt⟩

/-- What asks for something in the name of a closed record is refused. -/
theorem closed_refused {w w' : World} {a : AttemptRow} {act : Action} (hs : w.store.exclusive)
    (ha : a ∈ w.store.attempts) (hclosed : a.status ≠ none) (hact : act.actor = some a.attemptId) :
    act.perform w ≠ .ok w' := by
  intro h
  obtain ⟨d, hd, hatt⟩ := actor_holder hact h
  exact hclosed ((hs.holder_iff ha).1 ((fence_holder hd).trans hatt))

/-- At most one attempt is unfinished; it is the one the row names, and it works
on the recorded and published candidate. A closed record never changes, and
nothing asked for in its name is committed any more. -/
theorem one_live_attempt {w : World} (h : documentSystem.Reachable w) :
    (∀ a ∈ w.store.attempts, ∀ b ∈ w.store.attempts, a.status = none → b.status = none → a = b) ∧
    (∀ a ∈ w.store.attempts, a.status = none ↔
      ∃ d, w.store.document = some d ∧ d.attemptId = some a.attemptId) ∧
    (∀ d attempt, w.store.document = some d → d.attemptId = some attempt →
      ∃ a ∈ w.store.attempts, a.attemptId = attempt ∧ a.status = none ∧
        d.candidateId = some a.candidateId ∧ d.candidateState = some .published) ∧
    ∀ a ∈ w.store.attempts, a.status ≠ none → ∀ w', documentSystem.Later w w' →
      a ∈ w'.store.attempts ∧
        ∀ act : Action, act.actor = some a.attemptId → ∀ w'', act.perform w' ≠ .ok w'' := by
  have hs := reachable_exclusive h
  refine ⟨fun a ha b hb => hs.unique ha hb, fun a ha => ⟨fun hr => ?_, ?_⟩, fun d x hd hx => ?_,
    fun a ha hclosed w' hl => ?_⟩
  · have hholder : w.store.fence.holder = some a.attemptId := (hs.holder_iff ha).2 hr
    cases hd : w.store.document with
    | none =>
      rw [fence_free hd] at hholder
      cases hholder
    | some d => exact ⟨d, rfl, (fence_holder hd).symm.trans hholder⟩
  · rintro ⟨d, hd, hx⟩
    exact (hs.holder_iff ha).1 ((fence_holder hd).trans hx)
  · obtain ⟨hpublished, a, ha, hid, hr⟩ := hs.held x ((fence_holder hd).trans hx)
    rw [fence_row hd] at hpublished
    exact ⟨a, ha, hid, hr, (running_subject hs hd ha hr).1, hpublished.1⟩
  · have ha' := closed_stays h ha hclosed hl
    refine ⟨ha', fun act hact w'' => ?_⟩
    exact closed_refused (reachable_exclusive (System.reachable_later h hl)) ha' hclosed hact

end

section
attribute [local instance] sampleDeployment

def digestA : String := "aaaaaaaaaaaaaaaaaaaaaaaaaaaaaaaaaaaaaaaaaaaaaaaaaaaaaaaaaaaaaaaa"

/-- One candidate staged, published and begun, and a generation handed out. -/
def firstRun : List Action :=
  [.stage "a.pdf" "pdf" (some digestA) false true 1 0, .finalize 1, .begin "w" none 10 0,
    .allocate ⟨10, 1, digestA, 0⟩]

def firstWorld : World := (System.play Action.exec World.empty firstRun).getD World.empty

theorem firstWorld_reachable : documentSystem.Reachable firstWorld := reachable_exec (l := firstRun) rfl

theorem one_live_attempt_first : ∃ a ∈ firstWorld.store.attempts, a.attemptId = 10 ∧
    a.status = none ∧ some 1 = some a.candidateId ∧
    some CandidateState.published = some .published :=
  (one_live_attempt firstWorld_reachable).2.2.1 _ 10 rfl rfl

end

end

end RagPipeline.Index
