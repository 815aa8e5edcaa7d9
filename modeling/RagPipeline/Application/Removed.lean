import RagPipeline.Application.Own
import RagPipeline.Application.Atomic

/-! # What rollback and recovery remove, over whole runs

Nothing but what the application made, where nobody else makes a directory that
was found missing. Where somebody does, the rollback takes theirs. -/

set_option autoImplicit false

namespace RagPipeline.Application.Foreign
open Processes
open Guard (map_ok)

variable {s u : Site} {ds : List Path} {payload : Payload}

/-- Some list of planned directories is owned. -/
def Owned (s : Site) : Prop := ∃ ds, (∀ d ∈ ds, Canonical d) ∧ Owns ds s

theorem owned_stable : Stable elsewhere Owned := by
  rintro s u ⟨ds, hcanonical, hs⟩ hrely
  exact ⟨ds, hcanonical, owns_stable ds s u hs hrely⟩

/-- Nothing written, nothing made, nothing removed. -/
structure Blank (s : Site) : Prop where
  made : s.made = []
  removed : s.removed = []
  journal : s.process.disk.journal = none
  payload : s.process.payload = none

theorem Untouched.blank (h : Untouched s) : Blank s := ⟨h.made, h.removed, h.journal, h.payload⟩

theorem blank_stable : Stable elsewhere Blank := by
  rintro s u hs ⟨path, -, -, -, -, rfl⟩
  exact ⟨hs.made, hs.removed, hs.journal, hs.payload⟩

theorem Blank.owned (h : Blank s) : Owned s := by
  refine ⟨[], by simp, ⟨by simp, fun d hd => ?_, by simp, fun p hp => ?_, fun p hp => ?_⟩⟩
  · rw [h.removed] at hd
    cases hd
  · rw [h.journal] at hp
    cases hp
  · rw [h.payload] at hp
    cases hp

/-- What keeps every list of planned directories owned, keeps the site owned. -/
theorem owned_ensures {α : Type} {V : α → Prop} {p : Road α}
    (h : ∀ ds, (∀ d ∈ ds, Canonical d) → Yields (Owns ds) V p) :
    Ensures elsewhere Owned p (fun _ => Owned) fun _ => Owned := by
  rintro s r s' ⟨ds, hcanonical, hs⟩ hrun
  have hend := yields_ensures (h ds hcanonical) (owns_stable ds) s r s' hs hrun
  cases r with
  | ok a => exact ⟨ds, hcanonical, hend.2⟩
  | error e => exact ⟨ds, hcanonical, hend⟩

theorem owned_always {α : Type} {V : α → Prop} {p : Road α}
    (h : ∀ ds, (∀ d ∈ ds, Canonical d) → Yields (Owns ds) V p) :
    Always elsewhere Owned p Owned := by
  rintro s u ⟨ds, hcanonical, hs⟩ hreach
  exact ⟨ds, hcanonical, yields_always (h ds hcanonical) (owns_stable ds) s u hs hreach⟩

section
variable [Host] {candidate : Candidate} {call : Call} {start : Checkout}

/-! ## The pieces of `_apply` -/

omit [Host] in
theorem yields_openJournal (h : payload.directories = ds) :
    Yields (Owns ds) (fun _ => True) (openJournal payload) := by
  apply yields_mayRaise.bind
  intro _ _
  have hholder : Yields (Owns ds) (fun _ => True) (onDisk fun disk =>
      if disk.holder then .error (.refused "uygulama dizini zaten var")
      else .ok { disk with holder := true }) := by
    apply yields_flag
    intro d d' hd
    split at hd
    · cases hd
    · obtain rfl := Except.ok.inj hd
      exact ⟨rfl, rfl⟩
  apply hholder.bind
  intro _ _
  apply (yields_setPayload h).bind
  intro _ _
  apply (yields_writeJournal h).bind
  intro _ _
  apply yields_mayRaise.bind
  intro _ _
  exact yields_ask fun _ _ _ _ => trivial

omit [Host] in
theorem yields_openSlots : Yields (Owns ds) (fun _ => True) openSlots := by
  apply yields_mayRaise.bind
  intro _ _
  have hslots : Yields (Owns ds) (fun _ => True)
      (onDisk fun disk => .ok { disk with slots := true }) :=
    yields_flag fun d d' hd => Except.ok.inj hd ▸ ⟨rfl, rfl⟩
  apply hslots.bind
  intro _ _
  apply yields_mayRaise.bind
  intro _ _
  have hopen : Yields (Owns ds) (fun _ => True)
      (change fun p => .ok { p with slotsTree := true }) := by
    apply yields_change
    intro p p' hp
    obtain rfl := Except.ok.inj hp
    exact ⟨fun _ hd => hd, fun j hj => .inl hj, fun j hj => .inl hj⟩
  apply hopen.bind
  intro _ _
  exact yields_mayRaise

theorem yields_advanceCheckout (p : Plan) (h : payload.directories = ds) :
    Yields (Owns ds) (fun _ => True) (advanceCheckout call p payload) := by
  have hstage : Yields (Owns ds) (fun _ => True) (stage call.implementer p.staged) := by
    apply yields_forEach
    intro staged _
    exact yields_stageFile _ _ _
  apply hstage.bind
  intro _ _
  apply (yields_advanceJournal h).bind
  intro payload hp
  apply (yields_createDirectories payload.directories).bind
  intro _ _
  apply (yields_advanceJournal hp).bind
  intro payload hp
  exact yields_applyMoves hp p.moves

omit [Host] in
theorem yields_finishApplication (h : payload.directories = ds) :
    Yields (Owns ds) (fun _ => True) (finishApplication call payload) := by
  apply yields_mayRaise.bind
  intro _ _
  apply yields_askTree.bind
  intro _ _
  apply (yields_currentPayload h).bind
  intro payload hp
  apply (yields_advanceJournal hp).bind
  intro _ _
  exact yields_pure trivial

theorem yields_applyPlanned (p : Plan) (ds : List Path) :
    Yields (Owns ds) (fun _ => True) (applyPlanned call p ds) := by
  have hpayload : (registeredPayload call p ds).directories = ds := rfl
  apply (yields_openJournal hpayload).bind
  intro _ _
  apply yields_openSlots.bind
  intro _ _
  apply (yields_advanceCheckout p hpayload).bind
  intro _ _
  exact yields_finishApplication hpayload

theorem yields_quietly (moves : List Move) (handler : ApplicationError → Road Unit)
    (h : ∀ e, Yields (Owns ds) (fun _ => True) (handler e)) :
    Yields (Owns ds) (fun _ => True) (tryCatch (removeHolder moves) handler) :=
  (yields_removeHolder moves).tryCatch h

theorem yields_applyHandler (hcanonical : ∀ d ∈ ds, Canonical d) (e : ApplicationError) :
    Yields (Owns ds) (fun _ => True) (applyHandler e) := by
  have hread : Yields (Owns ds) (fun r : Option Payload × Bool => ∀ p, r.1 = some p →
      p.directories = ds) (ask fun p => .ok (p.payload, p.slotsTree)) := by
    apply yields_ask
    intro s a hs hop
    obtain rfl := Except.ok.inj hop
    exact hs.payload
  apply hread.bind
  rintro ⟨found, slotsTree⟩ hfound
  cases found with
  | none => exact yields_throw
  | some payload =>
    have hp : payload.directories = ds := hfound payload rfl
    have hrest : Yields (Owns ds) (fun _ => True) (do
        tryCatch (removeHolder payload.moves) fun _ => pure ()
        throw e : Road Unit) := by
      apply (yields_quietly payload.moves (fun _ => pure ()) fun _ => yields_pure trivial).bind
      intro _ _
      exact yields_throw
    cases slotsTree with
    | true =>
      apply (yields_rollback hp hcanonical payload.moves).bind
      intro _ _
      exact hrest
    | false => exact hrest

/-! ## The whole call -/

omit [Host] in
theorem untouched_start : Untouched (initialSite start) :=
  ⟨start.closed, by simp [initialSite], rfl, rfl, rfl, rfl⟩

omit [Host] in
/-- The planning only reads, and takes notes. -/
theorem yields_missingParents (rest walked : Path) (found : Found) :
    Yields Blank (fun _ => True) (missingParents walked rest found) := by
  induction rest generalizing walked found with
  | nil => exact yields_pure trivial
  | cons name rest ih =>
    obtain ⟨missing, asked⟩ := found
    change Yields Blank (fun _ => True)
      (if walked ++ [name] ∈ asked then _ else if walked ∈ missing then _ else _)
    split_ifs with hasked hparent
    · exact ih _ _
    · have hnote : Yields Blank (fun _ => True) (noteMissing (walked ++ [name])) := by
        apply yields_transact
        intro t s s' a hs hop
        obtain ⟨rfl, -⟩ := Prod.mk.inj (Except.ok.inj hop)
        exact ⟨⟨hs.made, hs.removed, hs.journal, hs.payload⟩, trivial⟩
      apply hnote.bind
      intro _ _
      exact ih _ _
    · have hask : Yields Blank (fun _ => True) (askMissing walked (walked ++ [name])) := by
        apply yields_transact
        intro t s s' a hs hop
        obtain ⟨-, -, hop⟩ := UndoLog.bind_eq_ok.1 hop
        split at hop
        · obtain ⟨rfl, -⟩ := Prod.mk.inj (Except.ok.inj hop)
          exact ⟨⟨hs.made, hs.removed, hs.journal, hs.payload⟩, trivial⟩
        · obtain ⟨rfl, -⟩ := Prod.mk.inj (Except.ok.inj hop)
          exact ⟨hs, trivial⟩
        · cases hop
      apply hask.bind
      intro absent _
      cases absent with
      | true => exact ih _ _
      | false => exact ih _ _

omit [Host] in
theorem yields_missingDirectories (wanted : List Path) (found : Found) :
    Yields Blank (fun _ => True) (missingDirectories wanted found) := by
  induction wanted generalizing found with
  | nil => exact yields_pure trivial
  | cons w wanted ih =>
    apply (yields_missingParents w [] found).bind
    intro found _
    exact ih found

theorem yields_planMoves : Yields Blank (fun _ => True) (planMoves candidate call) := by
  apply yields_transact
  intro t s s' a hs hop
  obtain ⟨p, -, heq⟩ := map_ok.1 hop
  obtain ⟨rfl, -⟩ := Prod.mk.inj heq
  exact ⟨hs, trivial⟩

/-- The wanted directories are canonical, as the targets are. -/
def WantsCanonical (p : Plan) : Prop := ∀ w ∈ p.wanted, ∀ q, q ≠ [] → q <+: w → Canonical q

theorem planMoves_ensures : Ensures elsewhere Untouched (planMoves candidate call)
    (fun p s => WantsCanonical p ∧ Untouched s) fun _ => Untouched := by
  have hstable : ∀ p, Stable elsewhere fun s => WantsCanonical p ∧ Untouched s :=
    fun p s u hs hrely => ⟨hs.1, untouched_stable s u hs.2 hrely⟩
  apply ensures_transact untouched_stable _ _ hstable fun _ => untouched_stable
  · intro t s s' p hs hop
    obtain ⟨p', hplan, heq⟩ := map_ok.1 hop
    obtain ⟨rfl, rfl⟩ := Prod.mk.inj heq
    refine ⟨fun w hw q hne hq => ?_, hs⟩
    obtain ⟨c, hc, rfl⟩ := planFrom_wanted candidate.canonical hplan hw
    exact canonical_above (candidate.canonical c hc) (hq.trans (List.dropLast_prefix c.path)) hne
  · intro t s e hs _
    exact hs

theorem applyPlanned_ensures (p : Plan) (ds : List Path) :
    Ensures elsewhere (Finding ds) (applyPlanned call p ds) (fun _ => Owned) fun _ => Owned := by
  intro s r s' hs hrun
  have hcanonical : ∀ d ∈ ds, Canonical d := fun d hd => (hs.2 d hd).2
  have hend := yields_ensures (yields_applyPlanned p ds) (owns_stable ds) s r s' hs.owns hrun
  cases r with
  | ok a => exact ⟨ds, hcanonical, hend.2⟩
  | error e => exact ⟨ds, hcanonical, hend⟩

theorem applyPlanned_always (p : Plan) (ds : List Path) :
    Always elsewhere (Finding ds) (applyPlanned call p ds) Owned := by
  intro s u hs hreach
  exact ⟨ds, fun d hd => (hs.2 d hd).2,
    yields_always (yields_applyPlanned p ds) (owns_stable ds) s u hs.owns hreach⟩

theorem planned_ensures (p : Plan) : Ensures elsewhere (fun s => WantsCanonical p ∧ Untouched s)
    (missingDirectories p.wanted ([], []) >>= applyPlanned call p)
    (fun _ => Owned) fun _ => Owned := by
  apply ensures_assume
  intro hwants
  have hfinds : Ensures elsewhere Untouched (missingDirectories p.wanted ([], [])) Finding
      fun _ => Owned :=
    ensures_mono (missingDirectories_finds p.wanted [] [] hwants) (fun s hs => ⟨hs, by simp⟩)
      (fun _ _ hs => hs) fun _ _ hs => hs.blank.owned
  exact ensures_bind hfinds (applyPlanned_ensures p) fun _ => owned_stable

theorem planned_always (p : Plan) : Always elsewhere (fun s => WantsCanonical p ∧ Untouched s)
    (missingDirectories p.wanted ([], []) >>= applyPlanned call p) Owned := by
  rintro s u ⟨hwants, hs⟩ hreach
  have hreads : Always elsewhere Untouched (missingDirectories p.wanted ([], [])) Owned :=
    fun s u hs hreach =>
      (yields_always (yields_missingDirectories p.wanted _) blank_stable s u hs.blank hreach).owned
  have hfinds : Ensures elsewhere Untouched (missingDirectories p.wanted ([], [])) Finding
      fun _ => Owned :=
    ensures_mono (missingDirectories_finds p.wanted [] [] hwants) (fun s hs => ⟨hs, by simp⟩)
      (fun _ _ hs => hs) fun _ _ hs => hs.blank.owned
  exact always_bind hreads hfinds (applyPlanned_always p) owned_stable (fun _ _ hs => hs) s u hs
    hreach

theorem apply_always : Always elsewhere Untouched (apply candidate call) Owned := by
  have hplan : Ensures elsewhere Untouched (planMoves candidate call)
      (fun p s => WantsCanonical p ∧ Untouched s) fun _ => Owned :=
    ensures_mono planMoves_ensures (fun _ hs => hs) (fun _ _ hs => hs) fun _ _ hs => hs.blank.owned
  have hreads : Always elsewhere Untouched (planMoves candidate call) Owned :=
    fun s u hs hreach => (yields_always yields_planMoves blank_stable s u hs.blank hreach).owned
  have hbody : Ensures elsewhere Untouched (planMoves candidate call >>= fun p =>
      missingDirectories p.wanted ([], []) >>= applyPlanned call p) (fun _ => Owned)
      fun _ => Owned :=
    ensures_bind hplan planned_ensures fun _ => owned_stable
  have hwithin : Always elsewhere Untouched (planMoves candidate call >>= fun p =>
      missingDirectories p.wanted ([], []) >>= applyPlanned call p) Owned :=
    always_bind hreads hplan planned_always owned_stable fun _ _ hs => hs
  have hhandler : ∀ e ds, (∀ d ∈ ds, Canonical d) →
      Yields (Owns ds) (fun _ => True) (applyHandler e) :=
    fun e ds hcanonical => yields_applyHandler hcanonical e
  have hfinish : ∀ ds, (∀ d ∈ ds, Canonical d) → Yields (Owns ds) (fun _ => True) (do
      let payload ← ask fun p => .ok p.payload
      tryCatch (removeHolder ((payload.map Payload.moves).getD []))
        fun _ => throw (.cleanupFailed "uygulama dizini silinemedi")) := by
    intro ds hcanonical
    apply (yields_ask (V := fun _ => True) fun _ _ _ _ => trivial).bind
    intro payload _
    exact yields_quietly _ _ fun _ => yields_throw
  apply always_bind (R := fun _ => Owned) (E := fun _ => Owned) _ _ _ owned_stable fun _ _ hs => hs
  · exact always_tryCatch hwithin hbody (fun e => owned_always (hhandler e)) owned_stable
      fun _ _ hs => hs
  · exact ensures_tryCatch hbody (fun e => owned_ensures (hhandler e)) fun _ => owned_stable
  · exact fun _ => owned_always hfinish

/-! ## Recovery -/

theorem yields_recover (hcanonical : ∀ d ∈ ds, Canonical d) (repoId applicationId : String) :
    Yields (Owns ds) (fun _ => True) (recover repoId applicationId) := by
  apply (yields_ask (V := fun _ => True) fun _ _ _ _ => trivial).bind
  intro holder _
  split_ifs
  · exact yields_throw
  have hread : Yields (Owns ds) (fun p : Payload => p.directories = ds)
      (ask fun p => readJournal p.disk) := by
    apply yields_ask
    intro s p hs hop
    unfold readJournal at hop
    split at hop
    · cases hop
    · rename_i payload hjournal
      split_ifs at hop
      obtain rfl := Except.ok.inj hop
      exact hs.journal _ hjournal
  apply hread.bind
  intro payload hp
  have hreopened : payload.reopened.directories = ds := by
    unfold Payload.reopened
    split_ifs
    · exact hp
    · exact hp
  split_ifs
  · exact yields_throw
  · exact yields_pure trivial
  · apply (yields_ask (V := fun _ => True) fun _ _ _ _ => trivial).bind
    intro slots _
    split_ifs
    · exact yields_throw
    · apply (yields_setPayload hreopened).bind
      intro _ _
      apply (yields_rollback hreopened hcanonical payload.moves).bind
      intro _ _
      exact yields_removeHolder payload.moves

omit [Host] in
theorem Owned.reboot (h : Owned s) : Owned s.reboot := by
  obtain ⟨ds, hcanonical, hs⟩ := h
  exact ⟨ds, hcanonical, hs.own, hs.removed, hs.planned, hs.journal, fun _ hp => nomatch hp⟩

theorem reached_owned (h : Reached elsewhere candidate call start s) : Owned s := by
  induction h with
  | apply hreach => exact apply_always _ _ untouched_start hreach
  | recover repoId applicationId _ hreach ih =>
    exact owned_always (fun ds hcanonical => yields_recover hcanonical repoId applicationId) _ _
      ih.reboot hreach

/-- Where nobody else makes a directory that was found missing, the application
and its recoveries remove only what the application made. -/
theorem removes_own_directories (candidate : Candidate) (call : Call) (start : Checkout) (s : Site)
    (h : Reached elsewhere candidate call start s) : ∀ d ∈ s.removed, d ∈ s.made := by
  obtain ⟨ds, -, hs⟩ := reached_owned h
  exact hs.removed

end

/-! ## Somebody else's directory -/

section
attribute [local instance] sampleHost

/-- Before the third call, which is the first after the question, somebody
makes the directory. -/
def somebody (n : ℕ) (s : Site) : Site :=
  if n = 2 ∧ s.process.disk.tree.lookup (.repo ["yeni"]) = none then
    { s with process := s.process.withTree (s.process.disk.tree.insert (.repo ["yeni"]) .dir) }
  else s

theorem somebody_makes (n : ℕ) (s : Site) : somebody n s = s ∨ others s (somebody n s) := by
  unfold somebody
  split_ifs with h
  · exact .inr ⟨["yeni"], by simp, h.2, .inl rfl, rfl⟩
  · exact .inl rfl

def sampleRun (clock : ℕ → Bool) (others : ℕ → Site → Site) : Site :=
  (among clock others 0 (apply addedCandidate addedCall).run (initialSite emptyCheckout)).2

theorem sampleRun_reached (clock : ℕ → Bool) {rely : Site → Site → Prop} {others : ℕ → Site → Site}
    (h : ∀ n s, others n s = s ∨ rely s (others n s)) :
    Reached rely addedCandidate addedCall emptyCheckout (sampleRun clock others) := by
  unfold sampleRun
  exact .apply (runs_among h 0 _ _).reaches

/-- The host refuses the journal write behind the new directories. -/
theorem sample_removes : (sampleRun (fun n => n == 35) fun _ s => s).removed = [["yeni"]] := by
  decide +kernel

/-- The disk is full when the file is staged. -/
theorem sample_removes_foreign : (sampleRun (fun n => n == 15) somebody).removed = [["yeni"]] ∧
    (sampleRun (fun n => n == 15) somebody).made = [] := by
  decide +kernel

theorem removes_own_sample : ∃ s, @Reached sampleHost elsewhere addedCandidate addedCall emptyCheckout s ∧
    s.removed = [["yeni"]] ∧ ["yeni"] ∈ s.made := by
  have hreached : Reached elsewhere addedCandidate addedCall emptyCheckout
      (sampleRun (fun n => n == 35) fun _ s => s) := sampleRun_reached _ fun _ _ => .inl rfl
  have hremoved := sample_removes
  generalize sampleRun (fun n => n == 35) (fun _ s => s) = s at hreached hremoved
  refine ⟨s, hreached, hremoved, ?_⟩
  apply removes_own_directories addedCandidate addedCall emptyCheckout s hreached
  rw [hremoved]
  exact List.mem_singleton_self _

/-- The empty directory that somebody made between the question and the create
is gone after the rollback. -/
theorem foreign_directory_removed : ∃ s,
    @Reached sampleHost others addedCandidate addedCall emptyCheckout s ∧
      ∃ d ∈ s.removed, d ∉ s.made := by
  have hreached : Reached others addedCandidate addedCall emptyCheckout
      (sampleRun (fun n => n == 15) somebody) := sampleRun_reached _ somebody_makes
  obtain ⟨hremoved, hmade⟩ := sample_removes_foreign
  generalize sampleRun (fun n => n == 15) somebody = s at hreached hremoved hmade
  refine ⟨s, hreached, ["yeni"], ?_, ?_⟩
  · rw [hremoved]
    exact List.mem_singleton_self _
  · rw [hmade]
    exact List.not_mem_nil

end

end RagPipeline.Application.Foreign
