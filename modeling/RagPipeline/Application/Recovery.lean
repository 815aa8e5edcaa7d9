import RagPipeline.Application.Atomic
import Mathlib.Logic.Relation

/-! # Recovery after a death

`recover_application` from every disk that a death of `_apply`, and any number
of deaths of earlier recoveries, can leave behind. Some of these disks are
recovered by the first call that runs to its end; the others are not recovered
by any number of calls, and which is which can be read off the disk. -/

set_option autoImplicit false

namespace RagPipeline.Application
open UndoLog Effects Effects.Program

/-- A process that starts on what is there: nothing is open, nothing is known. -/
def boot (d : Disk) : Process := ⟨d, none, false⟩

/-- Both names of the last announced move are taken. -/
def Payload.Halfway (payload : Payload) (t : FileTree) : Prop :=
  ∃ rest m, payload.moves.take payload.appliedIndex = rest ++ [m] ∧
    t.lookup m.fromPlace ≠ none ∧ t.lookup m.toPlace ≠ none

/-- The journal can be read, and it names a finished application, or one whose
rollback has not begun and finds the slot directory, every planned directory
and no rename half done. -/
def Recoverable (d : Disk) : Prop :=
  ∃ payload, d.journal = some payload ∧ payload.Readable ∧
    (payload.state = .applied ∨ payload.state = .rolledBack ∨
      (payload.state ≠ .rollingBack ∧ d.slots = true ∧
        (∀ q ∈ payload.directories, view d.tree q = some .dir) ∧ ¬ payload.Halfway d.tree))

section
variable [Host] {candidate : Candidate} {call : Call} {start : Checkout}

/-- One call of `recover_application` on the journal of this call. -/
def recovery (call : Call) : App RecoveryReport :=
  recoverApplication call.identity.repoId call.identity.applicationId

/-- The disks the process can die on: in the call itself, or in a recovery that
found what an earlier death had left. -/
inductive Reached (fault : Option Step) (candidate : Candidate) (call : Call)
    (start : Checkout) : Disk → Prop where
  | apply (s : Process) : s ∈ (apply fault candidate call).crashes (initial start) →
      Reached fault candidate call start s.disk
  | recover (d : Disk) (s : Process) : Reached fault candidate call start d →
      s ∈ (recovery call).crashes (boot d) → Reached fault candidate call start s.disk

/-- The next recovery reports, and the checkout is what its report says. -/
def EndsWell (candidate : Candidate) (call : Call) (start : Checkout) (d : Disk) : Prop :=
  ∃ report, (recovery call (boot d)).result = .ok report ∧
    ((report.state = .rolledBack ∧
        view (recovery call (boot d)).state.disk.tree = view start.tree) ∨
      (report.state = .applied ∧ ∃ r : Course candidate call start,
        view (recovery call (boot d)).state.disk.tree = r.complete))

/-- One more recovery, dead or refused or failed on the way. -/
def Retried (call : Call) (d d' : Disk) : Prop :=
  ∃ s ∈ (recovery call).crashes (boot d), s.disk = d'

/-- Some later recovery ends well. -/
def Recovers (candidate : Candidate) (call : Call) (start : Checkout) (d : Disk) : Prop :=
  ∃ d', Relation.ReflTransGen (Retried call) d d' ∧ EndsWell candidate call start d'

namespace Course

variable (r : Course candidate call start)

theorem whole_of_early {t : FileTree} {k : ℕ}
    (ht : view t = addDirectories (r.directories.take k) (view start.tree)) :
    r.Undoable t 0 ∧ r.Whole t 0 ∨ r.Lacks t := by
  by_cases hk : k < r.directories.length
  · exact .inr (r.lacks_of_take hk ht)
  · rw [List.take_of_length_le (by omega)] at ht
    refine .inl ⟨r.undoable_zero ht, fun d hd => ?_, fun rest m h => by simp at h⟩
    rw [ht, addDirectories_apply, if_pos hd]

theorem recoverable_whole {d : Disk} {state : JournalState} {n : ℕ}
    (hj : d.journal = some (rolling r.base state n)) (hread : (rolling r.base state n).Readable)
    (hstate : state ≠ .rollingBack) (hslots : d.slots = true) (hw : r.Whole d.tree n) :
    Recoverable d := by
  refine ⟨_, hj, hread, .inr (.inr ⟨hstate, hslots, hw.1, ?_⟩)⟩
  rintro ⟨rest, m, hlast, hfrom, hto⟩
  exact (hw.2 rest m hlast).elim hfrom hto

/-- Where the journal of the course names an application that is not finished,
what it takes is all there. -/
theorem of_recoverable {d : Disk} {state : JournalState} {n : ℕ} (h : Recoverable d)
    (hj : d.journal = some (rolling r.base state n)) :
    (rolling r.base state n).Readable ∧ (state ≠ .applied → state ≠ .rolledBack →
      state ≠ .rollingBack ∧ d.slots = true ∧ ¬ r.Lacks d.tree ∧ ¬ r.HalfDone d.tree n) := by
  obtain ⟨payload, hpayload, hread, hstate⟩ := h
  obtain rfl := Option.some.inj (hpayload.symm.trans hj)
  refine ⟨hread, fun happlied hrolled => ?_⟩
  obtain ⟨hrolling, hslots, hdirs, hhalf⟩ :=
    (hstate.resolve_left happlied).resolve_left hrolled
  refine ⟨hrolling, hslots, fun ⟨q, hq, hlacks⟩ => hlacks (hdirs q hq), ?_⟩
  rintro ⟨rest, m, hlast, hlanded, htaken⟩
  have hm : m ∈ r.p.moves := List.mem_of_mem_take (hlast ▸ by simp : m ∈ r.p.moves.take n)
  exact hhalf ⟨rest, m, hlast, htaken, lookup_of_landed (r.moves_canonical hm) hlanded⟩

theorem not_recoverable_of_doomed {d : Disk} (h : r.Doomed d) :
    d.journal ≠ none ∧ ¬ Recoverable d := by
  obtain ⟨-, n, hj | ⟨hj, hbad⟩⟩ := h
  · exact ⟨by simp [hj], fun h => ((r.of_recoverable h hj).2 (by simp) (by simp)).1 rfl⟩
  · refine ⟨by simp [hj], fun h => ?_⟩
    obtain ⟨-, -, hlacks, hhalf⟩ := (r.of_recoverable h hj).2 (by simp) (by simp)
    exact hbad.elim hlacks hhalf

/-- What a recovery finds in the journal: a finished application, a rollback
under way, or a record to be rolled back, which either can be or cannot. -/
inductive Finds (d : Disk) (state : JournalState) (n : ℕ) : Prop where
  | undone : state = .rolledBack → view d.tree = view start.tree → Finds d state n
  | applied : state = .applied → view d.tree = r.complete → Finds d state n
  | undoing : state = .rollingBack → Finds d state n
  | clean : state = .registered ∨ state = .prepared ∨ state = .applying →
      r.Undoable d.tree n → r.Whole d.tree n → Finds d state n
  | broken : state = .registered ∨ state = .prepared ∨ state = .applying ∨ state = .failed →
      r.Lacks d.tree ∨ r.HalfDone d.tree n → Finds d state n

theorem finds_of_leaves {d : Disk} (h : r.Leaves d) :
    d.journal = none ∨
      d.holder = true ∧ ∃ state n, d.journal = some (rolling r.base state n) ∧ r.Finds d state n := by
  cases h with
  | unregistered h => exact .inl h
  | early state k hj hh hstate ht =>
    refine .inr ⟨hh, state, 0, hj, ?_⟩
    rcases r.whole_of_early ht with ⟨hundo, hwhole⟩ | hlacks
    · exact .clean (by tauto) hundo hwhole
    · exact .broken (by tauto) (.inl hlacks)
  | moving n hj hh _ hundo hwhole =>
    exact .inr ⟨hh, _, n, hj, .clean (.inr (.inr rfl)) hundo hwhole⟩
  | half n hj hh hhalf => exact .inr ⟨hh, _, n, hj, .broken (by simp) (.inr hhalf)⟩
  | undoing n hj hh => exact .inr ⟨hh, _, n, hj, .undoing rfl⟩
  | stuck n hj hh hbad => exact .inr ⟨hh, _, n, hj, .broken (by simp) hbad⟩
  | undone n hj hh hv => exact .inr ⟨hh, _, n, hj, .undone rfl hv⟩
  | applied n hj hh hv => exact .inr ⟨hh, _, n, hj, .applied rfl hv⟩

/-- The record a recovery rolls back is in a state that a rollback may follow. -/
theorem reopened_allowed {state : JournalState} (n : ℕ)
    (h : state = .registered ∨ state = .prepared ∨ state = .applying ∨ state = .failed) :
    ∃ state', (rolling r.base state n).reopened = rolling r.base state' n ∧
      .rollingBack ∈ state'.allowedJournalTransitions := by
  obtain rfl | rfl | rfl | rfl := h
  · exact ⟨.registered, rfl, by decide⟩
  · exact ⟨.prepared, rfl, by decide⟩
  · exact ⟨.applying, rfl, by decide⟩
  · exact ⟨.applying, rfl, by decide⟩

/-- The rollback of a recovery, on a record that can be rolled back. -/
theorem ensures_finish_clean {d : Disk} {state : JournalState} {n : ℕ}
    {E : ApplicationError → Process → Prop} (hacc : r.base.schemaAccepts = true)
    (hholder : d.holder = true) (hallowed : .rollingBack ∈ state.allowedJournalTransitions)
    (hundo : r.Undoable d.tree n) (applicationId : String) :
    (finishRecovery applicationId (rolling r.base state n)).Ensures (boot d)
      (fun s => r.Leaves s.disk)
      (fun report s => report.state = .rolledBack ∧ view s.disk.tree = view start.tree) E := by
  refine ensures_bind (R := fun _ s => s.disk = d) (ensures_setPayload rfl) ?_
  rintro _ s rfl
  refine ensures_bind (r.ensures_rollback_clean hholder hallowed hacc hundo) fun _ s' h => ?_
  refine ensures_bind (r.ensures_removeRemovable _ h.1) fun _ s'' h' => ?_
  exact ensures_return _ ⟨rfl, h'.trans h.2⟩

theorem ensures_finish_broken {d : Disk} {state : JournalState} {n : ℕ}
    (hacc : r.base.schemaAccepts = true) (hholder : d.holder = true)
    (hallowed : .rollingBack ∈ state.allowedJournalTransitions)
    (hbad : r.Lacks d.tree ∨ r.HalfDone d.tree n) (applicationId : String) :
    (finishRecovery applicationId (rolling r.base state n)).Ensures (boot d)
      (fun s => r.Doomed s.disk) (fun _ _ => False) (fun _ _ => True) := by
  refine ensures_bind (R := fun _ s => s.disk = d) (ensures_setPayload rfl) ?_
  rintro _ s rfl
  refine ensures_bind (R := fun _ _ => False) ?_ (fun _ _ h => h.elim)
  exact ensures_mono (r.ensures_rollback_broken hholder hallowed hacc hbad) (fun _ h => h)
    (fun _ _ h => h) (fun _ _ _ => trivial)

/-- A rollback that was under way is not taken up again. -/
theorem ensures_finish_undoing {d : Disk} {n : ℕ} (applicationId : String) :
    (finishRecovery applicationId (rolling r.base .rollingBack n)).Ensures (boot d)
      (fun _ => False) (fun _ _ => False) (fun _ _ => True) := by
  refine ensures_bind (R := fun _ _ => True) (ensures_setPayload trivial) ?_
  intro _ s _
  refine ensures_bind (R := fun _ _ => False) ?_ (fun _ _ h => h.elim)
  exact ensures_bind (R := fun _ _ => False) (ensures_raise _ trivial) (fun _ _ h => h.elim)

theorem readJournal_base {d : Disk} {state : JournalState} {n : ℕ}
    (hacc : r.base.schemaAccepts = true) (hj : d.journal = some (rolling r.base state n)) :
    readJournal d =
      if (rolling r.base state n).Readable then .ok (rolling r.base state n)
      else .error (.containment "uygulama gunlugu okunamadi") := by
  have hrolling : (rolling r.base state n).schemaAccepts = true := hacc
  simp only [readJournal, hj, hrolling, if_true]

/-- A recovery that reaches its rollback. -/
theorem ensures_finish {d : Disk} {state : JournalState} {n : ℕ}
    (hacc : r.base.schemaAccepts = true) (hholder : d.holder = true) (hslots : d.slots = true)
    (hj : d.journal = some (rolling r.base state n)) (hread : (rolling r.base state n).Readable)
    (happlied : state ≠ .applied) (hrolled : state ≠ .rolledBack) (hfinds : r.Finds d state n)
    (id : String) :
    (finishRecovery id (rolling r.base state n).reopened).Ensures (boot d)
      (fun s => r.Leaves s.disk ∧
        (¬ Recoverable d → s.disk.journal ≠ none ∧ ¬ Recoverable s.disk))
      (fun report s => Recoverable d ∧ report.state = .rolledBack ∧
        view s.disk.tree = view start.tree)
      (fun _ _ => ¬ Recoverable d) := by
  have hneeds := fun hrec => (r.of_recoverable hrec hj).2 happlied hrolled
  cases hfinds with
  | undone hs => exact absurd hs hrolled
  | applied hs => exact absurd hs happlied
  | undoing hs =>
    subst hs
    exact ensures_mono (r.ensures_finish_undoing id) (fun _ h => h.elim) (fun _ _ h => h.elim)
      (fun _ _ _ hrec => (hneeds hrec).1 rfl)
  | clean hs hundo hwhole =>
    obtain ⟨state', hreopened, hallowed⟩ := r.reopened_allowed n (hs.imp_right (·.imp_right .inl))
    have hrec : Recoverable d := by
      refine r.recoverable_whole hj hread ?_ hslots hwhole
      rintro rfl
      simp at hs
    rw [hreopened]
    refine ensures_mono (r.ensures_finish_clean (E := fun _ _ => False) hacc hholder hallowed
      hundo id) (fun _ h => ⟨h, fun hnot => absurd hrec hnot⟩) (fun _ _ h => ⟨hrec, h⟩)
      (fun _ _ h => h.elim)
  | broken hs hbad =>
    obtain ⟨state', hreopened, hallowed⟩ := r.reopened_allowed n hs
    rw [hreopened]
    exact ensures_mono (r.ensures_finish_broken hacc hholder hallowed hbad id)
      (fun _ h => ⟨r.leaves_of_doomed h, fun _ => r.not_recoverable_of_doomed h⟩)
      (fun _ _ h => h.elim)
      (fun _ _ _ hrec => hbad.elim (hneeds hrec).2.2.1 (hneeds hrec).2.2.2)

/-- One recovery: it ends well on a recoverable disk, and on any other it
raises and leaves nothing recoverable behind. -/
theorem ensures_recovery {d : Disk} (hacc : r.base.schemaAccepts = true) (h : r.Leaves d) :
    (recovery call).Ensures (boot d)
      (fun s => r.Leaves s.disk ∧
        (d.journal ≠ none → ¬ Recoverable d → s.disk.journal ≠ none ∧ ¬ Recoverable s.disk))
      (fun report s => Recoverable d ∧
        ((report.state = .rolledBack ∧ view s.disk.tree = view start.tree) ∨
          (report.state = .applied ∧ view s.disk.tree = r.complete)))
      (fun _ _ => d.journal ≠ none → ¬ Recoverable d) := by
  unfold recovery recoverApplication
  refine ensures_bind (R := fun u s => u = boot d ∧ s = boot d) (ensures_read ⟨rfl, rfl⟩) ?_
  rintro _ _ ⟨rfl, rfl⟩
  rcases r.finds_of_leaves h with hnone | ⟨hholder, state, n, hj, hfinds⟩
  · split
    · exact ensures_raise _ (fun h => absurd hnone h)
    · refine ensures_bind (R := fun _ _ => False) (ensures_ask _ (fun a ha => ?_)
        (fun _ _ h => absurd hnone h)) (fun _ _ h => h.elim)
      simp [readJournal, boot, hnone] at ha
  have hjournal : d.journal ≠ none := by simp [hj]
  rw [if_neg (by simp [boot, hholder])]
  refine ensures_bind (R := fun payload s => payload = rolling r.base state n ∧
    (rolling r.base state n).Readable ∧ s = boot d) (ensures_ask _ (fun a ha => ?_)
    (fun e he _ hrec => ?_)) ?_
  · rw [boot, r.readJournal_base hacc hj] at ha
    split at ha
    · exact ⟨(Except.ok.inj ha).symm, ‹_›, rfl⟩
    · cases ha
  · rw [boot, r.readJournal_base hacc hj, if_pos (r.of_recoverable hrec hj).1] at he
    cases he
  rintro _ _ ⟨rfl, hread, rfl⟩
  rw [if_neg (by simp [rolling, base, registeredPayload])]
  split
  · rename_i hstate
    refine ensures_return _ ⟨⟨_, hj, hread, hstate.imp_right .inl⟩, ?_⟩
    cases hfinds with
    | undone hs hv => exact .inl ⟨hs, hv⟩
    | applied hs hv => exact .inr ⟨hs, hv⟩
    | undoing hs => subst hs; simp [rolling] at hstate
    | clean hs => obtain rfl | rfl | rfl := hs <;> simp [rolling] at hstate
    | broken hs => obtain rfl | rfl | rfl | rfl := hs <;> simp [rolling] at hstate
  rename_i hstate
  obtain ⟨happlied, hrolled⟩ := not_or.1 hstate
  split
  · rename_i hclosed
    refine ensures_raise _ fun _ hrec => ?_
    cases ((r.of_recoverable hrec hj).2 happlied hrolled).2.1.symm.trans hclosed
  · rename_i hopen
    exact ensures_mono (r.ensures_finish hacc hholder (Bool.eq_true_of_not_eq_false hopen) hj
      hread happlied hrolled hfinds _) (fun _ h => ⟨h.1, fun _ => h.2⟩)
      (fun _ _ h => ⟨h.1, .inl h.2⟩) (fun _ _ h _ => h)

end Course

/-- Where the journal is not accepted, or there is no plan, none is written. -/
theorem ensures_apply_unwritten {fault : Option Step}
    (h : ∀ r : Course candidate call start, r.base.schemaAccepts = false) :
    (apply fault candidate call).Ensures (initial start) (fun s => s.disk.journal = none)
      (fun _ _ => False) (fun _ _ => True) := by
  have hregister : (registerApplication fault candidate call).Ensures (initial start)
      (fun s => s.disk.journal = none) (fun _ _ => False)
      (fun _ s => s.disk.journal = none ∧ s.slotsTree = false) := by
    have hstart : (initial start).disk.journal = none ∧ (initial start).slotsTree = false :=
      ⟨rfl, rfl⟩
    refine ensures_bind (R := fun p s => s = initial start ∧
      plan candidate start.tree call.reference = .ok p)
      (ensures_askTree _ (fun p hp => ⟨rfl, hp⟩) (fun _ _ => hstart)) ?_
    rintro p _ ⟨rfl, hplan⟩
    refine ensures_bind (R := fun d s => s = initial start ∧
      missingDirectories start.tree p.wanted = .ok d)
      (ensures_askTree _ (fun d hd => ⟨rfl, hd⟩) (fun _ _ => hstart)) ?_
    rintro directories _ ⟨rfl, hmissing⟩
    refine ensures_bind (R := fun _ s => s = initial start)
      (ensures_mayRaise (fun _ => rfl) (fun _ => hstart)) ?_
    rintro _ _ rfl
    refine ensures_bind (R := fun _ s => s.disk.journal = none ∧ s.slotsTree = false)
      (ensures_onDisk _ (fun d hd => ?_) (fun _ _ => hstart)) ?_
    · obtain rfl := Except.ok.inj hd
      exact ⟨rfl, hstart⟩
    rintro _ s hs
    refine ensures_bind (R := fun _ s => s.disk.journal = none ∧ s.slotsTree = false)
      (ensures_setPayload hs) ?_
    rintro _ s hs
    exact ensures_bind (ensures_writeJournal_refused (h ⟨p, directories, hplan, hmissing⟩)
      fun _ => hs) (fun _ _ h => h.elim)
  unfold apply
  refine ensures_bind (R := fun _ _ => False) ?_ (fun _ _ h => h.elim)
  refine ensures_rescue (ensures_bind hregister fun _ _ h => h.elim) ?_
  rintro e s ⟨hjournal, hslots⟩
  refine ensures_bind (R := fun u s' => u = s ∧ s' = s) (ensures_read ⟨rfl, rfl⟩) ?_
  rintro _ _ ⟨rfl, rfl⟩
  split
  · exact ensures_raise _ trivial
  · rw [if_neg (by simp [hslots])]
    refine ensures_bind (R := fun _ _ => True) (ensures_mono (ensures_removeHolder
      (C := fun d => d.journal = none) (E := fun _ _ => True) _ fun s' j hg => ?_)
      (fun _ h => h) (fun _ _ _ => trivial) (fun _ _ h => h)) fun _ _ _ => ensures_raise _ trivial
    rcases hg.holder with hj | ⟨hj, -⟩
    · exact hg.journal.trans hj
    · exact hg.journal.trans (hj.trans hjournal)

/-- Every disk a death can leave is one of those of a course, or has no
journal. -/
theorem leaves_of_reached {fault : Option Step} {d : Disk}
    (h : Reached fault candidate call start d) :
    d.journal = none ∨
      ∃ r : Course candidate call start, r.base.schemaAccepts = true ∧ r.Leaves d := by
  by_cases hcourse : ∃ r : Course candidate call start, r.base.schemaAccepts = true
  · obtain ⟨r, hacc⟩ := hcourse
    refine .inr ⟨r, hacc, ?_⟩
    induction h with
    | apply s hs => exact ensures_crashes r.ensures_apply (.unregistered rfl) s hs
    | recover d s _ hs ih =>
      have hrecovery := ensures_mono (r.ensures_recovery hacc ih) (fun _ h => h.1)
        (fun _ _ h => h) (fun _ _ h => h)
      exact ensures_crashes hrecovery ih s hs
  · have hrefused : ∀ r : Course candidate call start, r.base.schemaAccepts = false :=
      fun r => Bool.eq_false_iff.2 fun hacc => hcourse ⟨r, hacc⟩
    refine .inl ?_
    induction h with
    | apply s hs => exact ensures_crashes (ensures_apply_unwritten hrefused) rfl s hs
    | recover d s _ hs ih =>
      have hread : readJournal d = .error (.refused "uygulama gunlugu yok") := by
        simp [readJournal, ih]
      have hrefuses : (recovery call).Ensures (boot d) (fun s => s.disk.journal = none)
          (fun _ _ => True) (fun _ _ => True) := by
        refine ensures_bind (R := fun u s => u = boot d ∧ s = boot d)
          (ensures_read ⟨rfl, rfl⟩) ?_
        rintro _ _ ⟨rfl, rfl⟩
        split
        · exact ensures_raise _ trivial
        · refine ensures_bind (R := fun _ _ => False) (ensures_ask _ (fun a ha => ?_)
            (fun _ _ => trivial)) (fun _ _ h => h.elim)
          rw [boot, hread] at ha
          cases ha
      exact ensures_crashes hrefuses ih s hs

namespace Course

variable (r : Course candidate call start)

theorem endsWell_of_recoverable {d : Disk} (hacc : r.base.schemaAccepts = true)
    (h : r.Leaves d) (hrec : Recoverable d) : EndsWell candidate call start d := by
  obtain ⟨-, hend⟩ := r.ensures_recovery hacc h
  have hjournal : d.journal ≠ none := by
    obtain ⟨payload, hj, -⟩ := hrec
    simp [hj]
  split at hend
  · rename_i report hreport
    exact ⟨report, hreport, hend.2.imp_right fun h => ⟨h.1, r, h.2⟩⟩
  · exact absurd hrec (hend hjournal)

/-- A disk that is not recoverable stays so, whatever is tried on it. -/
theorem not_recoverable_retried {d d' : Disk} (hacc : r.base.schemaAccepts = true)
    (h : r.Leaves d) (hjournal : d.journal ≠ none) (hrec : ¬ Recoverable d)
    (hretried : Relation.ReflTransGen (Retried call) d d') :
    r.Leaves d' ∧ d'.journal ≠ none ∧ ¬ Recoverable d' := by
  induction hretried with
  | refl => exact ⟨h, hjournal, hrec⟩
  | tail _ hstep ih =>
    obtain ⟨s, hs, rfl⟩ := hstep
    obtain ⟨hleaves, hjournal, hnot⟩ := ih
    have hkept := ensures_crashes (r.ensures_recovery hacc hleaves)
      ⟨hleaves, fun hj hn => ⟨hj, hn⟩⟩ s hs
    exact ⟨hkept.1, hkept.2 hjournal hnot⟩

theorem not_recovers {d : Disk} (hacc : r.base.schemaAccepts = true) (h : r.Leaves d)
    (hjournal : d.journal ≠ none) (hrec : ¬ Recoverable d) :
    ¬ Recovers candidate call start d := by
  rintro ⟨d', hretried, report, hreport, -⟩
  obtain ⟨hleaves, -, hnot⟩ := r.not_recoverable_retried hacc h hjournal hrec hretried
  obtain ⟨-, hend⟩ := r.ensures_recovery hacc hleaves
  simp only [hreport] at hend
  exact hnot hend.1

end Course

/-- Recovery ends well, at once or after any number of tries, exactly where the
disk it finds is recoverable. -/
theorem recovers_iff_recoverable {fault : Option Step} {d : Disk}
    (hreached : Reached fault candidate call start d) (hjournal : d.journal ≠ none) :
    Recovers candidate call start d ↔ Recoverable d := by
  obtain ⟨r, hacc, hleaves⟩ := (leaves_of_reached hreached).resolve_left hjournal
  refine ⟨fun h => ?_, fun h => ⟨d, .refl, r.endsWell_of_recoverable hacc hleaves h⟩⟩
  by_contra hnot
  exact r.not_recovers hacc hleaves hjournal hnot h

end

/-- A call whose journal is accepted may die between its first journal write and
the creation of the slot directory. -/
theorem Course.reached_registered [Host] {candidate : Candidate} {call : Call} {start : Checkout}
    (r : Course candidate call start) (hacc : r.base.schemaAccepts = true) :
    Reached none candidate call start ⟨start.tree, true, false, some r.base⟩ := by
  let holding : Process := ⟨⟨start.tree, true, false, none⟩, some r.base, false⟩
  have hwritten : holding.withJournal (some r.base) ∈ (writeJournal none r.base holding).trace := by
    refine mem_trace_right (a := ()) (t := holding) ⟨rfl, rfl⟩ (mem_trace_left ?_)
    simp only [onDisk, commit, hacc, if_true, List.mem_singleton]
    rfl
  have hregister : holding.withJournal (some r.base) ∈
      (registerApplication none candidate call (initial start)).trace := by
    refine mem_trace_right (lands_ask.2 ⟨r.planned, rfl⟩) ?_
    refine mem_trace_right (lands_ask.2 ⟨r.missing, rfl⟩) ?_
    refine mem_trace_right (a := ()) (t := initial start) ⟨rfl, rfl⟩ ?_
    refine mem_trace_right (a := ()) (t := ⟨⟨start.tree, true, false, none⟩, none, false⟩)
      ⟨rfl, rfl⟩ ?_
    exact mem_trace_right (a := ()) (t := holding) ⟨rfl, rfl⟩ (mem_trace_left hwritten)
  refine Reached.apply (holding.withJournal (some r.base)) ?_
  exact List.mem_cons_of_mem _ (mem_trace_left (mem_trace_rescue (mem_trace_left hregister)))

theorem exists_registered : ∃ d,
    @Reached sampleHost none addedCandidate addedCall emptyCheckout d ∧
      d.journal.map Payload.state = some .registered ∧ d.slots = false :=
  ⟨_, @Course.reached_registered sampleHost _ _ _ addedCourse addedCourse_accepts, rfl, rfl⟩

theorem recovers_iff_registered : ∃ d,
    @Reached sampleHost none addedCandidate addedCall emptyCheckout d ∧
      (@Recovers sampleHost addedCandidate addedCall emptyCheckout d ↔ Recoverable d) := by
  obtain ⟨d, hreached, hjournal, -⟩ := exists_registered
  refine ⟨d, hreached, @recovers_iff_recoverable sampleHost _ _ _ _ _ hreached fun h => ?_⟩
  simp [h] at hjournal

/-- No recovery gets past the missing directory. -/
theorem registered_never_recovers : ∃ d,
    @Reached sampleHost none addedCandidate addedCall emptyCheckout d ∧ d.journal ≠ none ∧
      ¬ @Recovers sampleHost addedCandidate addedCall emptyCheckout d := by
  obtain ⟨d, hreached, hstate, hslots⟩ := exists_registered
  have hjournal : d.journal ≠ none := by
    intro h
    simp [h] at hstate
  refine ⟨d, hreached, hjournal, ?_⟩
  obtain ⟨r, hacc, hleaves⟩ :=
    (@leaves_of_reached sampleHost _ _ _ _ _ hreached).resolve_left hjournal
  refine @Course.not_recovers sampleHost _ _ _ r _ hacc hleaves hjournal ?_
  rintro ⟨payload, hp, -, h⟩
  rw [hp] at hstate
  rw [show payload.state = .registered from Option.some.inj hstate, hslots] at h
  simp at h

end RagPipeline.Application
