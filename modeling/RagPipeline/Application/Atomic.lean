import RagPipeline.Application.Ordinary
import RagPipeline.Application.Script

/-! # Undo is the inverse of every executed prefix

The result on one script, with the map of the checkout and the slots as the
only state, and a plan it can be read on. -/

set_option autoImplicit false

namespace RagPipeline.Application
open UndoLog

/-- Whatever prefix of the script was executed, `applied_index` is the number
of executed moves, or one more when the last announced move did not take
place. The undo from either gives back the map of the start. -/
theorem undo_inverts_announced [Host] (candidate : Candidate) (t reference : FileTree)
    (p : Plan) (hplan : plan candidate t reference = .ok p) (hready : SlotsReady t p)
    (k : ℕ) (t' : FileTree) (hrun : runAll execute (p.moves.take k) t = .ok t') :
    undoFrom k p.moves t' = .ok t ∧
      ∀ m, p.moves[k]? = some m → m.index = k ∧ undoFrom (m.index + 1) p.moves t' = .ok t := by
  have hrev : ∀ m ∈ p.moves.take k, Reverses execute undo m :=
    fun m hm => plan_reverses hplan (List.mem_of_mem_take hm)
  refine ⟨undoAll_runAll _ hrev t t' hrun, fun m hm => ?_⟩
  have hindex : m.index = k := by simpa using planFrom_index candidate.canonical hplan k hm
  refine ⟨hindex, ?_⟩
  have hpending : Pending m t' :=
    announceable_next (plan_announceable hplan (fun _ _ _ h => h) hready) k hrun hm
  rw [hindex, undoFrom, List.take_add_one, hm]
  exact undoAll_announced _ hrev m t t' hrun (undo_pending hpending)

def sampleText (c : Char) : Bytes := [c.toNat.toUInt8, 10]

/-- SHA-256 on the two texts of the sample. -/
@[reducible] def sampleHost : Host where
  sha256 bytes :=
    if bytes = sampleText 'a' then
      "87428fc522803d31065e7bce3cf03fe475096631e5e07bbd7a0fde60c4cf25c7"
    else if bytes = sampleText 'b' then
      "0263829989b6fd954f72baaf2fc64bc2e2f01d692d4de72986ea808f6e99813f"
    else ""
  cleanEquivalent _ current baseline := .ok (current == baseline)
  listsJournalFirst := true

def sampleSha (c : Char) : String := sampleHost.sha256 (sampleText c)

def sampleCandidate : Candidate where
  changes := [⟨["edit.py"], .modified, 0o644, sampleSha 'b'⟩,
    ⟨["gone.py"], .deleted, 0o644, ""⟩]
  canonical := by decide
  apart := by decide
  bounded := by decide

def sampleReference : FileTree :=
  (Finmap.insert (.repo ["edit.py"]) (.file (sampleText 'a') 0o644) ∅ : FileTree).insert
    (.repo ["gone.py"]) (.file (sampleText 'a') 0o644)

def sampleStart : FileTree :=
  sampleReference.insert (.hold (stagedSlot 0)) (.file (sampleText 'b') 0o644)

def samplePlan : Plan where
  moves := [⟨0, .repo ["edit.py"], .hold (backupSlot 0), sampleSha 'a', 0o644⟩,
    ⟨1, .hold (stagedSlot 0), .repo ["edit.py"], sampleSha 'b', 0o644⟩,
    ⟨2, .repo ["gone.py"], .hold (backupSlot 1), sampleSha 'a', 0o644⟩]
  staged := [(stagedSlot 0, ⟨["edit.py"], .modified, 0o644, sampleSha 'b'⟩)]
  wanted := []

/-- One file replaced, and the deletion of the other announced and not done. -/
def sampleReplaced : FileTree :=
  ((Finmap.insert (.repo ["gone.py"]) (.file (sampleText 'a') 0o644) ∅ : FileTree).insert
    (.hold (backupSlot 0)) (.file (sampleText 'a') 0o644)).insert
    (.repo ["edit.py"]) (.file (sampleText 'b') 0o644)

theorem undo_inverts_sample :
    @undoFrom sampleHost 2 samplePlan.moves sampleReplaced = .ok sampleStart ∧
      @undoFrom sampleHost 3 samplePlan.moves sampleReplaced = .ok sampleStart := by
  have hready : @SlotsReady sampleHost sampleStart samplePlan := by
    refine @SlotsReady.mk sampleHost _ _ (fun s c h => ?_) (fun m hm s hs => ?_)
    · obtain ⟨rfl, rfl⟩ : s = _ ∧ c = _ := by simpa [samplePlan] using h
      exact ⟨⟨sampleSha 'b', 0o644, sampleText 'b'⟩, by decide +kernel, rfl⟩
    · obtain rfl | rfl | rfl : m = _ ∨ m = _ ∨ m = _ := by simpa [samplePlan] using hm
      · obtain rfl := Place.hold.inj hs
        decide
      · cases hs
      · obtain rfl := Place.hold.inj hs
        decide
  have h := @undo_inverts_announced sampleHost sampleCandidate sampleStart sampleReference
    samplePlan (by decide +kernel) hready 2 sampleReplaced (by decide +kernel)
  exact ⟨h.1, (h.2 _ rfl).2⟩

end RagPipeline.Application

/-! # Atomicity of one call

The handler of `_apply` on top of the forward run. A process that failed clean
is put back; one that failed broken ends in RollbackFailed. Together with what
the interrupted step decides, this says exactly when a call is atomic. -/

namespace RagPipeline.Application
open UndoLog Effects Effects.Program

namespace Course

variable [Host] {candidate : Candidate} {call : Call} {start : Checkout}
  (r : Course candidate call start) {fault : Option Step}

/-- The disks that a death of a call, or of a later recovery, can leave. -/
inductive Leaves (d : Disk) : Prop where
  | unregistered : d.journal = none → Leaves d
  | early (state : JournalState) (k : ℕ) : d.journal = some (rolling r.base state 0) →
      d.holder = true → state = .registered ∨ state = .prepared →
      view d.tree = addDirectories (r.directories.take k) (view start.tree) → Leaves d
  | moving (n : ℕ) : d.journal = some (rolling r.base .applying n) → d.holder = true →
      d.slots = true → r.Undoable d.tree n → r.Whole d.tree n → Leaves d
  | half (n : ℕ) : d.journal = some (rolling r.base .applying n) → d.holder = true →
      r.HalfDone d.tree n → Leaves d
  | undoing (n : ℕ) : d.journal = some (rolling r.base .rollingBack n) → d.holder = true →
      Leaves d
  | stuck (n : ℕ) : d.journal = some (rolling r.base .failed n) → d.holder = true →
      r.Lacks d.tree ∨ r.HalfDone d.tree n → Leaves d
  | undone (n : ℕ) : d.journal = some (rolling r.base .rolledBack n) → d.holder = true →
      view d.tree = view start.tree → Leaves d
  | applied (n : ℕ) : d.journal = some (rolling r.base .applied n) → d.holder = true →
      view d.tree = r.complete → Leaves d

theorem leaves_of_forward {d : Disk} (h : r.Forward d) : r.Leaves d := by
  cases h with
  | unregistered d h => exact .unregistered h
  | early state slots k t hs ht => exact .early state k rfl rfl hs ht
  | moving n t h hw => exact .moving n rfl rfl rfl h hw
  | half n t h => exact .half n rfl rfl h
  | applied n t h => exact .applied n rfl rfl h

/-- A disk that goes to its end: the journal is one of the two that name a
finished application, or the slots were never opened. -/
def Removable (d : Disk) : Prop :=
  d.journal = none ∨
    ((∃ n, d.journal = some (rolling r.base .rolledBack n)) ∨
        d.journal = some (rolling r.base .registered 0)) ∧
      d.holder = true ∧ view d.tree = view start.tree ∨
    (∃ n, d.journal = some (rolling r.base .applied n)) ∧ d.holder = true ∧
      view d.tree = r.complete

theorem leaves_of_removable {d : Disk} (h : r.Removable d) : r.Leaves d := by
  rcases h with h | ⟨⟨n, hj⟩ | hj, hh, hv⟩ | ⟨⟨n, hj⟩, hh, hv⟩
  · exact .unregistered h
  · exact .undone n hj hh hv
  · exact .early .registered 0 hj hh (.inl rfl) (by simpa [addDirectories] using hv)
  · exact .applied n hj hh hv

end Course

theorem view_eraseHold (t : FileTree) (p : Place) : view (eraseHold p t) = view t := by
  cases p with
  | repo path => rfl
  | hold slot => exact funext fun q => Finmap.lookup_erase_ne (by simp)

section
variable {s : Process} {C : Disk → Prop} {E : ApplicationError → Process → Prop}

/-- A process whose holder is going: the view is kept, and the journal is the
one it was or is gone. -/
structure Going (s : Process) (kept : Option Payload) (s' : Process) : Prop where
  view : view s'.disk.tree = view s.disk.tree
  journal : s'.disk.journal = kept
  holder : kept = none ∨ kept = s.disk.journal ∧ s'.disk.holder = s.disk.holder

theorem ensures_going {s' : Process} {journal : Option Payload} {f : Disk → Disk}
    (hC : ∀ s'' j, Going s j s'' → C s''.disk)
    (h : Going s journal { s' with disk := f s'.disk }) :
    (onDisk fun d => .ok (f d)).Ensures s' (fun s' => C s'.disk) (fun _ => Going s journal) E := by
  refine ensures_onDisk _ (fun d hd => ?_) (fun e he => by cases he)
  obtain rfl := Except.ok.inj hd
  exact ⟨hC _ _ h, h⟩

variable [Host]

/-- The holder goes in some order, and the checkout does not change. -/
theorem ensures_removeHolder (moves : List Move) (hC : ∀ s'' j, Going s j s'' → C s''.disk) :
    (removeHolder moves).Ensures s (fun s' => C s'.disk)
      (fun _ s' => view s'.disk.tree = view s.disk.tree) E := by
  have hslots : ∀ {j s'}, Going s j s' → (forEach moves fun move => onTree fun t =>
      .ok (eraseHold move.toPlace (eraseHold move.fromPlace t))).Ensures s'
        (fun s' => C s'.disk) (fun _ => Going s j) E := by
    intro j s' h
    refine ensures_forEach (I := fun _ => Going s j) h fun k m _ t ht => ?_
    refine ensures_onTree _ (fun t' ht' => ?_) (fun e he => by cases he)
    obtain rfl := Except.ok.inj ht'
    have hgoing : Going s j (t.withTree
        (eraseHold m.toPlace (eraseHold m.fromPlace t.disk.tree))) :=
      ⟨by rw [← ht.view]; exact (view_eraseHold _ _).trans (view_eraseHold _ _), ht.journal,
        ht.holder⟩
    exact ⟨hC _ _ hgoing, hgoing⟩
  have hstart : Going s s.disk.journal s := ⟨rfl, rfl, .inr ⟨rfl, rfl⟩⟩
  have hdrop : ∀ {j s'}, Going s j s' →
      dropJournal.Ensures s' (fun s' => C s'.disk) (fun _ => Going s none) E :=
    fun h => ensures_going hC ⟨h.view, rfl, .inl rfl⟩
  have hclose : ∀ {j s'}, Going s j s' → (onDisk fun d => .ok { d with slots := false }).Ensures
      s' (fun s' => C s'.disk) (fun _ => Going s j) E :=
    fun h => ensures_going hC ⟨h.view, h.journal, h.holder⟩
  have hlast : ∀ {s'}, Going s none s' → (onDisk fun d => .ok { d with holder := false }).Ensures
      s' (fun s' => C s'.disk) (fun _ s' => view s'.disk.tree = view s.disk.tree) E :=
    fun h => ensures_mono (ensures_going hC ⟨h.view, h.journal, .inl rfl⟩) (fun _ h => h)
      (fun _ _ h => h.view) (fun _ _ h => h)
  unfold removeHolder
  cases Host.listsJournalFirst with
  | true =>
    refine ensures_bind (hdrop hstart) fun _ _ h => ensures_bind (hslots h) fun _ _ h => ?_
    exact ensures_bind (hclose h) fun _ _ h => hlast h
  | false =>
    refine ensures_bind (hslots hstart) fun _ _ h => ensures_bind (hclose h) fun _ _ h => ?_
    exact ensures_bind (hdrop h) fun _ _ h => hlast h

end

namespace Course

variable [Host] {candidate : Candidate} {call : Call} {start : Checkout}
  (r : Course candidate call start) {fault : Option Step}

theorem removable_going {s s' : Process} {j : Option Payload} (h : r.Removable s.disk)
    (hg : Going s j s') : r.Removable s'.disk := by
  rcases hg.holder with hj | ⟨hj, hh⟩
  · exact .inl (hg.journal.trans hj)
  · rw [Removable, hg.journal, hj, hh, hg.view]
    exact h

theorem ensures_removeRemovable {s : Process} {E : ApplicationError → Process → Prop}
    (moves : List Move) (h : r.Removable s.disk) :
    (removeHolder moves).Ensures s (fun s' => r.Leaves s'.disk)
      (fun _ s' => view s'.disk.tree = view s.disk.tree) E :=
  ensures_removeHolder moves fun _ _ hg => r.leaves_of_removable (r.removable_going h hg)

theorem base_moves {m : Move} (hm : m ∈ r.base.moves) : m.Canonical := r.moves_canonical hm

/-- A disk that no rollback puts right: one is under way, or one has failed and
what it missed is still missing. -/
def Doomed (d : Disk) : Prop :=
  d.holder = true ∧ ∃ n, d.journal = some (rolling r.base .rollingBack n) ∨
    d.journal = some (rolling r.base .failed n) ∧ (r.Lacks d.tree ∨ r.HalfDone d.tree n)

theorem leaves_of_doomed {d : Disk} (h : r.Doomed d) : r.Leaves d := by
  obtain ⟨hh, n, hj | ⟨hj, hbad⟩⟩ := h
  · exact .undoing n hj hh
  · exact .stuck n hj hh hbad

theorem ensures_rollback_clean {s : Process} {state : JournalState} {n : ℕ}
    {E : ApplicationError → Process → Prop} (hholder : s.disk.holder = true)
    (hallowed : .rollingBack ∈ state.allowedJournalTransitions)
    (hacc : r.base.schemaAccepts = true) (ht : r.Undoable s.disk.tree n) :
    (rollback (rolling r.base state n) r.base.moves).Ensures s (fun s' => r.Leaves s'.disk)
      (fun _ s' => r.Removable s'.disk ∧ view s'.disk.tree = view start.tree) E := by
  obtain ⟨t₀, hundo, hmade⟩ := ht
  refine ensures_mono (rollback_restores
    (f := view start.tree) (C := r.Leaves) (E := E) hallowed hacc (fun _ => r.base_moves)
    (fun _ => r.directories_canonical) hundo start.closed r.outermost hmade
    (fun t n => .undoing n rfl hholder) (fun t n hv => .undone n rfl hholder hv))
    (fun _ h => h) ?_ (fun _ _ h => h)
  rintro _ _ ⟨t', n', hv, rfl⟩
  exact ⟨.inr (.inl ⟨.inl ⟨n', rfl⟩, hholder, hv⟩), hv⟩

theorem ensures_rollback_broken {s : Process} {state : JournalState} {n : ℕ}
    (hholder : s.disk.holder = true)
    (hallowed : .rollingBack ∈ state.allowedJournalTransitions)
    (hacc : r.base.schemaAccepts = true) (ht : r.Lacks s.disk.tree ∨ r.HalfDone s.disk.tree n) :
    (rollback (rolling r.base state n) r.base.moves).Ensures s (fun s' => r.Doomed s'.disk)
      (fun _ _ => False) (fun e _ => e.isRollbackFailed = true) := by
  rcases ht with ⟨d, hd, hlacks⟩ | ⟨rest, m, hlast, hlanded, htaken⟩
  · refine ensures_mono (rollback_missing (C := r.Doomed)
      hallowed hacc (fun _ => r.base_moves) (fun _ => r.directories_canonical) hd
      hlacks (fun t n => ⟨hholder, n, .inl rfl⟩)
      (fun t n hl => ⟨hholder, n, .inr ⟨rfl, .inl ⟨d, hd, hl⟩⟩⟩))
      (fun _ h => h) (fun _ _ h => h) ?_
    rintro _ s' ⟨rfl, -⟩
    rfl
  · have hhalf : r.HalfDone s.disk.tree n := ⟨rest, m, hlast, hlanded, htaken⟩
    refine ensures_mono (rollback_half (C := r.Doomed)
      hallowed hacc (fun _ => r.base_moves) hlast hlanded htaken ⟨hholder, n, .inl rfl⟩
      ⟨hholder, n, .inr ⟨rfl, .inr hhalf⟩⟩) (fun _ h => h) (fun _ _ h => h) ?_
    rintro _ s' ⟨rfl, -⟩
    rfl

/-- How a raise of the forward run leaves `_apply`. -/
def Raises (fault : Option Step) (e : ApplicationError) (s : Process) : Prop :=
  (¬ r.Unsafe fault ∧ e.isRollbackFailed = false ∧ view s.disk.tree = view start.tree) ∨
    (r.Unsafe fault ∧ e.isRollbackFailed = true)

theorem ensures_applyHandler {s : Process} {primary : ApplicationError}
    (hs : r.Fails fault s) (hordinary : primary.isRollbackFailed = false) :
    (applyHandler primary).Ensures s (fun s' => r.Leaves s'.disk) (fun _ _ => False)
      (r.Raises fault) := by
  unfold applyHandler
  refine ensures_bind (R := fun u s' => s = u ∧ s = s') (ensures_read ⟨rfl, rfl⟩) ?_
  rintro _ _ ⟨rfl, rfl⟩
  rcases hs with ⟨hclean, hsafe⟩ | ⟨hbroken, hbreaks⟩
  · cases hclean with
    | unopened hclosed htree hjournal hpayload =>
      have hview : view s.disk.tree = view start.tree := by rw [htree]
      rcases hpayload with ⟨hnone, -⟩ | hsome
      · rw [hnone]
        exact ensures_raise _ (.inl ⟨hsafe, hordinary, hview⟩)
      · have hremovable : r.Removable s.disk := by
          rcases hjournal with h | ⟨slots, h⟩
          · exact .inl h
          · rw [h]
            exact .inr (.inl ⟨.inr rfl, rfl, rfl⟩)
        simp only [hsome, hclosed]
        refine ensures_bind (r.ensures_removeRemovable _ hremovable) fun _ s' h => ?_
        exact ensures_raise _ (.inl ⟨hsafe, hordinary, h.trans hview⟩)
    | opened state n t hacc hfailing hallowed hundo =>
      simp only [hfailing.payload, hfailing.slotsTree, if_true]
      refine ensures_bind (r.ensures_rollback_clean hfailing.holder hallowed hacc
        (hfailing.tree.symm ▸ hundo)) fun _ s' h => ?_
      refine ensures_bind (r.ensures_removeRemovable _ h.1) fun _ s'' h' => ?_
      exact ensures_raise _ (.inl ⟨hsafe, hordinary, h'.trans h.2⟩)
  · cases hbroken with
    | opened state n t hfailing hallowed hbad =>
      simp only [hfailing.payload, hfailing.slotsTree, if_true]
      refine ensures_bind (ensures_mono (r.ensures_rollback_broken hfailing.holder hallowed
        hbreaks.1 (hfailing.tree.symm ▸ hbad)) (fun _ h => r.leaves_of_doomed h)
        (fun _ _ h => h) (fun _ _ h => .inr ⟨hbreaks, h⟩)) ?_
      exact fun _ _ h => h.elim

/-- The whole call, from a checkout for which there is a plan. -/
theorem ensures_apply :
    (apply fault candidate call).Ensures (initial start) (fun s' => r.Leaves s'.disk)
      (fun _ s' => ¬ r.Unsafe fault ∧ view s'.disk.tree = r.complete) (r.Raises fault) := by
  unfold apply
  refine ensures_bind (R := fun _ s' => ∃ t, s' = r.forward .applied r.p.moves.length t ∧
    view t = r.complete ∧ ¬ r.Unsafe fault) ?_ ?_
  · refine ensures_rescue (F := fun e s' => r.Fails fault s' ∧ e.isRollbackFailed = false) ?_ ?_
    · exact ensures_mono (ensures_both (r.ensures_applyBody)
        (refuses_applyBody fault candidate call (initial start)))
        (fun _ h => r.leaves_of_forward h.1) (fun _ _ h => h.1) (fun _ _ h => h)
    · exact fun _ _ h => ensures_mono (r.ensures_applyHandler h.1 h.2) (fun _ h => h)
        (fun _ _ h => h.elim) (fun _ _ h => h)
  rintro _ _ ⟨t, rfl, hview, hsafe⟩
  refine ensures_bind (R := fun _ s' => s' = r.forward .applied r.p.moves.length t)
    (ensures_read rfl) ?_
  rintro _ _ rfl
  have hremovable : r.Removable (r.forward .applied r.p.moves.length t).disk :=
    .inr (.inr ⟨⟨_, rfl⟩, rfl, hview⟩)
  refine ensures_bind (r.ensures_removeRemovable _ hremovable) fun _ s' h => ?_
  exact ensures_return _ ⟨hsafe, h.trans hview⟩

end Course

section
variable [Host] {candidate : Candidate} {call : Call} {start : Checkout} {fault : Option Step}

end

/-- An empty checkout, and one file to add in a directory it does not have. -/
def emptyCheckout : Checkout where
  tree := ∅
  closed := ⟨rfl, fun _ _ h => absurd rfl h⟩
  noSlots _ := rfl

def addedChange : Change := ⟨["yeni", "a.py"], .added, 0o644, sampleSha 'a'⟩

def addedCandidate : Candidate where
  changes := [addedChange]
  canonical := by decide
  apart := by decide
  bounded := by decide

def addedCall : Call where
  identity := {
    applicationId := "0123456789abcdef0123456789abcdef"
    repoId := "00112233445566778899aabbccddeeff"
    runId := "kosu-1"
    workspaceId := "ffeeddccbbaa99887766554433221100"
    baselineSha := "0123456789abcdef0123456789abcdef01234567"
    manifestDigest := sampleSha 'b'
    candidateFingerprint := sampleSha 'a'
    createdAt := "2026-01-01T00:00:00Z" }
  reference := ∅
  implementer := (Finmap.insert (.repo ["yeni"]) .dir ∅ : FileTree).insert
    (.repo ["yeni", "a.py"]) (.file (sampleText 'a') 0o644)
  verify _ := none

section
attribute [local instance] sampleHost

def addedCourse : Course addedCandidate addedCall emptyCheckout where
  p := ⟨[placeMove 0 0 addedChange], [(stagedSlot 0, addedChange)], [["yeni"]]⟩
  directories := [["yeni"]]
  planned := by rfl
  missing := by rfl

theorem addedCourse_accepts : addedCourse.base.schemaAccepts = true := by decide +kernel

end

end RagPipeline.Application
