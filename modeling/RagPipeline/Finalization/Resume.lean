import RagPipeline.Finalization.Archived

/-! # A second call after a death in the removals

The second call reads what the first was removing. It goes on exactly when the
state document still stands and the workspace is whole or gone together with
its record; past the state document it reports the run as finalized already. -/

set_option autoImplicit false

namespace RagPipeline.Finalization
open Runner Guard Effects Program

variable {h : Host} {r : Request} {st : StateDoc} {found found' : Findings} {name : String}
  {d t u x : Disk} {m : Manifest} {claim claim' : Bytes}

/-- What `finalize` may remove. -/
inductive Thing where
  | document (f : StateFile)
  | record (name : String)
  | holder (w : String)
  | task

def Disk.has (d : Disk) : Thing → Prop
  | .document f => d.files f ≠ none
  | .record name => d.record name ≠ none
  | .holder w => d.holders w ≠ none
  | .task => d.task ≠ none

/-- The disk once the lock is taken. -/
def locked (claim : Bytes) (d : Disk) : Disk := d.setFile .lock (some (.file claim))

theorem locked_files {f : StateFile} (hf : f ≠ .lock) : (locked claim d).files f = d.files f :=
  Function.update_of_ne hf _ _

theorem readState_locked : readState h (locked claim d) = readState h d := by
  unfold readState
  rw [locked_files (by decide)]

theorem finalize_run (h : Host) (r : Request) (claim : Bytes) (d : Disk) : ∃ rest,
    (finalize h r claim d).trace = locked claim d :: rest ∧
    rest = (finalizeLocked h r (locked claim d)).trace ∧
    (finalize h r claim d).state = (finalizeLocked h r (locked claim d)).state ∧
    (finalize h r claim d).result = (finalizeLocked h r (locked claim d)).result := by
  have hlock : (Program.commit fun d : Disk => Except.ok (ε := Refusal)
      (d.setFile .lock (some (.file claim)))).Lands d () (locked claim d) := lands_commit.2 rfl
  obtain ⟨hstate, hresult⟩ := bind_of_lands hlock (f := fun _ => finalizeLocked h r)
  exact ⟨_, trace_bind hlock, rfl, hstate, hresult⟩

/-- Without a state document nothing is removed any more. -/
theorem finalize_without_state (hnone : d.files .state = none) :
    (finalize h r claim d).state = locked claim d ∧
      (finalize h r claim d).trace = [locked claim d] := by
  have hread : readState h (locked claim d) = .ok none := by
    rw [readState_locked, readState, hnone]
  have hask : (Program.ask (readState h)).Lands (locked claim d) none (locked claim d) :=
    ⟨hread, rfl⟩
  obtain ⟨rest, htrace, rfl, hstate, -⟩ := finalize_run h r claim d
  refine ⟨hstate.trans ?_, htrace.trans ?_⟩
  · rw [finalizeLocked, (bind_of_lands hask).1]
    rfl
  · rw [finalizeLocked, trace_bind hask]
    rfl

/-- A call that is refused at the gates removes nothing. -/
theorem finalize_refused (hread : readState h d = .ok (some st))
    (hgates : ∀ found, gates h r st (locked claim d) ≠ .ok found) :
    (finalize h r claim d).state = locked claim d := by
  have hask : (Program.ask (readState h)).Lands (locked claim d) (some st) (locked claim d) :=
    ⟨readState_locked.trans hread, rfl⟩
  obtain ⟨rest, -, -, hstate, -⟩ := finalize_run h r claim d
  rw [hstate, finalizeLocked, (bind_of_lands hask).1]
  cases hg : gates h r st (locked claim d) with
  | ok found => exact absurd hg (hgates found)
  | error e =>
    have herror : ((Program.ask (gates h r st)) (locked claim d)).result = .error e := hg
    exact (state_bind_of_error herror).1

/-- The name of the archive of an approved run. -/
def runArchive (r : Request) : String := archiveNameFor r.expectedRunId .approved r.shippedCommit

def Disk.archived (d : Disk) (name : String) : Prop :=
  ∃ a, d.archive name = some a ∧ a.complete = true

theorem Building.not_archived (hb : Building name d t) : ¬ t.archived name := by
  rintro ⟨a, ha, hcomplete⟩
  obtain ⟨-, b, hb, hopen⟩ := hb
  obtain rfl : a = b := Option.some.inj (ha.symm.trans hb)
  rw [hcomplete] at hopen
  cases hopen

theorem gates_ok : gates h r st d = .ok found ↔
    bindRun h r st d = .ok found.binding ∧ h.pendingApplications = [] ∧
      bindWorkspace h st.runId d found.binding = .ok found.holder ∧
      bindTask h r found.binding d = .ok found.task ∧
      shipment h r st.state found.task = .ok found.shipment ∧
      assertArchiveRoot h r (found.holder.map Prod.fst) = .ok () ∧
      candidatePaths h found.binding found.holder found.task d = .ok found.candidates := by
  simp only [gates, bind_ok, require_ok, exists_unit, pure_ok]
  constructor
  · rintro ⟨binding, h1, h2, holder, h3, task, h4, ship, h5, h6, paths, h7, rfl⟩
    exact ⟨h1, h2, h3, h4, h5, h6, h7⟩
  · rintro ⟨h1, h2, h3, h4, h5, h6, h7⟩
    exact ⟨_, h1, h2, _, h3, _, h4, _, h5, h6, _, h7, rfl⟩

theorem runId_of_gates (hg : gates h r st d = .ok found) : st.runId = r.expectedRunId := by
  have hbind := (gates_ok.1 hg).1
  simp only [bindRun, bind_ok, require_ok, exists_unit] at hbind
  exact hbind.2.2.1

/-- A call past its gates, from the archive on. -/
theorem finalize_past_gates {res : FinalizeResult} (hread : readState h d = .ok (some st))
    (hl : (finalize h r claim).Lands d res t) :
    ∃ found m recovered x removed, gates h r st (locked claim d) = .ok found ∧
      (archiveRun h r st found (archiveNameFor st.runId st.state r.shippedCommit)).Lands
        (locked claim d) (m, recovered) x ∧
      (cleanup h found m).Lands x removed t ∧
      ∀ u ∈ (finalize h r claim d).trace, u = locked claim d ∨
        u ∈ (archiveRun h r st found (archiveNameFor st.runId st.state r.shippedCommit)
          (locked claim d)).trace ∨ u ∈ (cleanup h found m x).trace := by
  obtain ⟨rest, htrace, rfl, hstate, hresult⟩ :=
    finalize_run h r claim d
  have hlocked : (finalizeLocked h r).Lands (locked claim d) res t :=
    ⟨hresult.symm.trans hl.1, hstate.symm.trans hl.2⟩
  have hask : (Program.ask (readState h)).Lands (locked claim d) (some st) (locked claim d) :=
    ⟨readState_locked.trans hread, rfl⟩
  rw [finalizeLocked, lands_bind] at hlocked
  obtain ⟨o, y, hfirst, hlocked⟩ := hlocked
  obtain rfl : some st = o := Except.ok.inj (hask.1.symm.trans hfirst.1)
  obtain rfl : locked claim d = y := hfirst.2
  dsimp only at hlocked
  rw [lands_bind] at hlocked
  obtain ⟨found, y, hfound, hlocked⟩ := hlocked
  obtain ⟨hgates, rfl⟩ := lands_ask.1 hfound
  rw [lands_bind] at hlocked
  obtain ⟨⟨m, recovered⟩, x, harchive, hlocked⟩ := hlocked
  rw [lands_bind] at hlocked
  obtain ⟨removed, z, hclean, hlocked⟩ := hlocked
  rw [lands_bind] at hlocked
  obtain ⟨_, _, hread', hend⟩ := hlocked
  obtain ⟨rfl, rfl⟩ := lands_read.1 hread'
  obtain ⟨-, rfl⟩ := lands_pure.1 hend
  refine ⟨found, m, recovered, x, removed, hgates, harchive, hclean, fun u hu => ?_⟩
  rw [htrace] at hu
  rcases List.mem_cons.1 hu with hu | hu
  · exact .inl hu
  right
  rw [finalizeLocked, trace_bind hask] at hu
  dsimp only at hu
  rw [trace_bind hfound, trace_bind harchive] at hu
  dsimp only at hu
  rw [trace_bind hclean, trace_bind (lands_read.2 ⟨rfl, rfl⟩)] at hu
  simp only [List.mem_append] at hu
  rcases hu with hu | hu | hu | hu | hu | hu
  · exact absurd hu List.not_mem_nil
  · exact absurd hu List.not_mem_nil
  · exact .inl hu
  · exact .inr hu
  · exact absurd hu List.not_mem_nil
  · exact absurd hu List.not_mem_nil

/-- The converse: past the gates, with the archive found and everything
removable, the call goes through. -/
theorem finalize_goes_through {recovered : Bool} (hread : readState h d = .ok (some st))
    (hgates : gates h r st (locked claim d) = .ok found)
    (harchive : (archiveRun h r st found (archiveNameFor st.runId st.state r.shippedCommit)).Lands
      (locked claim d) (m, recovered) x) (hclean : Cleanable h found m x) :
    (finalize h r claim d).state = cleared found m x := by
  obtain ⟨_, -, -, hstate, -⟩ := finalize_run h r claim d
  have hask : (Program.ask (readState h)).Lands (locked claim d) (some st) (locked claim d) :=
    ⟨readState_locked.trans hread, rfl⟩
  have hfound : (Program.ask (gates h r st)).Lands (locked claim d) found (locked claim d) :=
    ⟨hgates, rfl⟩
  obtain ⟨removed, hremoved⟩ := lands_cleanup.2 ⟨hclean, rfl⟩
  rw [hstate, finalizeLocked, (bind_of_lands hask).1]
  dsimp only
  rw [(bind_of_lands hfound).1, (bind_of_lands harchive).1]
  dsimp only
  rw [(bind_of_lands hremoved).1, (bind_of_lands (lands_read.2 ⟨rfl, rfl⟩)).1]
  rfl

/-- The workspace and its record are both gone. -/
def WorkspaceGone (b : Binding) (d : Disk) : Prop :=
  d.holders b.workspaceId = none ∧ ∀ bytes, d.record (recordName b.workspaceId) ≠ some (.file bytes)

/-- The record and the holder both stand, and what is left of the holder is
still what the record and the change authority accept. -/
def WorkspaceWhole (h : Host) (runId : String) (b : Binding) (d : Disk) : Prop :=
  ∃ bytes holder manifest, d.record (recordName b.workspaceId) = some (.file bytes) ∧
    d.holders b.workspaceId = some holder ∧ (holder.entry [ownerName]).any Entry.isFile ∧
    assertBinding h b.workspaceId runId b.baselineSha holder d ∧
    d.task = some (.file manifest) ∧ (h.derive manifest b bytes holder).isSome

theorem bindHolder_ok {b : Binding} {runId : String} {o : Option (String × Holder)} :
    bindHolder h runId b d = .ok o ↔
      WorkspaceGone b d ∧ o = none ∨
      ∃ bytes holder, d.record (recordName b.workspaceId) = some (.file bytes) ∧
        d.holders b.workspaceId = some holder ∧ (holder.entry [ownerName]).any Entry.isFile ∧
        assertBinding h b.workspaceId runId b.baselineSha holder d ∧
        o = some (b.workspaceId, holder) := by
  unfold bindHolder
  split
  case h_1 bytes holder hr hh =>
    simp only [bind_ok, exists_unit, require_ok, pure_ok]
    constructor
    · rintro ⟨howner, hbinding, rfl⟩
      exact .inr ⟨bytes, holder, hr, hh, howner, hbinding, rfl⟩
    · rintro (⟨⟨hnone, -⟩, -⟩ | ⟨_, holder', -, hh', howner, hbinding, rfl⟩)
      · rw [hh] at hnone
        cases hnone
      · obtain rfl : holder = holder' := Option.some.inj (hh.symm.trans hh')
        exact ⟨howner, hbinding, rfl⟩
  case h_2 bytes hr hh =>
    refine iff_of_false (by simp) ?_
    rintro (⟨⟨-, hrecord⟩, -⟩ | ⟨_, holder, -, hh', -⟩)
    · exact hrecord bytes hr
    · rw [hh] at hh'
      cases hh'
  case h_3 holder hh hother =>
    refine iff_of_false (by simp) ?_
    rintro (⟨⟨hnone, -⟩, -⟩ | ⟨bytes, _, hr, -⟩)
    · rw [hh] at hnone
      cases hnone
    · exact hother bytes hr
  case h_4 hh hother =>
    constructor
    · intro hok
      exact .inl ⟨⟨hh, hother⟩, (Except.ok.inj hok).symm⟩
    · rintro (⟨-, rfl⟩ | ⟨_, holder, -, hh', -⟩)
      · rfl
      · rw [hh] at hh'
        cases hh'

theorem bindTask_bytes {task : Task} {b : Binding}
    (hok : bindTask h r (some b) d = .ok (some task)) : d.task = some (.file task.bytes) := by
  unfold bindTask at hok
  cases hp : r.taskPath with
  | none =>
    rw [hp] at hok
    cases hok
  | some path =>
    rw [hp] at hok
    cases ht : d.task with
    | none =>
      rw [ht] at hok
      cases hok
    | some n =>
      rw [ht] at hok
      cases n with
      | other => cases hok
      | file bytes =>
        simp only [bind_ok, exists_unit, require_ok, demand_ok, pure_ok] at hok
        obtain ⟨relative, -, -, tracked, -, -, staged, -, -, htask⟩ := hok
        rw [← Option.some.inj htask]

theorem bindRun_again (hbinding : t.files .binding = d.files .binding) :
    bindRun h r st t = bindRun h r st d := by
  unfold bindRun readBinding
  rw [hbinding]

theorem bindTask_again (htask : t.task = d.task) (binding : Option Binding) :
    bindTask h r binding t = bindTask h r binding d := by
  unfold bindTask
  rw [htask]

theorem gates_only {b : Binding} (hbinding : t.files .binding = d.files .binding) (hg : gates h r st d = .ok found)
    (hg' : gates h r st t = .ok found') (hb : found.binding = some b) :
    WorkspaceGone b t ∨ WorkspaceWhole h r.expectedRunId b t := by
  obtain ⟨h1, -⟩ := gates_ok.1 hg
  obtain ⟨h1', -, h3, h4, -, -, h7⟩ := gates_ok.1 hg'
  have hsame : found'.binding = some b := by
    rw [bindRun_again hbinding, h1] at h1'
    exact (Except.ok.inj h1').symm.trans hb
  rw [hsame] at h3 h4 h7
  rcases bindHolder_ok.1 h3 with ⟨hgone, -⟩ | ⟨bytes, holder, hr, hh, howner, hassert, hholder⟩
  · exact .inl hgone
  right
  rw [hholder] at h7
  cases htaskFound : found'.task with
  | none =>
    rw [htaskFound] at h7
    cases h7
  | some task =>
    rw [htaskFound] at h4 h7
    simp only [candidatePaths, hr, demand_some] at h7
    refine ⟨bytes, holder, task.bytes, hr, hh, howner, runId_of_gates hg ▸ hassert,
      bindTask_bytes h4, ?_⟩
    exact Option.isSome_iff_exists.2 ⟨_, demand_ok.1 h7⟩

section Again

/-! The gates asked again, on a disk whose binding and task are as they were. -/

variable (hbinding : t.files .binding = d.files .binding) (htask : t.task = d.task)
include hbinding htask

theorem gates_gone {b : Binding} (hg : gates h r st d = .ok found)
    (hb : found.binding = some b) (hgone : WorkspaceGone b t) :
    ∃ found', gates h r st t = .ok found' ∧ found'.holder = none ∧ found'.task = found.task := by
  obtain ⟨h1, h2, -, h4, h5, h6, -⟩ := gates_ok.1 hg
  refine ⟨⟨found.binding, none, found.task, found.shipment, []⟩, gates_ok.2 ⟨?_, h2, ?_, ?_, h5, ?_,
    rfl⟩, rfl, rfl⟩
  · exact (bindRun_again hbinding).trans h1
  · rw [hb]
    exact bindHolder_ok.2 (.inl ⟨hgone, rfl⟩)
  · exact (bindTask_again htask _).trans h4
  · unfold assertArchiveRoot at h6 ⊢
    split at h6
    · exact h6
    · exact h6
    · exact h6
    · rw [require_ok] at h6 ⊢
      exact fun other hother => h6 other (List.mem_append_left _ (by simpa using hother))

theorem gates_whole {b : Binding} {holder : Holder} (hg : gates h r st d = .ok found)
    (hb : found.binding = some b) (hholder : found.holder = some (b.workspaceId, holder))
    (hwhole : WorkspaceWhole h r.expectedRunId b t) :
    ∃ found' holder', gates h r st t = .ok found' ∧ t.holders b.workspaceId = some holder' ∧
      found'.holder = some (b.workspaceId, holder') ∧ found'.task = found.task := by
  obtain ⟨h1, h2, -, h4, h5, h6, h7⟩ := gates_ok.1 hg
  obtain ⟨bytes, holder', manifest, hrecord, hh, howner, hassert, hmanifest, hderive⟩ := hwhole
  obtain ⟨paths, hpaths⟩ := Option.isSome_iff_exists.1 hderive
  cases htaskFound : found.task with
  | none =>
    rw [hholder, hb, htaskFound] at h7
    cases h7
  | some task =>
    have hbytes : manifest = task.bytes := by
      rw [hb, htaskFound] at h4
      have := (htask.trans (bindTask_bytes h4)).symm.trans hmanifest
      exact (Node.file.inj (Option.some.inj this)).symm
    refine ⟨⟨found.binding, some (b.workspaceId, holder'), found.task, found.shipment, paths⟩,
      holder', gates_ok.2 ⟨?_, h2, ?_, ?_, h5, ?_, ?_⟩, hh, rfl, htaskFound⟩
    · exact (bindRun_again hbinding).trans h1
    · rw [hb, runId_of_gates hg]
      exact bindHolder_ok.2 (.inr ⟨bytes, holder', hrecord, hh, howner, hassert, rfl⟩)
    · exact (bindTask_again htask _).trans h4
    · rw [hholder] at h6
      exact h6
    · rw [hb, htaskFound]
      simp only [candidatePaths, hrecord, demand_some]
      exact demand_ok.2 (hbytes ▸ hpaths)

end Again

/-- An approved run that has not been archived yet. -/
structure ApprovedRun (h : Host) (r : Request) (st : StateDoc) (s : Disk) : Prop where
  state : readState h s = .ok (some st)
  approved : st.state = .approved
  fresh : s.archive (runArchive r) = none

/-- What calls with these arguments, each of which died, have left. -/
inductive Interrupted (h : Host) (r : Request) (s : Disk) : Disk → Prop where
  | start : Interrupted h r s s
  | died {d t : Disk} {claim : Bytes} (hd : Interrupted h r s d)
      (ht : t ∈ (finalize h r claim d).trace) : Interrupted h r s t

/-- A finished archive of the run covers its state document. -/
def Covers (r : Request) (d : Disk) : Prop :=
  ∀ a, d.archive (runArchive r) = some a → a.complete = true →
    ∃ m, a.manifest = some m ∧ (stateDigest m .state).isSome

theorem readState_eq (hf : t.files .state = d.files .state) : readState h t = readState h d := by
  unfold readState
  rw [hf]

theorem state_isSome (hread : readState h d = .ok (some st)) : (d.files .state).isSome := by
  cases hf : d.files .state with
  | none =>
    rw [readState, hf] at hread
    cases hread
  | some n => rfl

theorem covers_locked (hd : Covers r d) : Covers r (locked claim d) := hd

/-- The archive step on a disk whose archive, if finished, covers the state. -/
theorem archiveRun_covers {recovered : Bool} (hname : runArchive r = name) (hcovers : Covers r d)
    (hstate : (d.files .state).isSome)
    (hl : (archiveRun h r st found name).Lands d (m, recovered) x) :
    (stateDigest m .state).isSome := by
  obtain ⟨-, ⟨a, ha, hcomplete, hverify⟩, hbuilt, hkept, -⟩ := archiveRun_lands hl
  cases hd : d.archive name with
  | none => exact hbuilt hd hstate
  | some b =>
    obtain rfl := hkept (by simp [hd])
    obtain ⟨m', hm', hdigest⟩ := hcovers a (hname ▸ ha) hcomplete
    rw [(verifyExisting_ok.1 hverify).1] at hm'
    exact Option.some.inj hm' ▸ hdigest

theorem crashes_archiveRun (hname : runArchive r = name) (hcovers : Covers r d)
    (hstate : (d.files .state).isSome) :
    (archiveRun h r st found name).Ensures d (fun t => t.files = d.files ∧ Covers r t)
      (fun p t => t.files = d.files ∧ Covers r t ∧ (stateDigest p.1 .state).isSome)
      (fun _ _ => True) := by
  have hcovered : ∀ t, Covered name d t → t.files = d.files ∧ Covers r t := by
    rintro t ⟨⟨archives, rfl⟩, ht⟩
    refine ⟨rfl, fun a ha hcomplete => ?_⟩
    obtain ⟨m, hm, hdigest⟩ := ht a (hname ▸ ha) hcomplete
    exact ⟨m, hm, hdigest hstate⟩
  have htrace : (archiveRun h r st found name).Ensures d
      (fun t => t.files = d.files ∧ Covers r t) (fun _ t => t.files = d.files ∧ Covers r t)
      (fun _ _ => True) := by
    refine ensures_bind (R := fun a t => a = d ∧ t = d) (ensures_read ⟨rfl, rfl⟩) ?_
    rintro a t ⟨ha, ht⟩
    rw [ha, ht]
    cases hd : d.archive name with
    | some a =>
      refine ensures_bind (ensures_ask (Q := fun _ t => t = d) _ (fun _ _ => rfl)
        fun _ _ => trivial) ?_
      intro _ u hu
      rw [hu]
      refine ensures_bind (ensures_ask (Q := fun _ t => t = d) _ (fun _ _ => rfl)
        fun _ _ => trivial) ?_
      intro m u hu
      rw [hu]
      exact ensures_return _ ⟨rfl, hcovers⟩
    | none =>
      refine ensures_bind (ensures_mono (crashes_buildArchive hd) hcovered
        (R := fun _ t => t.files = d.files ∧ Covers r t) (fun _ => hcovered)
        fun _ _ _ => trivial) ?_
      exact fun _ _ hu => ensures_return _ hu
  refine ⟨htrace.1, ?_⟩
  have hend := htrace.2
  cases hr : (archiveRun h r st found name d).result with
  | error e => trivial
  | ok p =>
    rw [hr] at hend
    exact ⟨hend.1, hend.2, archiveRun_covers hname hcovers hstate (lands_of_result hr)⟩

/-- A death of a call leaves the state document or nothing of it, and archives
that cover it. -/
theorem crashes_finalize (happroved : st.state = .approved)
    (hread : readState h d = .ok (some st)) (hcovers : Covers r d) :
    ∀ t ∈ (finalize h r claim d).trace,
      (t.files .state = d.files .state ∨ t.files .state = none) ∧ Covers r t := by
  have hlocked : (locked claim d).files .state = d.files .state := locked_files (by decide)
  have hensures : (finalize h r claim).Ensures d
      (fun t => (t.files .state = d.files .state ∨ t.files .state = none) ∧ Covers r t)
      (fun _ _ => True) (fun _ _ => True) := by
    refine ensures_bind (R := fun _ t => t = locked claim d)
      (ensures_commit _ ?_ fun _ _ => trivial) ?_
    · intro s' hs'
      obtain rfl := Except.ok.inj hs'
      exact ⟨⟨.inl hlocked, covers_locked hcovers⟩, rfl⟩
    intro _ t ht
    rw [ht]
    refine ensures_bind (ensures_ask (Q := fun o t => o = some st ∧ t = locked claim d) _ ?_
      fun _ _ => trivial) ?_
    · intro o ho
      rw [readState_locked, hread] at ho
      exact ⟨(Except.ok.inj ho).symm, rfl⟩
    rintro o t ⟨ho, ht⟩
    rw [ho, ht]
    refine ensures_bind (ensures_ask (Q := fun found t => st.runId = r.expectedRunId ∧
      t = locked claim d) _ (fun _ hg => ⟨runId_of_gates hg, rfl⟩) fun _ _ => trivial) ?_
    rintro found t ⟨hrun, ht⟩
    rw [ht]
    have hname : runArchive r = archiveNameFor st.runId st.state r.shippedCommit := by
      rw [happroved, hrun]
      rfl
    refine ensures_bind (ensures_mono (crashes_archiveRun hname (covers_locked hcovers)
      (hlocked ▸ state_isSome hread)) ?_ (fun _ _ hu => hu) fun _ _ _ => trivial) ?_
    · rintro u ⟨hfiles, hu⟩
      exact ⟨.inl (hfiles ▸ hlocked), hu⟩
    rintro ⟨m, recovered⟩ x ⟨hfiles, hx, hdigest⟩
    obtain ⟨expected, hexpected⟩ := Option.isSome_iff_exists.1 hdigest
    refine ensures_bind (R := fun _ _ => True) (ensures_mono (crashes_cleanup hexpected) ?_
      (fun _ _ _ => trivial) fun _ _ _ => trivial) ?_
    · rintro u (⟨e, -, ⟨o, rfl⟩ | rfl⟩ | ⟨harchives, hnone⟩)
      · exact ⟨.inl (hfiles ▸ hlocked), hx⟩
      · exact ⟨.inl (hfiles ▸ hlocked), hx⟩
      · refine ⟨.inr hnone, ?_⟩
        unfold Covers Disk.archive
        rw [harchives]
        exact hx
    · intro removed u _
      exact ensures_bind (R := fun _ _ => True) (ensures_read trivial)
        fun _ _ _ => ensures_return _ trivial
  exact hensures.1

/-- Across any number of deaths. -/
theorem interrupted_covers {s : Disk} (hs : ApprovedRun h r st s) (hd : Interrupted h r s d) :
    (d.files .state = s.files .state ∨ d.files .state = none) ∧ Covers r d := by
  induction hd with
  | start =>
    refine ⟨.inl rfl, fun a ha => ?_⟩
    rw [hs.fresh] at ha
    cases ha
  | died hd ht ih =>
    obtain ⟨hstate, hcovers⟩ := ih
    rcases hstate with hstate | hnone
    · have hread := (readState_eq (h := h) hstate).trans hs.state
      obtain ⟨hstate', hcovers'⟩ := crashes_finalize hs.approved hread hcovers _ ht
      exact ⟨hstate'.imp (fun he => he.trans hstate) id, hcovers'⟩
    · rw [(finalize_without_state hnone).2, List.mem_singleton] at ht
      rw [ht]
      exact ⟨.inr ((locked_files (by decide)).trans hnone), covers_locked hcovers⟩

end RagPipeline.Finalization
