import RagPipeline.Finalization.Resume

/-! # Which deaths a second call finishes -/

set_option autoImplicit false

namespace RagPipeline.Finalization
open Runner Guard Effects Program

variable {h : Host} {r : Request} {st : StateDoc} {found found' : Findings}
  {s d t u x : Disk} {m : Manifest} {claim claim' : Bytes}

/-- The second call removes everything the first would have removed, and does
not call the run finalized while part of it remains. -/
def Finishes (h : Host) (r : Request) (claim : Bytes) (removed : Thing → Prop) (t : Disk) : Prop :=
  (∀ y, removed y → ¬ (finalize h r claim t).state.has y) ∧
    ∀ res, (finalize h r claim t).result = .ok res → res.status = .alreadyFinalized →
      ∀ y, removed y → ¬ (finalize h r claim t).state.has y

theorem finishes_iff {removed : Thing → Prop} :
    Finishes h r claim removed t ↔ ∀ y, removed y → ¬ (finalize h r claim t).state.has y :=
  ⟨fun hf => hf.1, fun hf => ⟨hf, fun _ _ _ => hf⟩⟩

/-- The state document stands, and the workspace that the binding names is gone
with its record or whole. -/
def Resumable (h : Host) (r : Request) (t : Disk) : Prop :=
  t.files .state ≠ none ∧ ∀ b, readBinding h t = .ok (some b) →
    WorkspaceGone b t ∨ WorkspaceWhole h r.expectedRunId b t

theorem has_locked {y : Thing} (hy : (locked claim d).has y) : d.has y ∨ y = .document .lock := by
  cases y with
  | document f =>
    by_cases hf : f = .lock
    · exact .inr (hf ▸ rfl)
    · left
      rw [Disk.has, locked_files hf] at hy
      exact hy
  | record name => exact .inl hy
  | holder w => exact .inl hy
  | task => exact .inl hy

theorem locked_has {y : Thing} (hy : d.has y) : (locked claim d).has y := by
  cases y with
  | document f =>
    by_cases hf : f = .lock
    · subst hf
      simp [Disk.has, locked, Disk.setFile]
    · rw [Disk.has, locked_files hf]
      exact hy
  | record name => exact hy
  | holder w => exact hy
  | task => exact hy

theorem locked_has_lock : (locked claim d).has (.document .lock) := by
  simp [Disk.has, locked, Disk.setFile]

/-- Where the removals stood at a death past the archive, in terms of the disk
with the archive finished. -/
inductive Stage (found : Findings) (x t : Disk) : Prop where
  | untouched (h : t = x)
  | partly (w : String) (holder : Holder) (o : Option Holder)
      (hholder : found.holder = some (w, holder)) (h : t = x.setHolder w o)
  | released (w : String) (holder : Holder) (hholder : found.holder = some (w, holder))
      (h : t = released w x)
  | past (h : t.files .state = none)

theorem CutShort.stage (hc : CutShort found x t) : Stage found x t := by
  rcases hc with ⟨⟨w, holder⟩, he, ⟨o, rfl⟩ | rfl⟩ | ⟨-, hnone⟩
  · exact .partly w holder o he rfl
  · exact .released w holder he rfl
  · exact .past hnone

/-- Before the first document goes, documents, task and archives are untouched. -/
theorem Stage.keeps (hstage : Stage found x t) (hstate : t.files .state ≠ none) :
    t.files = x.files ∧ t.task = x.task ∧ t.archives = x.archives := by
  cases hstage with
  | untouched h => exact h ▸ ⟨rfl, rfl, rfl⟩
  | partly w holder o hholder h => exact h ▸ ⟨rfl, rfl, rfl⟩
  | released w holder hholder h => exact h ▸ ⟨rfl, rfl, rfl⟩
  | past h => exact absurd h hstate

theorem files_cleared : (cleared found m x).files =
    fun f => if f ∈ removableStateFiles ∧ (stateDigest m f).isSome then none else x.files f := by
  have hdropped : (dropped m removableStateFiles (releasedBy found.holder x)).files =
      fun f => if f ∈ removableStateFiles ∧ (stateDigest m f).isSome then none else x.files f := by
    rw [dropped, files_releasedBy]
  unfold cleared
  cases found.task with
  | none => exact hdropped
  | some task => exact hdropped

theorem holders_cleared : (cleared found m x).holders = (releasedBy found.holder x).holders := by
  unfold cleared
  cases found.task <;> rfl

theorem ledger_cleared : (cleared found m x).ledger = (releasedBy found.holder x).ledger := by
  unfold cleared
  cases found.task <;> rfl

theorem task_cleared : (cleared found m x).task = if found.task.isSome then none else x.task := by
  unfold cleared
  cases found.task with
  | none => exact task_releasedBy _
  | some task => rfl

/-- Two clearings against one archive, of disks that differ in the workspace and
the lock only, leave the same things. -/
theorem cleared_has {y : Thing} (hfiles : ∀ f, f ≠ .lock → t.files f = x.files f)
    (hlock : x.files .lock ≠ none)
    (htask : t.task = x.task) (hfound : found'.task = found.task)
    (hholders : (releasedBy found'.holder t).holders = (releasedBy found.holder x).holders)
    (hledger : (releasedBy found'.holder t).ledger = (releasedBy found.holder x).ledger)
    (hy : (cleared found' m t).has y) : (cleared found m x).has y := by
  cases y with
  | document f =>
    rw [Disk.has, files_cleared] at hy ⊢
    dsimp only at hy ⊢
    split at hy
    · exact absurd rfl hy
    · rename_i hnot
      rw [if_neg hnot]
      by_cases hf : f = .lock
      · exact hf ▸ hlock
      · exact hfiles f hf ▸ hy
  | record name =>
    rw [Disk.has, Disk.record, ledger_cleared] at hy ⊢
    exact hledger ▸ hy
  | holder w =>
    rw [Disk.has, holders_cleared] at hy ⊢
    exact hholders ▸ hy
  | task =>
    rw [Disk.has, task_cleared] at hy ⊢
    rw [hfound, htask] at hy
    exact hy

theorem assertRemovable_ok {w : String} {holder : Holder} :
    assertRemovable h w d = .ok holder ↔
      (∃ record, loadRecord h w d = some record ∧ record.repoId = h.repoId) ∧
        holderFor h w ∉ [h.runnerTempRoot, h.stateDir, h.repo] ∧ d.holders w = some holder := by
  simp only [assertRemovable, bind_ok, exists_unit, require_ok, demand_ok]
  constructor
  · rintro ⟨record, hrecord, hrepo, hpath, hholder⟩
    exact ⟨⟨record, hrecord, hrepo⟩, hpath, hholder⟩
  · rintro ⟨⟨record, hrecord, hrepo⟩, hpath, hholder⟩
    exact ⟨record, hrecord, hrepo, hpath, hholder⟩

theorem archiveRun_found {name : String} {a : Archive} (ha : d.archive name = some a)
    (hcomplete : a.complete = true) (hverify : verifyExisting h st.runId a = .ok m) :
    (archiveRun h r st found name).Lands d (m, true) d := by
  refine lands_bind.2 ⟨d, d, lands_read.2 ⟨rfl, rfl⟩, ?_⟩
  rw [ha]
  refine lands_bind.2 ⟨(), d, ⟨require_true hcomplete, rfl⟩, ?_⟩
  exact lands_bind.2 ⟨m, d, ⟨hverify, rfl⟩, lands_pure.2 ⟨rfl, rfl⟩⟩

/-- A call from `d` that has come to the removals: `x` is the disk with the
archive of manifest `m` finished. -/
structure Removing (h : Host) (r : Request) (st : StateDoc) (claim : Bytes) (d : Disk)
    (found : Findings) (m : Manifest) (x : Disk) : Prop where
  read : readState h d = .ok (some st)
  gates : gates h r st (locked claim d) = .ok found
  only : OnlyArchives (locked claim d) x
  archive : ∃ a, x.archive (archiveNameFor st.runId st.state r.shippedCommit) = some a ∧
    a.complete = true ∧ verifyExisting h st.runId a = .ok m
  digest : (stateDigest m .state).isSome
  clean : Cleanable h found m x

namespace Removing

variable (hx : Removing h r st claim d found m x)
include hx

theorem files : x.files = (locked claim d).files := by
  obtain ⟨_, rfl⟩ := hx.only
  rfl

theorem task : x.task = d.task := by
  obtain ⟨_, rfl⟩ := hx.only
  rfl

theorem ledger : x.ledger = d.ledger := by
  obtain ⟨_, rfl⟩ := hx.only
  rfl

theorem readBinding : Finalization.readBinding h (locked claim d) = .ok found.binding := by
  have hbind := (gates_ok.1 hx.gates).1
  simp only [bindRun, bind_ok, require_ok, exists_unit, pure_ok] at hbind
  obtain ⟨-, -, -, binding, hread, -, -, rfl⟩ := hbind
  exact hread

/-- The record of the bound workspace stands until the workspace is released. -/
theorem not_gone {b : Binding} {w : String} {holder : Holder} (hb : found.binding = some b)
    (hholder : found.holder = some (w, holder)) :
    w = b.workspaceId ∧ ∃ bytes, x.record (recordName w) = some (.file bytes) := by
  obtain ⟨-, -, h3, -⟩ := gates_ok.1 hx.gates
  rw [hb, hholder] at h3
  rcases bindHolder_ok.1 h3 with ⟨-, hnone⟩ | ⟨bytes, _, hr, -, -, -, heq⟩
  · cases hnone
  · obtain ⟨rfl, -⟩ := Prod.mk.inj (Option.some.inj heq)
    refine ⟨rfl, bytes, ?_⟩
    rw [Disk.record, hx.ledger]
    exact hr

/-- The second call past its gates takes up the removals where they stood. -/
theorem takes_up (hstate : t.files .state ≠ none) (hstage : Stage found x t)
    (hgates : Finalization.gates h r st (locked claim' t) = .ok found')
    (hfound : found'.task = found.task)
    (hworkspace : ∀ e ∈ found'.holder, ∃ holder, assertRemovable h e.1 (locked claim' t) = .ok holder)
    (hholders : (releasedBy found'.holder (locked claim' t)).holders =
      (releasedBy found.holder x).holders)
    (hledger : (releasedBy found'.holder (locked claim' t)).ledger =
      (releasedBy found.holder x).ledger) :
    ∀ y, (finalize h r claim' t).state.has y → (cleared found m x).has y := by
  obtain ⟨hfiles, htask, harchives⟩ := hstage.keeps hstate
  obtain ⟨a, ha, hcomplete, hverify⟩ := hx.archive
  have hread : readState h t = .ok (some st) := by
    rw [← hx.read]
    exact readState_eq (by rw [hfiles, hx.files, locked_files (by decide)])
  have harchive : (locked claim' t).archive (archiveNameFor st.runId st.state r.shippedCommit) =
      some a := by
    rw [← ha]
    unfold Disk.archive
    exact congrArg _ (congrArg _ harchives)
  have hdocuments : ∀ f, f ≠ .lock → (locked claim' t).files f = x.files f := by
    intro f hf
    rw [locked_files hf, hfiles]
  have hclean : Cleanable h found' m (locked claim' t) := by
    refine ⟨hworkspace, fun f hf => ?_, fun task ht => ?_⟩
    · have hlock : f ≠ .lock := by
        rintro rfl
        exact absurd hf (by decide)
      intro expected he
      rw [hdocuments f hlock]
      exact hx.clean.documents f hf expected he
    · obtain ⟨bytes, hbytes, hsha⟩ := hx.clean.task task (hfound ▸ ht)
      rw [← htask] at hbytes
      exact ⟨bytes, hbytes, hsha⟩
  intro y hy
  rw [finalize_goes_through hread hgates (archiveRun_found harchive hcomplete hverify) hclean] at hy
  refine cleared_has hdocuments ?_ htask hfound hholders hledger hy
  rw [hx.files]
  exact locked_has_lock

/-- A resumable death is finished by the second call. -/
theorem finishes_of_resumable (hstage : Stage found x t) (hresumable : Resumable h r t) :
    ∀ y, (finalize h r claim' t).state.has y → (cleared found m x).has y := by
  obtain ⟨hstate, hworkspace⟩ := hresumable
  obtain ⟨hfiles, htask, -⟩ := hstage.keeps hstate
  have hbinding : (locked claim' t).files .binding = (locked claim d).files .binding := by
    rw [locked_files (by decide), hfiles, hx.files]
  have htask' : (locked claim' t).task = (locked claim d).task := htask.trans hx.task
  cases hb : found.binding with
  | none =>
    obtain ⟨h1, h2, h3, h4, h5, h6, h7⟩ := gates_ok.1 hx.gates
    have hnone : found.holder = none := by
      rw [hb] at h3
      simp only [bindWorkspace, bind_ok, exists_unit, pure_ok] at h3
      exact h3.2.symm
    have ht : t = x := by
      cases hstage with
      | untouched h => exact h
      | partly w holder o hholder h => simp [hnone] at hholder
      | released w holder hholder h => simp [hnone] at hholder
      | past h => exact absurd h hstate
    have hgates : Finalization.gates h r st (locked claim' t) = .ok found := by
      refine gates_ok.2 ⟨(bindRun_again hbinding).trans h1, h2, ?_,
        (bindTask_again htask' _).trans h4, h5, h6, ?_⟩
      · rw [hb] at h3 ⊢
        rw [← h3, ht]
        obtain ⟨_, rfl⟩ := hx.only
        rfl
      · rw [hnone] at h7 ⊢
        exact h7
    refine hx.takes_up hstate hstage hgates rfl ?_ ?_ ?_
    · intro e he
      rw [hnone] at he
      cases he
    · rw [hnone, ht]
      rfl
    · rw [hnone, ht]
      rfl
  | some b =>
    have hreadb : Finalization.readBinding h t = .ok (some b) := by
      rw [← hb, ← hx.readBinding]
      unfold Finalization.readBinding
      rw [hfiles, hx.files]
    rcases hworkspace b hreadb with hgone | hwhole
    · obtain ⟨found', hgates, hnone, hfound⟩ :=
        gates_gone hbinding htask' hx.gates hb (t := locked claim' t) hgone
      have hreleased : t.holders = (releasedBy found.holder x).holders ∧
          t.ledger = (releasedBy found.holder x).ledger := by
        cases hstage with
        | past h => exact absurd h hstate
        | released w holder hholder h => exact h ▸ hholder ▸ ⟨rfl, rfl⟩
        | partly w holder o hholder h =>
          obtain ⟨rfl, bytes, hr⟩ := hx.not_gone hb hholder
          exact absurd (h ▸ hr) (hgone.2 bytes)
        | untouched h =>
          cases hholder : found.holder with
          | none => exact h ▸ ⟨rfl, rfl⟩
          | some e =>
            obtain ⟨hw, bytes, hr⟩ := hx.not_gone hb hholder
            exact absurd (h ▸ hw ▸ hr) (hgone.2 bytes)
      refine hx.takes_up hstate hstage hgates hfound ?_ ?_ ?_
      · intro e he
        rw [hnone] at he
        cases he
      · rw [hnone]
        exact hreleased.1
      · rw [hnone]
        exact hreleased.2
    · have hwhole' := hwhole
      obtain ⟨bytes, held, -, hrecord, hheld, -⟩ := hwhole'
      cases hholder : found.holder with
      | none =>
        obtain ⟨-, -, h3, -⟩ := gates_ok.1 hx.gates
        rw [hb, hholder] at h3
        have hgone : WorkspaceGone b x := by
          rcases bindHolder_ok.1 h3 with ⟨hgone, -⟩ | ⟨_, _, -, -, -, -, heq⟩
          · obtain ⟨_, rfl⟩ := hx.only
            exact hgone
          · cases heq
        have ht : t = x := by
          cases hstage with
          | untouched h => exact h
          | partly w holder o hsome h => simp [hholder] at hsome
          | released w holder hsome h => simp [hholder] at hsome
          | past h => exact absurd h hstate
        exact absurd (ht ▸ hrecord) (hgone.2 bytes)
      | some e =>
        obtain ⟨w, holder⟩ := e
        obtain ⟨rfl, -⟩ := hx.not_gone hb hholder
        obtain ⟨found', holder', hgates, hh, hsome, hfound⟩ :=
          gates_whole hbinding htask' hx.gates hb hholder (t := locked claim' t) hwhole
        have hledger : t.ledger = x.ledger := by
          cases hstage with
          | untouched h => exact h ▸ rfl
          | partly w holder o hholder h => exact h ▸ rfl
          | past h => exact absurd h hstate
          | released w holder hsome h =>
            rw [hholder] at hsome
            obtain ⟨rfl, -⟩ := Prod.mk.inj (Option.some.inj hsome)
            rw [h] at hheld
            simp [released, Disk.setHolder, Disk.dropRecord] at hheld
        have hholders : Function.update t.holders b.workspaceId none =
            Function.update x.holders b.workspaceId none := by
          cases hstage with
          | untouched h => exact h ▸ rfl
          | past h => exact absurd h hstate
          | partly w holder o hsome h =>
            rw [hholder] at hsome
            obtain ⟨rfl, -⟩ := Prod.mk.inj (Option.some.inj hsome)
            rw [h]
            exact Function.update_idem _ _ _
          | released w holder hsome h =>
            rw [hholder] at hsome
            obtain ⟨rfl, -⟩ := Prod.mk.inj (Option.some.inj hsome)
            rw [h]
            exact Function.update_idem _ _ _
        obtain ⟨removable, hremovable⟩ := hx.clean.workspace _ hholder
        obtain ⟨hload, hpath, -⟩ := assertRemovable_ok.1 hremovable
        refine hx.takes_up hstate hstage hgates hfound ?_ ?_ ?_
        · intro e he
          rw [hsome] at he
          obtain rfl := Option.some.inj he
          refine ⟨holder', assertRemovable_ok.2 ⟨?_, hpath, hh⟩⟩
          unfold loadRecord Disk.record at hload ⊢
          rw [← hledger] at hload
          exact hload
        · rw [hsome, hholder]
          exact hholders
        · rw [hsome, hholder]
          show t.ledger.filter _ = x.ledger.filter _
          rw [hledger]

end Removing

/-- For an approved run, any number of deaths, and every death of a call that
would have gone through: the second call removes what the first would have
removed exactly when nothing of it is left or the death is resumable. -/
theorem finalize_resumes_iff (hs : ApprovedRun h r st s) (hd : Interrupted h r s d)
    {res : FinalizeResult} (hok : (finalize h r claim d).result = .ok res)
    (ht : t ∈ (finalize h r claim d).trace) (harchived : t.archived (runArchive r)) :
    Finishes h r claim' (fun y => d.has y ∧ ¬ (finalize h r claim d).state.has y) t ↔
      (∀ y, d.has y → ¬ (finalize h r claim d).state.has y → ¬ t.has y) ∨ Resumable h r t := by
  rw [finishes_iff]
  obtain ⟨hstate, hcovers⟩ := interrupted_covers hs hd
  rcases hstate with hstate | hnone
  case inr =>
    -- the call found the run finalized and removed nothing
    rw [(finalize_without_state hnone).1]
    exact iff_of_true (fun y hy => absurd (locked_has hy.1) hy.2)
      (.inl fun y hy hgone => absurd (locked_has hy) hgone)
  have hread : readState h d = .ok (some st) := (readState_eq hstate).trans hs.state
  obtain ⟨found, m, recovered, x, removed, hgates, harchive, hclean, htrace⟩ :=
    finalize_past_gates hread (lands_of_result hok)
  have hname : runArchive r = archiveNameFor st.runId st.state r.shippedCommit := by
    rw [hs.approved, runId_of_gates hgates]
    rfl
  obtain ⟨honly, hverified, -, hkept, hbuilding⟩ := archiveRun_lands harchive
  obtain ⟨hcleanable, hfull⟩ := lands_cleanup.1 ⟨removed, hclean⟩
  have hlockedState : (locked claim d).files .state = d.files .state := locked_files (by decide)
  have hdigest := archiveRun_covers hname (covers_locked hcovers)
    (hlockedState ▸ state_isSome hread) harchive
  have hx : Removing h r st claim d found m x :=
    ⟨hread, hgates, honly, hverified, hdigest, hcleanable⟩
  have hstage : Stage found x t := by
    rcases htrace t ht with hfirst | hbuilt | hcut
    · refine .untouched (hfirst.trans (hkept fun hnone => ?_).symm)
      obtain ⟨a, ha, -⟩ := harchived
      rw [hfirst, hname, hnone] at ha
      cases ha
    · rcases hbuilding t hbuilt with hopen | ht
      · exact absurd (hname ▸ harchived) hopen.not_archived
      · exact .untouched ht
    · obtain ⟨expected, hexpected⟩ := Option.isSome_iff_exists.1 hdigest
      exact ((crashes_cleanup hexpected).1 t hcut).stage
  rw [hfull]
  have hlock : (cleared found m x).has (.document .lock) := by
    rw [Disk.has, files_cleared]
    dsimp only
    rw [if_neg (fun hin => absurd hin.1 (by decide)), hx.files]
    exact locked_has_lock
  by_cases hgone : t.files .state = none
  case pos =>
    -- past the state document nothing is removed any more
    rw [(finalize_without_state hgone).1]
    constructor
    · exact fun hf => .inl fun y hy hleft hty => hf y ⟨hy, hleft⟩ (locked_has hty)
    · rintro (hnothing | ⟨hstate, -⟩)
      · rintro y ⟨hy, hleft⟩ hty
        rcases has_locked hty with hty | rfl
        · exact hnothing y hy hleft hty
        · exact hleft hlock
      · exact absurd hgone hstate
  case neg =>
    obtain ⟨hfiles, -, -⟩ := hstage.keeps hgone
    have hremoves : d.has (.document .state) ∧ ¬ (cleared found m x).has (.document .state) := by
      constructor
      · rw [Disk.has, ← hlockedState, ← hx.files, ← hfiles]
        exact hgone
      · rw [Disk.has, files_cleared]
        dsimp only
        rw [if_pos ⟨by decide, hdigest⟩]
        exact fun hne => hne rfl
    constructor
    · intro hf
      right
      by_contra hnot
      have hrefused : ∀ found', gates h r st (locked claim' t) ≠ .ok found' := by
        intro found' hgates'
        refine hnot ⟨hgone, fun b hb => ?_⟩
        have hbinding : (locked claim' t).files .binding = (locked claim d).files .binding := by
          rw [locked_files (by decide), hfiles, hx.files]
        have hfound : found.binding = some b := by
          have hsame := hx.readBinding
          unfold readBinding at hsame hb
          rw [hfiles, hx.files] at hb
          exact Except.ok.inj (hsame.symm.trans hb)
        exact gates_only hbinding hgates hgates' hfound
      have hread' : readState h t = .ok (some st) := by
        rw [← hread]
        exact readState_eq (by rw [hfiles, hx.files, hlockedState])
      refine hf _ hremoves ?_
      rw [finalize_refused hread' hrefused]
      exact locked_has hgone
    · rintro (hnothing | hresumable)
      · exact absurd hgone (hnothing _ hremoves.1 hremoves.2)
      · exact fun y hy hty => hy.2 (hx.finishes_of_resumable hstage hresumable y hty)

def sampleSha (b : Bytes) : String :=
  if b = [1] then "4bf5122f344554c53bde2ebb8cd2b7e3d1600ad631c385a5d7cce23c7785459a"
  else if b = [2] then "dbc1b4c900ffe48d575b5da5c638040125f65db0fe3e24494b76ea986457d986"
  else if b = [3] then "084fed08b978af4d7d196a7446a86b58009e636b611db16211b65a9aadff29c5"
  else "2b4c342f5433ebe591a1da77e013d1b72475562d48578dca8b84bac6651c3cb9"

def sampleRun : StateDoc where
  state := .approved
  runId := "kosu-000000000000000000000001"
  stopReason := some .completed
  requestedModels := []
  evaluatorStatus := none
  findingCount := none

def sampleBinding : Binding where
  runId := "kosu-000000000000000000000001"
  repoId := "depo"
  workspaceId := "00000000000000000000000000000005"
  baselineSha := "0000000000000000000000000000000000000006"
  manifestDigest := "ca358758f6d27e6cf45272937977a748fd88391db679ceda7dc7bf1f005ee879"

def sampleHost : Host where
  sha256 := sampleSha
  readState b := if b = [1] then some sampleRun else none
  readBinding b := if b = [3] then some sampleBinding else none
  readRecord _ := none
  readMarker _ := none
  repoId := "depo"
  derive _ _ _ _ := none
  pendingApplications := []
  git := ⟨.ok [], .ok [], .ok [], fun _ => .ok [], fun _ => .ok [], .ok [], .ok []⟩
  repo := "/depo"
  stateDir := "/depo/.agent-loop"
  applyRoot := "/.agent-loop-apply"
  runnerTempRoot := "/tmp/agent-loop-flat"

def sampleRequest : Request where
  archiveRoot := .directory "/arsiv"
  expectedRunId := "kosu-000000000000000000000001"
  taskPath := none
  shippedCommit := none
  ciRunId := none

/-- An approved run with its binding and its events, the workspace released. -/
def sampleDisk : Disk where
  files
    | .state => some (.file [1])
    | .binding => some (.file [3])
    | .events => some (.file [2])
    | _ => none
  strays := []
  ledger := []
  holders _ := none
  task := none
  archives := []

theorem sampleDisk_approved : ApprovedRun sampleHost sampleRequest sampleRun sampleDisk :=
  ⟨rfl, rfl, rfl⟩

/-- The first call, cut after its `n`th write from zero. -/
def cutAt (n : ℕ) : Disk :=
  ((finalize sampleHost sampleRequest [9] sampleDisk).trace[n]?).getD sampleDisk

theorem cutAt_mem {n : ℕ}
    (hn : n < (finalize sampleHost sampleRequest [9] sampleDisk).trace.length) :
    cutAt n ∈ (finalize sampleHost sampleRequest [9] sampleDisk).trace := by
  rw [cutAt, List.getElem?_eq_getElem hn, Option.getD_some]
  exact List.getElem_mem hn

/-- The archive is finished, and the events have changed since. -/
def driftedDisk : Disk := (cutAt 7).setFile .events (some (.file [4]))

/-- What the call does on the sample, and what a second call does after the
death behind the state document, or over events that have changed. -/
theorem sample_calls :
    (finalize sampleHost sampleRequest [9] sampleDisk).result.toOption.isSome = true ∧
      (finalize sampleHost sampleRequest [9] sampleDisk).trace.length = 11 ∧
      ((cutAt 7).archive (runArchive sampleRequest)).any Archive.complete = true ∧
      (cutAt 7).files .state ≠ none ∧ (cutAt 7).holders sampleBinding.workspaceId = none ∧
      (cutAt 7).ledger.isEmpty = true ∧
      ((cutAt 8).archive (runArchive sampleRequest)).any Archive.complete = true ∧
      (finalize sampleHost sampleRequest [9] sampleDisk).state.files .events = none ∧
      (finalize sampleHost sampleRequest [7] (cutAt 8)).state.files .events = some (.file [2]) ∧
      (finalize sampleHost sampleRequest [7] (cutAt 8)).result.toOption.map FinalizeResult.status =
        some .alreadyFinalized ∧
      (finalize sampleHost sampleRequest [7] driftedDisk).result.toOption.isNone = true ∧
      (finalize sampleHost sampleRequest [7] driftedDisk).state.files .state = none := by
  decide +kernel

theorem sample_ok : ∃ res, (finalize sampleHost sampleRequest [9] sampleDisk).result = .ok res := by
  have hsome := sample_calls.1
  cases hr : (finalize sampleHost sampleRequest [9] sampleDisk).result with
  | ok res => exact ⟨res, rfl⟩
  | error e =>
    rw [hr] at hsome
    cases hsome

theorem archived_of_any {name : String} (ha : (d.archive name).any Archive.complete = true) :
    d.archived name := by
  cases hd : d.archive name with
  | none => simp [hd] at ha
  | some a => exact ⟨a, hd, by simpa [hd] using ha⟩

/-- A death between the archive and the first removal is made good. -/
theorem finalize_resumes_before_removal :
    Finishes sampleHost sampleRequest [7] (fun y => sampleDisk.has y ∧
      ¬ (finalize sampleHost sampleRequest [9] sampleDisk).state.has y) (cutAt 7) := by
  obtain ⟨-, hlength, harchive, hstate, hholder, hledger, -⟩ := sample_calls
  obtain ⟨res, hres⟩ := sample_ok
  have hmem : cutAt 7 ∈ (finalize sampleHost sampleRequest [9] sampleDisk).trace :=
    cutAt_mem (by rw [hlength]; decide)
  refine (finalize_resumes_iff sampleDisk_approved .start hres hmem
    (archived_of_any harchive)).2 (.inr ⟨hstate, fun b hb => .inl ?_⟩)
  have hbinding : b = sampleBinding := by
    unfold readBinding at hb
    split at hb
    case h_1 => cases hb
    case h_2 => cases hb
    case h_3 bytes _ =>
      simp only [bind_ok, demand_ok, pure_ok, Option.some.injEq] at hb
      obtain ⟨_, hread, rfl⟩ := hb
      by_cases hbytes : bytes = [3]
      · simpa [sampleHost, hbytes] using hread.symm
      · simp [sampleHost, hbytes] at hread
  rw [hbinding]
  refine ⟨hholder, fun bytes hr => ?_⟩
  rw [Disk.record, List.isEmpty_iff.1 hledger] at hr
  cases hr

/-- A death right behind the state document: the second call reports the run as
finalized already, and its events are still there. -/
theorem finalized_with_remains : ApprovedRun sampleHost sampleRequest sampleRun sampleDisk ∧
    cutAt 8 ∈ (finalize sampleHost sampleRequest [9] sampleDisk).trace ∧
    (cutAt 8).archived (runArchive sampleRequest) ∧
    (∃ res, (finalize sampleHost sampleRequest [7] (cutAt 8)).result = .ok res ∧
      res.status = .alreadyFinalized) ∧
    ¬ Finishes sampleHost sampleRequest [7] (fun y => sampleDisk.has y ∧
      ¬ (finalize sampleHost sampleRequest [9] sampleDisk).state.has y) (cutAt 8) := by
  obtain ⟨-, hlength, -, -, -, -, harchive, hgone, hleft, hstatus, -⟩ := sample_calls
  refine ⟨sampleDisk_approved, cutAt_mem (by rw [hlength]; decide), archived_of_any harchive, ?_,
    fun hf => ?_⟩
  · obtain ⟨res, hres, hstatus⟩ := Option.map_eq_some_iff.1 hstatus
    cases hr : (finalize sampleHost sampleRequest [7] (cutAt 8)).result with
    | error e =>
      rw [hr] at hres
      cases hres
    | ok res' =>
      rw [hr] at hres
      exact ⟨res', rfl, Option.some.inj hres ▸ hstatus⟩
  · refine hf.1 (.document .events) ⟨?_, fun hne => hne hgone⟩ ?_
    · exact fun hnone => nomatch hnone
    · rw [Disk.has, hleft]
      exact fun hnone => nomatch hnone

end RagPipeline.Finalization
