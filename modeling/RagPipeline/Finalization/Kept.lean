import RagPipeline.Finalization.Finished

/-! # What is removed is in the archive

A state document goes only against an entry of the finished archive with its
digest, in every call. The workspace and the task are compared with the archive
by the call that builds it and by no later one. Of the workspace, the owner
marker and the candidate are archived; the reference tree is not. -/

set_option autoImplicit false

namespace RagPipeline.Finalization
open Runner Guard Effects Program

variable {h : Host} {r : Request} {st : StateDoc} {found : Findings} {name : String}
  {d s t u x : Disk} {m : Manifest} {claim : Bytes}

/-- The finished archive of the run verifies, and it has these bytes under the
name of the source. -/
def Copied (h : Host) (r : Request) (st : StateDoc) (t : Disk) (source : Source) (b : Bytes) :
    Prop :=
  ∃ a m, t.archive (archiveNameFor st.runId st.state r.shippedCommit) = some a ∧
    a.complete = true ∧ verifyExisting h st.runId a = .ok m ∧
    ∃ e ∈ m.files, e.name = source.archiveName ∧ e.sha256 = h.sha256 b ∧ a.Holds h e

/-- A call past its gates that finds no archive of the run, and so builds it. -/
def Builds (h : Host) (r : Request) (claim : Bytes) (d : Disk) (st : StateDoc)
    (found : Findings) : Prop :=
  readState h d = .ok (some st) ∧ gates h r st (locked claim d) = .ok found ∧
    d.archive (archiveNameFor st.runId st.state r.shippedCommit) = none

/-- What a call from `d` has removed when the disk is `t`, it has archived. -/
structure Kept (h : Host) (r : Request) (claim : Bytes) (d t : Disk) : Prop where
  document : ∀ f, t.files f ≠ (locked claim d).files f → ∃ st b,
    readState h d = .ok (some st) ∧ (locked claim d).files f = some (.file b) ∧
      Copied h r st t (.stateFile f) b
  record : ∀ st found, Builds h r claim d st found → ∀ n, t.record n ≠ d.record n → ∃ w b,
    n = recordName w ∧ d.record n = some (.file b) ∧ Copied h r st t (.record w) b
  owner : ∀ st found, Builds h r claim d st found → ∀ w, t.holders w ≠ d.holders w → ∃ b,
    (Source.owner w).node d = some (.file b) ∧ Copied h r st t (.owner w) b
  candidate : ∀ st found, Builds h r claim d st found → ∀ w, t.holders w ≠ d.holders w →
    ∀ path ∈ found.candidates, ∃ b,
      (Source.candidate w path).node d = some (.file b) ∧ Copied h r st t (.candidate w path) b
  task : ∀ st found, Builds h r claim d st found → t.task ≠ d.task → ∃ what b,
    d.task = some (.file b) ∧ Copied h r st t (.task what) b

/-! ## The removals -/

/-- What the removals against `m` may have done to `x`. -/
structure Removals (found : Findings) (h : Host) (m : Manifest) (x t : Disk) : Prop where
  archives : t.archives = x.archives
  document : ∀ f, t.files f = x.files f ∨ t.files f = none ∧ ∃ b,
    x.files f = some (.file b) ∧ stateDigest m f = some (h.sha256 b)
  record : ∀ n, t.record n = x.record n ∨ ∃ w holder,
    found.holder = some (w, holder) ∧ n = recordName w
  holder : ∀ w, t.holders w = x.holders w ∨ ∃ holder, found.holder = some (w, holder)
  task : t.task = x.task ∨ found.task.isSome

namespace Removals

theorem refl (x : Disk) : Removals found h m x x :=
  ⟨rfl, fun _ => .inl rfl, fun _ => .inl rfl, fun _ => .inl rfl, .inl rfl⟩

theorem trans (hx : Removals found h m x t) (ht : Removals found h m t u) :
    Removals found h m x u where
  archives := ht.archives.trans hx.archives
  document f := by
    rcases ht.document f with hu | ⟨hu, b, hb, hdigest⟩
    · rw [hu]
      exact hx.document f
    · rcases hx.document f with hf | ⟨hf, -⟩
      · exact .inr ⟨hu, b, hf ▸ hb, hdigest⟩
      · rw [hf] at hb
        cases hb
  record n := (ht.record n).elim (fun he => he ▸ hx.record n) .inr
  holder w := (ht.holder w).elim (fun he => he ▸ hx.holder w) .inr
  task := ht.task.elim (fun he => he ▸ hx.task) .inr

theorem setHolder {w : String} {holder : Holder} (hfound : found.holder = some (w, holder))
    (o : Option Holder) : Removals found h m x (x.setHolder w o) := by
  refine ⟨rfl, fun _ => .inl rfl, fun _ => .inl rfl, fun v => ?_, .inl rfl⟩
  by_cases hv : v = w
  · subst hv
    exact .inr ⟨holder, hfound⟩
  · exact .inl (Function.update_of_ne hv _ _)

theorem dropRecord {w : String} {holder : Holder} (hfound : found.holder = some (w, holder)) :
    Removals found h m x (x.dropRecord (recordName w)) := by
  refine ⟨rfl, fun _ => .inl rfl, fun n => ?_, fun _ => .inl rfl, .inl rfl⟩
  by_cases hn : n = recordName w
  · exact .inr ⟨w, holder, hfound, hn⟩
  · left
    unfold Disk.record Disk.dropRecord
    congr 1
    rw [List.find?_filter]
    congr 1
    funext e
    by_cases he : e.1 = n
    · simp [he, hn]
    · simp [he]

theorem setFile {f : StateFile} {b : Bytes} (hb : x.files f = some (.file b))
    (hdigest : stateDigest m f = some (h.sha256 b)) :
    Removals found h m x (x.setFile f none) := by
  refine ⟨rfl, fun g => ?_, fun _ => .inl rfl, fun _ => .inl rfl, .inl rfl⟩
  by_cases hg : g = f
  · subst hg
    exact .inr ⟨Function.update_self _ _ _, b, hb, hdigest⟩
  · exact .inl (Function.update_of_ne hg _ _)

theorem setTask {task : Task} (hfound : found.task = some task) (n : Option Node) :
    Removals found h m x (x.setTask n) :=
  ⟨rfl, fun _ => .inl rfl, fun _ => .inl rfl, fun _ => .inl rfl, .inr (hfound ▸ rfl)⟩

end Removals

theorem removeTree_removals {w : String} {holder : Holder}
    (hfound : found.holder = some (w, holder)) (rest : Holder) :
    Preserves (Removals found h m x) (removeTree w rest) := by
  induction rest with
  | nil =>
    refine .commit _ fun t t' ht hok => ?_
    obtain rfl := Except.ok.inj hok
    exact ht.trans (.setHolder hfound _)
  | cons e rest ih =>
    refine .bind (.commit _ fun t t' ht hok => ?_) fun _ => ih
    obtain rfl := Except.ok.inj hok
    exact ht.trans (.setHolder hfound _)

theorem removeWorkspace_removals {w : String} {holder : Holder}
    (hfound : found.holder = some (w, holder)) :
    Preserves (Removals found h m x) (removeWorkspace h w) := by
  refine .bind (.ask _) fun held => .bind (removeTree_removals hfound held) fun _ => ?_
  refine .commit _ fun t t' ht hok => ?_
  obtain rfl := Except.ok.inj hok
  exact ht.trans (.dropRecord hfound)

theorem assertUnlinkable_present {expected : String} {n : Option Node}
    (hok : assertUnlinkable h expected n = .ok true) :
    ∃ b, n = some (.file b) ∧ h.sha256 b = expected := by
  cases n with
  | none => cases hok
  | some n =>
    cases n with
    | other => cases hok
    | file b =>
      simp only [assertUnlinkable, bind_ok, exists_unit, require_ok] at hok
      exact ⟨b, rfl, hok.2.1⟩

theorem unlinkVerified_removals {f : StateFile} {expected : String}
    (hdigest : stateDigest m f = some expected) :
    Preserves (Removals found h m x) (unlinkVerified h f expected) := by
  intro t ht
  refine ensures_bind (ensures_ask (Q := fun present u =>
    u = t ∧ assertUnlinkable h expected (t.files f) = .ok present) _ (fun _ hok => ⟨rfl, hok⟩)
    fun _ _ => ht) ?_
  rintro present u ⟨hu, hok⟩
  rw [hu]
  cases present with
  | false => exact ensures_return _ ht
  | true =>
    obtain ⟨b, hb, rfl⟩ := assertUnlinkable_present hok
    refine ensures_bind (R := fun _ => Removals found h m x) (ensures_commit _ ?_ fun _ _ => ht)
      fun _ _ hv => ensures_return _ hv
    intro t' hok
    obtain rfl := Except.ok.inj hok
    have hgone := ht.trans (.setFile hb hdigest)
    exact ⟨hgone, hgone⟩

theorem unlinkAll_removals (list : List StateFile) :
    Preserves (Removals found h m x) (unlinkAll h m list) := by
  induction list with
  | nil => exact .pure _
  | cons f rest ih =>
    unfold unlinkAll
    cases hdigest : stateDigest m f with
    | none => exact ih
    | some expected =>
      exact .bind (unlinkVerified_removals hdigest) fun _ => .bind ih fun _ => .pure _

theorem removeTask_removals {task : Task} (hfound : found.task = some task) :
    Preserves (Removals found h m x) (removeTask h task) := by
  refine .bind (.ask _) fun _ => .bind (.ask _) fun _ => .commit _ fun t t' ht hok => ?_
  obtain rfl := Except.ok.inj hok
  exact ht.trans (.setTask hfound _)

theorem cleanup_removals : Preserves (Removals found h m x) (cleanup h found m) := by
  have hworkspace : Preserves (Removals found h m x) (releaseWorkspace h found.holder) := by
    cases hholder : found.holder with
    | none => exact .pure _
    | some e => exact removeWorkspace_removals hholder
  have htask : Preserves (Removals found h m x) (releaseTask h found.task) := by
    cases hfound : found.task with
    | none => exact .pure _
    | some task => exact removeTask_removals hfound
  exact .bind hworkspace fun _ => .bind (unlinkAll_removals _) fun _ => .bind htask fun _ => .pure _

/-! ## The archive -/

theorem copyVerified_onlyArchives (n : List String) (data : Bytes) :
    Preserves (OnlyArchives d) (copyVerified name n data) := by
  refine .commit _ fun t t' ht hok => ?_
  obtain ⟨-, rfl⟩ := lands_copyVerified.1 (lands_commit.2 hok)
  exact ht.trans (onlyArchives_setArchive _ _ _)

theorem copyAll_onlyArchives (list : List Source) :
    Preserves (OnlyArchives d) (copyAll h name list) := by
  induction list with
  | nil => exact .pure _
  | cons source rest ih =>
    exact .bind (.ask _) fun _ => .bind (copyVerified_onlyArchives _ _) fun _ =>
      .bind ih fun _ => .pure _

theorem writeDocument_onlyArchives (f : Archive → Archive) :
    Preserves (OnlyArchives d) (writeDocument name f) := by
  refine .commit _ fun t t' ht hok => ?_
  obtain rfl := Except.ok.inj hok
  exact ht.trans (onlyArchives_setArchive _ _ _)

theorem buildArchive_onlyArchives :
    Preserves (OnlyArchives d) (buildArchive h r st found name) :=
  .bind .read fun _ => .bind (writeDocument_onlyArchives _) fun _ =>
    .bind (copyAll_onlyArchives _) fun _ => .bind (.ask _) fun _ => .bind (.ask _) fun _ =>
    .bind (writeDocument_onlyArchives _) fun _ => .bind (writeDocument_onlyArchives _) fun _ =>
    .pure _

theorem archiveRun_onlyArchives :
    Preserves (OnlyArchives d) (archiveRun h r st found name) := by
  refine .bind .read fun y => ?_
  cases y.archive name with
  | some a => exact .bind (.ask _) fun _ => .bind (.ask _) fun _ => .pure _
  | none => exact .bind buildArchive_onlyArchives fun _ => .pure _

theorem sourceBytes_ok {what : String} {n : Option Node} {b : Bytes}
    (hok : sourceBytes what n = .ok b) : n = some (.file b) := by
  cases n with
  | none => cases hok
  | some n =>
    cases n with
    | other => cases hok
    | file bytes =>
      simp only [sourceBytes, bind_ok, exists_unit, pure_ok] at hok
      rw [hok.2]

/-- Every source is an ordinary file, and its digest is an entry. -/
theorem copyAll_copies {list : List Source} {entries : List FileEntry}
    (hl : (copyAll h name list).Lands d entries t) :
    ∀ source ∈ list, ∃ b, source.node d = some (.file b) ∧
      ∃ e ∈ entries, e.name = source.archiveName ∧ e.sha256 = h.sha256 b := by
  induction list generalizing d entries with
  | nil => exact fun source hs => absurd hs List.not_mem_nil
  | cons first rest ih =>
    simp only [copyAll, lands_bind, lands_ask, lands_pure] at hl
    obtain ⟨data, _, ⟨hdata, rfl⟩, _, v, hv, entries', x, hrest, rfl, rfl⟩ := hl
    obtain ⟨-, rfl⟩ := lands_copyVerified.1 hv
    intro source hs
    rcases List.mem_cons.1 hs with rfl | hs
    · exact ⟨data, sourceBytes_ok hdata, _, List.mem_cons_self, rfl, rfl⟩
    · obtain ⟨b, hb, e, he, hname, hsha⟩ := ih hrest source hs
      rw [node_of_onlyArchives (onlyArchives_setArchive _ _ _)] at hb
      exact ⟨b, hb, e, List.mem_cons_of_mem _ he, hname, hsha⟩

theorem buildArchive_copies (hl : (buildArchive h r st found name).Lands d m t) :
    ∀ source ∈ sources found d, ∃ b, source.node d = some (.file b) ∧
      ∃ e ∈ m.files, e.name = source.archiveName ∧ e.sha256 = h.sha256 b := by
  simp only [buildArchive, lands_bind, lands_ask, lands_pure] at hl
  obtain ⟨_, _, hread, _, v, hv, entries, y, hcopy, _, _, -, _, _, -, _, _, -, _, _, -, rfl, -⟩ := hl
  obtain ⟨rfl, rfl⟩ := lands_read.1 hread
  rw [lands_writeDocument] at hv
  intro source hs
  obtain ⟨b, hb, e, he, hname, hsha⟩ := copyAll_copies hcopy source hs
  rw [hv, node_of_onlyArchives (onlyArchives_setArchive _ _ _)] at hb
  exact ⟨b, hb, e, (List.perm_insertionSort _ _).mem_iff.2 he, hname, hsha⟩

/-- The archive that was just built has every source. -/
theorem archiveRun_copies {recovered : Bool} (hnone : d.archive name = none)
    (hl : (archiveRun h r st found name).Lands d (m, recovered) t) :
    ∀ source ∈ sources found d, ∃ b, source.node d = some (.file b) ∧
      ∃ e ∈ m.files, e.name = source.archiveName ∧ e.sha256 = h.sha256 b := by
  simp only [archiveRun, lands_bind] at hl
  obtain ⟨_, _, hread, hl⟩ := hl
  obtain ⟨rfl, rfl⟩ := lands_read.1 hread
  simp only [hnone, lands_bind, lands_pure] at hl
  obtain ⟨_, _, hbuild, heq, -⟩ := hl
  obtain ⟨rfl, -⟩ := Prod.mk.inj heq
  exact buildArchive_copies hbuild

/-! ## A whole call -/

theorem kept_of_onlyArchives (ht : OnlyArchives (locked claim d) t) : Kept h r claim d t := by
  obtain ⟨_, rfl⟩ := ht
  exact ⟨fun _ hne => absurd rfl hne, fun _ _ _ _ hne => absurd rfl hne,
    fun _ _ _ _ hne => absurd rfl hne, fun _ _ _ _ hne => absurd rfl hne,
    fun _ _ _ hne => absurd rfl hne⟩

/-- An entry of the verified archive stands for bytes of its digest. -/
theorem copied_of_entry {a : Archive} {source : Source} {b : Bytes} {e : FileEntry}
    (ha : t.archive (archiveNameFor st.runId st.state r.shippedCommit) = some a)
    (hcomplete : a.complete = true) (hverify : verifyExisting h st.runId a = .ok m)
    (he : e ∈ m.files) (hname : e.name = source.archiveName) (hsha : e.sha256 = h.sha256 b) :
    Copied h r st t source b :=
  ⟨a, m, ha, hcomplete, hverify, e, he, hname, hsha, (verifyExisting_ok.1 hverify).2.2.2 e he⟩

theorem digestOf_mem {files : List FileEntry} {n : List String} {digest : String}
    (hd : digestOf files n = some digest) : ∃ e ∈ files, e.name = n ∧ e.sha256 = digest := by
  obtain ⟨e, he, hsha⟩ := Option.map_eq_some_iff.1 hd
  obtain ⟨hmem, hname⟩ := List.mem_filter.1 (List.mem_of_getLast? he)
  exact ⟨e, hmem, by simpa using hname, hsha⟩

/-- The archive the removals are made against: complete, verified, and, where
this call has built it, with every source. -/
structure Proven (h : Host) (r : Request) (st : StateDoc) (found : Findings) (d : Disk)
    (m : Manifest) (x : Disk) : Prop where
  only : OnlyArchives d x
  archive : ∃ a, x.archive (archiveNameFor st.runId st.state r.shippedCommit) = some a ∧
    a.complete = true ∧ verifyExisting h st.runId a = .ok m
  copies : d.archive (archiveNameFor st.runId st.state r.shippedCommit) = none →
    ∀ source ∈ sources found d, ∃ b, source.node d = some (.file b) ∧
      ∃ e ∈ m.files, e.name = source.archiveName ∧ e.sha256 = h.sha256 b

theorem archiveRun_proven {recovered : Bool}
    (hl : (archiveRun h r st found (archiveNameFor st.runId st.state r.shippedCommit)).Lands d
      (m, recovered) x) : Proven h r st found d m x := by
  obtain ⟨honly, harchive, -⟩ := archiveRun_lands hl
  exact ⟨honly, harchive, fun hnone => archiveRun_copies hnone hl⟩

namespace Proven

variable (hx : Proven h r st found (locked claim d) m x) (ht : Removals found h m x t)
include hx ht

theorem copied {source : Source} {b : Bytes} {e : FileEntry} (he : e ∈ m.files)
    (hname : e.name = source.archiveName) (hsha : e.sha256 = h.sha256 b) :
    Copied h r st t source b := by
  obtain ⟨a, ha, hcomplete, hverify⟩ := hx.archive
  refine copied_of_entry (a := a) ?_ hcomplete hverify he hname hsha
  rw [← ha]
  unfold Disk.archive
  rw [ht.archives]

theorem copied_source (hnone : d.archive (archiveNameFor st.runId st.state r.shippedCommit) = none)
    {source : Source} (hs : source ∈ sources found (locked claim d)) : ∃ b,
    source.node (locked claim d) = some (.file b) ∧ Copied h r st t source b := by
  obtain ⟨b, hb, e, he, hname, hsha⟩ := hx.copies hnone source hs
  exact ⟨b, hb, hx.copied ht he hname hsha⟩

/-- What the holder gives to the archive. -/
theorem copied_workspace {w : String} {holder : Holder} {source : Source}
    (hnone : d.archive (archiveNameFor st.runId st.state r.shippedCommit) = none)
    (hholder : found.holder = some (w, holder))
    (hs : source ∈ .record w :: .owner w :: found.candidates.map (.candidate w)) : ∃ b,
    source.node (locked claim d) = some (.file b) ∧ Copied h r st t source b := by
  refine hx.copied_source ht hnone ?_
  unfold sources
  rw [hholder]
  exact List.mem_append_left _ (List.mem_append_right _ hs)

theorem kept (hread : readState h d = .ok (some st))
    (hgates : gates h r st (locked claim d) = .ok found) : Kept h r claim d t := by
  have hfound : ∀ {st' found'}, Builds h r claim d st' found' → st' = st ∧ found' = found ∧
      d.archive (archiveNameFor st.runId st.state r.shippedCommit) = none := by
    rintro st' found' ⟨hread', hgates', hnone⟩
    obtain rfl : st' = st := Option.some.inj (Except.ok.inj (hread'.symm.trans hread))
    exact ⟨rfl, Except.ok.inj (hgates'.symm.trans hgates), hnone⟩
  have hsame : ∀ f, x.files f = (locked claim d).files f := by
    obtain ⟨_, rfl⟩ := hx.only
    exact fun _ => rfl
  have hrest : (∀ n, x.record n = d.record n) ∧ x.holders = d.holders ∧ x.task = d.task := by
    obtain ⟨_, rfl⟩ := hx.only
    exact ⟨fun _ => rfl, rfl, rfl⟩
  obtain ⟨hrecord, hholders, htask⟩ := hrest
  constructor
  case document =>
    intro f hne
    rcases ht.document f with hf | ⟨-, b, hb, hdigest⟩
    · exact absurd (hf.trans (hsame f)) hne
    · obtain ⟨e, he, hname, hsha⟩ := digestOf_mem hdigest
      exact ⟨st, b, hread, hsame f ▸ hb, hx.copied ht he hname hsha⟩
  case record =>
    intro st' found' hbuilds n hne
    obtain ⟨rfl, rfl, hnone⟩ := hfound hbuilds
    rcases ht.record n with hn | ⟨w, holder, hholder, rfl⟩
    · exact absurd (hn.trans (hrecord n)) hne
    · obtain ⟨b, hb, hcopied⟩ := hx.copied_workspace ht hnone hholder List.mem_cons_self
      exact ⟨w, b, rfl, hb, hcopied⟩
  case owner =>
    intro st' found' hbuilds w hne
    obtain ⟨rfl, rfl, hnone⟩ := hfound hbuilds
    rcases ht.holder w with hw | ⟨holder, hholder⟩
    · exact absurd (hw.trans (congrFun hholders w)) hne
    · exact hx.copied_workspace ht hnone hholder (List.mem_cons_of_mem _ List.mem_cons_self)
  case candidate =>
    intro st' found' hbuilds w hne path hpath
    obtain ⟨rfl, rfl, hnone⟩ := hfound hbuilds
    rcases ht.holder w with hw | ⟨holder, hholder⟩
    · exact absurd (hw.trans (congrFun hholders w)) hne
    · exact hx.copied_workspace ht hnone hholder (List.mem_cons_of_mem _
        (List.mem_cons_of_mem _ (List.mem_map_of_mem hpath)))
  case task =>
    intro st' found' hbuilds hne
    obtain ⟨rfl, rfl, hnone⟩ := hfound hbuilds
    rcases ht.task with hsame | hsome
    · exact absurd (hsame.trans htask) hne
    · obtain ⟨task, htask⟩ := Option.isSome_iff_exists.1 hsome
      have hs : Source.task task.name ∈ sources found' (locked claim d) := by
        unfold sources
        rw [htask]
        exact List.mem_append_right _ List.mem_cons_self
      obtain ⟨b, hb, hcopied⟩ := hx.copied_source ht hnone hs
      exact ⟨task.name, b, hb, hcopied⟩

end Proven

/-- From any disk, wherever the call is cut and however it ends. -/
theorem finalize_keeps (h : Host) (r : Request) (claim : Bytes) (d : Disk) :
    (finalize h r claim).Ensures d (Kept h r claim d) (fun _ => Kept h r claim d)
      fun _ => Kept h r claim d := by
  have hstart : Kept h r claim d (locked claim d) := kept_of_onlyArchives (.refl _)
  refine ensures_bind (R := fun _ t => t = locked claim d) (ensures_commit _ ?_ ?_) ?_
  · intro s' hs'
    obtain rfl := Except.ok.inj hs'
    exact ⟨hstart, rfl⟩
  · exact fun _ he => nomatch he
  intro _ t ht
  rw [ht]
  refine ensures_bind (ensures_ask (Q := fun o t => readState h d = .ok o ∧ t = locked claim d) _
    (fun o ho => ⟨readState_locked.symm.trans ho, rfl⟩) fun _ _ => hstart) ?_
  rintro o t ⟨hread, ht⟩
  rw [ht]
  cases o with
  | none => exact ensures_ask _ (fun _ _ => hstart) fun _ _ => hstart
  | some st =>
    refine ensures_bind (ensures_ask (Q := fun found t =>
      gates h r st (locked claim d) = .ok found ∧ t = locked claim d) _ (fun _ hg => ⟨hg, rfl⟩)
      fun _ _ => hstart) ?_
    rintro found t ⟨hgates, ht⟩
    rw [ht]
    refine ensures_bind (R := fun p => Proven h r st found (locked claim d) p.1) ?_ ?_
    · have honly : Preserves (OnlyArchives (locked claim d)) (archiveRun h r st found
          (archiveNameFor st.runId st.state r.shippedCommit)) := archiveRun_onlyArchives
      exact ensures_landing (ensures_mono (honly _ (.refl _)) (fun _ hu => kept_of_onlyArchives hu)
        (fun _ _ _ => trivial) fun _ _ hu => kept_of_onlyArchives hu) fun p x hl =>
          archiveRun_proven hl
    rintro ⟨m, recovered⟩ x hx
    refine ensures_bind (ensures_mono (cleanup_removals x (.refl x))
      (fun _ hu => hx.kept hu hread hgates) (fun _ _ hu => hx.kept hu hread hgates)
      fun _ _ hu => hx.kept hu hread hgates) ?_
    exact fun removed u hu => ensures_bind (R := fun _ => Kept h r claim d) (ensures_read hu)
      fun _ _ hv => ensures_return _ hv

/-- Every file of a workspace that is gone is in an archive with its digest. -/
def WholeHolderCopied (h : Host) (d t : Disk) : Prop :=
  ∀ w path b, (d.holders w).bind (fun holder => holder.entry path) = some (.file b) →
    (t.holders w).bind (fun holder => holder.entry path) = none →
      ∃ e ∈ t.archives, ∃ m ∈ e.2.manifest, ∃ f ∈ m.files, f.sha256 = h.sha256 b

def failedSha (b : Bytes) : String :=
  if b = [4] then "e52d9c508c502347344d8c07ad91cbd6068afc75ff6292f062a09ca381c89e71"
  else if b = [5] then "e77b9a9ae9e30b0dbdb6f510a264ef9de781501d7b6b92ae89eb059c5ab743db"
  else if b = [6] then "67586e98fad27da0b9968bc039a1ef34c939b9b8e523a8bef89d478608c5ecf6"
  else if b = [7] then "ca358758f6d27e6cf45272937977a748fd88391db679ceda7dc7bf1f005ee879"
  else if b = [8] then "beead77994cf573341ec17b58bbf7eb34d2711c993c1d976b128b3188dc1829a"
  else sampleSha b

def failedRun : StateDoc := { sampleRun with state := .failed, stopReason := some .acceptanceFailed }

def failedRecord : Record where
  workspaceId := sampleBinding.workspaceId
  repoId := "depo"
  runId := sampleBinding.runId
  baselineSha := sampleBinding.baselineSha
  baselineDigest := some "ca358758f6d27e6cf45272937977a748fd88391db679ceda7dc7bf1f005ee879"
  ready := true
  markerVersion := 1
  referenceIdentity := some "r"
  implementerIdentity := some "i"

def failedMarker : Marker where
  markerVersion := 1
  workspaceId := sampleBinding.workspaceId
  repoId := "depo"
  runId := sampleBinding.runId
  baselineSha := sampleBinding.baselineSha

def failedHost : Host :=
  { sampleHost with
    sha256 := failedSha
    readState := fun b => if b = [1] then some failedRun else none
    readRecord := fun b => if b = [4] then some failedRecord else none
    readMarker := fun b => if b = [5] then some failedMarker else none
    derive := fun _ _ _ _ => some [["a.py"]] }

def failedRequest : Request :=
  { sampleRequest with taskPath := some ⟨"gorev.json", some "gorev.json"⟩ }

/-- A failed run with its workspace: `a.py` is changed, and the reference tree
has it as it was. -/
def failedDisk : Disk :=
  { sampleDisk.setFile .events none with
    ledger := [(recordName sampleBinding.workspaceId, .file [4])]
    holders := fun w => if w = sampleBinding.workspaceId then
        some [([ownerName], .file [5]), (["reference"], .dir "r"),
          (["reference", "a.py"], .file [8]), (["implementer"], .dir "i"),
          (["implementer", "a.py"], .file [6])]
      else none
    task := some (.file [7]) }

theorem failed_call :
    (finalize failedHost failedRequest [9] failedDisk).result.toOption.isSome = true ∧
      ((finalize failedHost failedRequest [9] failedDisk).state.holders
        sampleBinding.workspaceId).isNone = true ∧
      ((finalize failedHost failedRequest [9] failedDisk).state.archives.all
        fun e => e.2.manifest.all fun m => m.files.all fun f => f.sha256 ≠ failedSha [8]) = true := by
  decide +kernel

/-- The call that builds the archive removes the reference tree, which is not
in it. -/
theorem reference_not_archived :
    (∃ res, (finalize failedHost failedRequest [9] failedDisk).result = .ok res) ∧
      ¬ WholeHolderCopied failedHost failedDisk
        (finalize failedHost failedRequest [9] failedDisk).state := by
  obtain ⟨hok, hgone, hnone⟩ := failed_call
  constructor
  · cases hr : (finalize failedHost failedRequest [9] failedDisk).result with
    | ok res => exact ⟨res, rfl⟩
    | error e =>
      rw [hr] at hok
      cases hok
  · intro hcopied
    obtain ⟨e, he, m, hm, f, hf, hsha⟩ :=
      hcopied sampleBinding.workspaceId ["reference", "a.py"] [8] (by decide) (by
        rw [Option.isNone_iff_eq_none.1 hgone]
        rfl)
    have hall := List.all_eq_true.1 hnone e he
    rw [Option.mem_def.1 hm] at hall
    have hne := List.all_eq_true.1 hall f hf
    exact of_decide_eq_true hne hsha

end RagPipeline.Finalization
