import RagPipeline.Finalization.Removal

/-! # The archive a call cleans up against

Whether it was built now or found, it is complete, it verifies, and nothing
else on the disk has changed. -/

set_option autoImplicit false

namespace RagPipeline.Finalization
open Runner Guard Effects Program

variable {h : Host} {r : Request} {st : StateDoc} {found : Findings} {name : String}
  {d t u : Disk} {m : Manifest}

/-- Nothing but the archive root differs. -/
def OnlyArchives (d t : Disk) : Prop := ∃ archives, t = { d with archives := archives }

theorem OnlyArchives.refl (d : Disk) : OnlyArchives d d := ⟨d.archives, rfl⟩

theorem OnlyArchives.trans (h : OnlyArchives d t) (h' : OnlyArchives t u) : OnlyArchives d u := by
  obtain ⟨_, rfl⟩ := h
  obtain ⟨archives, rfl⟩ := h'
  exact ⟨archives, rfl⟩

theorem onlyArchives_setArchive (d : Disk) (name : String) (a : Archive) :
    OnlyArchives d (d.setArchive name a) := ⟨_, rfl⟩

theorem archive_setArchive (d : Disk) (name : String) (a : Archive) :
    (d.setArchive name a).archive name = some a := by
  have hnone : ((d.archives.filter fun e => e.1 ≠ name).find? fun e => e.1 = name) = none := by
    rw [List.find?_eq_none]
    intro e he
    simpa using (List.mem_filter.1 he).2
  rw [Disk.archive, Disk.setArchive, List.find?_append, hnone]
  simp

theorem node_of_onlyArchives (hd : OnlyArchives d t) (source : Source) :
    source.node t = source.node d := by
  obtain ⟨_, rfl⟩ := hd
  cases source <;> rfl

/-- The archive has the file the entry speaks of. -/
def Archive.Holds (h : Host) (a : Archive) (e : FileEntry) : Prop :=
  ∃ data, a.files e.name = some data ∧ data.length = e.size ∧ h.sha256 data = e.sha256

theorem lands_copyVerified {n : List String} {data : Bytes} :
    (copyVerified name n data).Lands d () t ↔
      ((d.archive name).getD .empty).files n = none ∧
        t = d.setArchive name (((d.archive name).getD .empty).addFile n data) := by
  simp only [copyVerified, lands_commit]
  by_cases hn : ((d.archive name).getD .empty).files n = none
  · rw [if_pos hn]
    exact ⟨fun hl => ⟨hn, (Except.ok.inj hl).symm⟩, fun hl => congrArg Except.ok hl.2.symm⟩
  · rw [if_neg hn]
    exact ⟨fun hl => (nomatch hl), fun hl => absurd hl.1 hn⟩

theorem copyAll_lands {list : List Source} {entries : List FileEntry} {a : Archive}
    (ha : d.archive name = some a) (hl : (copyAll h name list).Lands d entries t) :
    OnlyArchives d t ∧ entries.map FileEntry.name = list.map Source.archiveName ∧
      ∃ b, t.archive name = some b ∧ b.manifest = a.manifest ∧ b.complete = a.complete ∧
        (∀ n data, a.files n = some data → b.files n = some data) ∧
        ∀ e ∈ entries, b.Holds h e := by
  induction list generalizing d a entries with
  | nil =>
    obtain ⟨rfl, rfl⟩ := lands_pure.1 hl
    exact ⟨.refl _, rfl, a, ha, rfl, rfl, fun _ _ hb => hb, fun e he => by simp at he⟩
  | cons source rest ih =>
    simp only [copyAll, lands_bind, lands_ask, lands_pure] at hl
    obtain ⟨data, u, ⟨-, rfl⟩, _, v, hv, entries', x, hrest, rfl, rfl⟩ := hl
    obtain ⟨hfree, rfl⟩ := lands_copyVerified.1 hv
    rw [ha, Option.getD_some] at hfree hrest
    obtain ⟨honly, hnames, b, harchive, hmanifest, hcomplete, hkept, hholds⟩ :=
      ih (archive_setArchive _ _ _) hrest
    refine ⟨(onlyArchives_setArchive _ _ _).trans honly, by simp [hnames], b, harchive, hmanifest,
      hcomplete, ?_, ?_⟩
    · intro n b hb
      apply hkept
      have hne : n ≠ source.archiveName := by
        rintro rfl
        rw [hfree] at hb
        cases hb
      exact (Function.update_of_ne hne _ _).trans hb
    · intro e he
      rcases List.mem_cons.1 he with rfl | he
      · exact ⟨data, hkept _ _ (Function.update_self _ _ _), rfl, rfl⟩
      · exact hholds e he

/-- What the disk looks like while the archive is being built. -/
def Building (name : String) (d t : Disk) : Prop :=
  OnlyArchives d t ∧ ∃ a, t.archive name = some a ∧ a.complete = false

theorem Building.of_setArchive {a : Archive} (hd : OnlyArchives d t) (ha : a.complete = false) :
    Building name d (t.setArchive name a) :=
  ⟨hd.trans (onlyArchives_setArchive _ _ _), a, archive_setArchive _ _ _, ha⟩

theorem crashes_copyAll {l : List Source} (hd : Building name d t) :
    (copyAll h name l).Ensures t (Building name d)
      (fun entries u => Building name d u ∧
        entries.map FileEntry.name = l.map Source.archiveName) (fun _ _ => True) := by
  induction l generalizing t with
  | nil => exact ensures_return _ ⟨hd, rfl⟩
  | cons source rest ih =>
    refine ensures_bind (ensures_ask (Q := fun _ u => u = t) _ (fun _ _ => rfl)
      fun _ _ => trivial) ?_
    intro data u hu
    rw [hu]
    refine ensures_bind (R := fun _ => Building name d) (ensures_commit _ ?_ ?_) ?_
    · intro s' hs'
      obtain ⟨honly, a, ha, hcomplete⟩ := hd
      obtain ⟨-, rfl⟩ := lands_copyVerified.1 (lands_commit.2 hs')
      rw [ha, Option.getD_some]
      exact ⟨.of_setArchive honly hcomplete, .of_setArchive honly hcomplete⟩
    · exact fun _ _ => trivial
    · intro _ v hv
      refine ensures_bind (ih hv) ?_
      intro entries w hw
      exact ensures_return _ ⟨hw.1, congrArg (List.cons source.archiveName) hw.2⟩

theorem lands_writeDocument {f : Archive → Archive} :
    (writeDocument name f).Lands d () t ↔
      t = d.setArchive name (f ((d.archive name).getD .empty)) := by
  simp only [writeDocument, lands_commit, Except.ok.injEq]
  exact eq_comm

theorem trace_writeDocument {f : Archive → Archive} :
    (writeDocument name f d).trace = [d.setArchive name (f ((d.archive name).getD .empty))] := rfl

theorem digestOf_isSome {files : List FileEntry} {n : List String} {e : FileEntry}
    (he : e ∈ files) (hn : e.name = n) : (digestOf files n).isSome := by
  have hne : files.filter (fun e => e.name = n) ≠ [] :=
    List.ne_nil_of_mem (List.mem_filter.2 ⟨he, by simpa using hn⟩)
  rw [digestOf, Option.isSome_map, List.getLast?_isSome]
  exact hne

/-- A built archive covers the state document. -/
theorem stateDigest_payload {entries : List FileEntry} {missing : List String}
    (hnames : entries.map FileEntry.name = (sources found d).map Source.archiveName)
    (hstate : (d.files .state).isSome) :
    (stateDigest (manifestPayload st r found entries missing) .state).isSome := by
  have hmem : ["state", StateFile.name .state] ∈ entries.map FileEntry.name := by
    rw [hnames]
    refine List.mem_map.2 ⟨.stateFile .state, ?_, rfl⟩
    refine List.mem_append_left _ (List.mem_append_left _ ?_)
    exact List.mem_map.2 ⟨.state, List.mem_filter.2 ⟨by decide, hstate⟩, rfl⟩
  obtain ⟨e, he, hname⟩ := List.mem_map.1 hmem
  exact digestOf_isSome ((List.perm_insertionSort _ _).mem_iff.2 he) hname

theorem verifyExisting_ok {a : Archive} {runId : String} :
    verifyExisting h runId a = .ok m ↔
      a.manifest = some m ∧ assertManifest m = .ok () ∧ m.runId = runId ∧
        ∀ e ∈ m.files, a.Holds h e := by
  simp only [verifyExisting, bind_ok, exists_unit, require_ok, forM_ok, demand_ok, pure_ok,
    Archive.Holds]
  constructor
  · rintro ⟨m', hm, hassert, hrun, hfiles, rfl⟩
    exact ⟨hm, hassert, hrun, hfiles⟩
  · rintro ⟨hm, hassert, hrun, hfiles⟩
    exact ⟨m, hm, hassert, hrun, hfiles, rfl⟩

theorem buildArchive_lands (hnone : d.archive name = none)
    (hl : (buildArchive h r st found name).Lands d m t) :
    OnlyArchives d t ∧ (∃ a, t.archive name = some a ∧ a.complete = true ∧
      verifyExisting h st.runId a = .ok m) ∧
      ((d.files .state).isSome → (stateDigest m .state).isSome) ∧
      ∀ u ∈ (buildArchive h r st found name d).trace, Building name d u ∨ u = t := by
  have hempty := archive_setArchive d name .empty
  simp only [buildArchive, lands_bind, lands_read, lands_ask, lands_pure] at hl
  obtain ⟨_, _, ⟨rfl, rfl⟩, _, v, hv, entries, x, hcopy, _, _, ⟨hsame, rfl⟩, _, _, ⟨hassert, rfl⟩,
    _, y, hy, _, z, hz, rfl, rfl⟩ := hl
  obtain rfl := lands_writeDocument.1 hv
  rw [hnone, Option.getD_none, id] at hv hcopy
  obtain ⟨honly, hnames, b, harchive, -, -, -, hholds⟩ := copyAll_lands hempty hcopy
  have hstart : Building name d (d.setArchive name .empty) := .of_setArchive (.refl d) rfl
  have hwritten := lands_writeDocument.1 hy
  rw [harchive, Option.getD_some] at hwritten
  have hcompleted := lands_writeDocument.1 hz
  rw [hwritten, archive_setArchive, Option.getD_some] at hcompleted
  have hbase := (onlyArchives_setArchive _ _ _).trans honly
  refine ⟨?_, ⟨_, hcompleted ▸ archive_setArchive _ _ _, rfl, ?_⟩, ?_, ?_⟩
  · rw [hcompleted]
    exact (hbase.trans (onlyArchives_setArchive _ _ _)).trans (onlyArchives_setArchive _ _ _)
  · refine verifyExisting_ok.2 ⟨rfl, hassert, rfl, fun e he => ?_⟩
    exact hholds e ((List.perm_insertionSort _ _).mem_iff.1 he)
  · exact stateDigest_payload hnames
  · intro u hu
    have hall : Building name d x := by
      have hend := (crashes_copyAll (h := h) (l := sources found d) hstart).2
      rw [hcopy.1] at hend
      exact hcopy.2 ▸ hend.1
    rw [buildArchive, trace_bind (lands_read.2 ⟨rfl, rfl⟩)] at hu
    dsimp only at hu
    have hask : (Program.ask fun _ : Disk => assertManifest
        (manifestPayload st r found entries (absent found d))).Lands x () x := ⟨hassert, rfl⟩
    rw [trace_bind hv, trace_bind hcopy, trace_bind (lands_ask.2 ⟨hsame, rfl⟩), trace_bind hask,
      trace_bind hy, trace_bind hz] at hu
    simp only [List.mem_append] at hu
    rcases hu with hu | hu | hu | hu | hu | hu | hu | hu
    · exact absurd hu List.not_mem_nil
    · rw [trace_writeDocument, hnone, List.mem_singleton] at hu
      exact .inl (hu ▸ hstart)
    · exact .inl ((crashes_copyAll hstart).1 u hu)
    · exact absurd hu List.not_mem_nil
    · exact absurd hu List.not_mem_nil
    · left
      rw [trace_writeDocument, harchive, Option.getD_some, List.mem_singleton] at hu
      obtain ⟨hx, a, ha, hcomplete⟩ := hall
      rw [harchive] at ha
      rw [hu]
      exact .of_setArchive hx (Option.some.inj ha ▸ hcomplete)
    · right
      rw [trace_writeDocument, hwritten, archive_setArchive, Option.getD_some,
        List.mem_singleton] at hu
      exact hu.trans hcompleted.symm
    · exact absurd hu List.not_mem_nil

/-- An archive under the name is unfinished, or its manifest covers the state
document that there was. -/
def Covered (name : String) (d t : Disk) : Prop :=
  OnlyArchives d t ∧ ∀ a, t.archive name = some a → a.complete = true →
    ∃ m, a.manifest = some m ∧ ((d.files .state).isSome → (stateDigest m .state).isSome)

theorem Building.covered (hb : Building name d t) : Covered name d t := by
  obtain ⟨honly, a, ha, hcomplete⟩ := hb
  refine ⟨honly, fun b hb hdone => ?_⟩
  obtain rfl : a = b := Option.some.inj (ha.symm.trans hb)
  rw [hcomplete] at hdone
  cases hdone

theorem crashes_buildArchive (hnone : d.archive name = none) :
    (buildArchive h r st found name).Ensures d (Covered name d) (fun _ => Covered name d)
      (fun _ _ => True) := by
  refine ensures_bind (R := fun a t => a = d ∧ t = d) (ensures_read ⟨rfl, rfl⟩) ?_
  rintro a t ⟨ha, ht⟩
  rw [ha, ht]
  refine ensures_bind (R := fun _ => Building name d) (ensures_commit _ ?_ fun _ _ => trivial) ?_
  · intro s' hs'
    obtain rfl := Except.ok.inj hs'
    rw [hnone]
    have hstart : Building name d (d.setArchive name .empty) := .of_setArchive (.refl d) rfl
    exact ⟨hstart.covered, hstart⟩
  intro _ x hx
  refine ensures_bind (ensures_mono (crashes_copyAll hx) (fun _ hu => hu.covered)
    (fun _ _ hu => hu) fun _ _ _ => trivial) ?_
  rintro entries y ⟨hy, hnames⟩
  refine ensures_bind (ensures_ask (Q := fun _ t => t = y) _ (fun _ _ => rfl)
    fun _ _ => trivial) ?_
  intro _ u hu
  rw [hu]
  refine ensures_bind (ensures_ask (Q := fun _ t => t = y) _ (fun _ _ => rfl)
    fun _ _ => trivial) ?_
  intro _ u hu
  rw [hu]
  obtain ⟨honly, b, hb, hcomplete⟩ := hy
  refine ensures_bind (R := fun _ t => Building name d t ∧ ∃ files complete,
      t.archive name = some ⟨files, some (manifestPayload st r found entries (absent found d)),
        complete⟩) (ensures_commit _ ?_ fun _ _ => trivial) ?_
  · intro s' hs'
    obtain rfl := Except.ok.inj hs'
    rw [hb, Option.getD_some]
    have hwritten : Building name d _ := .of_setArchive (a := ⟨b.files,
      some (manifestPayload st r found entries (absent found d)), b.complete⟩) honly hcomplete
    exact ⟨hwritten.covered, hwritten, _, _, archive_setArchive _ _ _⟩
  rintro _ z ⟨hz, files, complete, harchive⟩
  refine ensures_bind (R := fun _ => Covered name d) (ensures_commit _ ?_ fun _ _ => trivial) ?_
  · intro s' hs'
    obtain rfl := Except.ok.inj hs'
    rw [harchive, Option.getD_some]
    have hdone : Covered name d (z.setArchive name ⟨files,
        some (manifestPayload st r found entries (absent found d)), true⟩) := by
      refine ⟨hz.1.trans (onlyArchives_setArchive _ _ _), fun a ha _ => ?_⟩
      rw [archive_setArchive] at ha
      obtain rfl := Option.some.inj ha
      exact ⟨_, rfl, stateDigest_payload hnames⟩
    exact ⟨hdone, hdone⟩
  exact fun _ _ hu => ensures_return _ hu

/-- What `archiveRun` comes back with. -/
theorem archiveRun_lands {recovered : Bool}
    (hl : (archiveRun h r st found name).Lands d (m, recovered) t) :
    OnlyArchives d t ∧ (∃ a, t.archive name = some a ∧ a.complete = true ∧
      verifyExisting h st.runId a = .ok m) ∧
      (d.archive name = none → (d.files .state).isSome → (stateDigest m .state).isSome) ∧
      (d.archive name ≠ none → t = d) ∧
      ∀ u ∈ (archiveRun h r st found name d).trace, Building name d u ∨ u = t := by
  simp only [archiveRun, lands_bind] at hl
  obtain ⟨_, _, hread, hl⟩ := hl
  obtain ⟨rfl, rfl⟩ := lands_read.1 hread
  rw [archiveRun, trace_bind (lands_read.2 ⟨rfl, rfl⟩)]
  cases ha : d.archive name with
  | some a =>
    simp only [ha, lands_bind, lands_ask, require_ok, lands_pure] at hl
    obtain ⟨_, _, ⟨hcomplete, rfl⟩, m', _, ⟨hverify, rfl⟩, hm, rfl⟩ := hl
    obtain ⟨rfl, rfl⟩ := Prod.mk.inj hm
    refine ⟨.refl _, ⟨a, ha, hcomplete, hverify⟩, fun hn => (by cases hn), fun _ => rfl, ?_⟩
    intro u hu
    have hfirst : (Program.ask fun _ : Disk => require (a.complete = true)
        (Refusal.partialArchivePresent "tamamlanmamis arsiv dizini var")).Lands d () d :=
      ⟨require_true hcomplete, rfl⟩
    have hsecond : (Program.ask fun _ : Disk => verifyExisting h st.runId a).Lands d m' d :=
      ⟨hverify, rfl⟩
    dsimp only at hu
    rw [trace_bind hfirst, trace_bind hsecond] at hu
    exact absurd hu List.not_mem_nil
  | none =>
    simp only [ha, lands_bind, lands_pure] at hl
    obtain ⟨m', u, hbuild, hm, rfl⟩ := hl
    obtain ⟨rfl, rfl⟩ := Prod.mk.inj hm
    obtain ⟨honly, hverified, hstate, htrace⟩ := buildArchive_lands ha hbuild
    refine ⟨honly, hverified, fun _ => hstate, fun hn => absurd rfl hn, fun v hv => ?_⟩
    dsimp only at hv
    rw [trace_bind hbuild] at hv
    simp only [List.mem_append] at hv
    rcases hv with hv | hv | hv
    · exact absurd hv List.not_mem_nil
    · exact htrace v hv
    · exact absurd hv List.not_mem_nil

end RagPipeline.Finalization
