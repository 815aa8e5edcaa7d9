import RagPipeline.Finalization.Kept

/-! # A host that refuses

The same call on a host that may refuse a write into the archive or any one
removal. Every refusal of the host is a refusal of the call, and what was
removed before it stays removed. -/

set_option autoImplicit false

namespace RagPipeline.Finalization
open Runner Guard Effects Program

variable {h : Host} {r : Request} {st : StateDoc} {found : Findings} {name : String}
  {d s t u x : Disk} {m : Manifest} {claim : Bytes}

/-- One removal, as the host sees it. -/
inductive Removal where
  | entry (w : String) (path : List String)
  | holder (w : String)
  | record (w : String)
  | document (f : StateFile)
  | task
deriving DecidableEq

/-- What the host refuses: the write into the archive after so many of them, and
the removals that `removal` names. -/
structure Denials where
  archive : Option (ℕ × Refusal)
  removal : Removal → Bool

def Denials.nothing : Denials := ⟨none, fun _ => false⟩

def removing (deny : Denials) (y : Removal) (e : Refusal) (f : Disk → Disk) :
    Program Disk Refusal Unit :=
  Program.commit fun d => if deny.removal y then .error e else .ok (f d)

def removeTreeUnder (deny : Denials) (w : String) : Holder → Program Disk Refusal Unit
  | [] => removing deny (.holder w) (.workspaceCleanupFailed "calisma alani birakilamadi")
      (·.setHolder w none)
  | e :: rest => do
    removing deny (.entry w e.1) (.workspaceCleanupFailed "calisma alani birakilamadi")
      (·.setHolder w (some rest))
    removeTreeUnder deny w rest

def removeWorkspaceUnder (deny : Denials) (h : Host) (w : String) :
    Program Disk Refusal Unit := do
  let holder ← Program.ask (assertRemovable h w)
  removeTreeUnder deny w holder
  removing deny (.record w) (.workspaceCleanupFailed "calisma alani birakilamadi")
    (·.dropRecord (recordName w))

def unlinkVerifiedUnder (deny : Denials) (h : Host) (f : StateFile) (expected : String) :
    Program Disk Refusal Bool := do
  let present ← Program.ask fun d => assertUnlinkable h expected (d.files f)
  if present then
    removing deny (.document f) (.stateCleanupFailed "durum belgesi kaldirilamadi")
      (·.setFile f none)
    return true
  else return false

def unlinkAllUnder (deny : Denials) (h : Host) (m : Manifest) :
    List StateFile → Program Disk Refusal (List StateFile)
  | [] => pure []
  | f :: rest =>
    match stateDigest m f with
    | none => unlinkAllUnder deny h m rest
    | some expected => do
      let gone ← unlinkVerifiedUnder deny h f expected
      let removed ← unlinkAllUnder deny h m rest
      return if gone then f :: removed else removed

def removeTaskUnder (deny : Denials) (h : Host) (task : Task) : Program Disk Refusal Unit := do
  let data ← Program.ask fun d => sourceBytes "gorev dosyasi" d.task
  Program.ask fun _ => require (h.sha256 data = task.digest)
    (.taskManifestMismatch "gorev dosyasi kaldirilmadan once degisti")
  removing deny .task (.stateCleanupFailed "gorev dosyasi kaldirilamadi") (·.setTask none)

def releaseWorkspaceUnder (deny : Denials) (h : Host) :
    Option (String × Holder) → Program Disk Refusal Unit
  | some (w, _) => removeWorkspaceUnder deny h w
  | none => pure ()

def releaseTaskUnder (deny : Denials) (h : Host) : Option Task → Program Disk Refusal Unit
  | some task => removeTaskUnder deny h task
  | none => pure ()

def cleanupUnder (deny : Denials) (h : Host) (found : Findings) (m : Manifest) :
    Program Disk Refusal (List StateFile) := do
  releaseWorkspaceUnder deny h found.holder
  let removed ← unlinkAllUnder deny h m removableStateFiles
  releaseTaskUnder deny h found.task
  return removed

def archiveRunUnder (deny : Denials) (h : Host) (r : Request) (st : StateDoc)
    (found : Findings) (name : String) : Program Disk Refusal (Manifest × Bool) :=
  match deny.archive with
  | some (n, e) => cut n e (archiveRun h r st found name)
  | none => archiveRun h r st found name

def finalizeLockedUnder (deny : Denials) (h : Host) (r : Request) :
    Program Disk Refusal FinalizeResult := do
  let state ← Program.ask (readState h)
  match state with
  | none => Program.ask (alreadyFinalized h r)
  | some st =>
    let found ← Program.ask (gates h r st)
    let name := archiveNameFor st.runId st.state r.shippedCommit
    let (m, recovered) ← archiveRunUnder deny h r st found name
    let removed ← cleanupUnder deny h found m
    let d ← Program.read
    return {
      status := .finalized
      runId := st.runId
      terminalState := st.state
      stopReason := st.stopReason.getD .completed
      shipment := found.shipment
      archiveName := name
      archivedFileCount := m.fileCount
      removedWorkspace := found.holder.isSome
      removedStateFiles := removed
      removedTaskManifest := found.task.isSome
      readyForNewTask := ready h d
      recoveredPartialArchive := recovered
      pendingApplications := h.pendingApplications }

def finalizeUnder (deny : Denials) (h : Host) (r : Request) (claim : Bytes) :
    Program Disk Refusal FinalizeResult := do
  Program.commit fun d => .ok (d.setFile .lock (some (.file claim)))
  finalizeLockedUnder deny h r

/-! ## A host that refuses nothing -/

theorem removeTreeUnder_nothing (w : String) (holder : Holder) :
    removeTreeUnder .nothing w holder = removeTree w holder := by
  induction holder with
  | nil => rfl
  | cons e rest ih =>
    rw [removeTreeUnder, removeTree, ih]
    rfl

theorem unlinkAllUnder_nothing (list : List StateFile) :
    unlinkAllUnder .nothing h m list = unlinkAll h m list := by
  induction list with
  | nil => rfl
  | cons f rest ih =>
    rw [unlinkAllUnder, unlinkAll, ih]
    rfl

theorem cleanupUnder_nothing : cleanupUnder .nothing h found m = cleanup h found m := by
  have hworkspace : ∀ o, releaseWorkspaceUnder .nothing h o = releaseWorkspace h o := by
    intro o
    cases o with
    | none => rfl
    | some e =>
      rw [releaseWorkspaceUnder, releaseWorkspace, removeWorkspaceUnder, removeWorkspace]
      simp only [removeTreeUnder_nothing]
      rfl
  have htask : ∀ o, releaseTaskUnder .nothing h o = releaseTask h o := by
    intro o
    cases o <;> rfl
  rw [cleanupUnder, cleanup, hworkspace, htask, unlinkAllUnder_nothing]

/-- Where the host refuses nothing, the call is the one modelled before. -/
theorem finalizeUnder_nothing (h : Host) (r : Request) (claim : Bytes) :
    finalizeUnder .nothing h r claim = finalize h r claim := by
  unfold finalizeUnder finalize finalizeLockedUnder finalizeLocked
  simp only [cleanupUnder_nothing]
  rfl

end RagPipeline.Finalization

/-! # When the archive stage goes through

What the archive stage asks of the disk it starts from, and which digests the
removals then go by. -/

namespace RagPipeline.Finalization
open Runner Guard Effects Program

variable {deny : Denials} {h : Host} {r : Request} {st : StateDoc} {found : Findings}
  {name : String} {d t x : Disk} {m : Manifest}

def entryOf (h : Host) (d : Disk) (source : Source) : FileEntry :=
  let data := match source.node d with
    | some (.file b) => b
    | _ => []
  ⟨source.archiveName, data.length, h.sha256 data⟩

/-- The manifest of an archive built from `d`. -/
def plannedManifest (h : Host) (r : Request) (st : StateDoc) (found : Findings) (d : Disk) :
    Manifest :=
  manifestPayload st r found ((sources found d).map (entryOf h d)) (absent found d)

/-- Every source is an ordinary file under the ceiling. -/
def Copyable (d : Disk) (list : List Source) : Prop :=
  ∀ source ∈ list, ∃ b, source.node d = some (.file b) ∧ b.length ≤ maxFileBytes

/-- What the archive stage needs. An archive that is there is proven again, and
one that is not is built in three writes and one for each source. -/
def Archivable (deny : Denials) (h : Host) (r : Request) (st : StateDoc) (found : Findings)
    (d : Disk) : Prop :=
  match d.archive (archiveNameFor st.runId st.state r.shippedCommit) with
  | some a => a.complete = true ∧ ∃ m, verifyExisting h st.runId a = .ok m
  | none => Copyable d (sources found d) ∧ ((sources found d).map Source.archiveName).Nodup ∧
      (plannedManifest h r st found d).valid ∧
      ∀ n e, deny.archive = some (n, e) → (sources found d).length + 3 ≤ n

/-- The digest that the archive has of a document, or will have. -/
def archivedDigest (h : Host) (r : Request) (st : StateDoc) (d : Disk) (f : StateFile) :
    Option String :=
  match d.archive (archiveNameFor st.runId st.state r.shippedCommit) with
  | some a => a.manifest.bind fun m => stateDigest m f
  | none =>
    match d.files f with
    | some (.file b) => some (h.sha256 b)
    | _ => none

theorem addFile_self (a : Archive) (n : List String) (data : Bytes) :
    (a.addFile n data).files n = some data := Function.update_self _ _ _

theorem addFile_of_ne (a : Archive) {n n' : List String} (hne : n' ≠ n) (data : Bytes) :
    (a.addFile n data).files n' = a.files n' := Function.update_of_ne hne _ _

theorem entryOf_file {source : Source} {b : Bytes} (hb : source.node d = some (.file b)) :
    entryOf h d source = ⟨source.archiveName, b.length, h.sha256 b⟩ := by
  simp only [entryOf, hb]

theorem entryOf_onlyArchives (hd : OnlyArchives d t) : entryOf h t = entryOf h d := by
  funext source
  simp only [entryOf, node_of_onlyArchives hd]

theorem copyable_onlyArchives (hd : OnlyArchives d t) {list : List Source} :
    Copyable t list ↔ Copyable d list := by
  simp only [Copyable, node_of_onlyArchives hd]

theorem sourceBytes_iff {what : String} {n : Option Node} {b : Bytes} :
    sourceBytes what n = .ok b ↔ n = some (.file b) ∧ b.length ≤ maxFileBytes := by
  constructor
  · intro hok
    obtain rfl := sourceBytes_ok hok
    simp only [sourceBytes, bind_ok, exists_unit, require_ok] at hok
    exact ⟨rfl, hok.1⟩
  · rintro ⟨rfl, hlength⟩
    rw [sourceBytes, require_true hlength]
    rfl

theorem copyAll_iff {list : List Source} {entries : List FileEntry} {a : Archive}
    (ha : d.archive name = some a) :
    (∃ t, (copyAll h name list).Lands d entries t) ↔
      entries = list.map (entryOf h d) ∧ Copyable d list ∧
        (list.map Source.archiveName).Nodup ∧
        ∀ source ∈ list, a.files source.archiveName = none := by
  induction list generalizing d a entries with
  | nil =>
    simp only [copyAll, lands_pure]
    constructor
    · rintro ⟨_, rfl, -⟩
      exact ⟨rfl, fun _ hs => absurd hs List.not_mem_nil, List.nodup_nil,
        fun _ hs => absurd hs List.not_mem_nil⟩
    · rintro ⟨rfl, -⟩
      exact ⟨d, rfl, rfl⟩
  | cons source rest ih =>
    simp only [copyAll, lands_bind, lands_ask, lands_pure, sourceBytes_iff]
    constructor
    · rintro ⟨_, data, _, ⟨⟨hdata, hlength⟩, rfl⟩, _, v, hv, entries', x, hrest, rfl, rfl⟩
      obtain ⟨hfree, rfl⟩ := lands_copyVerified.1 hv
      have honly := onlyArchives_setArchive d name
        (((d.archive name).getD .empty).addFile source.archiveName data)
      obtain ⟨rfl, hcopyable, hnodup, hall⟩ := (ih (archive_setArchive _ _ _)).1 ⟨_, hrest⟩
      rw [ha, Option.getD_some] at hfree
      have hfresh : ∀ s ∈ rest, s.archiveName ≠ source.archiveName ∧
          a.files s.archiveName = none := by
        intro s hs
        have hnone := hall s hs
        rw [ha, Option.getD_some] at hnone
        have hne : s.archiveName ≠ source.archiveName := by
          intro heq
          rw [heq, addFile_self] at hnone
          cases hnone
        exact ⟨hne, (addFile_of_ne a hne data).symm.trans hnone⟩
      refine ⟨?_, ?_, ?_, ?_⟩
      · rw [List.map_cons, entryOf_file hdata, entryOf_onlyArchives honly]
      · intro s hs
        rcases List.mem_cons.1 hs with rfl | hs
        · exact ⟨data, hdata, hlength⟩
        · exact (copyable_onlyArchives honly).1 hcopyable s hs
      · refine List.nodup_cons.2 ⟨fun hmem => ?_, hnodup⟩
        obtain ⟨s, hs, heq⟩ := List.mem_map.1 hmem
        exact (hfresh s hs).1 heq
      · intro s hs
        rcases List.mem_cons.1 hs with rfl | hs
        · exact hfree
        · exact (hfresh s hs).2
    · rintro ⟨rfl, hcopyable, hnodup, hall⟩
      obtain ⟨data, hdata, hlength⟩ := hcopyable source List.mem_cons_self
      obtain ⟨hnew, hnodup⟩ := List.nodup_cons.1 hnodup
      have honly := onlyArchives_setArchive d name
        (((d.archive name).getD .empty).addFile source.archiveName data)
      have hfree : ((d.archive name).getD .empty).files source.archiveName = none := by
        rw [ha]
        exact hall source List.mem_cons_self
      have hrest : ∀ s ∈ rest, (((d.archive name).getD .empty).addFile source.archiveName
          data).files s.archiveName = none := by
        intro s hs
        have hne : s.archiveName ≠ source.archiveName := fun heq =>
          hnew (heq ▸ List.mem_map_of_mem hs)
        rw [ha, Option.getD_some, addFile_of_ne a hne]
        exact hall s (List.mem_cons_of_mem _ hs)
      have hentries : rest.map (entryOf h d) = rest.map (entryOf h (d.setArchive name
          (((d.archive name).getD .empty).addFile source.archiveName data))) := by
        rw [entryOf_onlyArchives honly]
      obtain ⟨t, ht⟩ := (ih (archive_setArchive _ _ _)).2 ⟨hentries,
        (copyable_onlyArchives honly).2 fun s hs => hcopyable s (List.mem_cons_of_mem _ hs),
        hnodup, hrest⟩
      exact ⟨t, data, d, ⟨⟨hdata, hlength⟩, rfl⟩, (), _, lands_copyVerified.2 ⟨hfree, rfl⟩, _, t,
        ht, by rw [List.map_cons, entryOf_file hdata], rfl⟩

theorem copyAll_length {list : List Source} {entries : List FileEntry}
    (hl : (copyAll h name list).Lands d entries t) :
    (copyAll h name list d).trace.length = list.length := by
  induction list generalizing d t entries with
  | nil => rfl
  | cons source rest ih =>
    obtain ⟨data, u, hask, hl⟩ := lands_bind.1 hl
    obtain ⟨_, v, hcopy, hl⟩ := lands_bind.1 hl
    obtain ⟨entries', y, hrest, -⟩ := lands_bind.1 hl
    rw [copyAll, trace_bind hask, trace_bind hcopy, trace_bind hrest]
    have hone : (copyVerified name source.archiveName data u).trace.length = 1 := by
      obtain ⟨hfree, -⟩ := lands_copyVerified.1 hcopy
      simp only [copyVerified, Program.commit, if_pos hfree, List.length_singleton]
    have hnone : (Program.ask (fun d => sourceBytes "arsiv kaynagi" (source.node d)) d).trace = [] :=
      rfl
    simp only [List.length_append, hone, hnone, ih hrest, List.length_cons, List.length_nil]
    simp only [Pure.pure, Program.pure, List.length_nil]
    omega

theorem assertManifest_planned :
    assertManifest (plannedManifest h r st found d) = .ok () ↔
      (plannedManifest h r st found d).valid := by
  simp only [assertManifest, bind_ok, exists_unit, require_ok, and_iff_left_iff_imp]
  intro _
  exact (List.length_insertionSort _ _).symm

theorem sourcesUnchanged_planned (hcopyable : Copyable d (sources found d))
    (ht : OnlyArchives d t) :
    sourcesUnchanged h ((sources found d).zip ((sources found d).map (entryOf h d))) t = .ok () := by
  refine forM_ok.2 fun c hc => ?_
  rw [List.zip_map_right, List.mem_map] at hc
  obtain ⟨⟨source, source'⟩, hc, rfl⟩ := hc
  obtain ⟨i, hi, heq⟩ := List.getElem_of_mem hc
  rw [List.getElem_zip] at heq
  obtain ⟨rfl, rfl⟩ := Prod.mk.inj heq
  obtain ⟨b, hb, hlength⟩ := hcopyable _ (List.of_mem_zip hc).1
  simp only [Prod.map, bind_ok, sourceBytes_iff, require_ok]
  exact ⟨b, ⟨(node_of_onlyArchives ht _).trans hb, hlength⟩, (congrArg FileEntry.sha256 (entryOf_file hb)).symm⟩

/-- The archive is built exactly when its sources can be copied under different
names and its manifest keeps the schema. -/
theorem buildArchive_iff (hnone : d.archive name = none) :
    (∃ t, (buildArchive h r st found name).Lands d m t) ↔
      m = plannedManifest h r st found d ∧ Copyable d (sources found d) ∧
        ((sources found d).map Source.archiveName).Nodup ∧
        (plannedManifest h r st found d).valid := by
  have hempty := archive_setArchive d name .empty
  have honly := onlyArchives_setArchive d name .empty
  constructor
  · rintro ⟨t, hl⟩
    simp only [buildArchive, lands_bind, lands_ask, lands_pure] at hl
    obtain ⟨_, _, hread, _, v, hv, entries, y, hcopy, _, _, -, _, _, ⟨hassert, -⟩, _, _, -, _, _, -,
      rfl, -⟩ := hl
    obtain ⟨rfl, rfl⟩ := lands_read.1 hread
    rw [lands_writeDocument, hnone, Option.getD_none, id] at hv
    rw [hv] at hcopy
    obtain ⟨rfl, hcopyable, hnodup, -⟩ := (copyAll_iff hempty).1 ⟨_, hcopy⟩
    rw [entryOf_onlyArchives honly] at hassert ⊢
    exact ⟨rfl, (copyable_onlyArchives honly).1 hcopyable, hnodup, assertManifest_planned.1 hassert⟩
  · rintro ⟨rfl, hcopyable, hnodup, hvalid⟩
    obtain ⟨y, hcopy⟩ := (copyAll_iff (h := h) hempty).2 ⟨rfl, (copyable_onlyArchives honly).2 hcopyable,
      hnodup, fun _ _ => rfl⟩
    rw [entryOf_onlyArchives honly] at hcopy
    simp only [buildArchive, lands_bind, lands_ask, lands_pure]
    refine ⟨_, d, d, lands_read.2 ⟨rfl, rfl⟩, (), _, lands_writeDocument.2 rfl, _, y, ?_, (), y,
      ⟨sourcesUnchanged_planned hcopyable (honly.trans (copyAll_lands hempty hcopy).1), rfl⟩, (), y,
      ⟨assertManifest_planned.2 hvalid, rfl⟩, (), _, lands_writeDocument.2 rfl, (), _,
      lands_writeDocument.2 rfl, rfl, rfl⟩
    rw [hnone]
    exact hcopy

theorem buildArchive_length (hl : (buildArchive h r st found name).Lands d m t) :
    (buildArchive h r st found name d).trace.length = (sources found d).length + 3 := by
  obtain ⟨d', _, hread, hl⟩ := lands_bind.1 hl
  obtain ⟨rfl, rfl⟩ := lands_read.1 hread
  obtain ⟨_, v, hv, hl⟩ := lands_bind.1 hl
  obtain ⟨entries, y, hcopy, hl⟩ := lands_bind.1 hl
  obtain ⟨_, y', hsame, hl⟩ := lands_bind.1 hl
  obtain ⟨_, y'', hassert, hl⟩ := lands_bind.1 hl
  obtain ⟨_, z, hz, hl⟩ := lands_bind.1 hl
  obtain ⟨_, z', hz', -⟩ := lands_bind.1 hl
  rw [buildArchive, trace_bind hread, trace_bind hv, trace_bind hcopy, trace_bind hsame,
    trace_bind hassert, trace_bind hz, trace_bind hz']
  have hask : ∀ (f : Disk → Except Refusal Unit) (u : Disk), (Program.ask f u).trace = [] :=
    fun _ _ => rfl
  have hpure : ∀ u : Disk, ((pure (manifestPayload st r found entries (absent found d)) :
      Program Disk Refusal Manifest) u).trace = [] := fun _ => rfl
  have hnothing : ((Program.read : Program Disk Refusal Disk) d).trace = [] := rfl
  simp only [List.length_append, trace_writeDocument, copyAll_length hcopy, hask, hpure,
    hnothing, List.length_nil, List.length_singleton]
  omega

theorem archiveRunUnder_lands {p : Manifest × Bool} :
    (archiveRunUnder deny h r st found name).Lands d p t ↔
      (archiveRun h r st found name).Lands d p t ∧
        ∀ n e, deny.archive = some (n, e) → (archiveRun h r st found name d).trace.length ≤ n := by
  unfold archiveRunUnder
  cases deny.archive with
  | none => exact ⟨fun hl => ⟨hl, fun _ _ he => nomatch he⟩, And.left⟩
  | some refused =>
    obtain ⟨n, e⟩ := refused
    dsimp only
    rw [lands_cut]
    constructor
    · rintro ⟨hle, hl⟩
      refine ⟨hl, fun n' e' he => ?_⟩
      obtain ⟨rfl, -⟩ := Prod.mk.inj (Option.some.inj he)
      exact hle
    · exact fun ⟨hl, hle⟩ => ⟨hle n e rfl, hl⟩

theorem archiveRun_build (hnone : d.archive name = none) {p : Manifest × Bool} :
    (archiveRun h r st found name).Lands d p t ↔
      (buildArchive h r st found name).Lands d p.1 t ∧ p.2 = false := by
  simp only [archiveRun, lands_bind, lands_read]
  constructor
  · rintro ⟨_, _, ⟨rfl, rfl⟩, hl⟩
    rw [hnone] at hl
    obtain ⟨m, u, hbuild, hl⟩ := lands_bind.1 hl
    obtain ⟨rfl, rfl⟩ := lands_pure.1 hl
    exact ⟨hbuild, rfl⟩
  · rintro ⟨hbuild, hfalse⟩
    refine ⟨d, d, ⟨rfl, rfl⟩, ?_⟩
    rw [hnone]
    exact lands_bind.2 ⟨p.1, t, hbuild, lands_pure.2 ⟨by rw [← hfalse], rfl⟩⟩

theorem archiveRun_existing {a : Archive} (ha : d.archive name = some a) {p : Manifest × Bool} :
    (archiveRun h r st found name).Lands d p t ↔
      a.complete = true ∧ verifyExisting h st.runId a = .ok p.1 ∧ p.2 = true ∧ t = d := by
  constructor
  · intro hl
    obtain ⟨-, ⟨b, hb, hcomplete, hverify⟩, -, hsame, -⟩ := archiveRun_lands (m := p.1) hl
    obtain rfl := hsame (by rw [ha]; exact Option.some_ne_none _)
    obtain rfl : a = b := Option.some.inj (ha.symm.trans hb)
    have hfound : (archiveRun h r st found name).Lands t (p.1, true) t :=
      archiveRun_found ha hcomplete hverify
    have htrue := hfound.1.symm.trans hl.1
    exact ⟨hcomplete, hverify, (congrArg Prod.snd (Except.ok.inj htrue)).symm, rfl⟩
  · rintro ⟨hcomplete, hverify, htrue, rfl⟩
    have hl : (archiveRun h r st found name).Lands t (p.1, true) t :=
      archiveRun_found ha hcomplete hverify
    rwa [← htrue] at hl

theorem archiveRun_build_length (hnone : d.archive name = none) {p : Manifest × Bool}
    (hl : (archiveRun h r st found name).Lands d p t) :
    (archiveRun h r st found name d).trace.length = (sources found d).length + 3 := by
  obtain ⟨hbuild, -⟩ := (archiveRun_build hnone).1 hl
  have hread : (Program.read : Program Disk Refusal Disk).Lands d d d := lands_read.2 ⟨rfl, rfl⟩
  rw [archiveRun, trace_bind hread, hnone]
  dsimp only
  rw [trace_bind hbuild, List.length_append, List.length_append, buildArchive_length hbuild]
  exact Nat.zero_add _

theorem archiveRun_existing_trace {a : Archive} (ha : d.archive name = some a)
    {p : Manifest × Bool} (hl : (archiveRun h r st found name).Lands d p t) :
    (archiveRun h r st found name d).trace = [] := by
  obtain ⟨hcomplete, hverify, -, -⟩ := (archiveRun_existing ha).1 hl
  have hread : (Program.read : Program Disk Refusal Disk).Lands d d d := lands_read.2 ⟨rfl, rfl⟩
  have hfirst : (Program.ask fun _ : Disk => require (a.complete = true)
      (Refusal.partialArchivePresent "tamamlanmamis arsiv dizini var")).Lands d () d :=
    ⟨require_true hcomplete, rfl⟩
  have hsecond : (Program.ask fun _ : Disk => verifyExisting h st.runId a).Lands d p.1 d :=
    ⟨hverify, rfl⟩
  rw [archiveRun, trace_bind hread, ha]
  dsimp only
  rw [trace_bind hfirst, trace_bind hsecond]
  rfl

/-- The archive stage goes through exactly from an archivable disk. -/
theorem archiveRunUnder_iff :
    (∃ p t, (archiveRunUnder deny h r st found
      (archiveNameFor st.runId st.state r.shippedCommit)).Lands d p t) ↔
        Archivable deny h r st found d := by
  simp only [archiveRunUnder_lands, Archivable]
  cases ha : d.archive (archiveNameFor st.runId st.state r.shippedCommit) with
  | some a =>
    constructor
    · rintro ⟨p, t, hl, -⟩
      obtain ⟨hcomplete, hverify, -, -⟩ := (archiveRun_existing ha).1 hl
      exact ⟨hcomplete, p.1, hverify⟩
    · rintro ⟨hcomplete, m, hverify⟩
      have hl : (archiveRun h r st found
          (archiveNameFor st.runId st.state r.shippedCommit)).Lands d (m, true) d :=
        (archiveRun_existing ha).2 ⟨hcomplete, hverify, rfl, rfl⟩
      exact ⟨_, _, hl, fun n e _ => by
        rw [archiveRun_existing_trace ha hl]
        exact Nat.zero_le n⟩
  | none =>
    constructor
    · rintro ⟨p, t, hl, hle⟩
      rw [archiveRun_build_length ha hl] at hle
      obtain ⟨-, hcopyable, hnodup, hvalid⟩ :=
        (buildArchive_iff ha).1 ⟨t, ((archiveRun_build ha).1 hl).1⟩
      exact ⟨hcopyable, hnodup, hvalid, hle⟩
    · rintro ⟨hcopyable, hnodup, hvalid, hle⟩
      obtain ⟨t, hbuild⟩ := (buildArchive_iff ha).2 ⟨rfl, hcopyable, hnodup, hvalid⟩
      have hl := (archiveRun_build (p := (_, false)) ha).2 ⟨hbuild, rfl⟩
      exact ⟨_, t, hl, by rwa [archiveRun_build_length ha hl]⟩

/-! ## The digests -/

theorem digestOf_none {files : List FileEntry} {n : List String}
    (hall : ∀ e ∈ files, e.name ≠ n) : digestOf files n = none := by
  have hnone : files.filter (fun e => e.name = n) = [] :=
    List.filter_eq_nil_iff.2 fun e he => by simpa using hall e he
  rw [digestOf, hnone]
  rfl

theorem digestOf_nodup {files : List FileEntry} {e : FileEntry}
    (hnodup : (files.map FileEntry.name).Nodup) (he : e ∈ files) :
    digestOf files e.name = some e.sha256 := by
  obtain ⟨digest, hdigest⟩ := Option.isSome_iff_exists.1 (digestOf_isSome he rfl)
  obtain ⟨e', he', hname, hsha⟩ := digestOf_mem hdigest
  rw [hdigest, ← hsha, List.inj_on_of_nodup_map hnodup he' he hname]

theorem mem_sources_stateFile {f : StateFile} :
    .stateFile f ∈ sources found d ↔ f ∈ archivedStateFiles ∧ (d.files f).isSome := by
  unfold sources
  cases found.holder <;> cases found.task <;> simp

theorem stateFile_name_injective : Function.Injective StateFile.name := by
  intro f g heq
  cases f <;> cases g <;> first | rfl | exact absurd heq (by decide)

theorem archiveName_stateFile {source : Source} {f : StateFile} :
    source.archiveName = ["state", f.name] ↔ source = .stateFile f := by
  cases source with
  | stateFile g => simp [Source.archiveName, stateFile_name_injective.eq_iff]
  | record w => simp [Source.archiveName]
  | owner w => simp [Source.archiveName]
  | candidate w path => simp [Source.archiveName]
  | task name => simp [Source.archiveName]

/-- The manifest that the removals go by has the archived digests. -/
theorem stateDigest_archived {p : Manifest × Bool}
    (hl : (archiveRun h r st found (archiveNameFor st.runId st.state r.shippedCommit)).Lands d
      p x) {f : StateFile} (hf : f ∈ archivedStateFiles) :
    stateDigest p.1 f = archivedDigest h r st d f := by
  unfold archivedDigest
  cases ha : d.archive (archiveNameFor st.runId st.state r.shippedCommit) with
  | some a =>
    obtain ⟨-, hverify, -, -⟩ := (archiveRun_existing ha).1 hl
    simp only [(verifyExisting_ok.1 hverify).1, Option.bind_some]
  | none =>
    obtain ⟨hplanned, hcopyable, hnodup, -⟩ :=
      (buildArchive_iff ha).1 ⟨x, ((archiveRun_build ha).1 hl).1⟩
    have hperm : p.1.files.Perm ((sources found d).map (entryOf h d)) := by
      rw [hplanned]
      exact List.perm_insertionSort _ _
    have hnames : (p.1.files.map FileEntry.name).Nodup := by
      refine (hperm.map _).nodup_iff.2 ?_
      rwa [List.map_map]
    cases hfile : d.files f with
    | none =>
      refine digestOf_none fun e he hname => ?_
      obtain ⟨source, hs, rfl⟩ := List.mem_map.1 (hperm.mem_iff.1 he)
      obtain rfl := archiveName_stateFile.1 hname
      have hsome := (mem_sources_stateFile.1 hs).2
      rw [hfile] at hsome
      cases hsome
    | some n =>
      have hs : .stateFile f ∈ sources found d :=
        mem_sources_stateFile.2 ⟨hf, by rw [hfile]; rfl⟩
      obtain ⟨b, hb, -⟩ := hcopyable _ hs
      have hnode : (Source.stateFile f).node d = some n := hfile
      obtain rfl := Option.some.inj (hnode.symm.trans hb)
      have hmem := hperm.mem_iff.2 (List.mem_map_of_mem (f := entryOf h d) hs)
      rw [entryOf_file hb] at hmem
      exact digestOf_nodup hnames hmem

end RagPipeline.Finalization
