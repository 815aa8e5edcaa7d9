import RagPipeline.Finalization.Finalize

/-! # What the removals need and what they leave

Each removal is described twice: by when it ends normally and in which state,
and by every state in which its process may die. -/

set_option autoImplicit false

namespace RagPipeline.Finalization
open Guard Effects Program

variable {h : Host} {d t : Disk} {m : Manifest} {w : String}

/-- Nothing but the state documents differs, and no document is new. -/
def Fewer (d t : Disk) : Prop :=
  ∃ files, t = { d with files := files } ∧ ∀ f, files f = d.files f ∨ files f = none

theorem Fewer.refl (d : Disk) : Fewer d d := ⟨d.files, rfl, fun _ => .inl rfl⟩

theorem Fewer.trans {d t u : Disk} (h : Fewer d t) (h' : Fewer t u) : Fewer d u := by
  obtain ⟨files, rfl, hfiles⟩ := h
  obtain ⟨files', rfl, hfiles'⟩ := h'
  refine ⟨files', rfl, fun f => ?_⟩
  rcases hfiles' f with hf | hf
  · rcases hfiles f with hf' | hf'
    · exact .inl (hf.trans hf')
    · exact .inr (hf.trans hf')
  · exact .inr hf

theorem fewer_setFile (d : Disk) (f : StateFile) : Fewer d (d.setFile f none) := by
  refine ⟨_, rfl, fun g => ?_⟩
  by_cases hg : g = f
  · subst hg
    exact .inr (Function.update_self _ _ _)
  · exact .inl (Function.update_of_ne hg _ _)

/-- The document can be unlinked against this digest. -/
def Unlinkable (h : Host) (m : Manifest) (d : Disk) (f : StateFile) : Prop :=
  ∀ expected, stateDigest m f = some expected →
    ∃ present, assertUnlinkable h expected (d.files f) = .ok present

theorem lands_unlinkVerified {f : StateFile} {expected : String} :
    (∃ gone, (unlinkVerified h f expected).Lands d gone t) ↔
      (∃ present, assertUnlinkable h expected (d.files f) = .ok present) ∧
        t = d.setFile f none := by
  have habsent : ∀ present, assertUnlinkable h expected (d.files f) = .ok present →
      present = false → d.files f = none := by
    intro present hp hfalse
    cases hn : d.files f with
    | none => rfl
    | some n =>
      cases n with
      | other => simp [assertUnlinkable, hn] at hp
      | file b =>
        simp only [assertUnlinkable, hn, bind_ok, exists_unit, pure_ok] at hp
        rw [hfalse] at hp
        exact absurd hp.2.2 (by decide)
  have hsame : d.files f = none → d = d.setFile f none := by
    intro hn
    rw [Disk.setFile, ← hn, Function.update_eq_self]
  simp only [unlinkVerified, lands_bind, lands_ask]
  constructor
  · rintro ⟨gone, present, u, ⟨hp, rfl⟩, hlands⟩
    refine ⟨⟨present, hp⟩, ?_⟩
    cases present with
    | true =>
      simp only [if_true, lands_bind, lands_pure] at hlands
      obtain ⟨_, v, hv, -, rfl⟩ := hlands
      exact (Except.ok.inj (lands_commit.1 hv)).symm
    | false =>
      simp only [Bool.false_eq_true, if_false, lands_pure] at hlands
      exact hlands.2.symm.trans (hsame (habsent false hp rfl))
  · rintro ⟨⟨present, hp⟩, rfl⟩
    cases present with
    | true =>
      refine ⟨true, true, d, ⟨hp, rfl⟩, ?_⟩
      simp only [if_true, lands_bind]
      exact ⟨(), _, lands_commit.2 rfl, lands_pure.2 ⟨rfl, rfl⟩⟩
    | false =>
      refine ⟨false, false, d, ⟨hp, rfl⟩, ?_⟩
      simp only [Bool.false_eq_true, if_false]
      exact lands_pure.2 ⟨rfl, hsame (habsent false hp rfl)⟩

theorem crashes_unlinkVerified {f : StateFile} {expected : String} :
    (unlinkVerified h f expected).Ensures d (fun t => t = d.setFile f none)
      (fun _ t => t = d ∨ t = d.setFile f none) (fun _ _ => True) := by
  refine ensures_bind (ensures_ask (Q := fun _ t => t = d) _ (fun _ _ => rfl)
    fun _ _ => trivial) ?_
  intro present u hu
  rw [hu]
  cases present with
  | true =>
    refine ensures_bind (R := fun _ t => t = d.setFile f none) (ensures_commit _ ?_ ?_) ?_
    · intro s' hs'
      have heq := (Except.ok.inj hs').symm
      exact ⟨heq, heq⟩
    · exact fun _ _ => trivial
    · intro _ t ht
      exact ensures_return _ (.inr ht)
  | false => exact ensures_return _ (.inl rfl)

/-- The disk without the documents of the list that the archive covers. -/
def dropped (m : Manifest) (list : List StateFile) (d : Disk) : Disk :=
  { d with files := fun f =>
      if f ∈ list ∧ (stateDigest m f).isSome then none else d.files f }

theorem lands_unlinkAll {list : List StateFile} (hnodup : list.Nodup) :
    (∃ removed, (unlinkAll h m list).Lands d removed t) ↔
      (∀ f ∈ list, Unlinkable h m d f) ∧ t = dropped m list d := by
  induction list generalizing d with
  | nil =>
    simp only [unlinkAll, lands_pure, List.not_mem_nil, false_implies, implies_true, true_and]
    constructor
    · rintro ⟨_, -, rfl⟩
      simp [dropped]
    · rintro rfl
      exact ⟨[], rfl, by simp [dropped]⟩
  | cons f rest ih =>
    obtain ⟨hf, hrest⟩ := List.nodup_cons.1 hnodup
    cases hdigest : stateDigest m f with
    | none =>
      have hdrop : dropped m (f :: rest) d = dropped m rest d := by
        unfold dropped
        congr 1
        funext g
        by_cases hg : g = f
        · subst hg
          simp [hdigest]
        · simp [hg]
      simp only [unlinkAll, hdigest, ih hrest, hdrop, List.mem_cons, forall_eq_or_imp]
      have hfree : Unlinkable h m d f := fun _ he => by simp [hdigest] at he
      exact ⟨fun ⟨ha, hb⟩ => ⟨⟨hfree, ha⟩, hb⟩, fun ⟨⟨_, ha⟩, hb⟩ => ⟨ha, hb⟩⟩
    | some expected =>
      have hdrop : dropped m rest (d.setFile f none) = dropped m (f :: rest) d := by
        unfold dropped Disk.setFile
        congr 1
        funext g
        by_cases hg : g = f
        · subst hg
          simp [hdigest]
        · simp [hg]
      have hother : (∀ g ∈ rest, Unlinkable h m (d.setFile f none) g) ↔
          ∀ g ∈ rest, Unlinkable h m d g := by
        refine forall₂_congr fun g hg => ?_
        have hne : g ≠ f := fun he => hf (he ▸ hg)
        simp [Unlinkable, Disk.setFile, hne]
      have hfirst : Unlinkable h m d f ↔
          ∃ present, assertUnlinkable h expected (d.files f) = .ok present :=
        ⟨fun hu => hu expected hdigest, fun hu e he => by
          rw [hdigest] at he
          exact Option.some.inj he ▸ hu⟩
      simp only [unlinkAll, hdigest, lands_bind, lands_pure, List.mem_cons, forall_eq_or_imp,
        hfirst, ← hother, ← hdrop]
      constructor
      · rintro ⟨_, gone, u, hgone, removed, v, hremoved, -, rfl⟩
        obtain ⟨hpresent, rfl⟩ := lands_unlinkVerified.1 ⟨gone, hgone⟩
        obtain ⟨hall, rfl⟩ := (ih hrest).1 ⟨removed, hremoved⟩
        exact ⟨⟨hpresent, hall⟩, rfl⟩
      · rintro ⟨⟨hpresent, hall⟩, rfl⟩
        obtain ⟨gone, hgone⟩ := lands_unlinkVerified.2 ⟨hpresent, rfl⟩
        obtain ⟨removed, hremoved⟩ := (ih hrest).2 ⟨hall, rfl⟩
        exact ⟨_, gone, _, hgone, removed, _, hremoved, rfl, rfl⟩

theorem crashes_unlinkAll {list : List StateFile} :
    (unlinkAll h m list).Ensures d (Fewer d) (fun _ => Fewer d) (fun _ _ => True) := by
  induction list generalizing d with
  | nil => exact ensures_return _ (.refl d)
  | cons f rest ih =>
    unfold unlinkAll
    split
    case h_1 => exact ih
    case h_2 expected hdigest =>
      refine ensures_bind (R := fun _ t => Fewer d t)
        (ensures_mono crashes_unlinkVerified ?_ ?_ fun _ _ _ => trivial) ?_
      · rintro t rfl
        exact fewer_setFile d f
      · rintro _ t (rfl | rfl)
        · exact .refl _
        · exact fewer_setFile d f
      · intro gone t ht
        refine ensures_bind (ensures_mono ih (fun u hu => ht.trans hu)
          (R := fun _ => Fewer d) (fun _ u hu => ht.trans hu) fun _ _ _ => trivial) ?_
        intro removed u hu
        exact ensures_return _ hu

/-- The state document goes first: whatever else is gone, it is gone. -/
theorem crashes_unlinkAll_state {list : List StateFile} {expected : String}
    (hdigest : stateDigest m .state = some expected) :
    (unlinkAll h m (.state :: list)).Ensures d (fun t => Fewer d t ∧ t.files .state = none)
      (fun _ t => Fewer d t ∧ t.files .state = none) (fun _ _ => True) := by
  unfold unlinkAll
  rw [hdigest]
  have hgone : (d.setFile .state none).files .state = none := by simp [Disk.setFile]
  refine ensures_bind (R := fun _ t => Fewer d t ∧ t.files .state = none)
    (?_ : (unlinkVerified h .state expected).Ensures d _ _ _) ?_
  · have hfirst : (unlinkVerified h .state expected).Ensures d
        (fun t => Fewer d t ∧ t.files .state = none)
        (fun _ t => t = d ∨ t = d.setFile .state none) (fun _ _ => True) := by
      refine ensures_mono crashes_unlinkVerified ?_ (fun _ _ ht => ht) fun _ _ _ => trivial
      rintro t rfl
      exact ⟨fewer_setFile d _, hgone⟩
    refine ⟨hfirst.1, ?_⟩
    cases hr : (unlinkVerified h .state expected d).result with
    | error e => trivial
    | ok gone =>
      obtain ⟨-, hstate⟩ := lands_unlinkVerified.1 ⟨gone, lands_of_result hr⟩
      exact hstate ▸ ⟨fewer_setFile d _, hgone⟩
  · rintro gone t ⟨ht, hnone⟩
    have hstays : ∀ u, Fewer t u → Fewer d u ∧ u.files .state = none := by
      intro u hu
      refine ⟨ht.trans hu, ?_⟩
      obtain ⟨files, rfl, hfiles⟩ := hu
      rcases hfiles .state with hf | hf
      · exact hf.trans hnone
      · exact hf
    refine ensures_bind (R := fun _ t => Fewer d t ∧ t.files .state = none)
      (ensures_mono crashes_unlinkAll hstays (fun _ => hstays) fun _ _ _ => trivial) ?_
    exact fun _ _ hu => ensures_return _ hu

theorem setHolder_setHolder (o o' : Option Holder) :
    (d.setHolder w o).setHolder w o' = d.setHolder w o' := by
  simp [Disk.setHolder, Function.update_idem]

theorem lands_removeTree {holder : Holder} :
    (removeTree w holder).Lands d () t ↔ t = d.setHolder w none := by
  induction holder generalizing d with
  | nil =>
    simp only [removeTree, lands_commit, Except.ok.injEq]
    exact eq_comm
  | cons e rest ih =>
    simp only [removeTree, lands_bind]
    constructor
    · rintro ⟨_, u, hu, ht⟩
      obtain rfl := Except.ok.inj (lands_commit.1 hu)
      rw [ih, setHolder_setHolder] at ht
      exact ht
    · rintro rfl
      refine ⟨(), _, lands_commit.2 rfl, ?_⟩
      rw [ih, setHolder_setHolder]

theorem crashes_removeTree {holder : Holder} :
    (removeTree w holder).Ensures d (fun t => ∃ o, t = d.setHolder w o)
      (fun _ t => t = d.setHolder w none) (fun _ _ => True) := by
  induction holder generalizing d with
  | nil =>
    refine ensures_commit _ ?_ fun _ _ => trivial
    intro s' hs'
    have heq := (Except.ok.inj hs').symm
    exact ⟨⟨none, heq⟩, heq⟩
  | cons e rest ih =>
    refine ensures_bind (R := fun _ t => t = d.setHolder w (some rest)) (ensures_commit _ ?_ ?_) ?_
    · intro s' hs'
      have heq := (Except.ok.inj hs').symm
      exact ⟨⟨_, heq⟩, heq⟩
    · exact fun _ _ => trivial
    · rintro _ t rfl
      refine ensures_mono ih ?_ ?_ fun _ _ _ => trivial
      · rintro u ⟨o, rfl⟩
        exact ⟨o, setHolder_setHolder _ _⟩
      · rintro _ u rfl
        exact setHolder_setHolder _ _

/-- The disk without the workspace and its record. -/
def released (w : String) (d : Disk) : Disk := (d.setHolder w none).dropRecord (recordName w)

theorem lands_removeWorkspace :
    (removeWorkspace h w).Lands d () t ↔
      (∃ holder, assertRemovable h w d = .ok holder) ∧ t = released w d := by
  simp only [removeWorkspace, lands_bind, lands_ask]
  constructor
  · rintro ⟨holder, u, ⟨hholder, rfl⟩, _, v, hv, ht⟩
    obtain rfl := lands_removeTree.1 hv
    exact ⟨⟨holder, hholder⟩, (Except.ok.inj (lands_commit.1 ht)).symm⟩
  · rintro ⟨⟨holder, hholder⟩, rfl⟩
    exact ⟨holder, d, ⟨hholder, rfl⟩, (), _, lands_removeTree.2 rfl, lands_commit.2 rfl⟩

theorem crashes_removeWorkspace :
    (removeWorkspace h w).Ensures d (fun t => (∃ o, t = d.setHolder w o) ∨ t = released w d)
      (fun _ t => t = released w d) (fun _ _ => True) := by
  refine ensures_bind (ensures_ask (Q := fun _ t => t = d) _ (fun _ _ => rfl)
    fun _ _ => trivial) ?_
  intro holder u hu
  rw [hu]
  refine ensures_bind (ensures_mono crashes_removeTree (fun _ ht => .inl ht) (fun _ _ ht => ht)
    fun _ _ _ => trivial) ?_
  rintro _ t rfl
  refine ensures_commit _ ?_ fun _ _ => trivial
  intro s' hs'
  have heq := (Except.ok.inj hs').symm
  exact ⟨.inr heq, heq⟩

def TaskRemovable (h : Host) (task : Task) (d : Disk) : Prop :=
  ∃ b, sourceBytes "gorev dosyasi" d.task = .ok b ∧ h.sha256 b = task.digest

theorem lands_removeTask {task : Task} :
    (removeTask h task).Lands d () t ↔ TaskRemovable h task d ∧ t = d.setTask none := by
  simp only [removeTask, lands_bind, lands_ask, require_ok]
  constructor
  · rintro ⟨b, u, ⟨hb, rfl⟩, _, v, ⟨hsha, rfl⟩, ht⟩
    exact ⟨⟨b, hb, hsha⟩, (Except.ok.inj (lands_commit.1 ht)).symm⟩
  · rintro ⟨⟨b, hb, hsha⟩, rfl⟩
    exact ⟨b, d, ⟨hb, rfl⟩, (), d, ⟨hsha, rfl⟩, lands_commit.2 rfl⟩

theorem crashes_removeTask {task : Task} :
    (removeTask h task).Ensures d (fun t => t = d.setTask none) (fun _ t => t = d.setTask none)
      (fun _ _ => True) := by
  refine ensures_bind (ensures_ask (Q := fun _ t => t = d) _ (fun _ _ => rfl)
    fun _ _ => trivial) ?_
  intro b u hu
  rw [hu]
  refine ensures_bind (ensures_ask (Q := fun _ t => t = d) _ (fun _ _ => rfl)
    fun _ _ => trivial) ?_
  intro _ v hv
  rw [hv]
  refine ensures_commit _ ?_ fun _ _ => trivial
  intro s' hs'
  have heq := (Except.ok.inj hs').symm
  exact ⟨heq, heq⟩

def releasedBy : Option (String × Holder) → Disk → Disk
  | some (w, _), d => released w d
  | none, d => d

def withoutTask : Option Task → Disk → Disk
  | some _, d => d.setTask none
  | none, d => d

/-- Everything that may be removed can be removed. -/
structure Cleanable (h : Host) (found : Findings) (m : Manifest) (d : Disk) : Prop where
  workspace : ∀ e ∈ found.holder, ∃ holder, assertRemovable h e.1 d = .ok holder
  documents : ∀ f ∈ removableStateFiles, Unlinkable h m d f
  task : ∀ task ∈ found.task, TaskRemovable h task d

/-- The disk after the removals. -/
def cleared (found : Findings) (m : Manifest) (d : Disk) : Disk :=
  withoutTask found.task (dropped m removableStateFiles (releasedBy found.holder d))

theorem lands_releaseWorkspace {o : Option (String × Holder)} :
    (releaseWorkspace h o).Lands d () t ↔
      (∀ e ∈ o, ∃ holder, assertRemovable h e.1 d = .ok holder) ∧ t = releasedBy o d := by
  cases o with
  | none =>
    simp only [releaseWorkspace, lands_pure, releasedBy]
    exact ⟨fun hl => ⟨fun e he => (nomatch he), hl.2.symm⟩, fun hl => ⟨trivial, hl.2.symm⟩⟩
  | some e => simpa [releaseWorkspace, releasedBy] using lands_removeWorkspace (w := e.1)

theorem lands_releaseTask {o : Option Task} :
    (releaseTask h o).Lands d () t ↔ (∀ task ∈ o, TaskRemovable h task d) ∧ t = withoutTask o d := by
  cases o with
  | none =>
    simp only [releaseTask, lands_pure, withoutTask]
    exact ⟨fun hl => ⟨fun e he => (nomatch he), hl.2.symm⟩, fun hl => ⟨trivial, hl.2.symm⟩⟩
  | some task => simpa [releaseTask, withoutTask] using lands_removeTask

theorem files_releasedBy (o : Option (String × Holder)) : (releasedBy o d).files = d.files := by
  cases o <;> rfl

theorem task_releasedBy (o : Option (String × Holder)) : (releasedBy o d).task = d.task := by
  cases o <;> rfl

theorem lands_cleanup {found : Findings} :
    (∃ removed, (cleanup h found m).Lands d removed t) ↔
      Cleanable h found m d ∧ t = cleared found m d := by
  have hnodup : removableStateFiles.Nodup := by decide
  have hdocuments : ∀ f, Unlinkable h m (releasedBy found.holder d) f ↔ Unlinkable h m d f := by
    intro f
    rw [Unlinkable, files_releasedBy]
    rfl
  have htask : ∀ task, TaskRemovable h task
      (dropped m removableStateFiles (releasedBy found.holder d)) ↔ TaskRemovable h task d := by
    intro task
    rw [TaskRemovable, dropped, task_releasedBy]
    rfl
  simp only [cleanup, lands_bind]
  constructor
  · rintro ⟨removed, _, x, hx, list, y, hy, _, z, hz, hend⟩
    obtain ⟨hworkspace, rfl⟩ := lands_releaseWorkspace.1 hx
    obtain ⟨hall, rfl⟩ := (lands_unlinkAll hnodup).1 ⟨list, hy⟩
    obtain ⟨hremovable, rfl⟩ := lands_releaseTask.1 hz
    obtain ⟨-, rfl⟩ := lands_pure.1 hend
    exact ⟨⟨hworkspace, fun f hf => (hdocuments f).1 (hall f hf),
      fun task ht => (htask task).1 (hremovable task ht)⟩, rfl⟩
  · rintro ⟨hc, rfl⟩
    obtain ⟨list, hy⟩ := (lands_unlinkAll (d := releasedBy found.holder d) (h := h) (m := m)
      hnodup).2 ⟨fun f hf => (hdocuments f).2 (hc.documents f hf), rfl⟩
    exact ⟨list, (), _, lands_releaseWorkspace.2 ⟨hc.workspace, rfl⟩, list, _, hy, (), _,
      lands_releaseTask.2 ⟨fun task ht => (htask task).2 (hc.task task ht), rfl⟩,
      lands_pure.2 ⟨rfl, rfl⟩⟩

/-- Where a death during the removals leaves the disk: within the workspace,
or past the state document. -/
def CutShort (found : Findings) (d t : Disk) : Prop :=
  (∃ e ∈ found.holder, (∃ o, t = d.setHolder e.1 o) ∨ t = released e.1 d) ∨
    t.archives = d.archives ∧ t.files .state = none

theorem crashes_cleanup {found : Findings} {expected : String}
    (hdigest : stateDigest m .state = some expected) :
    (cleanup h found m).Ensures d (CutShort found d) (fun _ _ => True) (fun _ _ => True) := by
  refine ensures_bind (R := fun _ t => t.archives = d.archives) ?_ ?_
  · cases hholder : found.holder with
    | none => exact ensures_return _ rfl
    | some e =>
      refine ensures_mono (crashes_removeWorkspace (w := e.1)) ?_ ?_ fun _ _ _ => trivial
      · exact fun t ht => .inl ⟨e, hholder, ht⟩
      · rintro _ t rfl
        rfl
  intro _ x hx
  refine ensures_bind (R := fun _ t => t.archives = d.archives ∧ t.files .state = none)
    (ensures_mono (crashes_unlinkAll_state hdigest) ?_ ?_ fun _ _ _ => trivial) ?_
  · rintro t ⟨⟨files, rfl, -⟩, hnone⟩
    exact .inr ⟨hx, hnone⟩
  · rintro _ t ⟨⟨files, rfl, -⟩, hnone⟩
    exact ⟨hx, hnone⟩
  rintro list y ⟨harchives, hnone⟩
  refine ensures_bind (R := fun _ _ => True) ?_ fun _ _ _ => ensures_return _ trivial
  cases found.task with
  | none => exact ensures_return _ trivial
  | some task =>
    refine ensures_mono crashes_removeTask ?_ (fun _ _ _ => trivial) fun _ _ _ => trivial
    rintro t rfl
    exact .inr ⟨harchives, hnone⟩

end RagPipeline.Finalization
