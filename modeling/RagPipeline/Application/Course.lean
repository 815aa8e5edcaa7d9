import RagPipeline.Application.Rollback

/-! # The course of one application

A course fixes a candidate, a call and a checkout for which the plan and the
list of missing directories exist. Once the slots are staged and the
directories are made, its script can be undone from wherever it stands, it can
always take its next step, and at its end the checkout is the change set
applied to the checkout of the start. -/

set_option autoImplicit false

namespace RagPipeline.Application
open UndoLog

/-- The operator's checkout as `_apply` finds it, before a slot exists. -/
structure Checkout where
  tree : FileTree
  closed : Closed (view tree)
  noSlots : ∀ s, tree.lookup (.hold s) = none

structure Course [Host] (candidate : Candidate) (call : Call) (start : Checkout) where
  p : Plan
  directories : List Path
  planned : plan candidate start.tree call.reference = .ok p
  missing : missingDirectories start.tree p.wanted = .ok directories

section
variable [Host]

def stagedNode (implementer : FileTree) (change : Change) : Option Node :=
  match fileEvidence implementer change.path with
  | .ok (some e) => some (.file e.data (stagedMode change))
  | _ => none

def applyChange (implementer : FileTree) (f : View) (change : Change) : View :=
  Function.update f change.path
    (match change.kind with
    | .deleted => none
    | _ => stagedNode implementer change)

/-- The implementer's tree still has the file that the change names. -/
def Stageable (implementer : FileTree) (change : Change) : Prop :=
  ∃ e, fileEvidence implementer change.path = .ok (some e) ∧ e.sha256 = change.sha256

def StagedIn (implementer : FileTree) (t : FileTree) (slot : Slot) (change : Change) : Prop :=
  Stageable implementer change ∧ t.lookup (.hold slot) = stagedNode implementer change

theorem stagedNode_of {implementer : FileTree} {change : Change} {e : Evidence}
    (h : fileEvidence implementer change.path = .ok (some e)) :
    stagedNode implementer change = some (.file e.data (stagedMode change)) := by
  simp [stagedNode, h]

theorem stagedIn_evidence {implementer t : FileTree} {slot : Slot} {change : Change}
    (hc : Canonical change.path) (h : StagedIn implementer t slot change) :
    ∃ e, childEvidence t (.hold slot) = .ok (some e) ∧ e.sha256 = change.sha256 := by
  obtain ⟨⟨e, he, hsha⟩, hslot⟩ := h
  rw [stagedNode_of he] at hslot
  obtain ⟨-, hchild⟩ := evidenceOf_some (p := .repo change.path) hc he
  obtain ⟨-, hsize, hhash⟩ := childEvidence_some hchild
  exact ⟨_, childEvidence_file hslot hsize, hhash.symm.trans hsha⟩

variable {main reference implementer t t' : FileTree} {slot index : ℕ} {change : Change}
  {changes : List Change} {here p : Plan}

theorem view_place (hm : (placeMove slot index change).Canonical)
    (h : execute (placeMove slot index change) t = .ok t') :
    view t' = Function.update (view t) change.path (t.lookup (.hold (stagedSlot slot))) := by
  obtain ⟨-, -, -, e, hchild, -, rfl⟩ := (execute_ok hm).1 h
  obtain ⟨hfile, -, -⟩ := childEvidence_some hchild
  funext q
  rw [view_apply, Finmap.lookup_erase_ne (by simp [placeMove])]
  by_cases hq : q = change.path
  · subst hq
    simpa [placeMove] using hfile.symm
  · rw [Function.update_of_ne hq, Finmap.lookup_insert_of_ne _ (by simpa [placeMove] using hq)]
    rfl

theorem view_park {current : Evidence} (hm : (parkMove slot index change current).Canonical)
    (h : execute (parkMove slot index change current) t = .ok t') :
    view t' = Function.update (view t) change.path none := by
  obtain ⟨-, -, -, e, -, -, rfl⟩ := (execute_ok hm).1 h
  funext q
  by_cases hq : q = change.path
  · subst hq
    simp [parkMove]
  · rw [Function.update_of_ne hq, view_apply, Finmap.lookup_erase_ne (by simpa [parkMove] using hq),
      Finmap.lookup_insert_of_ne _ (by simp [parkMove])]
    rfl

theorem planChange_view (hc : Canonical change.path) (hs : slot < 10000)
    (h : planChange main reference slot index change = .ok here)
    (hstaged : ∀ s c, (s, c) ∈ here.staged → StagedIn implementer t s c)
    (hrun : runAll execute here.moves t = .ok t') :
    view t' = applyChange implementer (view t) change := by
  have hcanon : ∀ {q}, BlockPlace slot change q → q.Canonical := blockPlace_canonical hs hc
  have hplace : ∀ i, (placeMove slot i change).Canonical :=
    fun i => ⟨hcanon (.inr (.inl rfl)), hcanon (.inl rfl)⟩
  have hpark : ∀ i e, (parkMove slot i change e).Canonical :=
    fun i e => ⟨hcanon (.inl rfl), hcanon (.inr (.inr rfl))⟩
  obtain ⟨hk, -, rfl⟩ | ⟨current, hk, -, rfl⟩ | ⟨current, hk, -, rfl⟩ := planChange_cases hc h
  · obtain ⟨t₁, h₁, hend⟩ := bind_eq_ok.1 hrun
    obtain rfl := Except.ok.inj hend
    rw [view_place (hplace _) h₁, (hstaged _ change (by simp)).2]
    simp [applyChange, hk]
  · obtain ⟨t₁, h₁, hrun⟩ := bind_eq_ok.1 hrun
    obtain ⟨t₂, h₂, hend⟩ := bind_eq_ok.1 hrun
    obtain rfl := Except.ok.inj hend
    have hslot : t₁.lookup (.hold (stagedSlot slot)) = t.lookup (.hold (stagedSlot slot)) :=
      execute_frame (hpark _ _) h₁ (by simp [parkMove])
        (by simp [parkMove, stagedSlot, backupSlot])
    rw [view_place (hplace _) h₂, view_park (hpark _ _) h₁, hslot,
      (hstaged _ change (by simp)).2]
    simp [applyChange, hk]
  · obtain ⟨t₁, h₁, hend⟩ := bind_eq_ok.1 hrun
    obtain rfl := Except.ok.inj hend
    rw [view_park (hpark _ _) h₁]
    simp [applyChange, hk]

theorem planFrom_view (hc : ∀ c ∈ changes, Canonical c.path) (hs : slot + changes.length ≤ 10000)
    (h : planFrom main reference slot index changes = .ok p)
    (hstaged : ∀ s c, (s, c) ∈ p.staged → StagedIn implementer t s c)
    (hrun : runAll execute p.moves t = .ok t') :
    view t' = changes.foldl (applyChange implementer) (view t) := by
  induction changes generalizing slot index p t with
  | nil =>
    obtain rfl := Except.ok.inj h
    rw [Except.ok.inj hrun]
    rfl
  | cons change rest ih =>
    obtain ⟨here, later, hhere, hlater, rfl⟩ := planFrom_cons h
    have hrest : ∀ c ∈ rest, Canonical c.path := fun c hm => hc c (by simp [hm])
    have hslot : slot < 10000 := by
      simp at hs
      omega
    rw [runAll_append] at hrun
    obtain ⟨t₁, h₁, h₂⟩ := bind_eq_ok.1 hrun
    rw [List.foldl_cons, ← planChange_view (hc change (by simp)) hslot hhere
      (fun s c hm => hstaged s c (List.mem_append_left _ hm)) h₁]
    refine ih hrest (by simp at hs; omega) hlater (fun s c hm => ?_) h₂
    obtain ⟨hable, hnode⟩ := hstaged s c (List.mem_append_right _ hm)
    refine ⟨hable, hnode ▸ planChange_frame (hc change (by simp)) hslot hhere h₁ fun r hr => ?_⟩
    obtain ⟨i, -, rfl⟩ := planFrom_staged hrest hlater hm
    refine hold_ne ?_ hr
    simp [stagedSlot]
    omega

variable {candidate : Candidate} {call : Call} {start : Checkout}

namespace Course

def base (r : Course candidate call start) : Payload := registeredPayload call r.p r.directories

/-- The view once every planned directory is made. -/
def made (r : Course candidate call start) : View :=
  addDirectories r.directories (view start.tree)

/-- The view the complete application leaves. -/
def complete (r : Course candidate call start) : View :=
  candidate.changes.foldl (applyChange call.implementer) r.made

/-- The slots and the directories are there, and no move has run. -/
structure Ready (r : Course candidate call start) (t : FileTree) : Prop where
  made : view t = r.made
  staged : ∀ s c, (s, c) ∈ r.p.staged → StagedIn call.implementer t s c
  backups : ∀ s, s.letter = 'b' → t.lookup (.hold s) = none

variable (r : Course candidate call start)

theorem missing_ok : Missing (view start.tree) r.directories r.p.wanted :=
  missingDirectories_ok start.closed r.missing

theorem outermost : Outermost (view start.tree) r.directories := r.missing_ok.outermost

theorem directory_above {d : Path} (hd : d ∈ r.directories) :
    ∃ c ∈ candidate.changes, d <+: c.path.dropLast := by
  obtain ⟨w, hw, hp⟩ := r.missing_ok.wanted_of_mem d hd
  obtain ⟨c, hc, rfl⟩ := planFrom_wanted candidate.canonical r.planned hw
  exact ⟨c, hc, hp⟩

theorem directories_canonical {d : Path} (hd : d ∈ r.directories) : Canonical d := by
  obtain ⟨c, hc, hp⟩ := r.directory_above hd
  exact canonical_above (candidate.canonical c hc) (hp.trans (List.dropLast_prefix c.path))
    (outermost_mem r.outermost hd).1

/-- A target is not one of the directories that are made. -/
theorem target_not_made {c : Change} (hc : c ∈ candidate.changes) : c.path ∉ r.directories := by
  intro hmem
  obtain ⟨d, hd, hp⟩ := r.directory_above hmem
  by_cases hcd : c = d
  · subst hcd
    have hne := canonical_ne_nil (candidate.canonical c hc)
    have h₁ := hp.length_le
    have h₂ := List.length_pos_iff.2 hne
    simp at h₁
    omega
  · have : Std.Symm Apart := ⟨fun _ _ h => ⟨h.2, h.1⟩⟩
    have hap : Apart c d := List.Pairwise.forall (R := Apart) candidate.apart hc hd hcd
    exact hap.1 (hp.trans (List.dropLast_prefix d.path))

theorem made_of_directory {q : Path} (h : view start.tree q = some .dir) :
    r.made q = some .dir := by
  simp only [made, addDirectories_apply, h, ite_self]

theorem made_wanted {w q : Path} (hw : w ∈ r.p.wanted) (hq : q ≠ []) (hp : q <+: w) :
    r.made q = some .dir := by
  rcases r.missing_ok.covers w hw q hq hp with h | h
  · simp [made, addDirectories_apply, h]
  · exact r.made_of_directory h

/-- What the plan saw at a target is still there once the directories are. -/
theorem sees {t : FileTree} (ht : view t = r.made) {c : Change} (hc : c ∈ candidate.changes)
    {found : Option Evidence} (h : evidenceOf start.tree (.repo c.path) = .ok found) :
    evidenceOf t (.repo c.path) = .ok found := by
  have hcanon := candidate.canonical c hc
  have hpath : t.lookup (.repo c.path) = start.tree.lookup (.repo c.path) := by
    have := congrFun ht c.path
    rwa [view_apply, made, addDirectories_apply, if_neg (r.target_not_made hc)] at this
  cases found with
  | some e =>
    obtain ⟨hopen, hchild⟩ := evidenceOf_some (p := .repo c.path) hcanon h
    have hopen' : Open t (.repo c.path) := fun q hq hp => by
      rw [← view_apply, ht]
      exact r.made_of_directory (hopen q hq hp)
    exact (evidenceOf_open (p := .repo c.path) hcanon hopen').trans ((childEvidence_congr hpath).trans hchild)
  | none =>
    have hwanted := planFrom_seen_none candidate.canonical r.planned hc h
    have hopen' : Open t (.repo c.path) := fun q hq hp => by
      rw [← view_apply, ht]
      exact r.made_wanted hwanted hq hp
    refine (evidenceOf_open (p := .repo c.path) hcanon hopen').trans (childEvidence_none ?_)
    rw [hpath]
    exact lookup_of_seen_none start.closed hcanon h

theorem ready_slots {t : FileTree} (ht : r.Ready t) : SlotsReady t r.p := by
  refine ⟨fun s c hm => ?_, fun m hm s hs => ht.backups s ?_⟩
  · obtain ⟨i, hi, -⟩ := planFrom_staged candidate.canonical r.planned hm
    exact stagedIn_evidence (candidate.canonical c (List.mem_of_getElem? hi)) (ht.staged s c hm)
  · exact planFrom_backup candidate.canonical r.planned hm hs

theorem moves_canonical {m : Move} (hm : m ∈ r.p.moves) : m.Canonical :=
  plan_canonical r.planned hm

theorem announceable {t : FileTree} (ht : r.Ready t) :
    Announceable execute Pending r.p.moves t :=
  plan_announceable r.planned (fun _ hc _ h => r.sees ht.made hc h) (r.ready_slots ht)

theorem targets_open {t : FileTree} (ht : view t = r.made) {m : Move} (hm : m ∈ r.p.moves) :
    Open t m.toPlace :=
  planFrom_open candidate.canonical candidate.slots_bounded r.planned
    (fun _ hw q hq hp => (congrFun ht q).trans (r.made_wanted hw hq hp))
    (fun q hq => (congrFun ht q).trans (r.made_of_directory hq)) hm

/-- Every prefix of the script runs, and leaves every target's directory. -/
theorem progress {t : FileTree} (ht : r.Ready t) (k : ℕ) :
    ∃ t', runAll execute (r.p.moves.take k) t = .ok t' ∧
      ∀ m ∈ r.p.moves, Open t' m.toPlace := by
  have hann := r.announceable ht
  rw [← List.take_append_drop k r.p.moves, announceable_append] at hann
  refine runAll_announceable (I := fun t => ∀ m ∈ r.p.moves, Open t m.toPlace) hann.1
    (fun m hm => r.targets_open ht.made hm) fun m hm t₁ hpend hopen => ?_
  have hmem := List.mem_of_mem_take hm
  have hcanon := r.moves_canonical hmem
  obtain ⟨t₂, h₂⟩ := execute_pending hcanon hpend (hopen m hmem)
  obtain ⟨-, -, hvacant, e, hchild, -, rfl⟩ := (execute_ok hcanon).1 h₂
  exact ⟨_, h₂, fun n hn => open_rename (childEvidence_some hchild).1 hvacant (hopen n hn)⟩

theorem complete_view {t t' : FileTree} (ht : r.Ready t)
    (h : runAll execute r.p.moves t = .ok t') : view t' = r.complete := by
  rw [planFrom_view candidate.canonical candidate.slots_bounded r.planned ht.staged h, ht.made]
  rfl

end Course

end

end RagPipeline.Application
