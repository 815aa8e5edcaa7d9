import RagPipeline.Application.Foreign
import RagPipeline.Application.Course
import RagPipeline.Lib.Guard

/-! # Whose directories a rollback removes

`_rollback` goes by the journal, and the journal lists what was missing when
the plan was made. As long as nobody else makes one of these directories, one
that stands is one the application made, through every refusal, every death of
the process and every recovery. -/

set_option autoImplicit false

namespace RagPipeline.Application.Foreign
open Processes
open Guard (map_ok)

variable {s u v : Site} {ds : List Path} {payload : Payload}

/-- Another process makes a directory. -/
def Makes (path : Path) (s u : Site) : Prop :=
  path ≠ [] ∧ s.process.disk.tree.lookup (.repo path) = none ∧
    (path.dropLast = [] ∨ s.process.disk.tree.lookup (.repo path.dropLast) = some .dir) ∧
    u = { s with process := s.process.withTree (s.process.disk.tree.insert (.repo path) .dir) }

def others (s u : Site) : Prop := ∃ path, Makes path s u

/-- Another process makes a directory, and not one of those found missing. -/
def elsewhere (s u : Site) : Prop := ∃ path, path ∉ s.planned ∧ Makes path s u

def initialSite (start : Checkout) : Site :=
  ⟨⟨⟨start.tree, false, false, none⟩, none, false⟩, [], [], []⟩

/-- A new process on what is left. -/
def Site.reboot (s : Site) : Site := { s with process := ⟨s.process.disk, none, false⟩ }

/-- What an application and its recoveries pass through, each of which may die. -/
inductive Reached [Host] (rely : Site → Site → Prop) (candidate : Candidate) (call : Call)
    (start : Checkout) : Site → Prop where
  | apply {s : Site} : Reaches rely (apply candidate call).run (initialSite start) s →
      Reached rely candidate call start s
  | recover {s u : Site} (repoId applicationId : String) : Reached rely candidate call start s →
      Reaches rely (recover repoId applicationId).run s.reboot u →
      Reached rely candidate call start u

/-! ## The plan -/

/-- Before the journal: what was found missing is missing. -/
structure Untouched (s : Site) : Prop where
  closed : Closed (view s.process.disk.tree)
  missing : ∀ d ∈ s.planned, s.process.disk.tree.lookup (.repo d) = none
  made : s.made = []
  removed : s.removed = []
  journal : s.process.disk.journal = none
  payload : s.process.payload = none

theorem Makes.lookup {path q : Path} (h : Makes path s u) (hq : q ≠ path) :
    u.process.disk.tree.lookup (.repo q) = s.process.disk.tree.lookup (.repo q) := by
  obtain ⟨-, -, -, rfl⟩ := h
  exact Finmap.lookup_insert_of_ne _ fun heq => hq (Place.repo.inj heq)

theorem Makes.closed {path : Path} (h : Makes path s u) (hs : Closed (view s.process.disk.tree)) :
    Closed (view u.process.disk.tree) := by
  have hself : u.process.disk.tree.lookup (.repo path) = some .dir := by
    obtain ⟨-, -, -, rfl⟩ := h
    exact Finmap.lookup_insert _
  refine ⟨?_, fun q name hq hne => ?_⟩
  · rw [view_apply, h.lookup (Ne.symm h.1)]
    exact hs.root
  · by_cases hqpath : q = path
    · rw [hqpath]
      exact hself
    · rw [view_apply, h.lookup hqpath]
      by_cases hnew : q ++ [name] = path
      · obtain ⟨-, -, hparent, -⟩ := h
        rw [← hnew, List.dropLast_concat] at hparent
        exact hparent.resolve_left hne
      · rw [view_apply, h.lookup hnew] at hq
        exact hs.parent q name hq hne

theorem untouched_stable : Stable elsewhere Untouched := by
  rintro s u hs ⟨path, hpath, h⟩
  have hclosed := h.closed hs.closed
  have hlookup : ∀ d ∈ s.planned, u.process.disk.tree.lookup (.repo d) = none := by
    intro d hd
    rw [h.lookup fun heq => hpath (heq ▸ hd)]
    exact hs.missing d hd
  obtain ⟨-, -, -, rfl⟩ := h
  exact ⟨hclosed, hlookup, hs.made, hs.removed, hs.journal, hs.payload⟩

/-- The list so far: canonical, and on record. -/
def Finding (missing : List Path) (s : Site) : Prop :=
  Untouched s ∧ ∀ d ∈ missing, d ∈ s.planned ∧ Canonical d

theorem finding_stable (missing : List Path) : Stable elsewhere (Finding missing) := by
  rintro s u ⟨hs, hmissing⟩ hrely
  refine ⟨untouched_stable s u hs hrely, fun d hd => ?_⟩
  obtain ⟨path, -, -, -, -, rfl⟩ := hrely
  exact hmissing d hd

/-- One more directory that is missing goes on record. -/
theorem Finding.record {missing : List Path} {here : Path} (h : Finding missing s)
    (hcanonical : Canonical here) (hnone : s.process.disk.tree.lookup (.repo here) = none) :
    Finding (missing ++ [here]) { s with planned := s.planned ++ [here] } := by
  obtain ⟨hs, hmissing⟩ := h
  constructor
  · refine ⟨hs.closed, fun d hd => ?_, hs.made, hs.removed, hs.journal, hs.payload⟩
    obtain hd | hd := List.mem_append.1 hd
    · exact hs.missing d hd
    · rw [List.mem_singleton.1 hd]
      exact hnone
  · intro d hd
    obtain hd | hd := List.mem_append.1 hd
    · exact ⟨List.mem_append_left _ (hmissing d hd).1, (hmissing d hd).2⟩
    · rw [List.mem_singleton.1 hd]
      exact ⟨List.mem_append_right _ (List.mem_singleton_self _), hcanonical⟩

theorem missingParents_finds (rest walked : Path) (missing asked : List Path)
    (hcanonical : ∀ q, q ≠ [] → q <+: walked ++ rest → Canonical q) :
    Ensures elsewhere (Finding missing) (missingParents walked rest (missing, asked))
      (fun found => Finding found.1) (fun _ => Untouched) := by
  induction rest generalizing walked missing asked with
  | nil => exact ensures_pure (finding_stable _) fun s hs => hs
  | cons name rest ih =>
    have happend : walked ++ name :: rest = walked ++ [name] ++ rest := by simp
    have hhere : Canonical (walked ++ [name]) :=
      hcanonical _ (by simp) (happend ▸ List.prefix_append _ _)
    have hrest : ∀ missing asked, Ensures elsewhere (Finding missing)
        (missingParents (walked ++ [name]) rest (missing, asked))
        (fun found => Finding found.1) (fun _ => Untouched) :=
      fun missing asked => ih (walked ++ [name]) missing asked (happend ▸ hcanonical)
    change Ensures elsewhere (Finding missing)
      (if walked ++ [name] ∈ asked then _ else if walked ∈ missing then _ else _) _ _
    split_ifs with hasked hparent
    · exact hrest missing asked
    · refine ensures_bind (R := fun _ => Finding (missing ++ [walked ++ [name]])) ?_
        (fun _ => hrest _ _) fun _ => untouched_stable
      refine ensures_transact (finding_stable _) ?_ ?_ (fun _ => finding_stable _)
        fun _ => untouched_stable
      · intro t s s' a hs hop
        obtain ⟨rfl, -⟩ := Prod.mk.inj (Except.ok.inj hop)
        refine hs.record hhere ?_
        -- what stands in a directory that is missing
        by_contra hne
        have hdir := hs.1.closed.parent walked name hne (canonical_ne_nil (hs.2 walked hparent).2)
        rw [view_apply, hs.1.missing walked (hs.2 walked hparent).1] at hdir
        cases hdir
      · intro t s e hs hop
        cases hop
    · refine ensures_bind (R := fun absent => Finding
        (if absent then missing ++ [walked ++ [name]] else missing)) ?_ ?_
        fun _ => untouched_stable
      · refine ensures_transact (finding_stable _) ?_ (fun t s e hs _ => hs.1)
          (fun _ => finding_stable _) fun _ => untouched_stable
        intro t s s' a hs hop
        obtain ⟨-, -, hop⟩ := UndoLog.bind_eq_ok.1 hop
        cases hlookup : s.process.disk.tree.lookup (.repo (walked ++ [name])) with
        | none =>
          rw [hlookup] at hop
          obtain ⟨rfl, rfl⟩ := Prod.mk.inj (Except.ok.inj hop)
          exact hs.record hhere hlookup
        | some node =>
          rw [hlookup] at hop
          cases node with
          | dir =>
            obtain ⟨rfl, rfl⟩ := Prod.mk.inj (Except.ok.inj hop)
            exact hs
          | file bytes mode => cases hop
          | other => cases hop
      · intro absent
        cases absent with
        | true => exact hrest _ _
        | false => exact hrest _ _

theorem missingDirectories_finds (wanted : List Path) (missing asked : List Path)
    (hcanonical : ∀ w ∈ wanted, ∀ q, q ≠ [] → q <+: w → Canonical q) :
    Ensures elsewhere (Finding missing) (missingDirectories wanted (missing, asked))
      Finding (fun _ => Untouched) := by
  induction wanted generalizing missing asked with
  | nil => exact ensures_pure (finding_stable _) fun s hs => hs
  | cons w wanted ih =>
    refine ensures_bind (R := fun found => Finding found.1) ?_ (fun found => ?_)
      fun _ => untouched_stable
    · exact missingParents_finds w [] missing asked (hcanonical w List.mem_cons_self)
    · exact ih found.1 found.2 fun w hw => hcanonical w (List.mem_cons_of_mem _ hw)

/-! ## From the journal on -/

/-- The journal and the process know the planned directories `ds`, and of these
only what this application made stands. -/
structure Owns (ds : List Path) (s : Site) : Prop where
  own : ∀ d ∈ ds, s.process.disk.tree.lookup (.repo d) = some .dir → d ∈ s.made
  removed : ∀ d ∈ s.removed, d ∈ s.made
  planned : ∀ d ∈ ds, d ∈ s.planned
  journal : ∀ p, s.process.disk.journal = some p → p.directories = ds
  payload : ∀ p, s.process.payload = some p → p.directories = ds

theorem owns_stable (ds : List Path) : Stable elsewhere (Owns ds) := by
  rintro s u hs ⟨path, hpath, h⟩
  have hown : ∀ d ∈ ds, u.process.disk.tree.lookup (.repo d) = some .dir → d ∈ s.made := by
    intro d hd hdir
    rw [h.lookup fun heq => hpath (heq ▸ hs.planned d hd)] at hdir
    exact hs.own d hd hdir
  obtain ⟨-, -, -, rfl⟩ := h
  exact ⟨hown, hs.removed, hs.planned, hs.journal, hs.payload⟩

theorem Finding.owns (h : Finding ds s) : Owns ds s := by
  obtain ⟨hs, hfound⟩ := h
  refine ⟨fun d hd hdir => ?_, fun d hd => ?_, fun d hd => (hfound d hd).1, fun p hp => ?_,
    fun p hp => ?_⟩
  · rw [hs.missing d (hfound d hd).1] at hdir
    cases hdir
  · rw [hs.removed] at hd
    cases hd
  · rw [hs.journal] at hp
    cases hp
  · rw [hs.payload] at hp
    cases hp

/-- A change of the checkout after which no other directory stands. -/
def NoNewDir (t t' : FileTree) : Prop :=
  ∀ d, t'.lookup (.repo d) = some .dir → t.lookup (.repo d) = some .dir

theorem noNewDir_insert (t : FileTree) (p : Place) {node : Node} (h : node ≠ .dir) :
    NoNewDir t (t.insert p node) := by
  intro d hd
  by_cases hp : Place.repo d = p
  · rw [hp, Finmap.lookup_insert] at hd
    exact absurd (Option.some.inj hd) h
  · rwa [Finmap.lookup_insert_of_ne _ hp] at hd

theorem noNewDir_erase (t : FileTree) (p : Place) : NoNewDir t (t.erase p) := by
  intro d hd
  by_cases hp : Place.repo d = p
  · rw [hp, Finmap.lookup_erase] at hd
    cases hd
  · rwa [Finmap.lookup_erase_ne hp] at hd

section
variable {α β : Type} {V : α → Prop}

theorem yields_mayRaise : Yields (Owns ds) (fun _ => True) mayRaise := by
  apply yields_transact
  intro t s s' a hs hop
  cases t with
  | true => cases hop
  | false =>
    obtain ⟨rfl, -⟩ := Prod.mk.inj (Except.ok.inj hop)
    exact ⟨hs, trivial⟩

theorem yields_ask {f : Process → Except ApplicationError α}
    (h : ∀ s a, Owns ds s → f s.process = .ok a → V a) : Yields (Owns ds) V (ask f) := by
  apply yields_transact
  intro t s s' a hs hop
  obtain ⟨b, hb, heq⟩ := map_ok.1 hop
  obtain ⟨rfl, rfl⟩ := Prod.mk.inj heq
  exact ⟨hs, h s b hs hb⟩

theorem yields_askTree {f : FileTree → Except ApplicationError α} :
    Yields (Owns ds) (fun _ => True) (askTree f) :=
  yields_ask fun _ _ _ _ => trivial

theorem yields_change {f : Process → Except ApplicationError Process}
    (h : ∀ p p', f p = .ok p' → NoNewDir p.disk.tree p'.disk.tree ∧
      (∀ j, p'.disk.journal = some j → p.disk.journal = some j ∨ j.directories = ds) ∧
      ∀ j, p'.payload = some j → p.payload = some j ∨ j.directories = ds) :
    Yields (Owns ds) (fun _ => True) (change f) := by
  apply yields_transact
  intro t s s' a hs hop
  obtain ⟨p', hp', heq⟩ := map_ok.1 hop
  obtain ⟨rfl, rfl⟩ := Prod.mk.inj heq
  obtain ⟨htree, hjournal, hpayload⟩ := h _ _ hp'
  refine ⟨⟨fun d hd hdir => hs.own d hd (htree d hdir), hs.removed, hs.planned, fun j hj => ?_,
    fun j hj => ?_⟩, trivial⟩
  · exact (hjournal j hj).elim (hs.journal j) id
  · exact (hpayload j hj).elim (hs.payload j) id

theorem yields_onDisk {f : Disk → Except ApplicationError Disk}
    (h : ∀ d d', f d = .ok d' → NoNewDir d.tree d'.tree ∧
      ∀ j, d'.journal = some j → d.journal = some j ∨ j.directories = ds) :
    Yields (Owns ds) (fun _ => True) (onDisk f) := by
  apply yields_change
  intro p p' hp
  obtain ⟨d, hd, rfl⟩ := map_ok.1 hp
  exact ⟨(h _ d hd).1, (h _ d hd).2, fun j hj => .inl hj⟩

theorem yields_onTree {f : FileTree → Except ApplicationError FileTree}
    (h : ∀ t t', f t = .ok t' → NoNewDir t t') : Yields (Owns ds) (fun _ => True) (onTree f) := by
  apply yields_onDisk
  intro d d' hd
  obtain ⟨t, ht, rfl⟩ := map_ok.1 hd
  exact ⟨h _ t ht, fun j hj => .inl hj⟩

theorem yields_forEach {body : β → Road Unit} {l : List β}
    (h : ∀ b ∈ l, Yields (Owns ds) (fun _ => True) (body b)) :
    Yields (Owns ds) (fun _ => True) (forEach body l) := by
  induction l with
  | nil => exact yields_pure trivial
  | cons b rest ih =>
    apply (h b List.mem_cons_self).bind
    intro _ _
    exact ih fun b hb => h b (List.mem_cons_of_mem _ hb)

end

theorem yields_setPayload (h : payload.directories = ds) :
    Yields (Owns ds) (fun _ => True) (setPayload payload) := by
  apply yields_change
  intro p p' hp
  obtain rfl := Except.ok.inj hp
  refine ⟨fun _ hd => hd, fun j hj => .inl hj, fun j hj => .inr ?_⟩
  rw [← Option.some.inj hj]
  exact h

theorem yields_writeJournal (h : payload.directories = ds) :
    Yields (Owns ds) (fun _ => True) (writeJournal payload) := by
  apply yields_mayRaise.bind
  intro _ _
  refine Yields.bind (U := fun _ => True) ?_ fun _ _ => yields_mayRaise
  apply yields_onDisk
  intro d d' hd
  split at hd
  · obtain rfl := Except.ok.inj hd
    refine ⟨fun _ hd => hd, fun j hj => .inr ?_⟩
    rw [← Option.some.inj hj]
    exact h
  · cases hd

theorem yields_advanceJournal {target : JournalState} (h : payload.directories = ds) :
    Yields (Owns ds) (fun p : Payload => p.directories = ds) (advanceJournal payload target) := by
  unfold advanceJournal
  have htarget : { payload with state := target }.directories = ds := h
  split_ifs
  · apply (yields_writeJournal htarget).bind
    intro _ _
    apply (yields_setPayload htarget).bind
    intro _ _
    exact yields_pure h
  · exact yields_throw

theorem yields_currentPayload (h : payload.directories = ds) :
    Yields (Owns ds) (fun p : Payload => p.directories = ds) (currentPayload payload) := by
  apply yields_ask
  intro s a hs hop
  obtain rfl := Except.ok.inj hop
  cases hp : s.process.payload with
  | none => exact h
  | some p => exact hs.payload p hp

/-- What this process creates is its own, and a name taken meanwhile is not. -/
theorem yields_openLevel (here : Path) : Yields (Owns ds) (fun _ => True) (openLevel here) := by
  have hopen : Yields (Owns ds) (fun _ => True) (do
      mayRaise
      askTree fun t => if t.lookup (.repo here) = some .dir then .ok ()
        else .error (.containment "hedef ust dizini acilamadi")) := by
    apply yields_mayRaise.bind
    intro _ _
    exact yields_askTree
  apply yields_askTree.bind
  intro there _
  cases there with
  | some node =>
    cases node with
    | dir => exact hopen
    | file bytes mode => exact yields_throw.bind (U := fun _ => True) fun _ _ => hopen
    | other => exact yields_throw.bind (U := fun _ => True) fun _ _ => hopen
  | none =>
    apply yields_mayRaise.bind
    intro _ _
    refine Yields.bind (U := fun _ => True) ?_ fun _ _ => hopen
    apply yields_transact
    intro t s s' a hs hop
    split at hop
    · obtain ⟨rfl, -⟩ := Prod.mk.inj (Except.ok.inj hop)
      refine ⟨⟨fun d hd hdir => ?_, fun d hd => ?_, hs.planned, hs.journal, hs.payload⟩, trivial⟩
      · by_cases heq : d = here
        · rw [heq]
          exact List.mem_append_right _ (List.mem_singleton_self _)
        · refine List.mem_append_left _ (hs.own d hd ?_)
          have hne : Place.repo d ≠ .repo here := fun h => heq (Place.repo.inj h)
          rwa [← Finmap.lookup_insert_of_ne _ hne]
      · exact List.mem_append_left _ (hs.removed d hd)
    · obtain ⟨rfl, -⟩ := Prod.mk.inj (Except.ok.inj hop)
      exact ⟨hs, trivial⟩

theorem yields_createDirectory (rest walked : Path) :
    Yields (Owns ds) (fun _ => True) (createDirectory walked rest) := by
  induction rest generalizing walked with
  | nil => exact yields_pure trivial
  | cons name rest ih =>
    apply (yields_openLevel _).bind
    intro _ _
    exact ih _

theorem yields_createDirectories (directories : List Path) :
    Yields (Owns ds) (fun _ => True) (createDirectories directories) := by
  apply yields_forEach
  intro relative _
  apply (yields_ask (V := fun _ => True) fun _ _ _ _ => trivial).bind
  intro parts _
  exact yields_createDirectory parts []

/-- A planned directory that is removed stood, so it was made here. -/
theorem yields_removeOne {relative : Path} (hmem : relative ∈ ds) (hcanonical : Canonical relative) :
    Yields (Owns ds) (fun _ => True) (removeOne relative) := by
  apply yields_mayRaise.bind
  intro _ _
  apply yields_transact
  intro t s s' a hs hop
  obtain ⟨parts, hparts, hop⟩ := UndoLog.bind_eq_ok.1 hop
  obtain rfl : relative = parts := Except.ok.inj (hcanonical.symm.trans hparts)
  obtain ⟨tree, htree, hop⟩ := UndoLog.bind_eq_ok.1 hop
  obtain ⟨hdir, hresult⟩ := removeDirectory_cases hcanonical htree
  split at hop
  · obtain ⟨rfl, -⟩ := Prod.mk.inj (Except.ok.inj hop)
    have hold : NoNewDir s.process.disk.tree tree := by
      obtain rfl | rfl := hresult
      · exact fun _ hd => hd
      · exact noNewDir_erase _ _
    refine ⟨⟨fun d hd hstands => hs.own d hd (hold d hstands), fun d hd => ?_, hs.planned,
      hs.journal, hs.payload⟩, trivial⟩
    obtain rfl | hd := List.mem_cons.1 hd
    · exact hs.own d hmem hdir
    · exact hs.removed d hd
  · obtain ⟨rfl, -⟩ := Prod.mk.inj (Except.ok.inj hop)
    exact ⟨hs, trivial⟩

theorem noNewDir_eraseHold (t : FileTree) (p : Place) : NoNewDir t (eraseHold p t) := by
  cases p with
  | repo path => exact fun _ hd => hd
  | hold slot => exact noNewDir_erase t _

theorem yields_removeDirectories {directories : List Path} (hmem : ∀ d ∈ directories, d ∈ ds)
    (hcanonical : ∀ d ∈ ds, Canonical d) :
    Yields (Owns ds) (fun _ => True) (removeDirectories directories) := by
  apply yields_forEach
  intro d hd
  have hd := hmem d (List.mem_reverse.1 hd)
  exact yields_removeOne hd (hcanonical d hd)

theorem yields_dropJournal : Yields (Owns ds) (fun _ => True) dropJournal := by
  apply yields_onDisk
  intro d d' hd
  obtain rfl := Except.ok.inj hd
  exact ⟨fun _ hd => hd, fun j hj => nomatch hj⟩

theorem yields_flag {f : Disk → Except ApplicationError Disk}
    (h : ∀ d d', f d = .ok d' → d'.tree = d.tree ∧ d'.journal = d.journal) :
    Yields (Owns ds) (fun _ => True) (onDisk f) := by
  apply yields_onDisk
  intro d d' hd
  obtain ⟨htree, hjournal⟩ := h d d' hd
  rw [htree, hjournal]
  exact ⟨fun _ hd => hd, fun j hj => .inl hj⟩

section
variable [Host]

theorem yields_stageFile (implementer : FileTree) (slot : Slot) (change : Change) :
    Yields (Owns ds) (fun _ => True) (stageFile implementer slot change) := by
  have hwrite : ∀ node : Node, node ≠ .dir →
      Yields (Owns ds) (fun _ => True) (onTree fun t => .ok (t.insert (.hold slot) node)) := by
    intro node hnode
    apply yields_onTree
    intro t t' ht
    obtain rfl := Except.ok.inj ht
    exact noNewDir_insert t _ hnode
  apply yields_mayRaise.bind
  intro _ _
  apply (yields_ask (V := fun _ => True) fun _ _ _ _ => trivial).bind
  intro source _
  apply yields_mayRaise.bind
  intro _ _
  have hcreate : Yields (Owns ds) (fun _ => True) (onTree fun t =>
      if t.lookup (.hold slot) = none then .ok (t.insert (.hold slot) (.file [] 0o644))
      else .error (.refused "aday dosyasi hazirlanamadi")) := by
    apply yields_onTree
    intro t t' ht
    split at ht
    · obtain rfl := Except.ok.inj ht
      exact noNewDir_insert t _ (by simp)
    · cases ht
  apply hcreate.bind
  intro _ _
  apply yields_mayRaise.bind
  intro _ _
  apply (hwrite _ (by simp)).bind
  intro _ _
  apply yields_mayRaise.bind
  intro _ _
  apply (hwrite _ (by simp)).bind
  intro _ _
  apply yields_mayRaise.bind
  intro _ _
  exact yields_askTree

theorem yields_executeMove (move : Move) :
    Yields (Owns ds) (fun _ => True) (executeMove move) := by
  apply yields_askTree.bind
  rintro ⟨source, target⟩ _
  have hlink : Yields (Owns ds) (fun _ => True) (onTree fun t => linkChild t source target) := by
    apply yields_onTree
    intro t t' ht
    obtain ⟨bytes, mode, -, -, rfl⟩ := linkChild_ok.1 ht
    exact noNewDir_insert t _ (by simp)
  apply yields_mayRaise.bind
  intro _ _
  apply hlink.bind
  intro _ _
  apply yields_mayRaise.bind
  intro _ _
  apply yields_onTree
  intro t t' ht
  obtain rfl := Except.ok.inj ht
  exact noNewDir_erase t _

theorem yields_applyMoves (h : payload.directories = ds) (moves : List Move) :
    Yields (Owns ds) (fun _ => True) (applyMoves payload moves) := by
  apply yields_forEach
  intro move _
  have hnext : { payload with appliedIndex := move.index + 1 }.directories = ds := h
  apply (yields_setPayload hnext).bind
  intro _ _
  apply (yields_writeJournal hnext).bind
  intro _ _
  exact yields_executeMove move

theorem yields_undoMove (move : Move) : Yields (Owns ds) (fun _ => True) (undoMove move) := by
  apply yields_mayRaise.bind
  intro _ _
  apply yields_askTree.bind
  intro back _
  cases back with
  | true => exact yields_executeMove _
  | false => exact yields_pure trivial

theorem yields_undoMoves (h : payload.directories = ds) (moves : List Move) :
    Yields (Owns ds) (fun _ => True) (undoMoves payload moves) := by
  apply yields_forEach
  intro move _
  have hnext : { payload with appliedIndex := move.index }.directories = ds := h
  apply (yields_undoMove move).bind
  intro _ _
  apply (yields_setPayload hnext).bind
  intro _ _
  exact yields_writeJournal hnext

theorem yields_rollback (h : payload.directories = ds) (hcanonical : ∀ d ∈ ds, Canonical d)
    (moves : List Move) : Yields (Owns ds) (fun _ => True) (rollback payload moves) := by
  apply (yields_advanceJournal h).bind
  intro payload hp
  refine Yields.bind (U := fun _ => True) ?_ fun _ _ => ?_
  · apply Yields.tryCatch
    · apply (yields_undoMoves hp moves).bind
      intro _ _
      exact yields_removeDirectories (fun d hd => hp ▸ hd) hcanonical
    · intro e
      apply (yields_currentPayload hp).bind
      intro payload hp
      have hfailed : { payload with state := .failed }.directories = ds := hp
      apply (yields_writeJournal hfailed).bind
      intro _ _
      exact yields_throw
  · apply (yields_currentPayload hp).bind
    intro payload hp
    apply (yields_advanceJournal hp).bind
    intro _ _
    exact yields_pure trivial

theorem yields_removeHolder (moves : List Move) :
    Yields (Owns ds) (fun _ => True) (removeHolder moves) := by
  have herase : Yields (Owns ds) (fun _ => True) ((forEach fun move => onTree fun t =>
      .ok (eraseHold move.toPlace (eraseHold move.fromPlace t))) moves) := by
    apply yields_forEach
    intro move _
    apply yields_onTree
    intro t t' ht d hd
    obtain rfl := Except.ok.inj ht
    exact noNewDir_eraseHold _ _ d (noNewDir_eraseHold _ _ d hd)
  have hslots : Yields (Owns ds) (fun _ => True)
      (onDisk fun disk => .ok { disk with slots := false }) :=
    yields_flag fun d d' hd => Except.ok.inj hd ▸ ⟨rfl, rfl⟩
  have hholder : Yields (Owns ds) (fun _ => True) (do
      mayRaise
      onDisk fun disk => .ok { disk with holder := false }) := by
    apply yields_mayRaise.bind
    intro _ _
    exact yields_flag fun d d' hd => Except.ok.inj hd ▸ ⟨rfl, rfl⟩
  apply yields_mayRaise.bind
  intro _ _
  cases Host.listsJournalFirst with
  | true =>
    apply yields_dropJournal.bind
    intro _ _
    apply herase.bind
    intro _ _
    apply yields_mayRaise.bind
    intro _ _
    apply hslots.bind
    intro _ _
    exact hholder
  | false =>
    apply herase.bind
    intro _ _
    apply yields_mayRaise.bind
    intro _ _
    apply hslots.bind
    intro _ _
    apply yields_dropJournal.bind
    intro _ _
    exact hholder

end

end RagPipeline.Application.Foreign
