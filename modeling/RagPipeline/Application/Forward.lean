import RagPipeline.Application.Course

/-! # What the forward run does

One fact for each phase of `_apply` before its handler: what a death in it
leaves on the disk, how it ends, and where it raises. A phase that raises says
which step of it the host interrupted, so the end of the whole run is known
from the interrupted step. -/

set_option autoImplicit false

namespace RagPipeline.Application
open UndoLog Effects Effects.Program

/-- The tree of a process whose staging has got some way. -/
structure Staging [Host] (call : Call) (start : Checkout) (t : FileTree)
    (done todo : List (Slot × Change)) : Prop where
  view : view t = view start.tree
  staged : ∀ s c, (s, c) ∈ done → StagedIn call.implementer t s c
  free : ∀ s c, (s, c) ∈ todo → t.lookup (.hold s) = none
  backups : ∀ s, s.letter = 'b' → t.lookup (.hold s) = none

namespace Course

variable [Host] {candidate : Candidate} {call : Call} {start : Checkout}
variable (r : Course candidate call start)

/-- A process of the forward run, its slots open and its journal in step with
its local variable. -/
def forward (state : JournalState) (n : ℕ) (t : FileTree) : Process :=
  ⟨⟨t, true, true, some (rolling r.base state n)⟩, some (rolling r.base state n), true⟩

def Undoable (t : FileTree) (n : ℕ) : Prop :=
  ∃ t₀, undoAll undo (r.p.moves.take n) t = .ok t₀ ∧ view t₀ = r.made

def Lacks (t : FileTree) : Prop := ∃ d ∈ r.directories, view t d ≠ some .dir

def HalfDone (t : FileTree) (n : ℕ) : Prop :=
  ∃ rest m, r.p.moves.take n = rest ++ [m] ∧ landed m t = .ok true ∧
    t.lookup m.fromPlace ≠ none

/-- No rename is half done, and the planned directories are there. -/
def Whole (t : FileTree) (n : ℕ) : Prop :=
  (∀ d ∈ r.directories, view t d = some .dir) ∧
    ∀ rest m, r.p.moves.take n = rest ++ [m] →
      t.lookup m.fromPlace = none ∨ t.lookup m.toPlace = none

/-- The disks a death of the forward run can leave. -/
inductive Forward : Disk → Prop where
  | unregistered (d : Disk) : d.journal = none → Forward d
  | early (state : JournalState) (slots : Bool) (k : ℕ) (t : FileTree) :
      state = .registered ∨ state = .prepared →
      view t = addDirectories (r.directories.take k) (view start.tree) →
      Forward ⟨t, true, slots, some (rolling r.base state 0)⟩
  | moving (n : ℕ) (t : FileTree) : r.Undoable t n → r.Whole t n →
      Forward ⟨t, true, true, some (rolling r.base .applying n)⟩
  | half (n : ℕ) (t : FileTree) : r.HalfDone t n →
      Forward ⟨t, true, true, some (rolling r.base .applying n)⟩
  | applied (n : ℕ) (t : FileTree) : view t = r.complete →
      Forward ⟨t, true, true, some (rolling r.base .applied n)⟩

def Stages : Prop := ∀ s c, (s, c) ∈ r.p.staged → Stageable call.implementer c

end Course

theorem view_insert_hold (t : FileTree) (slot : Slot) (n : Node) :
    view (t.insert (.hold slot) n) = view t :=
  funext fun _ => Finmap.lookup_insert_of_ne _ (by simp)

def Process.fill (s : Process) (slot : Slot) (n : Node) : Process :=
  s.withTree (s.disk.tree.insert (.hold slot) n)

@[simp] theorem fill_fill (s : Process) (slot : Slot) (n n' : Node) :
    (s.fill slot n).fill slot n' = s.fill slot n' := by
  simp only [Process.fill, Process.withTree, Finmap.insert_insert]

section
variable {s : Process} {C : Process → Prop} {fault : Option Step}

/-- A write to a slot that was created replaces what it holds. -/
theorem ensures_writeSlot {Q : Unit → Process → Prop} {E : ApplicationError → Process → Prop}
    {slot : Slot} {phase : StagePhase} {n n' : Node} (hC : C (s.fill slot n'))
    (hQ : fault ≠ some (.stage slot phase) → Q () (s.fill slot n'))
    (hE : fault = some (.stage slot phase) → E .interrupted (s.fill slot n)) :
    (writeSlot fault slot phase n').Ensures (s.fill slot n) C Q E := by
  refine ensures_bind (R := fun _ t => t = s.fill slot n ∧ fault ≠ some (.stage slot phase))
    (ensures_mayRaise (fun h => ⟨rfl, h⟩) hE) ?_
  rintro _ _ ⟨rfl, hne⟩
  refine ensures_onTree _ (fun t ht => ?_) (fun e he => by cases he)
  obtain rfl := Except.ok.inj ht
  have hfill : (s.fill slot n).withTree ((s.fill slot n).disk.tree.insert (.hold slot) n') =
      s.fill slot n' := fill_fill s slot n n'
  rw [hfill]
  exact ⟨hC, hQ hne⟩

/-- Making one missing directory walks its parents and creates its last
component. -/
theorem ensures_createDirectory {d : Path} (hnone : s.disk.tree.lookup (.repo d) = none)
    (hC : C (s.withTree (s.disk.tree.insert (.repo d) .dir))) (walked rest : Path)
    (hrest : rest ≠ []) (hd : walked ++ rest = d)
    (habove : ∀ q, q ≠ [] → q <+: d → q ≠ d → s.disk.tree.lookup (.repo q) = some .dir) :
    (createDirectory fault walked rest).Ensures s C
      (fun _ s' => s' = s.withTree (s.disk.tree.insert (.repo d) .dir) ∧
        fault ≠ some (.makeDirectory d) ∧ fault ≠ some (.openDirectory d))
      (fun _ s' => (s' = s ∧ fault = some (.makeDirectory d)) ∨
        (s' = s.withTree (s.disk.tree.insert (.repo d) .dir) ∧
          fault = some (.openDirectory d))) := by
  induction rest generalizing walked with
  | nil => exact absurd rfl hrest
  | cons name rest ih =>
    unfold createDirectory
    refine ensures_bind (R := fun u t => s = u ∧ s = t) (ensures_read ⟨rfl, rfl⟩) ?_
    rintro _ _ ⟨rfl, rfl⟩
    by_cases hlast : rest = []
    · subst hlast
      rw [hd, hnone]
      refine ensures_bind (R := fun _ t => s = t ∧ fault ≠ some (.makeDirectory d))
        (ensures_mayRaise (fun h => ⟨rfl, h⟩) (fun h => .inl ⟨rfl, h⟩)) ?_
      rintro _ _ ⟨rfl, hmake⟩
      refine ensures_bind (R := fun _ t => t = s.withTree (s.disk.tree.insert (.repo d) .dir))
        (ensures_onTree _ (fun t ht => ?_) (fun e he => by cases he)) ?_
      · obtain rfl := Except.ok.inj ht
        exact ⟨hC, rfl⟩
      rintro _ _ rfl
      refine ensures_bind (R := fun _ t => t = s.withTree (s.disk.tree.insert (.repo d) .dir) ∧
        fault ≠ some (.openDirectory d))
        (ensures_mayRaise (fun h => ⟨rfl, h⟩) (fun h => .inr ⟨rfl, h⟩)) ?_
      rintro _ _ ⟨rfl, hopen⟩
      exact ensures_pure _ ⟨rfl, hmake, hopen⟩
    · have hd' : walked ++ [name] ++ rest = d := by simpa using hd
      have hprefix : walked ++ [name] <+: d := ⟨rest, hd'⟩
      have hne : walked ++ [name] ≠ d := by
        intro h
        rw [← hd'] at h
        exact hlast (List.self_eq_append_right.1 h)
      rw [habove _ (by simp) hprefix hne]
      exact ih (walked ++ [name]) hlast hd'

variable [Host]

/-- Staging one file fills its slot and nothing else, and raises only where its
own steps are interrupted or the implementer's file is not the evidence. -/
theorem ensures_stageFile {implementer : FileTree} {slot : Slot} {change : Change}
    (hc : Canonical change.path) (hfree : s.disk.tree.lookup (.hold slot) = none)
    (hC : ∀ n, C (s.fill slot n)) :
    (stageFile fault implementer slot change).Ensures s C
      (fun _ s' => Stageable implementer change ∧
        (∀ phase, fault ≠ some (.stage slot phase)) ∧
        ∃ n, stagedNode implementer change = some n ∧ s' = s.fill slot n)
      (fun _ s' => (¬ Stageable implementer change ∨ ∃ phase, fault = some (.stage slot phase)) ∧
        (s' = s ∨ ∃ n, s' = s.fill slot n)) := by
  unfold stageFile
  refine ensures_bind (R := fun _ t => s = t ∧ fault ≠ some (.stage slot .read))
    (ensures_mayRaise (fun h => ⟨rfl, h⟩) (fun h => ⟨.inr ⟨_, h⟩, .inl rfl⟩)) ?_
  rintro _ _ ⟨rfl, hread⟩
  refine ensures_bind (R := fun e t => s = t ∧
    fileEvidence implementer change.path = .ok (some e) ∧ e.sha256 = change.sha256) ?_ ?_
  · refine ensures_ask _ (fun e he => ?_) (fun e he => ⟨.inl ?_, .inl rfl⟩)
    · split at he
      · rename_i source hsource
        split at he
        · rename_i hsha
          obtain rfl := Except.ok.inj he
          exact ⟨rfl, hsource, hsha⟩
        · cases he
      · cases he
      · cases he
    · rintro ⟨source, hsource, hsha⟩
      simp [hsource, hsha] at he
  rintro source _ ⟨rfl, hsource, hsha⟩
  have hnode := stagedNode_of hsource
  obtain ⟨-, hchild⟩ := evidenceOf_some (p := .repo change.path) hc hsource
  obtain ⟨-, hsize, hhash⟩ := childEvidence_some hchild
  refine ensures_bind (R := fun _ t => s = t ∧ fault ≠ some (.stage slot .create))
    (ensures_mayRaise (fun h => ⟨rfl, h⟩) (fun h => ⟨.inr ⟨_, h⟩, .inl rfl⟩)) ?_
  rintro _ _ ⟨rfl, hcreate⟩
  refine ensures_bind (R := fun _ t => t = s.fill slot (.file [] 0o644)) ?_ ?_
  · refine ensures_onTree _ (fun t ht => ?_) (fun e he => ?_)
    · rw [if_pos hfree] at ht
      obtain rfl := Except.ok.inj ht
      exact ⟨hC _, rfl⟩
    · rw [if_pos hfree] at he
      cases he
  rintro _ _ rfl
  have hstop : ∀ {phase n}, fault = some (.stage slot phase) →
      (¬ Stageable implementer change ∨ ∃ phase, fault = some (.stage slot phase)) ∧
        (s.fill slot n = s ∨ ∃ n', s.fill slot n = s.fill slot n') :=
    fun h => ⟨.inr ⟨_, h⟩, .inr ⟨_, rfl⟩⟩
  refine ensures_bind (R := fun _ t => t = s.fill slot (.file source.data 0o644) ∧
    fault ≠ some (.stage slot .write))
    (ensures_writeSlot (hC _) (fun h => ⟨rfl, h⟩) hstop) ?_
  rintro _ _ ⟨rfl, hwrite⟩
  refine ensures_bind (R := fun _ t => t = s.fill slot (.file source.data (stagedMode change)) ∧
    fault ≠ some (.stage slot .mode))
    (ensures_writeSlot (hC _) (fun h => ⟨rfl, h⟩) hstop) ?_
  rintro _ _ ⟨rfl, hmode⟩
  refine ensures_bind (R := fun _ t => t = s.fill slot (.file source.data (stagedMode change)) ∧
    fault ≠ some (.stage slot .readBack)) (ensures_mayRaise (fun h => ⟨rfl, h⟩) hstop) ?_
  rintro _ _ ⟨rfl, hback⟩
  have hread : childEvidence (s.fill slot (.file source.data (stagedMode change))).disk.tree
      (.hold slot) = .ok (some ⟨Host.sha256 source.data, stagedMode change, source.data⟩) :=
    childEvidence_file (Finmap.lookup_insert _) hsize
  refine ensures_ask _ (fun _ _ => ⟨⟨source, hsource, hsha⟩, ?_, _, hnode, rfl⟩) (fun e he => ?_)
  · intro phase
    cases phase <;> assumption
  · rw [hread] at he
    simp [← hhash, hsha] at he

/-- A rename cut after its link: the object is at the target, and the source
name is still taken. -/
theorem half_of_link {move : Move} {t linked : FileTree} (hm : move.Canonical)
    (hrun : execute move t = .ok (linked.erase move.fromPlace))
    (hlink : linkChild t move.fromPlace move.toPlace = .ok linked) :
    landed move linked = .ok true ∧ linked.lookup move.fromPlace ≠ none := by
  obtain ⟨-, hopen, -, e, hchild, hsha, -⟩ := (execute_ok hm).1 hrun
  obtain ⟨bytes, mode, hfile, hvacant, rfl⟩ := linkChild_ok.1 hlink
  obtain ⟨hfile', hsize, hhash⟩ := childEvidence_some hchild
  obtain ⟨rfl, rfl⟩ : bytes = e.data ∧ mode = e.mode := by
    simpa using hfile.symm.trans hfile'
  have hopen' : Open (t.insert move.toPlace (.file e.data e.mode)) move.toPlace := by
    cases hto : move.toPlace with
    | hold slot =>
      rw [hto] at hopen
      exact hopen
    | repo path =>
      rw [hto] at hopen hvacant
      intro q hq hp
      have hdir := hopen q hq hp
      rw [Finmap.lookup_insert_of_ne _ (by rintro h; rw [h, hvacant] at hdir; cases hdir)]
      exact hdir
  have hthere := childEvidence_file (Finmap.lookup_insert (a := move.toPlace)
    (b := Node.file e.data e.mode) t) hsize
  refine ⟨landed_of_target ((evidenceOf_open hm.2 hopen').trans hthere)
    (hhash.symm.trans hsha), ?_⟩
  have hne : move.fromPlace ≠ move.toPlace := by
    intro h
    rw [h, hvacant] at hfile
    cases hfile
  rw [Finmap.lookup_insert_of_ne _ hne, hfile]
  simp

end

namespace Course

variable [Host] {candidate : Candidate} {call : Call} {start : Checkout}
  (r : Course candidate call start) {fault : Option Step}

/-- A process the forward run raised in: whatever its journal says, the failure
path reads the tree and the local variables. -/
structure Failing (state : JournalState) (n : ℕ) (t : FileTree) (s : Process) : Prop where
  tree : s.disk.tree = t
  holder : s.disk.holder = true
  slots : s.disk.slots = true
  payload : s.payload = some (rolling r.base state n)
  slotsTree : s.slotsTree = true

theorem failing_forward (state : JournalState) (n : ℕ) (t : FileTree) :
    r.Failing state n t (r.forward state n t) := ⟨rfl, rfl, rfl, rfl, rfl⟩

theorem fill_forward (state : JournalState) (n : ℕ) (t : FileTree) (slot : Slot) (node : Node) :
    (r.forward state n t).fill slot node = r.forward state n (t.insert (.hold slot) node) := rfl

theorem staged_letter {s : Slot} {c : Change} (h : (s, c) ∈ r.p.staged) : s.letter = 's' := by
  obtain ⟨i, -, rfl⟩ := planFrom_staged candidate.canonical r.planned h
  rfl

theorem staging_step {t : FileTree} {done todo : List (Slot × Change)} {slot : Slot}
    {change : Change} {node : Node} (ht : Staging call start t done ((slot, change) :: todo))
    (hdistinct : (done ++ (slot, change) :: todo).Pairwise fun x y => x.1 ≠ y.1)
    (hletter : slot.letter = 's') (hable : Stageable call.implementer change)
    (hnode : stagedNode call.implementer change = some node) :
    Staging call start (t.insert (.hold slot) node) (done ++ [(slot, change)]) todo := by
  obtain ⟨-, htodo, hcross⟩ := List.pairwise_append.1 hdistinct
  have hother : ∀ s, s ≠ slot → (t.insert (.hold slot) node).lookup (.hold s) =
      t.lookup (.hold s) := fun s hne => Finmap.lookup_insert_of_ne _ (by simpa using hne)
  refine ⟨(view_insert_hold _ _ _).trans ht.view, fun s c hm => ?_, fun s c hm => ?_,
    fun s hs => ?_⟩
  · rcases List.mem_append.1 hm with hm | hm
    · obtain ⟨hable', hnode'⟩ := ht.staged s c hm
      exact ⟨hable', (hother s (hcross (s, c) hm (slot, change) (by simp))).trans hnode'⟩
    · obtain ⟨rfl, rfl⟩ : s = slot ∧ c = change := by simpa using hm
      exact ⟨hable, (Finmap.lookup_insert _).trans hnode.symm⟩
  · rw [hother s ((List.pairwise_cons.1 htodo).1 (s, c) hm).symm]
    exact ht.free s c (List.mem_cons_of_mem _ hm)
  · rw [hother s (by rintro rfl; rw [hletter] at hs; cases hs)]
    exact ht.backups s hs

/-- Staging fills the slots one by one; the checkout is not touched. -/
theorem ensures_stage {t : FileTree} (ht : Staging call start t [] r.p.staged) :
    (stage fault call.implementer r.p.staged).Ensures (r.forward .registered 0 t)
      (fun s => r.Forward s.disk)
      (fun _ s' => ∃ t', s' = r.forward .registered 0 t' ∧ Staging call start t' r.p.staged [] ∧
        r.Stages ∧ ∀ s c, (s, c) ∈ r.p.staged → ∀ phase, fault ≠ some (.stage s phase))
      (fun _ s' => ∃ t', s' = r.forward .registered 0 t' ∧ view t' = view start.tree ∧
        (¬ r.Stages ∨ ∃ s c phase, (s, c) ∈ r.p.staged ∧ fault = some (.stage s phase))) := by
  have hearly : ∀ {t}, view t = view start.tree → r.Forward (r.forward .registered 0 t).disk :=
    fun ht => .early .registered true 0 _ (.inl rfl) (by simpa [addDirectories] using ht)
  have hdistinct := planFrom_staged_distinct candidate.canonical r.planned
  refine ensures_mono (C := fun s => r.Forward s.disk) (Q := fun _ s' => ∃ t',
    s' = r.forward .registered 0 t' ∧
      Staging call start t' (r.p.staged.take r.p.staged.length) (r.p.staged.drop r.p.staged.length) ∧
      ∀ s c, (s, c) ∈ r.p.staged.take r.p.staged.length → Stageable call.implementer c ∧
        ∀ phase, fault ≠ some (.stage s phase)) ?_ (fun _ h => h) ?_ (fun _ _ h => h)
  · refine ensures_forEach (I := fun k s' => ∃ t', s' = r.forward .registered 0 t' ∧
      Staging call start t' (r.p.staged.take k) (r.p.staged.drop k) ∧
      ∀ s c, (s, c) ∈ r.p.staged.take k → Stageable call.implementer c ∧
        ∀ phase, fault ≠ some (.stage s phase)) ⟨t, rfl, by simpa using ht, by simp⟩ ?_
    rintro k ⟨slot, change⟩ hk _ ⟨t', rfl, hstaging, hdone⟩
    have hmem : (slot, change) ∈ r.p.staged := List.mem_of_getElem? hk
    obtain ⟨hlt, hget⟩ := List.getElem?_eq_some_iff.1 hk
    have hdrop : r.p.staged.drop k = (slot, change) :: r.p.staged.drop (k + 1) := by
      rw [List.drop_eq_getElem_cons hlt, hget]
    have htake : r.p.staged.take (k + 1) = r.p.staged.take k ++ [(slot, change)] := by
      rw [List.take_add_one, hk]
      rfl
    obtain ⟨i, hi, -⟩ := planFrom_staged candidate.canonical r.planned hmem
    have hcanon := candidate.canonical change (List.mem_of_getElem? hi)
    refine ensures_mono (ensures_stageFile hcanon (hstaging.free slot change (by simp [hdrop]))
      (fun n => ?_)) (fun _ h => h) ?_ ?_
    · exact hearly ((view_insert_hold _ _ _).trans hstaging.view)
    · rintro _ _ ⟨hable, hfault, n, hnode, rfl⟩
      rw [hdrop] at hstaging
      rw [← List.take_append_drop k r.p.staged, hdrop] at hdistinct
      rw [htake]
      refine ⟨_, r.fill_forward _ _ _ _ _,
        staging_step hstaging hdistinct (r.staged_letter hmem) hable hnode, fun s c hm => ?_⟩
      rcases List.mem_append.1 hm with hm | hm
      · exact hdone s c hm
      · obtain ⟨rfl, rfl⟩ : s = slot ∧ c = change := by simpa using hm
        exact ⟨hable, hfault⟩
    · rintro _ s' ⟨hreason, hs'⟩
      have hreason' : ¬ r.Stages ∨
          ∃ s c phase, (s, c) ∈ r.p.staged ∧ fault = some (.stage s phase) := by
        rcases hreason with h | ⟨phase, h⟩
        · exact .inl fun hall => h (hall slot change hmem)
        · exact .inr ⟨slot, change, phase, hmem, h⟩
      rcases hs' with rfl | ⟨n, rfl⟩
      · exact ⟨t', rfl, hstaging.view, hreason'⟩
      · exact ⟨_, r.fill_forward _ _ _ _ _, (view_insert_hold _ _ _).trans hstaging.view, hreason'⟩
  · rintro _ _ ⟨t', rfl, hstaging, hdone⟩
    rw [List.take_length] at hstaging hdone
    rw [List.drop_length] at hstaging
    exact ⟨t', rfl, hstaging, fun s c hm => (hdone s c hm).1, fun s c hm => (hdone s c hm).2⟩

end Course

end RagPipeline.Application
