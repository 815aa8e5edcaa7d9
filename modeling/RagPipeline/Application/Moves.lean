import RagPipeline.Application.Plan

/-! # Executing and undoing moves

A move is a link to its target, refused where a name is taken, followed by an
unlink of its source. Its undo is itself backwards, once the object has been
found at the target. On the map of the checkout and the slots a move that was
executed is reversed exactly, and a move that never happened is recognised and
left alone: these are the two facts an undo from a log of intentions needs. -/

set_option autoImplicit false

namespace RagPipeline.Application
open UndoLog

def reverseMove (move : Move) : Move :=
  { move with fromPlace := move.toPlace, toPlace := move.fromPlace }

def Move.Canonical (move : Move) : Prop :=
  move.fromPlace.Canonical ∧ move.toPlace.Canonical

def linkChild (t : FileTree) (source target : Place) : Except ApplicationError FileTree :=
  match t.lookup source with
  | some (.file bytes mode) =>
    match t.lookup target with
    | some _ => .error (.concurrentMainChange "hedef adi baskasi tarafindan alinmis")
    | none => .ok (t.insert target (.file bytes mode))
  | _ => .error (.containment "nesne tasinamadi")

theorem linkChild_ok {t t' : FileTree} {source target : Place} :
    linkChild t source target = .ok t' ↔
      ∃ bytes mode, t.lookup source = some (.file bytes mode) ∧ t.lookup target = none ∧
        t' = t.insert target (.file bytes mode) := by
  constructor
  · intro h
    unfold linkChild at h
    split at h
    · rename_i bytes mode hs
      split at h
      · cases h
      · rename_i ht
        exact ⟨bytes, mode, hs, ht, (Except.ok.inj h).symm⟩
    · cases h
  · rintro ⟨bytes, mode, hs, ht, rfl⟩
    simp [linkChild, hs, ht]

/-- A rename of a file changes no directory. -/
theorem open_rename {t : FileTree} {source target p : Place} {e : Evidence}
    (hs : t.lookup source = some (.file e.data e.mode)) (ht : t.lookup target = none)
    (hp : Open t p) : Open ((t.insert target (.file e.data e.mode)).erase source) p := by
  cases p with
  | hold slot => exact hp
  | repo path =>
    intro r hr hpre
    have hdir := hp r hr hpre
    have hns : Place.repo r ≠ source := by
      rintro rfl
      simp [hdir] at hs
    have hnt : Place.repo r ≠ target := by
      rintro rfl
      simp [hdir] at ht
    rw [Finmap.lookup_erase_ne hns, Finmap.lookup_insert_of_ne _ hnt]
    exact hdir

theorem rename_back {t : FileTree} {source target : Place} {n : Node}
    (hs : t.lookup source = some n) (ht : t.lookup target = none) :
    ((((t.insert target n).erase source).insert source n).erase target) = t := by
  have hne : target ≠ source := by
    rintro rfl
    simp [hs] at ht
  refine Finmap.ext_lookup fun p => ?_
  by_cases hpt : p = target
  · rw [hpt, Finmap.lookup_erase, ht]
  rw [Finmap.lookup_erase_ne hpt]
  by_cases hps : p = source
  · rw [hps, Finmap.lookup_insert, hs]
  rw [Finmap.lookup_insert_of_ne _ hps, Finmap.lookup_erase_ne hps,
    Finmap.lookup_insert_of_ne _ hpt]

section
variable [Host]

/-- What `_execute` settles before it touches anything: the source's content,
and the two ends. -/
def moveEnds (move : Move) (t : FileTree) : Except ApplicationError (Place × Place) := do
  match ← evidenceOf t move.fromPlace with
  | none => throw (.concurrentMainChange "tasinacak nesne artik yok")
  | some evidence =>
    if evidence.sha256 ≠ move.sha256 then
      throw (.concurrentMainChange "tasinacak nesne beklenen icerik degil")
    let source ← endpoint t move.fromPlace
    let target ← endpoint t move.toPlace
    return (source, target)

def execute (move : Move) (t : FileTree) : Except ApplicationError FileTree := do
  let (source, target) ← moveEnds move t
  return (← linkChild t source target).erase source

/-- Whether a move has to be executed backwards: its object is at the target.
An object that is at neither end is a rollback that cannot be completed. -/
def landed (move : Move) (t : FileTree) : Except ApplicationError Bool := do
  let at' ← evidenceOf t move.toPlace
  if at'.any fun e => e.sha256 == move.sha256 then return true
  let still ← evidenceOf t move.fromPlace
  if still.any fun e => e.sha256 == move.sha256 then return false
  throw (.rollbackFailed "geri alinacak nesne iki ucta da bulunamadi")

def undo (move : Move) (t : FileTree) : Except ApplicationError FileTree := do
  if ← landed move t then execute (reverseMove move) t
  else return t

theorem execute_of_ends {move : Move} {t : FileTree}
    (h : moveEnds move t = .ok (move.fromPlace, move.toPlace)) :
    execute move t = linkChild t move.fromPlace move.toPlace >>= fun linked =>
      .ok (linked.erase move.fromPlace) := by
  simp only [execute, h]
  rfl

theorem moveEnds_ok {move : Move} {t : FileTree} {ends : Place × Place} (hm : move.Canonical) :
    moveEnds move t = .ok ends ↔
      ends = (move.fromPlace, move.toPlace) ∧ Open t move.fromPlace ∧ Open t move.toPlace ∧
        ∃ e, childEvidence t move.fromPlace = .ok (some e) ∧ e.sha256 = move.sha256 := by
  constructor
  · intro h
    obtain ⟨found, he, h⟩ := bind_eq_ok.1 h
    cases found with
    | none => cases h
    | some e =>
      obtain ⟨-, hchild⟩ := evidenceOf_some hm.1 he
      dsimp only at h
      split at h
      · cases h
      · rename_i hsha
        obtain ⟨source, hs, h⟩ := bind_eq_ok.1 h
        obtain ⟨target, ht, h⟩ := bind_eq_ok.1 h
        obtain ⟨rfl, hso⟩ := endpoint_ok hm.1 hs
        obtain ⟨rfl, hto⟩ := endpoint_ok hm.2 ht
        exact ⟨(Except.ok.inj h).symm, hso, hto, e, hchild, not_not.1 hsha⟩
  · rintro ⟨rfl, hso, hto, e, he, hsha⟩
    have hseen := evidenceOf_open hm.1 hso
    simp [moveEnds, hseen, he, hsha, endpoint_open hm.1 hso, endpoint_open hm.2 hto, bind,
      Except.bind, pure, Except.pure]

/-- Everything an executed move says: what it found and what it left. -/
theorem execute_ok {move : Move} {t t' : FileTree} (hm : move.Canonical) :
    execute move t = .ok t' ↔
      Open t move.fromPlace ∧ Open t move.toPlace ∧ t.lookup move.toPlace = none ∧
        ∃ e, childEvidence t move.fromPlace = .ok (some e) ∧ e.sha256 = move.sha256 ∧
          t' = (t.insert move.toPlace (.file e.data e.mode)).erase move.fromPlace := by
  constructor
  · intro h
    obtain ⟨ends, he, h⟩ := bind_eq_ok.1 h
    obtain ⟨rfl, hso, hto, e, hchild, hsha⟩ := (moveEnds_ok hm).1 he
    obtain ⟨linked, hl, h⟩ := bind_eq_ok.1 h
    obtain ⟨bytes, mode, hs, ht, rfl⟩ := linkChild_ok.1 hl
    obtain ⟨hfile, -, -⟩ := childEvidence_some hchild
    obtain ⟨rfl, rfl⟩ : bytes = e.data ∧ mode = e.mode := by
      simpa using hs.symm.trans hfile
    exact ⟨hso, hto, ht, e, hchild, hsha, (Except.ok.inj h).symm⟩
  · rintro ⟨hso, hto, ht, e, hchild, hsha, rfl⟩
    have hends := (moveEnds_ok hm).2 ⟨rfl, hso, hto, e, hchild, hsha⟩
    have hlink := linkChild_ok.2 ⟨_, _, (childEvidence_some hchild).1, ht, rfl⟩
    simp [execute, hends, hlink, bind, Except.bind, pure, Except.pure]

theorem landed_of_target {move : Move} {t : FileTree} {e : Evidence}
    (h : evidenceOf t move.toPlace = .ok (some e)) (hsha : e.sha256 = move.sha256) :
    landed move t = .ok true := by
  simp [landed, h, hsha, bind, Except.bind, pure, Except.pure]

theorem lookup_of_landed {move : Move} {t : FileTree} (hm : move.Canonical)
    (h : landed move t = .ok true) : t.lookup move.toPlace ≠ none := by
  obtain ⟨found, hfound, h⟩ := bind_eq_ok.1 h
  cases found with
  | none =>
    obtain ⟨still, -, h⟩ := bind_eq_ok.1 h
    split at h <;> cases h
  | some e =>
    rw [(childEvidence_some (evidenceOf_some hm.2 hfound).2).1]
    simp

theorem landed_of_source {move : Move} {t : FileTree} {e : Evidence}
    (ht : evidenceOf t move.toPlace = .ok none) (hs : evidenceOf t move.fromPlace = .ok (some e))
    (hsha : e.sha256 = move.sha256) : landed move t = .ok false := by
  simp [landed, ht, hs, hsha, bind, Except.bind, pure, Except.pure]

/-- After a move, its object is at the target and its source is free. -/
theorem executed_ends {move : Move} {t t' : FileTree} (hm : move.Canonical)
    (h : execute move t = .ok t') :
    ∃ e, childEvidence t' move.toPlace = .ok (some e) ∧ e.sha256 = move.sha256 ∧
      t.lookup move.fromPlace = some (.file e.data e.mode) ∧ t.lookup move.toPlace = none ∧
      t' = (t.insert move.toPlace (.file e.data e.mode)).erase move.fromPlace ∧
      Open t' move.fromPlace ∧ Open t' move.toPlace := by
  obtain ⟨hso, hto, ht, e, hchild, hsha, rfl⟩ := (execute_ok hm).1 h
  obtain ⟨hfile, hsize, hhash⟩ := childEvidence_some hchild
  have hne : move.toPlace ≠ move.fromPlace := by
    intro heq
    rw [heq, hfile] at ht
    cases ht
  refine ⟨e, ?_, hsha, hfile, ht, rfl, open_rename hfile ht hso, open_rename hfile ht hto⟩
  have hthere : ((t.insert move.toPlace (.file e.data e.mode)).erase move.fromPlace).lookup
      move.toPlace = some (.file e.data e.mode) := by
    rw [Finmap.lookup_erase_ne hne, Finmap.lookup_insert]
  rw [childEvidence_file hthere hsize, ← hhash]

theorem execute_reverse {move : Move} {t t' : FileTree} (hm : move.Canonical)
    (h : execute move t = .ok t') : execute (reverseMove move) t' = .ok t := by
  obtain ⟨e, hchild, hsha, hfile, hvacant, ht', hso, hto⟩ := executed_ends hm h
  have hfree : t'.lookup move.fromPlace = none := by
    rw [ht']
    exact Finmap.lookup_erase _ _
  refine (execute_ok ⟨hm.2, hm.1⟩).2 ⟨hto, hso, hfree, e, hchild, hsha, ?_⟩
  rw [ht']
  exact (rename_back hfile hvacant).symm

/-- A move that was executed is undone exactly. -/
theorem undo_execute {move : Move} {t t' : FileTree} (hm : move.Canonical)
    (h : execute move t = .ok t') : landed move t' = .ok true ∧ undo move t' = .ok t := by
  obtain ⟨e, hchild, hsha, -, -, -, -, hto⟩ := executed_ends hm h
  have hlanded := landed_of_target ((evidenceOf_open hm.2 hto).trans hchild) hsha
  refine ⟨hlanded, ?_⟩
  simp only [undo, hlanded, bind, Except.bind, if_true]
  exact execute_reverse hm h

/-- A move that has not happened: its object is at its source, and its target
is free. -/
def Pending (move : Move) (t : FileTree) : Prop :=
  (∃ e, evidenceOf t move.fromPlace = .ok (some e) ∧ e.sha256 = move.sha256) ∧
    evidenceOf t move.toPlace = .ok none

theorem landed_pending {move : Move} {t : FileTree} (h : Pending move t) :
    landed move t = .ok false := by
  obtain ⟨⟨e, he, hsha⟩, hnone⟩ := h
  exact landed_of_source hnone he hsha

theorem undo_pending {move : Move} {t : FileTree} (h : Pending move t) :
    undo move t = .ok t := by
  simp [undo, landed_pending h, bind, Except.bind, pure, Except.pure]

theorem lookup_of_evidence_none {t : FileTree} {p : Place} (hp : p.Canonical) (ho : Open t p)
    (h : evidenceOf t p = .ok none) : t.lookup p = none := by
  rw [evidenceOf_open hp ho] at h
  unfold childEvidence at h
  split at h
  · assumption
  · split at h <;> cases h
  · cases h

/-- A move that has not happened can happen, where its target's directory is
there. -/
theorem execute_pending {move : Move} {t : FileTree} (hm : move.Canonical) (h : Pending move t)
    (ho : Open t move.toPlace) : ∃ t', execute move t = .ok t' := by
  obtain ⟨⟨e, he, hsha⟩, hnone⟩ := h
  obtain ⟨hfrom, hchild⟩ := evidenceOf_some hm.1 he
  exact ⟨_, (execute_ok hm).2
    ⟨hfrom, ho, lookup_of_evidence_none hm.2 ho hnone, e, hchild, hsha, rfl⟩⟩

theorem execute_frame {move : Move} {t t' : FileTree} (hm : move.Canonical)
    (h : execute move t = .ok t') {p : Place} (hf : p ≠ move.fromPlace) (ht : p ≠ move.toPlace) :
    t'.lookup p = t.lookup p := by
  obtain ⟨-, -, -, e, -, -, rfl⟩ := (execute_ok hm).1 h
  rw [Finmap.lookup_erase_ne hf, Finmap.lookup_insert_of_ne _ ht]

/-- Moves carry files, so the directories stay. -/
theorem runAll_directory {moves : List Move} {t t' : FileTree} (hm : ∀ m ∈ moves, m.Canonical)
    (h : runAll execute moves t = .ok t') {path : Path}
    (hdir : t.lookup (.repo path) = some .dir) : t'.lookup (.repo path) = some .dir := by
  induction moves generalizing t with
  | nil => rwa [← Except.ok.inj h]
  | cons m rest ih =>
    obtain ⟨t₁, h₁, h₂⟩ := bind_eq_ok.1 h
    refine ih (fun n hn => hm n (List.mem_cons_of_mem _ hn)) h₂ ?_
    obtain ⟨-, -, hvacant, e, hchild, -, -⟩ := (execute_ok (hm m (by simp))).1 h₁
    have hfile := (childEvidence_some hchild).1
    rw [execute_frame (hm m (by simp)) h₁, hdir]
    · intro heq
      rw [← heq, hdir] at hfile
      cases hfile
    · intro heq
      rw [← heq, hdir] at hvacant
      cases hvacant

theorem runAll_frame {moves : List Move} {t t' : FileTree} (hm : ∀ m ∈ moves, m.Canonical)
    (h : runAll execute moves t = .ok t') {p : Place}
    (hp : ∀ m ∈ moves, p ≠ m.fromPlace ∧ p ≠ m.toPlace) : t'.lookup p = t.lookup p := by
  induction moves generalizing t with
  | nil => rw [Except.ok.inj h]
  | cons m rest ih =>
    obtain ⟨t₁, h₁, h₂⟩ := bind_eq_ok.1 h
    rw [ih (fun n hn => hm n (List.mem_cons_of_mem _ hn)) h₂
      (fun n hn => hp n (List.mem_cons_of_mem _ hn))]
    exact execute_frame (hm m (by simp)) h₁ (hp m (by simp)).1 (hp m (by simp)).2

end

end RagPipeline.Application
