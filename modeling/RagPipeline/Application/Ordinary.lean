import RagPipeline.Application.Body

/-! # Refusals that are not a failed rollback

`RollbackFailed` says that nobody knows what the tree is. Nothing before the
handler of `_apply` raises it: every function the forward run asks refuses
with one of the ordinary types. -/

set_option autoImplicit false

namespace RagPipeline.Application
open UndoLog Effects Effects.Program

def ApplicationError.isRollbackFailed : ApplicationError → Bool
  | .rollbackFailed _ => true
  | _ => false

def Ordinary {α : Type} (x : Except ApplicationError α) : Prop :=
  ∀ e, x = .error e → e.isRollbackFailed = false

theorem ordinary_ok {α : Type} (a : α) : Ordinary (.ok a : Except ApplicationError α) := by
  rintro e ⟨⟩

theorem ordinary_error {α : Type} {e : ApplicationError} (h : e.isRollbackFailed = false) :
    Ordinary (.error e : Except ApplicationError α) := by
  rintro _ ⟨⟩
  exact h

theorem ordinary_bind {α β : Type} {x : Except ApplicationError α}
    {f : α → Except ApplicationError β} (hx : Ordinary x) (hf : ∀ a, Ordinary (f a)) :
    Ordinary (x >>= f) := by
  cases x with
  | ok a => exact hf a
  | error e => exact ordinary_error (hx e rfl)

theorem ordinary_validateChildName (name : String) : Ordinary (validateChildName name) := by
  unfold validateChildName
  split
  · exact ordinary_error rfl
  split
  · exact ordinary_error rfl
  · exact ordinary_ok _

theorem ordinary_split (relative : Path) : Ordinary (split relative) := by
  have hforM : ∀ l : Path, Ordinary (forM l validateChildName) := by
    intro l
    induction l with
    | nil => exact ordinary_ok _
    | cons n l ih =>
      rw [List.forM_cons]
      exact ordinary_bind (ordinary_validateChildName n) fun _ => ih
  unfold split
  dsimp only
  split
  · exact ordinary_error rfl
  · exact ordinary_bind (hforM _) fun _ => ordinary_ok _

theorem ordinary_walk (t : FileTree) (walked rest : Path) : Ordinary (walk t walked rest) := by
  induction rest generalizing walked with
  | nil => exact ordinary_ok _
  | cons name rest ih =>
    unfold walk
    split
    · exact ih _
    · exact ordinary_error rfl
    · exact ordinary_ok _

theorem ordinary_directory (t : FileTree) (parts : Path) : Ordinary (directory t parts) := by
  refine ordinary_bind (ordinary_walk t [] parts) fun there => ?_
  cases there with
  | true => exact ordinary_ok _
  | false => exact ordinary_error rfl

theorem ordinary_endpoint (t : FileTree) (p : Place) : Ordinary (endpoint t p) := by
  cases p with
  | hold slot =>
    simp only [endpoint]
    split
    · exact ordinary_ok _
    · exact ordinary_error rfl
  | repo path =>
    refine ordinary_bind (ordinary_split path) fun parts => ?_
    exact ordinary_bind (ordinary_directory t _) fun _ => ordinary_ok _

theorem ordinary_linkChild (t : FileTree) (source target : Place) :
    Ordinary (linkChild t source target) := by
  unfold linkChild
  split
  · split
    · exact ordinary_error rfl
    · exact ordinary_ok _
  · exact ordinary_error rfl

theorem ordinary_missingParents (main : FileTree) (missing : List Path) (walked rest : Path) :
    Ordinary (missingParents main missing walked rest) := by
  induction rest generalizing missing walked with
  | nil => exact ordinary_ok _
  | cons name rest ih =>
    unfold missingParents
    dsimp only
    split
    · exact ih _ _
    split
    · exact ih _ _
    · refine ordinary_bind (ordinary_directory main walked) fun _ => ?_
      split
      · exact ih _ _
      · exact ih _ _
      · exact ordinary_error rfl

theorem ordinary_missingDirectoriesFrom (main : FileTree) (missing wanted : List Path) :
    Ordinary (missingDirectoriesFrom main missing wanted) := by
  induction wanted generalizing missing with
  | nil => exact ordinary_ok _
  | cons parts rest ih =>
    exact ordinary_bind (ordinary_missingParents main missing [] parts) fun _ => ih _

section
variable [Host]

theorem ordinary_childEvidence (t : FileTree) (p : Place) : Ordinary (childEvidence t p) := by
  unfold childEvidence
  split
  · exact ordinary_ok _
  · split
    · exact ordinary_ok _
    · exact ordinary_error rfl
  · exact ordinary_error rfl

theorem ordinary_fileEvidence (t : FileTree) (path : Path) : Ordinary (fileEvidence t path) := by
  refine ordinary_bind (ordinary_split path) fun parts => ?_
  refine ordinary_bind (ordinary_walk t [] parts.dropLast) fun there => ?_
  cases there with
  | true => exact ordinary_childEvidence t _
  | false => exact ordinary_ok _

theorem ordinary_evidenceOf (t : FileTree) (p : Place) : Ordinary (evidenceOf t p) := by
  cases p with
  | repo path => exact ordinary_fileEvidence t path
  | hold slot =>
    simp only [evidenceOf]
    split
    · exact ordinary_childEvidence t _
    · exact ordinary_error rfl

theorem ordinary_baselineTarget (reference : FileTree) (change : Change)
    (current : Option Evidence) : Ordinary (baselineTarget reference change current) := by
  refine ordinary_bind (ordinary_fileEvidence reference change.path) fun baseline => ?_
  cases baseline with
  | none => exact ordinary_error rfl
  | some baseline =>
    cases current with
    | none => exact ordinary_error rfl
    | some current =>
      dsimp only
      split
      · exact ordinary_error rfl
      split
      · refine ordinary_bind ?_ fun same => ?_
        · unfold cleanEquivalent
          split
          · exact ordinary_ok _
          · exact ordinary_error rfl
        · cases same with
          | true => exact ordinary_ok _
          | false => exact ordinary_error rfl
      · exact ordinary_ok _

theorem ordinary_planChange (main reference : FileTree) (slot index : ℕ) (change : Change) :
    Ordinary (planChange main reference slot index change) := by
  refine ordinary_bind (ordinary_split _) fun parts => ?_
  refine ordinary_bind (ordinary_fileEvidence main _) fun current => ?_
  split
  · cases current with
    | none => exact ordinary_ok _
    | some _ => exact ordinary_error rfl
  · exact ordinary_bind (ordinary_baselineTarget reference change current) fun _ => ordinary_ok _
  · exact ordinary_bind (ordinary_baselineTarget reference change current) fun _ => ordinary_ok _

theorem ordinary_planFrom (main reference : FileTree) (slot index : ℕ) (changes : List Change) :
    Ordinary (planFrom main reference slot index changes) := by
  induction changes generalizing slot index with
  | nil => exact ordinary_ok _
  | cons change rest ih =>
    refine ordinary_bind (ordinary_planChange main reference slot index change) fun here => ?_
    exact ordinary_bind (ih _ _) fun _ => ordinary_ok _

theorem ordinary_moveEnds (move : Move) (t : FileTree) : Ordinary (moveEnds move t) := by
  refine ordinary_bind (ordinary_evidenceOf t _) fun found => ?_
  cases found with
  | none => exact ordinary_error rfl
  | some e =>
    dsimp only
    split
    · exact ordinary_error rfl
    · refine ordinary_bind (ordinary_endpoint t _) fun source => ?_
      exact ordinary_bind (ordinary_endpoint t _) fun _ => ordinary_ok _

end

/-- A program that raises ordinary refusals only. -/
def Refuses {α : Type} (p : App α) : Prop :=
  ∀ s, p.Ensures s (fun _ => True) (fun _ _ => True) fun e _ => e.isRollbackFailed = false

theorem refuses_bind {α β : Type} {p : App α} {f : α → App β} (hp : Refuses p)
    (hf : ∀ a, Refuses (f a)) : Refuses (p >>= f) :=
  fun s => ensures_bind (hp s) fun a t _ => hf a t

theorem refuses_pure {α : Type} (a : α) : Refuses (Pure.pure a : App α) :=
  fun _ => ensures_return a trivial

theorem refuses_read : Refuses (Program.read : App Process) := fun _ => ensures_read trivial

theorem refuses_assign (f : Process → Process) : Refuses (assign f : App Unit) :=
  fun _ => ensures_assign f trivial

theorem refuses_raise {α : Type} {e : ApplicationError} (h : e.isRollbackFailed = false) :
    Refuses (raise e : App α) := fun _ => ensures_raise e h

theorem refuses_ask {α : Type} {f : Process → Except ApplicationError α}
    (h : ∀ s, Ordinary (f s)) : Refuses (ask f) :=
  fun s => ensures_ask f (fun _ _ => trivial) (h s)

theorem refuses_onDisk {f : Disk → Except ApplicationError Disk} (h : ∀ d, Ordinary (f d)) :
    Refuses (onDisk f) :=
  fun s => ensures_onDisk f (fun _ _ => ⟨trivial, trivial⟩) (h s.disk)

theorem refuses_onTree {f : FileTree → Except ApplicationError FileTree}
    (h : ∀ t, Ordinary (f t)) : Refuses (onTree f) :=
  fun s => ensures_onTree f (fun _ _ => ⟨trivial, trivial⟩) (h s.disk.tree)

theorem refuses_askTree {α : Type} {f : FileTree → Except ApplicationError α}
    (h : ∀ t, Ordinary (f t)) : Refuses (askTree f) :=
  refuses_ask fun s => h s.disk.tree

theorem refuses_mayRaise (fault : Option Step) (step : Step) : Refuses (mayRaise fault step) :=
  fun _ => ensures_mayRaise (fun _ => trivial) fun _ => rfl

theorem refuses_forEach {β : Type} (l : List β) {body : β → App Unit}
    (h : ∀ b, Refuses (body b)) : Refuses (forEach l body) := by
  induction l with
  | nil => exact refuses_pure ()
  | cons b rest ih => exact refuses_bind (h b) fun _ => ih

theorem refuses_currentPayload (payload : Payload) : Refuses (currentPayload payload) :=
  refuses_bind refuses_read fun _ => refuses_pure _

theorem refuses_writeJournal (fault : Option Step) (payload : Payload) :
    Refuses (writeJournal fault payload) := by
  refine refuses_bind (refuses_mayRaise fault _) fun _ => ?_
  refine refuses_bind (refuses_onDisk fun d => ?_) fun _ => refuses_mayRaise fault _
  split
  · exact ordinary_ok _
  · exact ordinary_error rfl

theorem refuses_advanceJournal (fault : Option Step) (payload : Payload)
    (target : JournalState) : Refuses (advanceJournal fault payload target) := by
  unfold advanceJournal
  split
  · exact refuses_raise rfl
  · refine refuses_bind (refuses_writeJournal fault _) fun _ => ?_
    exact refuses_bind (refuses_assign _) fun _ => refuses_pure _

theorem refuses_createDirectory (fault : Option Step) (walked rest : Path) :
    Refuses (createDirectory fault walked rest) := by
  induction rest generalizing walked with
  | nil => exact refuses_pure ()
  | cons name rest ih =>
    refine refuses_bind refuses_read fun s => ?_
    split
    · exact ih _
    · exact refuses_raise rfl
    · refine refuses_bind (refuses_mayRaise fault _) fun _ => ?_
      refine refuses_bind (refuses_onTree fun _ => ordinary_ok _) fun _ => ?_
      exact refuses_bind (refuses_mayRaise fault _) fun _ => ih _

section
variable [Host]

theorem refuses_stageFile (fault : Option Step) (implementer : FileTree) (slot : Slot)
    (change : Change) : Refuses (stageFile fault implementer slot change) := by
  have hwrite : ∀ phase n, Refuses (writeSlot fault slot phase n) := fun phase n =>
    refuses_bind (refuses_mayRaise fault _) fun _ => refuses_onTree fun _ => ordinary_ok _
  refine refuses_bind (refuses_mayRaise fault _) fun _ => ?_
  refine refuses_bind (refuses_ask fun s => ?_) fun source => ?_
  · split
    · split
      · exact ordinary_ok _
      · exact ordinary_error rfl
    · exact ordinary_error rfl
    · rename_i e he
      exact ordinary_error (ordinary_fileEvidence implementer change.path e he)
  refine refuses_bind (refuses_mayRaise fault _) fun _ => ?_
  refine refuses_bind (refuses_onTree fun t => ?_) fun _ => ?_
  · split
    · exact ordinary_ok _
    · exact ordinary_error rfl
  refine refuses_bind (hwrite _ _) fun _ => refuses_bind (hwrite _ _) fun _ => ?_
  refine refuses_bind (refuses_mayRaise fault _) fun _ => refuses_ask fun s => ?_
  split
  · split
    · exact ordinary_ok _
    · exact ordinary_error rfl
  · exact ordinary_error rfl
  · rename_i e he
    exact ordinary_error (ordinary_childEvidence _ _ e he)

theorem refuses_executeMove (fault : Option Step) (move : Move) :
    Refuses (executeMove fault move) := by
  refine refuses_bind (refuses_askTree (ordinary_moveEnds move)) fun ends => ?_
  refine refuses_bind (refuses_mayRaise fault _) fun _ => ?_
  refine refuses_bind (refuses_onTree fun t => ordinary_linkChild t _ _) fun _ => ?_
  refine refuses_bind (refuses_mayRaise fault _) fun _ => ?_
  exact refuses_onTree fun _ => ordinary_ok _

theorem refuses_registerApplication (fault : Option Step) (candidate : Candidate) (call : Call) :
    Refuses (registerApplication fault candidate call) := by
  refine refuses_bind (refuses_askTree fun t => ordinary_planFrom t _ 0 0 _) fun p => ?_
  refine refuses_bind (refuses_askTree fun t => ordinary_missingDirectoriesFrom t [] _)
    fun directories => ?_
  refine refuses_bind (refuses_mayRaise fault _) fun _ => ?_
  refine refuses_bind (refuses_onDisk fun d => ?_) fun _ => ?_
  · split
    · exact ordinary_error rfl
    · exact ordinary_ok _
  refine refuses_bind (refuses_assign _) fun _ => ?_
  refine refuses_bind (refuses_writeJournal fault _) fun _ => ?_
  refine refuses_bind (refuses_mayRaise fault _) fun _ => ?_
  refine refuses_bind (refuses_ask fun s => ordinary_bind ?_ fun back => ?_) fun _ => refuses_pure _
  · unfold readJournal
    split
    · exact ordinary_error rfl
    · split
      · split
        · exact ordinary_ok _
        · exact ordinary_error rfl
      · exact ordinary_error rfl
  · split
    · exact ordinary_error rfl
    · exact ordinary_ok _

theorem refuses_applyBody (fault : Option Step) (candidate : Candidate) (call : Call) :
    Refuses (applyBody fault candidate call) := by
  refine refuses_bind (refuses_registerApplication fault candidate call) fun ⟨p, payload⟩ => ?_
  refine refuses_bind ?_ fun _ => refuses_bind ?_ fun _ => ?_
  · refine refuses_bind (refuses_mayRaise fault _) fun _ => ?_
    refine refuses_bind (refuses_onDisk fun _ => ordinary_ok _) fun _ => ?_
    refine refuses_bind (refuses_mayRaise fault _) fun _ => ?_
    exact refuses_bind (refuses_assign _) fun _ => refuses_mayRaise fault _
  · refine refuses_bind (refuses_forEach _ fun _ => refuses_stageFile fault _ _ _) fun _ => ?_
    refine refuses_bind (refuses_advanceJournal fault _ _) fun _ => ?_
    refine refuses_bind (refuses_forEach _ fun d => ?_) fun _ => ?_
    · exact refuses_bind (refuses_ask fun _ => ordinary_split d) fun _ =>
        refuses_createDirectory fault _ _
    refine refuses_bind (refuses_advanceJournal fault _ _) fun _ => ?_
    refine refuses_forEach _ fun move => refuses_bind (refuses_assign _) fun _ => ?_
    exact refuses_bind (refuses_writeJournal fault _) fun _ => refuses_executeMove fault move
  · refine refuses_bind (refuses_mayRaise fault _) fun _ => ?_
    refine refuses_bind (refuses_mayRaise fault _) fun _ => ?_
    refine refuses_bind (refuses_askTree fun t => ?_) fun _ => ?_
    · split
      · exact ordinary_ok _
      · exact ordinary_error rfl
    refine refuses_bind (refuses_currentPayload _) fun _ => ?_
    exact refuses_bind (refuses_advanceJournal fault _ _) fun _ => refuses_pure _

end

end RagPipeline.Application
