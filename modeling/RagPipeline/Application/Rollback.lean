import RagPipeline.Application.Apply

/-! # What a rollback does

The rules of the single steps, and from them two facts about `_rollback`. On a
disk whose announced prefix can be undone and whose planned directories are all
there it ends ROLLED_BACK with the view of the start, and it can only die in
ROLLING_BACK before that. On a disk that lacks a planned directory, or whose
last announced rename is half done, it ends FAILED, and so does every later
one. -/

set_option autoImplicit false

namespace RagPipeline.Application
open UndoLog Effects Effects.Program

section Steps

variable {s : Process} {C : Process → Prop} {E : ApplicationError → Process → Prop}
  {fault : Option Step}

theorem ensures_mayRaise {Q : Unit → Process → Prop} {step : Step}
    (hq : fault ≠ some step → Q () s) (he : fault = some step → E .interrupted s) :
    (mayRaise fault step).Ensures s C Q E := by
  unfold mayRaise
  split
  · rename_i h
    exact ensures_raise _ (he h)
  · rename_i h
    exact ensures_pure _ (hq h)

theorem ensures_onDisk {Q : Unit → Process → Prop} (f : Disk → Except ApplicationError Disk)
    (hok : ∀ d, f s.disk = .ok d → C { s with disk := d } ∧ Q () { s with disk := d })
    (herr : ∀ e, f s.disk = .error e → E e s) : (onDisk f).Ensures s C Q E := by
  refine ensures_commit _ (fun s' h => ?_) (fun e h => ?_)
  · split at h
    · rename_i d hd
      obtain rfl := Except.ok.inj h
      exact hok d hd
    · cases h
  · split at h
    · cases h
    · rename_i e' he'
      obtain rfl := Except.error.inj h
      exact herr _ he'

theorem ensures_onTree {Q : Unit → Process → Prop}
    (f : FileTree → Except ApplicationError FileTree)
    (hok : ∀ t, f s.disk.tree = .ok t → C (s.withTree t) ∧ Q () (s.withTree t))
    (herr : ∀ e, f s.disk.tree = .error e → E e s) : (onTree f).Ensures s C Q E := by
  refine ensures_onDisk _ (fun d h => ?_) (fun e h => ?_)
  · split at h
    · rename_i t ht
      obtain rfl := Except.ok.inj h
      exact hok t ht
    · cases h
  · split at h
    · cases h
    · rename_i e' he'
      obtain rfl := Except.error.inj h
      exact herr _ he'

theorem ensures_askTree {α : Type} {Q : α → Process → Prop}
    (f : FileTree → Except ApplicationError α) (hok : ∀ a, f s.disk.tree = .ok a → Q a s)
    (herr : ∀ e, f s.disk.tree = .error e → E e s) : (askTree f).Ensures s C Q E :=
  ensures_ask _ hok herr

theorem ensures_setPayload {Q : Unit → Process → Prop} {payload : Payload}
    (h : Q () { s with payload := some payload }) : (setPayload payload).Ensures s C Q E :=
  ensures_assign _ h

/-- A journal write, which the host may interrupt on either side of the moment
the new text gets its name. -/
theorem ensures_writeJournal {Q : Unit → Process → Prop} {payload : Payload}
    (hacc : payload.schemaAccepts = true) (hC : C (s.withJournal (some payload)))
    (hQ : (∀ b, fault ≠ some (.journal payload.state payload.appliedIndex b)) →
      Q () (s.withJournal (some payload)))
    (hE : ∀ b, fault = some (.journal payload.state payload.appliedIndex b) →
      E .interrupted s ∧ E .interrupted (s.withJournal (some payload))) :
    (writeJournal fault payload).Ensures s C Q E := by
  unfold writeJournal
  refine ensures_bind (R := fun _ t => s = t ∧
    fault ≠ some (.journal payload.state payload.appliedIndex false))
    (ensures_mayRaise (fun h => ⟨rfl, h⟩) (fun h => (hE _ h).1)) ?_
  rintro _ _ ⟨rfl, hfirst⟩
  refine ensures_bind (R := fun _ t => t = s.withJournal (some payload)) ?_ ?_
  · refine ensures_onDisk _ (fun d h => ?_) (fun e h => ?_)
    · simp only [hacc, if_true] at h
      obtain rfl := Except.ok.inj h
      exact ⟨hC, rfl⟩
    · simp [hacc] at h
  · rintro _ _ rfl
    refine ensures_mayRaise (fun h => hQ fun b => ?_) (fun h => (hE _ h).2)
    cases b with
    | false => exact hfirst
    | true => exact h

theorem ensures_advanceJournal {Q : Payload → Process → Prop} {payload : Payload}
    {target : JournalState} (hallowed : target ∈ payload.state.allowedJournalTransitions)
    (hacc : payload.schemaAccepts = true)
    (hC : C (s.withJournal (some { payload with state := target })))
    (hQ : (∀ b, fault ≠ some (.journal target payload.appliedIndex b)) →
      Q { payload with state := target }
      { s.withJournal (some { payload with state := target }) with
        payload := some { payload with state := target } })
    (hE : ∀ b, fault = some (.journal target payload.appliedIndex b) →
      E .interrupted s ∧ E .interrupted (s.withJournal (some { payload with state := target }))) :
    (advanceJournal fault payload target).Ensures s C Q E := by
  unfold advanceJournal
  rw [if_neg (not_not.2 hallowed)]
  refine ensures_bind (R := fun _ t => t = s.withJournal (some { payload with state := target }) ∧
    ∀ b, fault ≠ some (.journal target payload.appliedIndex b))
    (ensures_writeJournal hacc hC (fun h => ⟨rfl, h⟩) hE) ?_
  rintro _ _ ⟨rfl, hfault⟩
  exact ensures_bind (R := fun _ t => t = { s.withJournal (some { payload with state := target })
    with payload := some { payload with state := target } }) (ensures_setPayload rfl)
    (by rintro _ _ rfl; exact ensures_return _ (hQ hfault))

variable [Host]

/-- One move as two effects. Where it raises before its link nothing has
happened; where it raises at its unlink both names are taken. -/
theorem ensures_executeMove {Q : Unit → Process → Prop} {move : Move} (hm : move.Canonical)
    (hstay : ∀ e, ((∀ t', execute move s.disk.tree ≠ .ok t') ∨
      fault = some (.link move.index)) → E e s)
    (hlink : ∀ linked, linkChild s.disk.tree move.fromPlace move.toPlace = .ok linked →
      execute move s.disk.tree = .ok (linked.erase move.fromPlace) →
      C (s.withTree linked) ∧
      (fault = some (.unlink move.index) → E .interrupted (s.withTree linked)) ∧
      (fault ≠ some (.unlink move.index) → C (s.withTree (linked.erase move.fromPlace)) ∧
        Q () (s.withTree (linked.erase move.fromPlace)))) :
    (executeMove fault move).Ensures s C Q E := by
  unfold executeMove
  refine ensures_bind (R := fun ends t => s = t ∧ moveEnds move s.disk.tree = .ok ends)
    (ensures_askTree _ (fun ends h => ⟨rfl, h⟩) (fun e h => hstay e (.inl fun t' hrun => ?_))) ?_
  · obtain ⟨ends, hends, -⟩ := bind_eq_ok.1 hrun
    rw [h] at hends
    cases hends
  rintro ⟨source, target⟩ _ ⟨rfl, hends⟩
  obtain ⟨hpair, -⟩ := (moveEnds_ok hm).1 hends
  obtain ⟨rfl, rfl⟩ := Prod.mk.inj hpair
  refine ensures_bind (R := fun _ t => s = t)
    (ensures_mayRaise (fun _ => rfl) (fun h => hstay _ (.inr h))) ?_
  rintro _ _ rfl
  refine ensures_bind (R := fun _ t => ∃ linked, t = s.withTree linked ∧
    linkChild s.disk.tree move.fromPlace move.toPlace = .ok linked) ?_ ?_
  · refine ensures_onTree _ (fun linked h => ?_) (fun e h => hstay e (.inl fun t' hrun => ?_))
    · refine ⟨(hlink linked h ?_).1, linked, rfl, h⟩
      exact (execute_of_ends hends).trans (bind_eq_ok.2 ⟨linked, h, rfl⟩)
    · rw [execute_of_ends hends, h] at hrun
      cases hrun
  · rintro _ _ ⟨linked, rfl, h⟩
    obtain ⟨-, hraise, hdone⟩ := hlink linked h
      ((execute_of_ends hends).trans (bind_eq_ok.2 ⟨linked, h, rfl⟩))
    refine ensures_bind (R := fun _ t => t = s.withTree linked ∧
      fault ≠ some (.unlink move.index))
      (ensures_mayRaise (fun hne => ⟨rfl, hne⟩) hraise) ?_
    rintro _ _ ⟨rfl, hne⟩
    refine ensures_onTree _ (fun t ht => ?_) (fun e he => by cases he)
    obtain rfl := Except.ok.inj ht
    exact hdone hne

/-- An undo that succeeds on the map succeeds as a program. -/
theorem ensures_undoMove {Q : Unit → Process → Prop} {move : Move} (hm : move.Canonical)
    {t' : FileTree} (h : undo move s.disk.tree = .ok t') (hC : ∀ t, C (s.withTree t))
    (hQ : Q () (s.withTree t')) : (undoMove move).Ensures s C Q E := by
  obtain ⟨back, hback, h⟩ := bind_eq_ok.1 h
  unfold undoMove
  refine ensures_bind (R := fun b t => s = t ∧ back = b) (ensures_askTree _ (fun b hb => ?_)
    (fun e he => by rw [hback] at he; cases he)) ?_
  · exact ⟨rfl, Except.ok.inj (hback.symm.trans hb)⟩
  rintro _ _ ⟨rfl, rfl⟩
  cases back with
  | false =>
    obtain rfl := Except.ok.inj h
    exact ensures_pure _ hQ
  | true =>
    have hrun : execute (reverseMove move) s.disk.tree = .ok t' := h
    refine ensures_executeMove ⟨hm.2, hm.1⟩ (fun e he => ?_)
      (fun linked _ hlinked => ⟨hC linked, by simp, fun _ => ⟨hC _, ?_⟩⟩)
    · rcases he with he | he
      · exact absurd hrun (he t')
      · cases he
    · obtain rfl := Except.ok.inj (hlinked.symm.trans hrun)
      exact hQ

end Steps

def rolling (payload : Payload) (state : JournalState) (n : ℕ) : Payload :=
  { payload with state := state, appliedIndex := n }

/-- A process in its rollback: the same slots and holder, some tree, and a
journal that says how far the undo is. -/
def rollingProcess (s : Process) (payload : Payload) (state : JournalState) (t : FileTree)
    (n : ℕ) : Process :=
  ⟨{ s.disk with tree := t, journal := some (rolling payload state n) },
    some (rolling payload state n), s.slotsTree⟩

def rollingDisk (disk : Disk) (payload : Payload) (state : JournalState) (t : FileTree)
    (n : ℕ) : Disk :=
  { disk with tree := t, journal := some (rolling payload state n) }

section
variable {s : Process} {payload : Payload} {C : Disk → Prop}
  {E : ApplicationError → Process → Prop}

theorem ensures_removeDirectories {f : View} {t : FileTree} {n : ℕ} {directories : List Path}
    (hdirs : ∀ d ∈ directories, Canonical d) (hf : Closed f) (ho : Outermost f directories)
    (hview : view t = addDirectories directories f)
    (hC : ∀ t n, C (rollingDisk s.disk payload .rollingBack t n)) :
    (removeDirectories directories).Ensures (rollingProcess s payload .rollingBack t n)
      (fun s' => C s'.disk)
      (fun _ s' => ∃ t', view t' = f ∧ s' = rollingProcess s payload .rollingBack t' n) E := by
  refine ensures_forEach_reverse (I := fun rest s' => ∃ t, view t = addDirectories rest f ∧
    s' = rollingProcess s payload .rollingBack t n) ⟨t, hview, rfl⟩ ?_
  rintro rest d hp _ ⟨t, ht, rfl⟩
  have hprefix : Outermost f (rest ++ [d]) := by
    rw [List.prefix_iff_eq_take.1 hp]
    exact outermost_take ho _
  obtain ⟨t', hrun, ht'⟩ :=
    removeDirectory_last hf hprefix (hdirs d (hp.subset (by simp))) ht
  refine ensures_onTree _ (fun t₁ h₁ => ?_) (fun e he => ?_)
  · obtain rfl := Except.ok.inj (hrun.symm.trans h₁)
    exact ⟨hC _ _, t', ht', rfl⟩
  · cases hrun.symm.trans he

variable [Host]

theorem ensures_undoMoves {t t₀ : FileTree} {n : ℕ} (hacc : payload.schemaAccepts = true)
    (hmoves : ∀ m ∈ payload.moves, m.Canonical)
    (hundo : undoAll undo (payload.moves.take n) t = .ok t₀)
    (hC : ∀ t n, C (rollingDisk s.disk payload .rollingBack t n)) :
    (undoMoves (rolling payload .rollingBack n) payload.moves).Ensures
      (rollingProcess s payload .rollingBack t n) (fun s' => C s'.disk)
      (fun _ s' => ∃ n', s' = rollingProcess s payload .rollingBack t₀ n') E := by
  refine ensures_mono (C := fun s' => C s'.disk) (E := E)
    (Q := fun _ s' => ∃ t n', undoAll undo [] t = .ok t₀ ∧
      s' = rollingProcess s payload .rollingBack t n') ?_ (fun _ h => h) ?_ (fun _ _ h => h)
  · refine ensures_forEach_reverse (I := fun rest s' => ∃ t n', undoAll undo rest t = .ok t₀ ∧
      s' = rollingProcess s payload .rollingBack t n') ⟨_, _, hundo, rfl⟩ ?_
    rintro rest m hp _ ⟨t, n', hrest, rfl⟩
    have hm : m.Canonical := hmoves m (List.mem_of_mem_take (hp.subset (by simp)))
    rw [undoAll_append] at hrest
    obtain ⟨t', hm', hrest⟩ := bind_eq_ok.1 hrest
    have hone : undo m t = .ok t' := by simpa [undoAll, bind, Except.bind] using hm'
    refine ensures_bind (R := fun _ s' => s' = rollingProcess s payload .rollingBack t' n')
      (ensures_undoMove hm hone (fun t => hC t _) rfl) ?_
    rintro _ _ rfl
    refine ensures_bind (R := fun _ s' => s' =
      { rollingProcess s payload .rollingBack t' n' with
        payload := some (rolling payload .rollingBack m.index) }) (ensures_setPayload rfl) ?_
    rintro _ _ rfl
    exact ensures_writeJournal hacc (hC _ _) (fun _ => ⟨t', m.index, hrest, rfl⟩) (by simp)
  · rintro _ _ ⟨t, n', h, rfl⟩
    obtain rfl := Except.ok.inj h
    exact ⟨n', rfl⟩

/-- `_rollback` where everything it needs is there. -/
theorem rollback_restores {f : View} {t₀ : FileTree}
    (hallowed : .rollingBack ∈ payload.state.allowedJournalTransitions)
    (hacc : payload.schemaAccepts = true) (hmoves : ∀ m ∈ payload.moves, m.Canonical)
    (hdirs : ∀ d ∈ payload.directories, Canonical d)
    (hundo : undoAll undo (payload.moves.take payload.appliedIndex) s.disk.tree = .ok t₀)
    (hf : Closed f) (ho : Outermost f payload.directories)
    (hview : view t₀ = addDirectories payload.directories f)
    (hC : ∀ t n, C (rollingDisk s.disk payload .rollingBack t n))
    (hdone : ∀ t n, view t = f → C (rollingDisk s.disk payload .rolledBack t n)) :
    (rollback payload payload.moves).Ensures s (fun s' => C s'.disk)
      (fun _ s' => ∃ t n, view t = f ∧ s' = rollingProcess s payload .rolledBack t n) E := by
  unfold rollback
  refine ensures_bind (R := fun p s' => p = rolling payload .rollingBack payload.appliedIndex ∧
    s' = rollingProcess s payload .rollingBack s.disk.tree payload.appliedIndex)
    (ensures_advanceJournal hallowed hacc (hC _ _) (fun _ => ⟨rfl, rfl⟩) (by simp)) ?_
  rintro _ _ ⟨rfl, rfl⟩
  refine ensures_bind (R := fun _ s' => ∃ t n, view t = f ∧
    s' = rollingProcess s payload .rollingBack t n) ?_ ?_
  · refine ensures_rescue (F := fun _ _ => False) ?_ (fun _ _ h => h.elim)
    refine ensures_bind (ensures_undoMoves hacc hmoves hundo hC) ?_
    rintro _ _ ⟨n, rfl⟩
    exact ensures_mono (ensures_removeDirectories hdirs hf ho hview hC) (fun _ h => h)
      (fun _ _ ⟨t, ht, hs⟩ => ⟨t, n, ht, hs⟩) (fun _ _ h => h)
  · rintro _ _ ⟨t, n, ht, rfl⟩
    refine ensures_bind (R := fun p s' => p = rolling payload .rollingBack n ∧
      s' = rollingProcess s payload .rollingBack t n) ?_ ?_
    · exact ensures_bind (R := fun u s' => u = rollingProcess s payload .rollingBack t n ∧ s' = u)
        (ensures_read ⟨rfl, rfl⟩) (by rintro _ _ ⟨rfl, rfl⟩; exact ensures_return _ ⟨rfl, rfl⟩)
    · rintro _ _ ⟨rfl, rfl⟩
      refine ensures_bind (R := fun _ s' => s' = rollingProcess s payload .rolledBack t n)
        (ensures_advanceJournal (by simp [rolling, JournalState.allowedJournalTransitions]) hacc
        (hdone _ _ ht) (fun _ => rfl) (by simp)) ?_
      rintro _ _ rfl
      exact ensures_return _ ⟨t, n, ht, rfl⟩

/-- `_rollback` where its body cannot end: the journal ends FAILED, with what
the body left behind it. -/
theorem rollback_fails {K : FileTree → ℕ → Prop}
    (hallowed : .rollingBack ∈ payload.state.allowedJournalTransitions)
    (hacc : payload.schemaAccepts = true)
    (hbody : (undoMoves (rolling payload .rollingBack payload.appliedIndex) payload.moves >>=
      fun _ => removeDirectories payload.directories).Ensures
        (rollingProcess s payload .rollingBack s.disk.tree payload.appliedIndex)
        (fun s' => C s'.disk) (fun _ _ => False)
        (fun _ s' => ∃ t n, K t n ∧ s' = rollingProcess s payload .rollingBack t n))
    (hC : C (rollingDisk s.disk payload .rollingBack s.disk.tree payload.appliedIndex))
    (hfail : ∀ t n, K t n → C (rollingDisk s.disk payload .failed t n)) :
    (rollback payload payload.moves).Ensures s (fun s' => C s'.disk) (fun _ _ => False)
      (fun e s' => e = .rollbackFailed "geri alma dogrulanamadi" ∧
        ∃ t n, K t n ∧ s'.disk = rollingDisk s.disk payload .failed t n) := by
  unfold rollback
  refine ensures_bind (R := fun p s' => p = rolling payload .rollingBack payload.appliedIndex ∧
    s' = rollingProcess s payload .rollingBack s.disk.tree payload.appliedIndex)
    (ensures_advanceJournal hallowed hacc hC (fun _ => ⟨rfl, rfl⟩) (by simp)) ?_
  rintro _ _ ⟨rfl, rfl⟩
  refine ensures_bind (R := fun _ _ => False) ?_ (fun _ _ h => h.elim)
  refine ensures_rescue hbody ?_
  rintro e _ ⟨t, n, hK, rfl⟩
  refine ensures_bind (R := fun p s' => p = rolling payload .rollingBack n ∧
    s' = rollingProcess s payload .rollingBack t n) ?_ ?_
  · exact ensures_bind (R := fun u s' => u = rollingProcess s payload .rollingBack t n ∧ s' = u)
      (ensures_read ⟨rfl, rfl⟩) (by rintro _ _ ⟨rfl, rfl⟩; exact ensures_return _ ⟨rfl, rfl⟩)
  rintro _ _ ⟨rfl, rfl⟩
  refine ensures_bind (R := fun _ s' => s'.disk = rollingDisk s.disk payload .failed t n)
    (ensures_writeJournal hacc (hfail t n hK) (fun _ => rfl) (by simp)) ?_
  intro _ s' hs'
  exact ensures_raise _ ⟨rfl, t, n, hK, hs'⟩

theorem ensures_undoMove_keeps {I : FileTree → Prop} {move : Move} (hm : move.Canonical)
    (hinsert : ∀ t p bytes mode, I t → I (t.insert p (.file bytes mode)))
    (herase : ∀ t p, I t → I (t.erase p)) (hC : ∀ t, C (s.withTree t).disk)
    (h : I s.disk.tree) :
    (undoMove move).Ensures s (fun s' => C s'.disk) (fun _ s' => ∃ t, I t ∧ s' = s.withTree t)
      (fun _ s' => ∃ t, I t ∧ s' = s.withTree t) := by
  unfold undoMove
  refine ensures_bind (R := fun _ t => s = t) (ensures_askTree _ (fun _ _ => rfl)
    (fun _ _ => ⟨_, h, rfl⟩)) ?_
  rintro back _ rfl
  cases back with
  | false => exact ensures_pure _ ⟨_, h, rfl⟩
  | true =>
    refine ensures_executeMove ⟨hm.2, hm.1⟩ (fun _ _ => ⟨_, h, rfl⟩) ?_
    intro linked hlink _
    obtain ⟨bytes, mode, -, -, rfl⟩ := linkChild_ok.1 hlink
    exact ⟨hC _, by simp, fun _ => ⟨hC _, _, herase _ _ (hinsert _ _ _ _ h), rfl⟩⟩

theorem ensures_undoMoves_keeps {I : FileTree → Prop} {t : FileTree} {n : ℕ}
    (hacc : payload.schemaAccepts = true) (hmoves : ∀ m ∈ payload.moves, m.Canonical)
    (hinsert : ∀ t p bytes mode, I t → I (t.insert p (.file bytes mode)))
    (herase : ∀ t p, I t → I (t.erase p))
    (hC : ∀ t n, C (rollingDisk s.disk payload .rollingBack t n)) (h : I t) :
    (undoMoves (rolling payload .rollingBack n) payload.moves).Ensures
      (rollingProcess s payload .rollingBack t n) (fun s' => C s'.disk)
      (fun _ s' => ∃ t n, I t ∧ s' = rollingProcess s payload .rollingBack t n)
      (fun _ s' => ∃ t n, I t ∧ s' = rollingProcess s payload .rollingBack t n) := by
  refine ensures_forEach_reverse (I := fun _ s' => ∃ t n, I t ∧
    s' = rollingProcess s payload .rollingBack t n) ⟨_, _, h, rfl⟩ ?_
  rintro rest m hp _ ⟨t, n', ht, rfl⟩
  have hm : m.Canonical := hmoves m (List.mem_of_mem_take (hp.subset (by simp)))
  refine ensures_bind (R := fun _ s' => ∃ t, I t ∧ s' = rollingProcess s payload .rollingBack t n')
    (ensures_mono (ensures_undoMove_keeps (C := C) hm hinsert herase (fun t => hC t _) ht)
      (fun _ h => h) (fun _ _ h => h) (fun _ _ ⟨t, ht, hs⟩ => ⟨t, n', ht, hs⟩)) ?_
  rintro _ _ ⟨t', ht', rfl⟩
  refine ensures_bind (R := fun _ s' => s' =
    { rollingProcess s payload .rollingBack t' n' with
      payload := some (rolling payload .rollingBack m.index) }) (ensures_setPayload rfl) ?_
  rintro _ _ rfl
  exact ensures_writeJournal hacc (hC _ _) (fun _ => ⟨t', m.index, ht', rfl⟩) (by simp)

/-- A planned directory that is not there fails the rollback, and is still not
there afterwards. -/
theorem rollback_missing {d : Path}
    (hallowed : .rollingBack ∈ payload.state.allowedJournalTransitions)
    (hacc : payload.schemaAccepts = true) (hmoves : ∀ m ∈ payload.moves, m.Canonical)
    (hdirs : ∀ d ∈ payload.directories, Canonical d) (hd : d ∈ payload.directories)
    (hmissing : view s.disk.tree d ≠ some .dir)
    (hC : ∀ t n, C (rollingDisk s.disk payload .rollingBack t n))
    (hfail : ∀ t n, view t d ≠ some .dir → C (rollingDisk s.disk payload .failed t n)) :
    (rollback payload payload.moves).Ensures s (fun s' => C s'.disk) (fun _ _ => False)
      (fun e s' => e = .rollbackFailed "geri alma dogrulanamadi" ∧
        ∃ t n, view t d ≠ some .dir ∧ s'.disk = rollingDisk s.disk payload .failed t n) := by
  refine rollback_fails (K := fun t _ => view t d ≠ some .dir) hallowed hacc ?_ (hC _ _) hfail
  have hinsert : ∀ (t : FileTree) p bytes mode, view t d ≠ some .dir →
      view (t.insert p (.file bytes mode)) d ≠ some .dir := by
    intro t p bytes mode ht
    by_cases hp : Place.repo d = p
    · simp [← hp]
    · rwa [view_apply, Finmap.lookup_insert_of_ne _ hp]
  have herase : ∀ (t : FileTree) p, view t d ≠ some .dir → view (t.erase p) d ≠ some .dir := by
    intro t p ht
    by_cases hp : Place.repo d = p
    · simp [← hp]
    · rwa [view_apply, Finmap.lookup_erase_ne hp]
  refine ensures_bind (ensures_undoMoves_keeps hacc hmoves hinsert herase hC hmissing) ?_
  rintro _ _ ⟨t, n, ht, rfl⟩
  refine ensures_mono (C := fun s' => C s'.disk) (Q := fun _ s' => d ∈ ([] : List Path))
    (E := fun _ s' => ∃ t n, view t d ≠ some .dir ∧ s' = rollingProcess s payload .rollingBack t n)
    ?_ (fun _ h => h) (fun _ _ h => by simp at h) (fun _ _ h => h)
  refine ensures_mono (C := fun s' => C s'.disk) (Q := fun _ s' => d ∈ ([] : List Path) ∧
    ∃ t, view t d ≠ some .dir ∧ s' = rollingProcess s payload .rollingBack t n)
    ?_ (fun _ h => h) (fun _ _ h => h.1) (fun _ _ h => h)
  refine ensures_forEach_reverse (I := fun rest s' => d ∈ rest ∧ ∃ t, view t d ≠ some .dir ∧
    s' = rollingProcess s payload .rollingBack t n) ⟨hd, t, ht, rfl⟩ ?_
  rintro rest b hp _ ⟨hmem, t, ht, rfl⟩
  refine ensures_onTree _ (fun t' ht' => ?_) (fun _ _ => ⟨t, n, ht, rfl⟩)
  have hb : Canonical b := hdirs b (hp.subset (by simp))
  obtain ⟨hdir, hresult⟩ := removeDirectory_cases hb ht'
  have hne : d ≠ b := by
    rintro rfl
    exact ht hdir
  refine ⟨hC _ _, by simpa [hne] using hmem, t', ?_, rfl⟩
  obtain rfl | rfl := hresult
  · exact ht
  · exact herase t _ ht

/-- A rename that was cut between its link and its unlink fails the rollback:
its undo finds the object at the target and the source name taken. -/
theorem rollback_half {rest : List Move} {m : Move}
    (hallowed : .rollingBack ∈ payload.state.allowedJournalTransitions)
    (hacc : payload.schemaAccepts = true) (hmoves : ∀ m ∈ payload.moves, m.Canonical)
    (hlast : payload.moves.take payload.appliedIndex = rest ++ [m])
    (hlanded : landed m s.disk.tree = .ok true)
    (htaken : s.disk.tree.lookup m.fromPlace ≠ none)
    (hC : C (rollingDisk s.disk payload .rollingBack s.disk.tree payload.appliedIndex))
    (hfail : C (rollingDisk s.disk payload .failed s.disk.tree payload.appliedIndex)) :
    (rollback payload payload.moves).Ensures s (fun s' => C s'.disk) (fun _ _ => False)
      (fun e s' => e = .rollbackFailed "geri alma dogrulanamadi" ∧
        ∃ t n, (t = s.disk.tree ∧ n = payload.appliedIndex) ∧
          s'.disk = rollingDisk s.disk payload .failed t n) := by
  refine rollback_fails (K := fun t n => t = s.disk.tree ∧ n = payload.appliedIndex) hallowed
    hacc ?_ hC (by rintro _ _ ⟨rfl, rfl⟩; exact hfail)
  refine ensures_bind (R := fun _ _ => False) ?_ (fun _ _ h => h.elim)
  have hm : m.Canonical := hmoves m (List.mem_of_mem_take (i := payload.appliedIndex)
    (by rw [hlast]; simp))
  have hreverse : (payload.moves.take payload.appliedIndex).reverse = m :: rest.reverse := by
    simp [hlast]
  change (forEach (payload.moves.take payload.appliedIndex).reverse _).Ensures _ _ _ _
  rw [hreverse]
  refine ensures_bind (R := fun _ _ => False) ?_ (fun _ _ h => h.elim)
  refine ensures_bind (R := fun _ _ => False) ?_ (fun _ _ h => h.elim)
  refine ensures_bind (R := fun b s' => b = true ∧
    s' = rollingProcess s payload .rollingBack s.disk.tree payload.appliedIndex)
    (ensures_askTree _ (fun b hb => ⟨Except.ok.inj (hb.symm.trans hlanded), rfl⟩)
      (fun e he => by cases he.symm.trans hlanded)) ?_
  rintro _ _ ⟨rfl, rfl⟩
  have hrefused : ∀ t', execute (reverseMove m) s.disk.tree ≠ .ok t' := by
    intro t' hrun
    obtain ⟨-, -, hfree, -⟩ := (execute_ok ⟨hm.2, hm.1⟩).1 hrun
    exact htaken hfree
  exact ensures_executeMove ⟨hm.2, hm.1⟩
    (fun e _ => ⟨_, _, ⟨rfl, rfl⟩, rfl⟩) (fun linked _ hrun => absurd hrun (hrefused _))

end

end RagPipeline.Application
