import RagPipeline.Application.Forward

/-! # From the first directory to the last move

The two phases of the forward run that change the checkout. Directories are
made in the order of the plan, and each move is announced before it is
executed. Whatever interrupts them, the tree is one that the announced prefix
can be undone from, unless a directory is still missing or one rename is half
done. -/

set_option autoImplicit false

namespace RagPipeline.Application
open UndoLog Effects Effects.Program

namespace Course

variable [Host] {candidate : Candidate} {call : Call} {start : Checkout}
  (r : Course candidate call start) {fault : Option Step}

/-- The steps that leave planned directories unmade when they raise. -/
def LeavesDirectories : Step → Prop
  | .openSlots => True
  | .stage slot _ => ∃ c, (slot, c) ∈ r.p.staged
  | .journal .prepared 0 _ => True
  | .makeDirectory d => d ∈ r.directories
  | .openDirectory d => d ∈ r.directories.dropLast
  | _ => False

def holdPart (t : FileTree) : Slot → Option Node := fun s => t.lookup (.hold s)

/-- The directories are made one by one. Where making them raises before the
last one exists, the interrupted step is one that leaves directories unmade. -/
theorem ensures_createDirectories {t : FileTree} (ht : view t = view start.tree) :
    (createDirectories fault r.directories).Ensures (r.forward .prepared 0 t)
      (fun s => r.Forward s.disk)
      (fun _ s' => ∃ t', s' = r.forward .prepared 0 t' ∧ view t' = r.made ∧
        holdPart t' = holdPart t ∧
        ∀ d ∈ r.directories, fault ≠ some (.makeDirectory d) ∧ fault ≠ some (.openDirectory d))
      (fun _ s' => ∃ k t', s' = r.forward .prepared 0 t' ∧
        view t' = addDirectories (r.directories.take k) (view start.tree) ∧
        ∃ step, fault = some step ∧ ((k < r.directories.length ∧ r.LeavesDirectories step) ∨
          (k = r.directories.length ∧ ∃ d, step = .openDirectory d ∧
            d ∉ r.directories.dropLast))) := by
  refine ensures_mono (C := fun s => r.Forward s.disk) (Q := fun _ s' => ∃ t',
    s' = r.forward .prepared 0 t' ∧
      view t' = addDirectories (r.directories.take r.directories.length) (view start.tree) ∧
      holdPart t' = holdPart t ∧ ∀ d ∈ r.directories.take r.directories.length,
        fault ≠ some (.makeDirectory d) ∧ fault ≠ some (.openDirectory d))
    ?_ (fun _ h => h) ?_ (fun _ _ h => h)
  · refine ensures_forEach (I := fun k s' => ∃ t', s' = r.forward .prepared 0 t' ∧
      view t' = addDirectories (r.directories.take k) (view start.tree) ∧
      holdPart t' = holdPart t ∧ ∀ d ∈ r.directories.take k,
        fault ≠ some (.makeDirectory d) ∧ fault ≠ some (.openDirectory d))
      ⟨t, rfl, by simpa [addDirectories] using ht, rfl, by simp⟩ ?_
    rintro k d hk _ ⟨t', rfl, hview, hhold, hdone⟩
    have hmem : d ∈ r.directories := List.mem_of_getElem? hk
    have hlt : k < r.directories.length := (List.getElem?_eq_some_iff.1 hk).1
    have htake : r.directories.take (k + 1) = r.directories.take k ++ [d] := by
      rw [List.take_add_one, hk]
      rfl
    have ho := outermost_take r.outermost (k + 1)
    rw [htake] at ho
    obtain ⟨hmissing, habove, hmade⟩ := next_directory start.closed ho hview
    rw [← htake] at hmade
    have hsplit : split d = .ok d := r.directories_canonical hmem
    refine ensures_bind (R := fun parts s' => d = parts ∧ s' = r.forward .prepared 0 t')
      (ensures_ask _ (fun a ha => ⟨Except.ok.inj (hsplit.symm.trans ha), rfl⟩)
        (fun e he => by cases he.symm.trans hsplit)) ?_
    rintro _ _ ⟨rfl, rfl⟩
    refine ensures_mono (ensures_createDirectory (s := r.forward .prepared 0 t') hmissing
      (C := fun s => r.Forward s.disk) ?_ [] d (outermost_mem ho (by simp)).1 rfl habove) (fun _ h => h) ?_ ?_
    · exact .early .prepared true (k + 1) _ (.inr rfl) hmade
    · rintro _ _ ⟨rfl, hmake, hopen⟩
      refine ⟨_, rfl, hmade, ?_, fun c hc => ?_⟩
      · rw [← hhold]
        exact funext fun s => Finmap.lookup_insert_of_ne _ (by simp)
      · rw [htake] at hc
        rcases List.mem_append.1 hc with hc | hc
        · exact hdone c hc
        · rw [List.mem_singleton.1 hc]
          exact ⟨hmake, hopen⟩
    · rintro _ _ (⟨rfl, hfault⟩ | ⟨rfl, hfault⟩)
      · exact ⟨k, t', rfl, hview, _, hfault, .inl ⟨hlt, hmem⟩⟩
      · refine ⟨k + 1, _, rfl, hmade, _, hfault, ?_⟩
        by_cases hlast : k + 1 = r.directories.length
        · refine .inr ⟨hlast, d, rfl, ?_⟩
          have : r.directories.dropLast = r.directories.take k := by
            rw [List.dropLast_eq_take, ← hlast]
            rfl
          rw [this]
          exact outermost_new ho
        · refine .inl ⟨by omega, ?_⟩
          change d ∈ r.directories.dropLast
          rw [List.dropLast_eq_take]
          exact List.mem_take_iff_getElem.2 ⟨k, by omega, (List.getElem?_eq_some_iff.1 hk).2⟩
  · rintro _ _ ⟨t', rfl, hview, hhold, hdone⟩
    rw [List.take_length] at hview hdone
    exact ⟨t', rfl, hview, hhold, hdone⟩

theorem undoable_of_run {t t' : FileTree} (ht : r.Ready t) {k : ℕ}
    (hrun : runAll execute (r.p.moves.take k) t = .ok t') : r.Undoable t' k :=
  ⟨t, undoAll_runAll _ (fun _ hm => plan_reverses r.planned (List.mem_of_mem_take hm)) t t' hrun,
    ht.made⟩

theorem undoable_announced {t t' : FileTree} (ht : r.Ready t) {k : ℕ} {m : Move}
    (hm : r.p.moves[k]? = some m) (hrun : runAll execute (r.p.moves.take k) t = .ok t') :
    r.Undoable t' (k + 1) := by
  refine ⟨t, ?_, ht.made⟩
  rw [List.take_add_one, hm]
  exact undoAll_announced _ (fun n hn => plan_reverses r.planned (List.mem_of_mem_take hn)) m t t'
    hrun (undo_pending (announceable_next (r.announceable ht) k hrun hm))

theorem made_mem {d : Path} (hd : d ∈ r.directories) : r.made d = some .dir := by
  simp [made, addDirectories_apply, hd]

theorem directories_of_run {t t' : FileTree} (ht : view t = r.made) {k : ℕ}
    (hrun : runAll execute (r.p.moves.take k) t = .ok t') {d : Path} (hd : d ∈ r.directories) :
    view t' d = some .dir :=
  runAll_directory (fun _ hm => r.moves_canonical (List.mem_of_mem_take hm)) hrun
    ((congrFun ht d).trans (r.made_mem hd))

theorem whole_zero {t : FileTree} (ht : view t = r.made) : r.Whole t 0 :=
  ⟨fun _ hd => (congrFun ht _).trans (r.made_mem hd), fun rest m h => by simp at h⟩

theorem whole_announced {t t' : FileTree} (ht : r.Ready t) {k : ℕ} {m : Move}
    (hm : r.p.moves[k]? = some m) (hrun : runAll execute (r.p.moves.take k) t = .ok t') :
    r.Whole t' (k + 1) := by
  refine ⟨fun d hd => r.directories_of_run ht.made hrun hd, fun rest m' hlast => .inr ?_⟩
  rw [List.take_add_one, hm] at hlast
  obtain ⟨-, h⟩ := List.append_inj' hlast rfl
  obtain rfl : m = m' := by simpa using h
  have hmem := List.mem_of_getElem? hm
  obtain ⟨-, hnone⟩ := announceable_next (r.announceable ht) k hrun hm
  obtain ⟨_, hrun', hopen⟩ := r.progress ht k
  obtain rfl := Except.ok.inj (hrun.symm.trans hrun')
  exact lookup_of_evidence_none (r.moves_canonical hmem).2 (hopen m hmem) hnone

theorem whole_executed {t t' t'' : FileTree} (ht : r.Ready t) {k : ℕ} {m : Move}
    (hm : r.p.moves[k]? = some m) (hone : execute m t' = .ok t'')
    (hrun : runAll execute (r.p.moves.take (k + 1)) t = .ok t'') : r.Whole t'' (k + 1) := by
  refine ⟨fun d hd => r.directories_of_run ht.made hrun hd, fun rest m' hlast => .inl ?_⟩
  rw [List.take_add_one, hm] at hlast
  obtain ⟨-, h⟩ := List.append_inj' hlast rfl
  obtain rfl : m = m' := by simpa using h
  obtain ⟨-, -, -, e, -, -, rfl⟩ :=
    (execute_ok (r.moves_canonical (List.mem_of_getElem? hm))).1 hone
  exact Finmap.lookup_erase _ _

theorem move_index {k : ℕ} {m : Move} (hm : r.p.moves[k]? = some m) : m.index = k := by
  simpa using planFrom_index candidate.canonical r.planned k hm

theorem next_move {t t' : FileTree} (ht : r.Ready t) {k : ℕ} {m : Move}
    (hm : r.p.moves[k]? = some m) (hrun : runAll execute (r.p.moves.take k) t = .ok t') :
    ∃ t₂, execute m t' = .ok t₂ ∧ runAll execute (r.p.moves.take (k + 1)) t = .ok t₂ := by
  obtain ⟨t₁, hnext, -⟩ := r.progress ht (k + 1)
  have htake : r.p.moves.take (k + 1) = r.p.moves.take k ++ [m] := by
    rw [List.take_add_one, hm]
    rfl
  rw [htake, runAll_append, hrun] at hnext
  obtain ⟨_, hok, hstep⟩ := bind_eq_ok.1 hnext
  obtain rfl := Except.ok.inj hok
  obtain ⟨t₂, hone, -⟩ := bind_eq_ok.1 hstep
  exact ⟨t₂, hone, htake ▸ runAll_concat hrun hone⟩

/-- Each move is announced, linked and unlinked. The only raise that leaves a
tree the announced prefix cannot be undone from is that of an unlink. -/
theorem ensures_applyMoves {t : FileTree} (ht : r.Ready t) (hacc : r.base.schemaAccepts = true) :
    (applyMoves fault (rolling r.base .applying 0) r.p.moves).Ensures (r.forward .applying 0 t)
      (fun s => r.Forward s.disk)
      (fun _ s' => ∃ t', runAll execute r.p.moves t = .ok t' ∧
        s' = r.forward .applying r.p.moves.length t' ∧
        ∀ i < r.p.moves.length, fault ≠ some (.unlink i))
      (fun _ s' => ∃ n t', r.Failing .applying n t' s' ∧
        ((r.Undoable t' n ∧ ∀ i, fault ≠ some (.unlink i)) ∨
          (r.HalfDone t' n ∧ ∃ i < r.p.moves.length, fault = some (.unlink i)))) := by
  refine ensures_mono (C := fun s => r.Forward s.disk) (Q := fun _ s' => ∃ t',
    runAll execute (r.p.moves.take r.p.moves.length) t = .ok t' ∧
      s' = r.forward .applying r.p.moves.length t' ∧
      ∀ i < r.p.moves.length, fault ≠ some (.unlink i)) ?_ (fun _ h => h) ?_ (fun _ _ h => h)
  · refine ensures_forEach (I := fun k s' => ∃ t', runAll execute (r.p.moves.take k) t = .ok t' ∧
      s' = r.forward .applying k t' ∧ ∀ i < k, fault ≠ some (.unlink i))
      ⟨t, rfl, rfl, by simp⟩ ?_
    rintro k m hk _ ⟨t', hrun, hs', hdone⟩
    subst hs'
    obtain rfl := r.move_index hk
    have hlt : m.index < r.p.moves.length := (List.getElem?_eq_some_iff.1 hk).1
    have hcanon : m.Canonical := r.moves_canonical (List.mem_of_getElem? hk)
    have hbefore := r.undoable_announced ht hk hrun
    have htake : r.p.moves.take (m.index + 1) = r.p.moves.take m.index ++ [m] := by
      rw [List.take_add_one, hk]
      rfl
    obtain ⟨t₂, hone, hrun'⟩ := r.next_move ht hk hrun
    refine ensures_bind (R := fun _ s' => s' = { r.forward .applying m.index t' with
      payload := some (rolling r.base .applying (m.index + 1)) }) (ensures_setPayload rfl) ?_
    rintro _ _ rfl
    refine ensures_bind (R := fun _ s' => s' = r.forward .applying (m.index + 1) t')
      (ensures_writeJournal hacc (.moving _ t' hbefore (r.whole_announced ht hk hrun)) (fun _ => rfl) (fun b hb => ?_)) ?_
    · have hno : ∀ i, fault ≠ some (.unlink i) := by simp [hb]
      exact ⟨⟨m.index + 1, t', ⟨rfl, rfl, rfl, rfl, rfl⟩, .inl ⟨hbefore, hno⟩⟩,
        ⟨m.index + 1, t', ⟨rfl, rfl, rfl, rfl, rfl⟩, .inl ⟨hbefore, hno⟩⟩⟩
    rintro _ _ rfl
    refine ensures_executeMove hcanon (fun e he => ?_) (fun linked hlink hexec => ?_)
    · rcases he with he | he
      · exact absurd hone (he t₂)
      · exact ⟨_, t', r.failing_forward _ _ _, .inl ⟨hbefore, by simp [he]⟩⟩
    · have hhalf : r.HalfDone linked (m.index + 1) :=
        ⟨_, m, htake, half_of_link hcanon hexec hlink⟩
      refine ⟨.half _ _ hhalf, fun hfault => ?_, fun hfault => ?_⟩
      · exact ⟨_, linked, r.failing_forward _ _ _, .inr ⟨hhalf, m.index, hlt, hfault⟩⟩
      · obtain rfl := Except.ok.inj (hexec.symm.trans hone)
        refine ⟨.moving _ _ (r.undoable_of_run ht hrun') (r.whole_executed ht hk hone hrun'), _,
          hrun', rfl, fun i hi => ?_⟩
        rcases Nat.lt_succ_iff_lt_or_eq.1 hi with hi | rfl
        · exact hdone i hi
        · exact hfault
  · rintro _ _ ⟨t', hrun, rfl, hdone⟩
    rw [List.take_length] at hrun
    exact ⟨t', hrun, rfl, hdone⟩

end Course

end RagPipeline.Application

/-! # The whole forward run

`_apply` before its handler, phase after phase. It ends with the complete view,
or it raises in a process that a rollback can put right, or in one that it
cannot; which of the two is decided by the interrupted step. -/

set_option autoImplicit false

namespace RagPipeline.Application
open UndoLog Effects Effects.Program

def initial (start : Checkout) : Process := ⟨⟨start.tree, false, false, none⟩, none, false⟩

/-- The steps before `slots_tree` is set. A raise there removes the holder and
has nothing to undo. -/
def BeforeSlots : Step → Prop
  | .holder => True
  | .journal .registered 0 _ => True
  | .readBack => True
  | .slotsDirectory => True
  | .openHolder => True
  | _ => False

theorem ensures_writeJournal_refused {s : Process} {C : Process → Prop} {fault : Option Step}
    {E : ApplicationError → Process → Prop} {payload : Payload}
    (hacc : payload.schemaAccepts = false) (hE : ∀ e, E e s) :
    (writeJournal fault payload).Ensures s C (fun _ _ => False) E := by
  refine ensures_bind (R := fun _ t => s = t) (ensures_mayRaise (fun _ => rfl) (fun _ => hE _)) ?_
  rintro _ _ rfl
  refine ensures_bind (R := fun _ _ => False) ?_ (fun _ _ h => h.elim)
  refine ensures_onDisk _ (fun d h => ?_) (fun e _ => hE e)
  simp [hacc] at h

namespace Course

variable [Host] {candidate : Candidate} {call : Call} {start : Checkout}
  (r : Course candidate call start) {fault : Option Step}

def BreaksEarly (fault : Option Step) : Prop :=
  ¬ r.Stages ∨ ∃ step, fault = some step ∧ r.LeavesDirectories step

/-- The raises a rollback does not put right: one after the slots are open that
leaves a planned directory unmade, and one of the unlink half of a rename. -/
def Unsafe (fault : Option Step) : Prop :=
  r.base.schemaAccepts = true ∧ r.base.Readable ∧
    (∀ step, fault = some step → ¬ BeforeSlots step) ∧
    ((r.directories ≠ [] ∧ r.BreaksEarly fault) ∨
      (r.Stages ∧ ∃ i < r.p.moves.length, fault = some (.unlink i)))

inductive Clean : Process → Prop where
  | unopened (s : Process) : s.slotsTree = false → s.disk.tree = start.tree →
      (s.disk.journal = none ∨
        ∃ slots, s.disk = ⟨start.tree, true, slots, some (rolling r.base .registered 0)⟩) →
      s.payload = none ∧ s.disk.journal = none ∨ s.payload = some r.base → Clean s
  | opened (s : Process) (state : JournalState) (n : ℕ) (t : FileTree) :
      r.base.schemaAccepts = true → r.Failing state n t s →
      .rollingBack ∈ state.allowedJournalTransitions → r.Undoable t n → Clean s

inductive Broken : Process → Prop where
  | opened (s : Process) (state : JournalState) (n : ℕ) (t : FileTree) :
      r.Failing state n t s → .rollingBack ∈ state.allowedJournalTransitions →
      r.Lacks t ∨ r.HalfDone t n → Broken s

def Fails (fault : Option Step) (s : Process) : Prop :=
  (r.Clean s ∧ ¬ r.Unsafe fault) ∨ (r.Broken s ∧ r.Unsafe fault)

theorem undoable_zero {t : FileTree} (ht : view t = r.made) : r.Undoable t 0 := ⟨t, rfl, ht⟩

theorem lacks_of_take {t : FileTree} {k : ℕ} (hk : k < r.directories.length)
    (ht : view t = addDirectories (r.directories.take k) (view start.tree)) : r.Lacks t := by
  have hmem := List.getElem_mem hk
  have htake : r.directories.take (k + 1) = r.directories.take k ++ [r.directories[k]] := by
    rw [List.take_add_one, List.getElem?_eq_getElem hk]
    rfl
  have ho := outermost_take r.outermost (k + 1)
  rw [htake] at ho
  obtain ⟨hnone, -, -⟩ := next_directory start.closed ho ht
  exact ⟨_, hmem, by simp [hnone]⟩

/-- A raise between the opening of the slots and the last directory. -/
theorem fails_early {s : Process} {state : JournalState} {k : ℕ} {t : FileTree}
    (hs : r.Failing state 0 t s) (hallowed : .rollingBack ∈ state.allowedJournalTransitions)
    (ht : view t = addDirectories (r.directories.take k) (view start.tree))
    (hk : k < r.directories.length ∨ r.directories = []) (hacc : r.base.schemaAccepts = true)
    (hread : r.base.Readable) (hbefore : ∀ step, fault = some step → ¬ BeforeSlots step)
    (hbreak : r.BreaksEarly fault) : r.Fails fault s := by
  by_cases hnil : r.directories = []
  · refine .inl ⟨.opened s state 0 t hacc hs hallowed (r.undoable_zero ?_), ?_⟩
    · simpa [made, hnil] using ht
    · rintro ⟨-, -, -, ⟨hne, -⟩ | ⟨hall, i, -, hfault⟩⟩
      · exact hne hnil
      · rcases hbreak with h | ⟨step, hstep, hleaves⟩
        · exact h hall
        · obtain rfl := Option.some.inj (hfault.symm.trans hstep)
          exact hleaves
  · exact .inr ⟨.opened s state 0 t hs hallowed
      (.inl (r.lacks_of_take (hk.resolve_right hnil) ht)),
      hacc, hread, hbefore, .inl ⟨hnil, hbreak⟩⟩

theorem fails_clean {s : Process} {state : JournalState} {n : ℕ} {t : FileTree}
    (hacc : r.base.schemaAccepts = true) (hs : r.Failing state n t s) (hallowed : .rollingBack ∈ state.allowedJournalTransitions)
    (ht : r.Undoable t n) (hfine : ¬ r.BreaksEarly fault)
    (hunlink : ∀ i < r.p.moves.length, fault ≠ some (.unlink i)) : r.Fails fault s := by
  refine .inl ⟨.opened s state n t hacc hs hallowed ht, ?_⟩
  rintro ⟨-, -, -, ⟨-, h⟩ | ⟨-, i, hi, hfault⟩⟩
  · exact hfine h
  · exact hunlink i hi hfault

theorem fails_unopened {s : Process} (hs : r.Clean s)
    (h : r.base.schemaAccepts = false ∨ ¬ r.base.Readable ∨
      ∃ step, fault = some step ∧ BeforeSlots step) : r.Fails fault s := by
  refine .inl ⟨hs, ?_⟩
  rintro ⟨hacc, hread, hbefore, -⟩
  rcases h with h | h | ⟨step, hstep, h⟩
  · rw [hacc] at h
    cases h
  · exact h hread
  · exact hbefore step hstep h

theorem ensures_registerApplication :
    (registerApplication fault candidate call).Ensures (initial start)
      (fun s => r.Forward s.disk)
      (fun a s' => a = (r.p, r.base) ∧ r.base.schemaAccepts = true ∧ r.base.Readable ∧
        (∀ b, fault ≠ some (.journal .registered 0 b)) ∧ fault ≠ some .holder ∧
        fault ≠ some .readBack ∧
        s' = ⟨⟨start.tree, true, false, some (rolling r.base .registered 0)⟩, some r.base, false⟩)
      (fun _ => r.Fails fault) := by
  have hstart : r.Clean (initial start) := .unopened _ rfl rfl (.inl rfl) (.inl ⟨rfl, rfl⟩)
  unfold registerApplication
  refine ensures_bind (R := fun p s => p = r.p ∧ s = initial start)
    (ensures_askTree _ (fun p hp => ⟨Except.ok.inj (hp.symm.trans r.planned), rfl⟩)
      (fun e he => by cases he.symm.trans r.planned)) ?_
  rintro _ _ ⟨rfl, rfl⟩
  refine ensures_bind (R := fun d s => d = r.directories ∧ s = initial start)
    (ensures_askTree _ (fun d hd => ⟨Except.ok.inj (hd.symm.trans r.missing), rfl⟩)
      (fun e he => by cases he.symm.trans r.missing)) ?_
  rintro _ _ ⟨rfl, rfl⟩
  refine ensures_bind (R := fun _ s => s = initial start ∧ fault ≠ some .holder)
    (ensures_mayRaise (fun h => ⟨rfl, h⟩)
      (fun h => r.fails_unopened hstart (.inr (.inr ⟨_, h, trivial⟩)))) ?_
  rintro _ _ ⟨rfl, hholder⟩
  refine ensures_bind (R := fun _ s => s = ⟨⟨start.tree, true, false, none⟩, none, false⟩)
    (ensures_onDisk _ (fun d hd => ?_) (fun e he => by cases he)) ?_
  · obtain rfl := Except.ok.inj hd
    exact ⟨.unregistered _ rfl, rfl⟩
  rintro _ _ rfl
  refine ensures_bind (R := fun _ s => s = ⟨⟨start.tree, true, false, none⟩, some r.base, false⟩)
    (ensures_setPayload rfl) ?_
  rintro _ _ rfl
  have hunwritten : r.Clean ⟨⟨start.tree, true, false, none⟩, some r.base, false⟩ :=
    .unopened _ rfl rfl (.inl rfl) (.inr rfl)
  have hwritten : r.Clean
      ⟨⟨start.tree, true, false, some (rolling r.base .registered 0)⟩, some r.base, false⟩ :=
    .unopened _ rfl rfl (.inr ⟨false, rfl⟩) (.inr rfl)
  by_cases hacc : r.base.schemaAccepts = true
  · refine ensures_bind (R := fun _ s => s = ⟨⟨start.tree, true, false,
      some (rolling r.base .registered 0)⟩, some r.base, false⟩ ∧
      ∀ b, fault ≠ some (.journal .registered 0 b))
      (ensures_writeJournal hacc ?_ (fun h => ⟨rfl, h⟩) fun b hb => ?_) ?_
    · exact .early .registered false 0 _ (.inl rfl) (by simp [addDirectories])
    · exact ⟨r.fails_unopened hunwritten (.inr (.inr ⟨_, hb, trivial⟩)),
        r.fails_unopened hwritten (.inr (.inr ⟨_, hb, trivial⟩))⟩
    rintro _ _ ⟨rfl, hjournal⟩
    refine ensures_bind (R := fun _ s => s = ⟨⟨start.tree, true, false,
      some (rolling r.base .registered 0)⟩, some r.base, false⟩ ∧ fault ≠ some .readBack)
      (ensures_mayRaise (fun h => ⟨rfl, h⟩)
        (fun h => r.fails_unopened hwritten (.inr (.inr ⟨_, h, trivial⟩)))) ?_
    rintro _ _ ⟨rfl, hback⟩
    have hreadable : r.base.Readable ↔
        readBack r.base ⟨start.tree, true, false, some (rolling r.base .registered 0)⟩ = .ok () := by
      have hsame : rolling r.base .registered 0 = r.base := rfl
      by_cases hread : r.base.Readable
      · simp [readBack, readJournal, hsame, hread, hacc, bind, Except.bind, pure, Except.pure]
      · simp [readBack, readJournal, hsame, hread, bind, Except.bind]
    refine ensures_bind (R := fun _ s => s = ⟨⟨start.tree, true, false,
      some (rolling r.base .registered 0)⟩, some r.base, false⟩ ∧ r.base.Readable)
      (ensures_ask _ (fun _ h => ⟨rfl, hreadable.2 h⟩) (fun e he => ?_)) ?_
    · refine r.fails_unopened hwritten (.inr (.inl fun hread => ?_))
      cases he.symm.trans (hreadable.1 hread)
    rintro _ _ ⟨rfl, hread⟩
    exact ensures_return _ ⟨rfl, hacc, hread, hjournal, hholder, hback, rfl⟩
  · have hrefused : r.base.schemaAccepts = false := Bool.eq_false_iff.2 hacc
    exact ensures_bind (ensures_writeJournal_refused hrefused
      fun _ => r.fails_unopened hunwritten (.inl hrefused)) (fun _ _ h => h.elim)

theorem ensures_openSlots (hacc : r.base.schemaAccepts = true) (hread : r.base.Readable)
    (hjournal : ∀ b, fault ≠ some (.journal .registered 0 b)) (hholder : fault ≠ some .holder)
    (hback : fault ≠ some .readBack) :
    (openSlots fault).Ensures
      ⟨⟨start.tree, true, false, some (rolling r.base .registered 0)⟩, some r.base, false⟩
      (fun s => r.Forward s.disk)
      (fun _ s' => s' = r.forward .registered 0 start.tree ∧
        (∀ step, fault = some step → ¬ BeforeSlots step) ∧ fault ≠ some .openSlots)
      (fun _ => r.Fails fault) := by
  have hunopened : ∀ slots, r.Clean
      ⟨⟨start.tree, true, slots, some (rolling r.base .registered 0)⟩, some r.base, false⟩ :=
    fun slots => .unopened _ rfl rfl (.inr ⟨slots, rfl⟩) (.inr rfl)
  have hstart : view start.tree = addDirectories (r.directories.take 0) (view start.tree) := by
    simp [addDirectories]
  unfold openSlots
  refine ensures_bind (R := fun _ s => s = ⟨⟨start.tree, true, false,
    some (rolling r.base .registered 0)⟩, some r.base, false⟩ ∧ fault ≠ some .slotsDirectory)
    (ensures_mayRaise (fun h => ⟨rfl, h⟩)
      (fun h => r.fails_unopened (hunopened _) (.inr (.inr ⟨_, h, trivial⟩)))) ?_
  rintro _ _ ⟨rfl, hslots⟩
  refine ensures_bind (R := fun _ s => s = ⟨⟨start.tree, true, true,
    some (rolling r.base .registered 0)⟩, some r.base, false⟩)
    (ensures_onDisk _ (fun d hd => ?_) (fun e he => by cases he)) ?_
  · obtain rfl := Except.ok.inj hd
    exact ⟨.early .registered true 0 _ (.inl rfl) hstart, rfl⟩
  rintro _ _ rfl
  refine ensures_bind (R := fun _ s => s = ⟨⟨start.tree, true, true,
    some (rolling r.base .registered 0)⟩, some r.base, false⟩ ∧ fault ≠ some .openHolder)
    (ensures_mayRaise (fun h => ⟨rfl, h⟩)
      (fun h => r.fails_unopened (hunopened _) (.inr (.inr ⟨_, h, trivial⟩)))) ?_
  rintro _ _ ⟨rfl, hopen⟩
  have hbefore : ∀ step, fault = some step → ¬ BeforeSlots step := by
    rintro step hstep hbefore
    cases step with
    | journal state n b =>
      cases state <;> cases n <;> try exact hbefore
      exact hjournal b hstep
    | holder => exact hholder hstep
    | readBack => exact hback hstep
    | slotsDirectory => exact hslots hstep
    | openHolder => exact hopen hstep
    | _ => exact hbefore
  refine ensures_bind (R := fun _ s => s = r.forward .registered 0 start.tree)
    (ensures_assign _ rfl) ?_
  rintro _ _ rfl
  refine ensures_mayRaise (fun h => ⟨rfl, hbefore, h⟩) (fun h => ?_)
  refine r.fails_early (r.failing_forward _ _ _) (by decide) hstart ?_ hacc hread hbefore
    (.inr ⟨_, h, trivial⟩)
  by_cases hnil : r.directories = []
  · exact .inr hnil
  · exact .inl (List.length_pos_iff.2 hnil)

/-- From open slots to the last move. -/
theorem ensures_advanceCheckout (hacc : r.base.schemaAccepts = true) (hread : r.base.Readable)
    (hbefore : ∀ step, fault = some step → ¬ BeforeSlots step)
    (hopened : fault ≠ some .openSlots) :
    (advanceCheckout fault call r.p r.base).Ensures (r.forward .registered 0 start.tree)
      (fun s => r.Forward s.disk)
      (fun _ s' => ∃ t, s' = r.forward .applying r.p.moves.length t ∧ view t = r.complete ∧
        r.Undoable t r.p.moves.length ∧ ¬ r.BreaksEarly fault ∧
        ∀ i < r.p.moves.length, fault ≠ some (.unlink i))
      (fun _ => r.Fails fault) := by
  have hzero : ∀ {t}, view t = view start.tree →
      view t = addDirectories (r.directories.take 0) (view start.tree) :=
    fun ht => by simpa [addDirectories] using ht
  have hfirst : 0 < r.directories.length ∨ r.directories = [] := by
    by_cases hnil : r.directories = []
    · exact .inr hnil
    · exact .inl (List.length_pos_iff.2 hnil)
  unfold advanceCheckout
  have hempty : Staging call start start.tree [] r.p.staged :=
    ⟨rfl, by simp, fun s _ _ => start.noSlots s, fun s _ => start.noSlots s⟩
  refine ensures_bind (ensures_mono (r.ensures_stage hempty) (fun _ h => h)
    (fun _ _ h => h) ?_) ?_
  · rintro _ _ ⟨t, rfl, ht, hreason⟩
    refine r.fails_early (r.failing_forward _ _ _) (by decide) (hzero ht) hfirst hacc hread
      hbefore ?_
    rcases hreason with h | ⟨slot, change, phase, hmem, hfault⟩
    · exact .inl h
    · exact .inr ⟨_, hfault, change, hmem⟩
  rintro _ _ ⟨t, rfl, hstaging, hstages, hstaged⟩
  refine ensures_bind (R := fun p s => p = rolling r.base .prepared 0 ∧
    s = r.forward .prepared 0 t ∧ ∀ b, fault ≠ some (.journal .prepared 0 b))
    (ensures_advanceJournal
      (by simp [base, registeredPayload, JournalState.allowedJournalTransitions]) hacc
      (.early .prepared true 0 _ (.inr rfl) (hzero hstaging.view)) (fun h => ⟨rfl, rfl, h⟩)
      fun b hb => ?_) ?_
  · have hbreak : r.BreaksEarly fault := .inr ⟨_, hb, trivial⟩
    exact ⟨r.fails_early (r.failing_forward _ _ _) (by decide) (hzero hstaging.view) hfirst hacc
        hread hbefore hbreak,
      r.fails_early ⟨rfl, rfl, rfl, rfl, rfl⟩ (by decide)
        (hzero hstaging.view) hfirst hacc hread hbefore hbreak⟩
  rintro _ _ ⟨rfl, rfl, hprepared⟩
  -- what has not been interrupted so far
  have hfine : (∀ d ∈ r.directories, fault ≠ some (.makeDirectory d)) →
      (∀ d ∈ r.directories.dropLast, fault ≠ some (.openDirectory d)) →
      ¬ r.BreaksEarly fault := by
    rintro hmake hopen (h | ⟨step, hstep, hleaves⟩)
    · exact h hstages
    cases step with
    | openSlots => exact hopened hstep
    | stage slot phase =>
      obtain ⟨c, hmem⟩ := hleaves
      exact hstaged slot c hmem phase hstep
    | journal state n b =>
      cases state <;> cases n <;> try exact hleaves
      exact hprepared b hstep
    | makeDirectory d => exact hmake d hleaves hstep
    | openDirectory d => exact hopen d hleaves hstep
    | _ => exact hleaves
  refine ensures_bind (ensures_mono (r.ensures_createDirectories hstaging.view) (fun _ h => h)
    (fun _ _ h => h) ?_) ?_
  · rintro _ _ ⟨k, t', rfl, hview, step, hfault, ⟨hk, hleaves⟩ | ⟨rfl, d, rfl, hd⟩⟩
    · exact r.fails_early (r.failing_forward _ _ _) (by decide) hview (.inl hk) hacc hread
        hbefore (.inr ⟨_, hfault, hleaves⟩)
    · rw [List.take_length] at hview
      refine r.fails_clean hacc (r.failing_forward _ _ _) (by decide) (r.undoable_zero hview)
        (hfine (by simp [hfault]) fun c hc h => ?_) (by simp [hfault])
      obtain rfl : d = c := by simpa [hfault] using h
      exact hd hc
  rintro _ _ ⟨t', rfl, hview, hhold, hdirs⟩
  have hnobreak := hfine (fun d hd => (hdirs d hd).1)
    (fun d hd => (hdirs d (List.dropLast_subset _ hd)).2)
  have hready : r.Ready t' := by
    refine ⟨hview, fun s c hm => ?_, fun s hs => ?_⟩
    · obtain ⟨hable, hnode⟩ := hstaging.staged s c hm
      exact ⟨hable, (congrFun hhold s).trans hnode⟩
    · exact (congrFun hhold s).trans (hstaging.backups s hs)
  refine ensures_bind (R := fun p s => p = rolling r.base .applying 0 ∧
    s = r.forward .applying 0 t')
    (ensures_advanceJournal (by simp [rolling, JournalState.allowedJournalTransitions]) hacc
      (.moving 0 _ (r.undoable_zero hview) (r.whole_zero hview)) (fun _ => ⟨rfl, rfl⟩) fun b hb => ?_) ?_
  · have hunlink : ∀ i < r.p.moves.length, fault ≠ some (.unlink i) := by simp [hb]
    exact ⟨r.fails_clean hacc (r.failing_forward _ _ _) (by decide) (r.undoable_zero hview) hnobreak
        hunlink,
      r.fails_clean hacc ⟨rfl, rfl, rfl, rfl, rfl⟩ (by decide)
        (r.undoable_zero hview) hnobreak hunlink⟩
  rintro _ _ ⟨rfl, rfl⟩
  refine ensures_mono (r.ensures_applyMoves hready hacc) (fun _ h => h) ?_ ?_
  · rintro _ _ ⟨t'', hrun, rfl, hunlink⟩
    refine ⟨t'', rfl, r.complete_view hready hrun, ?_, hnobreak, hunlink⟩
    exact r.undoable_of_run hready (by rwa [List.take_length])
  · rintro _ s ⟨n, t'', hs, ⟨hundo, hunlink⟩ | ⟨hhalf, hunlink⟩⟩
    · exact r.fails_clean hacc hs (by decide) hundo hnobreak (fun i _ => hunlink i)
    · exact .inr ⟨.opened s .applying n t'' hs (by decide) (.inr hhalf), hacc, hread, hbefore,
        .inr ⟨hstages, hunlink⟩⟩

theorem ensures_applyBody :
    (applyBody fault candidate call).Ensures (initial start) (fun s => r.Forward s.disk)
      (fun _ s' => ∃ t, s' = r.forward .applied r.p.moves.length t ∧ view t = r.complete ∧
        ¬ r.Unsafe fault)
      (fun _ => r.Fails fault) := by
  unfold applyBody
  refine ensures_bind r.ensures_registerApplication ?_
  rintro _ _ ⟨rfl, hacc, hread, hjournal, hholder, hback, rfl⟩
  refine ensures_bind (r.ensures_openSlots hacc hread hjournal hholder hback) ?_
  rintro _ _ ⟨rfl, hbefore, hopened⟩
  refine ensures_bind (r.ensures_advanceCheckout hacc hread hbefore hopened) ?_
  rintro _ _ ⟨t, rfl, hview, hundo, hnobreak, hunlink⟩
  have hclean : ∀ {s}, r.Failing .applying r.p.moves.length t s → r.Fails fault s :=
    fun hs => r.fails_clean hacc hs (by decide) hundo hnobreak hunlink
  have hhere := r.failing_forward .applying r.p.moves.length t
  unfold finishApplication
  refine ensures_bind (R := fun _ s => s = r.forward .applying r.p.moves.length t)
    (ensures_mayRaise (fun _ => rfl) (fun _ => hclean hhere)) ?_
  rintro _ _ rfl
  refine ensures_bind (R := fun _ s => s = r.forward .applying r.p.moves.length t)
    (ensures_mayRaise (fun _ => rfl) (fun _ => hclean hhere)) ?_
  rintro _ _ rfl
  refine ensures_bind (R := fun _ s => s = r.forward .applying r.p.moves.length t)
    (ensures_askTree _ (fun _ _ => rfl) (fun _ _ => hclean hhere)) ?_
  rintro _ _ rfl
  refine ensures_bind (R := fun p s => p = rolling r.base .applying r.p.moves.length ∧
    s = r.forward .applying r.p.moves.length t) ?_ ?_
  · exact ensures_bind (R := fun u s => u = r.forward .applying r.p.moves.length t ∧ s = u)
      (ensures_read ⟨rfl, rfl⟩) (by rintro _ _ ⟨rfl, rfl⟩; exact ensures_return _ ⟨rfl, rfl⟩)
  rintro _ _ ⟨rfl, rfl⟩
  refine ensures_bind (R := fun _ s => s = r.forward .applied r.p.moves.length t)
    (ensures_advanceJournal (by simp [rolling, JournalState.allowedJournalTransitions]) hacc
      (.applied _ _ hview) (fun _ => rfl) fun b _ =>
        ⟨hclean hhere, hclean ⟨rfl, rfl, rfl, rfl, rfl⟩⟩) ?_
  rintro _ _ rfl
  refine ensures_return _ ⟨t, rfl, hview, ?_⟩
  rintro ⟨-, -, -, ⟨-, h⟩ | ⟨-, i, hi, hfault⟩⟩
  · exact hnobreak h
  · exact hunlink i hi hfault

end Course

end RagPipeline.Application
