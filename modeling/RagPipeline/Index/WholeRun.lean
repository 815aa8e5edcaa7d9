import RagPipeline.Index.StageRun

/-! # How a run ends

From the parsed chunks on: in a promotion or a note on its record, or with its
lease where something is raised that no handler around it closes. -/

set_option autoImplicit false

namespace RagPipeline.Index
open Guard Table Transition Fence Processes

section
variable [Deployment] {a : IngestAttempt} {w w' : World} {mayLose : Prop} {services : Services}
  {chunks : List ParsedChunk} {failures : Option String} {s : Store}

/-- No service fails. -/
structure Services.Calm (services : Services) : Prop where
  raises : ∀ p, services.raises p = none
  embeds : ∀ text, ∃ v, services.embed text = .ok v

/-- The promotion goes through, if it comes to one. -/
def Promotes (services : Services) (a : IngestAttempt) (chunks : List ParsedChunk)
    (failures : Option String) (s : Store) : Prop :=
  failures = none → services.raises .promote = none ∧ Reuses a services.fingerprint chunks s

/-- From the generation on nothing is raised outside the handler, nothing passes
it, and the promotion goes through. -/
structure Settling (services : Services) (a : IngestAttempt) (chunks : List ParsedChunk)
    (failures : Option String) (s : Store) : Prop where
  points : ∀ p ∈ [Point.allocate, .fingerprint, .contentKeys, .lease], services.raises p = none
  caught : ∀ e, services.staging (existingContentKeys services.fingerprint s) chunks = .error e →
    e.isException
  promotes : services.staging (existingContentKeys services.fingerprint s) chunks = .ok () →
    Promotes services a chunks failures s

/-- An end by an exception: with the lease, where the run was not to settle it,
or closed by a handler. -/
def Raised (settles : Prop) (services : Services) (a : IngestAttempt) (chunks : List ParsedChunk)
    (s : Store) (w : World) : Prop :=
  (¬ settles ∧ (services.Calm → ¬ Reuses a services.fingerprint chunks s) ∧ Working a w) ∨
    (settles ∧ ¬ services.Calm ∧ Over a w)

theorem raised_lasting {settles : Prop} :
    Lasting mayLose a (Raised settles services a chunks s) :=
  working_lasting.and.and.or over_lasting.and.and

omit [Deployment] in
theorem Services.Calm.check (h : services.Calm) (p : Point) : services.check p = .ok () :=
  check_none (h.raises p)

theorem Services.Calm.turn (h : services.Calm) (already : List String) (c : ParsedChunk)
    (index n : ℕ) : ∃ m, services.turn already c index n = .ok m := by
  obtain ⟨v, hv⟩ := h.embeds c.text
  simp only [Services.turn, h.check, hv, ok_bind]
  split
  · split
    · exact ⟨_, rfl⟩
    · split
      · exact ⟨_, rfl⟩
      · exact ⟨_, rfl⟩
  · exact ⟨_, rfl⟩

theorem Services.Calm.turns (h : services.Calm) (already : List String)
    (l : List (ParsedChunk × ℕ)) (n : ℕ) : ∃ m, services.turns already l n = .ok m := by
  induction l generalizing n with
  | nil => exact ⟨n, rfl⟩
  | cons x rest ih =>
    obtain ⟨m, hm⟩ := h.turn already x.1 x.2 n
    rw [Services.turns, hm, ok_bind]
    exact ih m

theorem Services.Calm.staging (h : services.Calm) (already : List String)
    (chunks : List ParsedChunk) : services.staging already chunks = .ok () := by
  obtain ⟨m, hm⟩ := h.turns already chunks.zipIdx 0
  rw [Services.staging, hm, ok_bind, Services.lastWrite, h.check, h.check]
  split <;> rfl

/-- Without failures a run settles exactly if it is promoted. -/
theorem Services.Calm.settling_iff (h : services.Calm) :
    Settling services a chunks none s ↔ Reuses a services.fingerprint chunks s := by
  constructor
  · exact fun hs => (hs.promotes (h.staging _ _) rfl).2
  · refine fun hreuses => ⟨fun p _ => h.raises p, fun e he => ?_, fun _ _ => ⟨h.raises _, hreuses⟩⟩
    rw [h.staging] at he
    cases he

/-- A point outside every handler. -/
theorem raised_point {settles : Prop} {p : Point} {e : Refusal}
    (h : services.raises p = some e) (hsettles : settles → services.raises p = none)
    (hw : Working a w) : Raised settles services a chunks s w := by
  refine .inl ⟨fun hs => ?_, fun hcalm => ?_, hw⟩
  · rw [hsettles hs] at h
    cases h
  · rw [hcalm.raises] at h
    cases h

/-- A phase that a handler closes. -/
theorem closing_leads {α : Type} {status : AttemptOutcome} (note : Option String)
    (hstatus : status ∈ AttemptOutcome.workerWritable) {Q : α → World → Prop}
    {E : Refusal → World → Prop} {P : World → Prop} {rest : Ingest α}
    (hP : ∀ w, P w → Working a w)
    (h : Leads mayLose a (Over a) rest Q E) (hE : ∀ e, Lasting mayLose a (E e)) :
    Leads mayLose a P (closeAttempt a status note >>= fun _ => rest) Q E := by
  refine leads_bind (R := fun _ => Over a) ?_ (fun _ => h) hE
  refine ensures_mono (closeAttempt_ensures note hstatus) (fun w hw => ?_) (fun _ _ hw => .inl hw)
    fun _ _ hw => hw.elim
  rcases hw with hw | hw
  · exact (hP w hw).toBegun
  · exact hw.2.toBegun

theorem stageOrClose_leads (r : Course) (table : List ChunkRow) :
    Leads mayLose a (At a r.generation table)
      (stageOrClose r.services a r.generation r.already chunks)
      (fun ids w => r.services.staging r.already chunks = .ok () ∧ ids = r.manifest chunks ∧
        At a r.generation ((r.plan a.candidateId (usedChunks chunks)).result table) w)
      fun e w => r.services.staging r.already chunks = .error e ∧
        (e.isException = false ∧ Working a w ∨ e.isException = true ∧ Over a w) := by
  refine leads_tryCatch (Course.stageGeneration_leads chunks) (fun e => ?_)
    fun _ => (at_lasting _ _).and.and
  refine leads_assume (by split; exacts [keeps_close.bind fun _ => keeps_throw, keeps_throw])
    fun hstaging => ?_
  by_cases he : e.isException
  · rw [if_pos he]
    refine closing_leads _ (by decide) (fun _ h => h) ?_
      fun _ => (working_lasting.and.or over_lasting.and).and
    exact leads_throw over_lasting fun w hover => ⟨hstaging, .inr ⟨he, hover⟩⟩
  · rw [if_neg he]
    exact leads_throw working_lasting fun w hworking => ⟨hstaging, .inl ⟨by simpa using he, hworking⟩⟩

theorem finishRun_leads (r : Course)
    (halready : r.already = existingContentKeys r.services.fingerprint s)
    (hunused : Unused a s.chunks r.generation)
    (hsome : failures = none → usedChunks chunks ≠ []) :
    Leads mayLose a
      (At a r.generation ((r.plan a.candidateId (usedChunks chunks)).result s.chunks))
      (finishRun r.services a r.generation (manifestIds r.generation chunks) failures)
      (fun verdict w => Promotes r.services a chunks failures s ∧
        (failures = none → verdict = .done ∧ Promoted a chunks w) ∧ Over a w)
      fun _ w => Raised (Promotes r.services a chunks failures s) r.services a chunks s w := by
  cases failures with
  | some note =>
    have hpromotes : Promotes r.services a chunks (some note) s := fun h => by cases h
    refine closing_leads _ (by decide) (fun w h => h.working) ?_ fun _ => raised_lasting
    cases hcount : r.services.raises .count with
    | some e =>
      rw [meets_some hcount]
      refine leads_throw over_lasting fun w hover => .inr ⟨hpromotes, fun hcalm => ?_, hover⟩
      rw [hcalm.raises] at hcount
      cases hcount
    | none =>
      rw [meets_none hcount]
      exact leads_pure over_lasting fun w hover =>
        ⟨hpromotes, (fun h => by cases h), hover⟩
  | none =>
    show Leads mayLose a _ (do
      r.services.meets .promote
      perform fun now => .promote r.generation a.observedActive (manifestIds r.generation chunks)
        a.candidateSha a.candidateId a.attemptId now
      r.services.meets .count
      return Verdict.done : Ingest Verdict) _ _
    cases hpromote : r.services.raises .promote with
    | some e =>
      rw [meets_some hpromote]
      exact leads_throw (at_lasting _ _) fun w hat =>
        raised_point hpromote (fun hs => (hs rfl).1) hat.working
    | none =>
      rw [meets_none hpromote]
      refine leads_bind (leads_mono (promote_leads r halready hunused (hsome rfl)) (fun _ h => h)
        (fun _ _ h => h) fun e w h => .inl ⟨fun hs => h.1 (hs rfl).2, fun _ => h.1, h.2⟩)
        (fun _ => ?_) fun _ => raised_lasting
      refine leads_assume ((keeps_meets _ _).bind fun _ => keeps_pure) fun hreuses => ?_
      have hpromotes : Promotes r.services a chunks none s := fun _ => ⟨hpromote, hreuses⟩
      have hlasting : Lasting mayLose a fun w => Promoted a chunks w ∧ Over a w :=
        .of_stable fun w w' h ho => ⟨promoted_stable chunks w w' h.1 ho, over_stable w w' h.2 ho⟩
      cases hcount : r.services.raises .count with
      | some e =>
        rw [meets_some hcount]
        refine leads_throw hlasting fun w h => .inr ⟨hpromotes, fun hcalm => ?_, h.2⟩
        rw [hcalm.raises] at hcount
        cases hcount
      | none =>
        rw [meets_none hcount]
        exact leads_pure hlasting fun w h => ⟨hpromotes, fun _ => ⟨rfl, h.1⟩, h.2⟩

theorem read_leads (generation : ℕ) (fingerprint : String) {E : Refusal → World → Prop} :
    Leads mayLose a (At a generation s.chunks) (readContentKeys fingerprint)
      (fun already w => already = existingContentKeys fingerprint s ∧ At a generation s.chunks w)
      E := by
  refine ensures_transact (E := fun _ _ => False) (at_lasting _ _) (fun _ w w' already hw hok => ?_)
    (fun _ w e _ herr => by cases herr) (fun _ => (at_lasting _ _).and)
    (fun _ _ _ h _ => h) |> fun h => ensures_mono h (fun _ hw => hw) (fun _ _ hw => hw)
    fun _ _ hw => hw.elim
  obtain ⟨rfl, rfl⟩ := Prod.mk.inj (Except.ok.inj hok)
  exact hw.imp_left fun hat => ⟨existingContentKeys_congr hat.chunks, hat⟩

/-- After the generation: the reading, the loop and the verdict. -/
theorem indexChunks_leads (hsome : failures = none → usedChunks chunks ≠ []) :
    Leads mayLose a (fun w => Working a w ∧ w.store.chunks = s.chunks)
      (indexChunks services chunks failures a)
      (fun verdict w => Settling services a chunks failures s ∧
        (failures = none → verdict = .done ∧ Promoted a chunks w) ∧ Over a w)
      fun _ w => Raised (Settling services a chunks failures s) services a chunks s w := by
  have hpoint : ∀ p ∈ [Point.allocate, .fingerprint, .contentKeys, .lease],
      Settling services a chunks failures s → services.raises p = none := fun p hp h => h.points p hp
  have hlast : ∀ generation already, Keeps (Over a) (do
      services.meets .lease
      heartbeat a
      let manifest ← stageOrClose services a generation already chunks
      finishRun services a generation manifest failures) := fun generation already =>
    (keeps_meets _ _).bind fun _ => (keeps_perform fun _ => rfl).bind fun _ =>
      keeps_stageOrClose.bind fun _ => keeps_finishRun
  unfold indexChunks
  cases hallocate : services.raises .allocate with
  | some e =>
    rw [meets_some hallocate]
    exact leads_throw (table_owned _).lasting fun w h =>
      raised_point hallocate (hpoint _ (by simp)) h.1
  | none =>
  rw [meets_none hallocate]
  refine leads_bind (allocate_leads s.chunks) (fun g => ?_) fun _ => raised_lasting
  refine leads_assume ((keeps_meets _ _).bind fun _ => (keeps_meets _ _).bind fun _ =>
    (keeps_read _).bind fun already => hlast g already) fun hunused => ?_
  cases hfingerprint : services.raises .fingerprint with
  | some e =>
    rw [meets_some hfingerprint]
    exact leads_throw (at_lasting _ _) fun w h =>
      raised_point hfingerprint (hpoint _ (by simp)) h.working
  | none =>
  rw [meets_none hfingerprint]
  cases hkeys : services.raises .contentKeys with
  | some e =>
    rw [meets_some hkeys]
    exact leads_throw (at_lasting _ _) fun w h => raised_point hkeys (hpoint _ (by simp)) h.working
  | none =>
  rw [meets_none hkeys]
  refine leads_bind (read_leads g services.fingerprint) (fun already => ?_) fun _ => raised_lasting
  refine leads_assume (hlast g already) fun halready => ?_
  subst halready
  cases hlease : services.raises .lease with
  | some e =>
    rw [meets_some hlease]
    exact leads_throw (at_lasting _ _) fun w h => raised_point hlease (hpoint _ (by simp)) h.working
  | none =>
  rw [meets_none hlease]
  refine leads_bind (heartbeat_leads g s.chunks) (fun _ => ?_) fun _ => raised_lasting
  have hpoints : ∀ p ∈ [Point.allocate, .fingerprint, .contentKeys, .lease],
      services.raises p = none := by
    simp [hallocate, hfingerprint, hkeys, hlease]
  let r : Course := ⟨services, g, existingContentKeys services.fingerprint s⟩
  refine leads_bind (leads_mono (stageOrClose_leads r s.chunks) (fun _ h => h) (fun _ _ h => h)
    fun e w h => ?_) (fun ids => ?_) fun _ => raised_lasting
  · -- what was raised while staging decides who closes the attempt
    obtain ⟨hstaging, hend⟩ := h
    have hcalm : ¬ services.Calm := fun hcalm => by
      rw [hcalm.staging] at hstaging
      cases hstaging
    rcases hend with ⟨he, hworking⟩ | ⟨he, hover⟩
    · refine .inl ⟨fun hs => ?_, fun h => absurd h hcalm, hworking⟩
      rw [hs.caught e hstaging] at he
      cases he
    · refine .inr ⟨⟨hpoints, fun e' he' => ?_, fun hok => ?_⟩, hcalm, hover⟩
      · obtain rfl : e = e' := Except.error.inj (hstaging.symm.trans he')
        exact he
      · cases hstaging.symm.trans hok
  · refine leads_assume keeps_finishRun fun hstaging => leads_assume keeps_finishRun fun hids => ?_
    have hiff : Settling services a chunks failures s ↔ Promotes services a chunks failures s := by
      refine ⟨fun hs => hs.promotes hstaging, fun hp => ⟨hpoints, fun e he => ?_, fun _ => hp⟩⟩
      cases hstaging.symm.trans he
    rw [hiff, hids]
    exact finishRun_leads r rfl hunused hsome

theorem guarded_leads {α : Type} {early : Except Refusal α} {P : World → Prop}
    (hP : Lasting mayLose a P) (hworking : ∀ w, P w → Working a w) :
    Leads mayLose a P (guarded services a early) (fun x w => early = .ok x ∧ P w)
      fun e w => early = .error e ∧ Over a w := by
  unfold guarded
  cases early with
  | ok x => exact leads_pure hP fun w hw => ⟨rfl, hw⟩
  | error e =>
    refine closing_leads _ (by decide) hworking ?_ fun _ => over_lasting.and
    exact leads_throw over_lasting fun w hover => ⟨rfl, hover⟩

theorem keeps_guarded {α : Type} {early : Except Refusal α} :
    Keeps (Over a) (guarded services a early) := by
  unfold guarded
  cases early with
  | ok x => exact keeps_pure
  | error e => exact keeps_close.bind fun _ => keeps_throw

/-- Whether the lease is still there or not, the early look changes nothing. -/
theorem refuse_leads {E : Refusal → World → Prop} :
    Leads mayLose a (fun w => Working a w ∧ w.store.chunks = s.chunks) (refuseIfSuperseded a)
      (fun _ w => Working a w ∧ w.store.chunks = s.chunks) E := by
  refine ensures_mono (ensures_transact (E := fun _ w => mayLose ∧ Over a w)
    (table_owned s.chunks).lasting (fun now w w' _ hw hok => ?_) (fun now w e hw herr => ?_)
    (fun _ => (table_owned s.chunks).lasting)
    fun e w w' hw ho => ⟨hw.1, over_stable w w' hw.2 ho⟩) (fun _ hw => hw) (fun _ _ hw => hw)
    fun _ _ hw => .inr hw
  · simp only [bind_ok, pure_ok, Prod.mk.injEq] at hok
    obtain ⟨d, -, -, -, rfl, -⟩ := hok
    exact hw
  · rcases hw with hw | hw
    · obtain ⟨d, hd, -, hcand, -⟩ := hw.1.row
      simp only [hd, demand, require_true hcand, ok_bind] at herr
      cases herr
    · exact hw

theorem keeps_indexChunks : Keeps (Over a) (indexChunks services chunks failures a) :=
  (keeps_meets _ _).bind fun _ => keeps_allocate.bind fun _ => (keeps_meets _ _).bind fun _ =>
    (keeps_meets _ _).bind fun _ => (keeps_read _).bind fun _ => (keeps_meets _ _).bind fun _ =>
      (keeps_perform fun _ => rfl).bind fun _ => keeps_stageOrClose.bind fun _ => keeps_finishRun

/-- Nothing is raised between the parse and the first look at the row. -/
def Starts (services : Services) : Prop :=
  ∀ p ∈ [Point.connect, .ready, .superseded], services.raises p = none

theorem start_leads {rest : Ingest Verdict} {Q : Verdict → World → Prop}
    {E : Refusal → World → Prop} (hE : ∀ e, Lasting mayLose a (E e))
    (hraise : ¬ Starts services → ∀ e w, Working a w → E e w)
    (hrest : Starts services →
      Leads mayLose a (fun w => Working a w ∧ w.store.chunks = s.chunks) rest Q E) :
    Leads mayLose a (fun w => Working a w ∧ w.store.chunks = s.chunks) (do
      services.meets .connect
      services.meets .ready
      services.meets .superseded
      refuseIfSuperseded a
      rest) Q E := by
  have hpoint : ∀ p e, p ∈ [Point.connect, .ready, .superseded] → services.raises p = some e →
      Leads mayLose a (fun w => Working a w ∧ w.store.chunks = s.chunks)
        (throw e : Ingest Verdict) Q E := fun p e hp he => by
    refine leads_throw (table_owned s.chunks).lasting fun w hw => hraise (fun hs => ?_) e w hw.1
    cases (hs p hp).symm.trans he
  cases hconnect : services.raises .connect with
  | some e =>
    rw [meets_some hconnect]
    exact hpoint _ e (by simp) hconnect
  | none =>
  rw [meets_none hconnect]
  cases hready : services.raises .ready with
  | some e =>
    rw [meets_some hready]
    exact hpoint _ e (by simp) hready
  | none =>
  rw [meets_none hready]
  cases hsuperseded : services.raises .superseded with
  | some e =>
    rw [meets_some hsuperseded]
    exact hpoint _ e (by simp) hsuperseded
  | none =>
  rw [meets_none hsuperseded]
  refine leads_bind refuse_leads (fun _ => hrest ?_) hE
  simp [Starts, hconnect, hready, hsuperseded]

omit [Deployment] in
theorem usedChunks_ne {c : ParsedChunk} (hc : c ∈ chunks) (huse : c.usable) :
    usedChunks chunks ≠ [] := by
  obtain ⟨i, hi, rfl⟩ := List.getElem_of_mem hc
  have hmem : (chunks[i], i) ∈ chunks.zipIdx :=
    List.mem_zipIdx_iff_getElem?.2 (List.getElem?_eq_getElem hi)
  exact List.ne_nil_of_mem (List.mem_filter.2 ⟨hmem, huse⟩)

/-- The run of a parse that is of some use. -/
theorem indexParsed_leads (hparsed : ¬ (chunks.all (fun c => !c.usable) ∧ failures = none)) :
    Leads mayLose a (fun w => Working a w ∧ w.store.chunks = s.chunks)
      (indexParsed services chunks failures a)
      (fun verdict w => (Starts services ∧ Settling services a chunks failures s) ∧
        (failures = none → verdict = .done ∧ Promoted a chunks w) ∧ Over a w)
      fun _ w => Raised (Starts services ∧ Settling services a chunks failures s) services a chunks
        s w := by
  have hsome : failures = none → usedChunks chunks ≠ [] := fun hnone => by
    by_contra hused
    refine hparsed ⟨List.all_eq_true.2 fun c hc => ?_, hnone⟩
    by_contra huse
    exact usedChunks_ne hc (by simpa using huse) hused
  unfold indexParsed
  rw [if_neg hparsed]
  refine start_leads (fun _ => raised_lasting) (fun hstarts e w hw => .inl ⟨fun h => hstarts h.1,
    fun hcalm => absurd (fun p _ => hcalm.raises p) hstarts, hw⟩) fun hstarts => ?_
  refine leads_mono (indexChunks_leads hsome) (fun _ h => h)
    (fun _ _ h => ⟨⟨hstarts, h.1⟩, h.2⟩) fun _ _ h => ?_
  exact h.imp (fun h => ⟨fun hs => h.1 hs.2, h.2⟩) fun h => ⟨⟨hstarts, h.1⟩, h.2⟩

/-- The run of a parse that is of no use: closed, and raised. -/
theorem unusable_leads (hparsed : chunks.all (fun c => !c.usable) ∧ failures = none) :
    Leads mayLose a (fun w => Working a w ∧ w.store.chunks = s.chunks)
      (indexParsed services chunks failures a) (fun _ _ => False)
      fun _ w => (¬ Starts services ∧ Working a w) ∨ (Starts services ∧ Over a w) := by
  unfold indexParsed
  rw [if_pos hparsed]
  refine start_leads (fun _ => working_lasting.and.or over_lasting.and)
    (fun hstarts e w hw => .inl ⟨hstarts, hw⟩) fun hstarts => ?_
  refine closing_leads _ (by decide) (fun w h => h.1) ?_
    fun _ => working_lasting.and.or over_lasting.and
  exact leads_throw over_lasting fun w hover => .inr ⟨hstarts, hover⟩

theorem keeps_indexParsed : Keeps (Over a) (indexParsed services chunks failures a) := by
  refine (keeps_meets _ _).bind fun _ => (keeps_meets _ _).bind fun _ =>
    (keeps_meets _ _).bind fun _ => keeps_refuse.bind fun _ => ?_
  split
  · exact keeps_close.bind fun _ => keeps_throw
  · exact keeps_indexChunks

theorem keeps_ingestAttempt {snapshot : Snapshot} :
    Keeps (Over a) (ingestAttempt services snapshot a) :=
  keeps_guarded.bind fun _ => keeps_indexParsed

end

end RagPipeline.Index
