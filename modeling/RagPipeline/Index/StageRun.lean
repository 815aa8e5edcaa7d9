import RagPipeline.Index.IngestRun

/-! # What a run stages and what it raises

The loop, turn by turn: the rows it has written and those that wait are those of
the plan for the chunks met so far, and it raises what the services raise. -/

set_option autoImplicit false

namespace RagPipeline.Index
open Guard Table Transition Fence Processes

section
variable [Deployment] {a : IngestAttempt} {w w' : World} {mayLose : Prop}

omit [Deployment] in
theorem meets_none {α : Type} {services : Services} {p : Point} (h : services.raises p = none)
    (f : Unit → Ingest α) : (services.meets p >>= f) = f () := by
  rw [Services.meets, h]
  rfl

omit [Deployment] in
theorem meets_some {α : Type} {services : Services} {p : Point} {e : Refusal}
    (h : services.raises p = some e) (f : Unit → Ingest α) :
    (services.meets p >>= f) = throw e := by
  rw [Services.meets, h]
  rfl

namespace Services

omit [Deployment] in
theorem check_none {services : Services} {p : Point} (h : services.raises p = none) :
    services.check p = .ok () := by
  rw [check, h]

omit [Deployment] in
theorem check_some {services : Services} {p : Point} {e : Refusal}
    (h : services.raises p = some e) : services.check p = .error e := by
  rw [check, h]

def vectors (services : Services) (text : String) : Vectors :=
  match services.embed text with
  | .ok v => v
  | .error _ => ⟨"", ""⟩

/-- What a turn raises, and how many rows wait after it. -/
def turn (services : Services) (already : List String) (c : ParsedChunk) (index n : ℕ) :
    Except Refusal ℕ := do
  services.check (.turn index)
  if c.usable then
    if contentKey c index ∈ already then return n
    else
      let _ ← services.embed c.text
      if 32 ≤ n + 1 then
        services.check (.upsert index)
        services.check (.renew index)
        return 0
      else return n + 1
  else return n

def turns (services : Services) (already : List String) :
    List (ParsedChunk × ℕ) → ℕ → Except Refusal ℕ
  | [], n => .ok n
  | (c, index) :: rest, n => do
    let n ← services.turn already c index n
    services.turns already rest n

def lastWrite (services : Services) (n : ℕ) : Except Refusal Unit :=
  if n = 0 then .ok () else services.check .rest

/-- What is raised while a run stages. -/
def staging (services : Services) (already : List String) (chunks : List ParsedChunk) :
    Except Refusal Unit := do
  let n ← services.turns already chunks.zipIdx 0
  services.lastWrite n
  services.check .copy

end Services

/-- What is fixed while a run stages. -/
structure Course where
  services : Services
  generation : ℕ
  already : List String

namespace Course

variable (r : Course)

def row (x : ParsedChunk × ℕ) : PreparedRow :=
  prepare r.services.fingerprint r.generation x.1 x.2

/-- The plan for the chunks met so far. -/
def plan (version : Uuid) (l : List (ParsedChunk × ℕ)) : StagePlan where
  version := version
  generation := r.generation
  fingerprint := r.services.fingerprint
  embedded := (l.filter fun x => contentKey x.1 x.2 ∉ r.already).map fun x =>
    (r.row x, r.services.vectors x.1.text)
  copied := (l.filter fun x => contentKey x.1 x.2 ∈ r.already).map r.row

/-- After the chunks met so far: the rows that were flushed are in the table,
the others wait. -/
def Loop (a : IngestAttempt) (table : List ChunkRow) (l : List (ParsedChunk × ℕ)) (st : Staging)
    (w : World) : Prop :=
  st.copyPairs = (r.plan a.candidateId l).copied ∧
    st.manifest = l.map (fun x => (r.row x).id) ∧
    ∃ flushed, flushed ++ st.batch = (r.plan a.candidateId l).embedded ∧
      At a r.generation (insertChunkRows a.candidateId table flushed) w

variable {r} {table : List ChunkRow} {l : List (ParsedChunk × ℕ)} {st : Staging}

theorem loop_owned : Owned a (r.Loop a table l st) where
  working w h := by
    obtain ⟨-, -, flushed, -, hat⟩ := h
    exact hat.working
  quiet w w' h hworking hquiet := by
    obtain ⟨hpairs, hmanifest, flushed, hflushed, hat⟩ := h
    exact ⟨hpairs, hmanifest, flushed, hflushed, (at_owned _ _).quiet w w' hat hworking hquiet⟩

omit [Deployment] in
theorem insertChunkRows_append {version : Uuid} {rows more : List (PreparedRow × Vectors)} :
    insertChunkRows version (insertChunkRows version table rows) more =
      insertChunkRows version table (rows ++ more) := by
  rw [insertChunkRows, insertChunkRows, insertChunkRows, insertAll_append, List.map_append]

theorem embedded_prepared {version : Uuid} : ∀ row ∈ (r.plan version l).embedded,
    ∃ c index, row.1 = prepare r.services.fingerprint r.generation c index := by
  intro row hrow
  obtain ⟨x, -, rfl⟩ := List.mem_map.1 hrow
  exact ⟨x.1, x.2, rfl⟩

theorem copied_prepared {version : Uuid} : ∀ row ∈ (r.plan version l).copied,
    ∃ c index, row = prepare r.services.fingerprint r.generation c index := by
  intro row hrow
  obtain ⟨x, -, rfl⟩ := List.mem_map.1 hrow
  exact ⟨x.1, x.2, rfl⟩

/-- The chunks a run does not skip, of those it met. -/
def used (l : List (ParsedChunk × ℕ)) : List (ParsedChunk × ℕ) := l.filter fun x => x.1.usable

theorem stageChunk_leads {flushed : List (PreparedRow × Vectors)} {c : ParsedChunk} {index : ℕ}
    (hpairs : st.copyPairs = (r.plan a.candidateId l).copied)
    (hmanifest : st.manifest = l.map fun x => (r.row x).id)
    (hflushed : flushed ++ st.batch = (r.plan a.candidateId l).embedded) :
    Leads mayLose a (At a r.generation (insertChunkRows a.candidateId table flushed))
      (stageChunk r.services a r.generation r.already c index st)
      (fun st' w => r.services.turn r.already c index st.batch.length = .ok st'.batch.length ∧
        r.Loop a table (l ++ used [(c, index)]) st' w)
      fun e w => r.services.turn r.already c index st.batch.length = .error e ∧ Working a w := by
  have hworking : ∀ w, At a r.generation (insertChunkRows a.candidateId table flushed) w →
      Working a w := fun w h => h.working
  unfold stageChunk Services.turn
  cases hturn : r.services.raises (.turn index) with
  | some e =>
    rw [meets_some hturn, Services.check_some hturn]
    exact leads_throw (at_lasting _ _) fun w h => ⟨rfl, h.working⟩
  | none =>
    rw [meets_none hturn, Services.check_none hturn, ok_bind]
    dsimp only
    by_cases huse : c.usable
    · have hused : used [(c, index)] = [(c, index)] := List.filter_cons_of_pos huse
      rw [if_pos huse, if_pos huse, hused]
      have hmanifest' : st.manifest ++ [(r.row (c, index)).id] =
          (l ++ [(c, index)]).map (fun x => (r.row x).id) := by
        rw [hmanifest, List.map_append, List.map_singleton]
      have hrow : prepare r.services.fingerprint r.generation c index = r.row (c, index) := rfl
      have hkeyrow : (r.row (c, index)).contentKey = contentKey c index := rfl
      rw [hrow, hkeyrow]
      by_cases hkey : contentKey c index ∈ r.already
      · rw [if_pos hkey, if_pos hkey]
        refine leads_pure (at_lasting _ _) fun w hat => ⟨rfl, ?_, hmanifest', flushed, ?_, hat⟩
        · simp [plan, hkey, hpairs]
        · simpa [plan, hkey] using hflushed
      · rw [if_neg hkey, if_neg hkey]
        cases hembed : r.services.embed c.text with
        | error e => exact leads_throw (at_lasting _ _) fun w hat => ⟨rfl, hat.working⟩
        | ok v =>
          have hvectors : r.services.vectors c.text = v := by rw [Services.vectors, hembed]
          have hembedded : flushed ++ (st.batch ++ [(r.row (c, index), v)]) =
              (r.plan a.candidateId (l ++ [(c, index)])).embedded := by
            rw [← List.append_assoc, hflushed]
            simp [plan, hkey, hvectors]
          have hcopied : st.copyPairs = (r.plan a.candidateId (l ++ [(c, index)])).copied := by
            simp [plan, hkey, hpairs]
          rw [lift_ok_bind, ok_bind, List.length_append, List.length_singleton]
          by_cases hfull : 32 ≤ st.batch.length + 1
          · -- the batch is full: it is flushed, and the lease renewed
            rw [if_pos hfull, if_pos hfull]
            cases hupsert : r.services.raises (.upsert index) with
            | some e =>
              rw [meets_some hupsert, Services.check_some hupsert]
              exact leads_throw (at_lasting _ _) fun w hat => ⟨rfl, hat.working⟩
            | none =>
              rw [meets_none hupsert, Services.check_none hupsert, ok_bind]
              refine leads_bind (upsert_leads _ _ r.services.fingerprint fun x hx => ?_)
                (fun _ => ?_) fun _ => working_lasting.and
              · refine @embedded_prepared _ r (l ++ [(c, index)]) a.candidateId x ?_
                rw [← hembedded]
                exact List.mem_append_right _ hx
              · cases hrenew : r.services.raises (.renew index) with
                | some e =>
                  rw [meets_some hrenew, Services.check_some hrenew]
                  exact leads_throw (at_lasting _ _) fun w hat => ⟨rfl, hat.working⟩
                | none =>
                  rw [meets_none hrenew, Services.check_none hrenew, ok_bind]
                  refine leads_bind (heartbeat_leads _ _) (fun _ => ?_) fun _ => working_lasting.and
                  refine leads_pure (at_lasting _ _) fun w hat => ⟨rfl, hcopied, hmanifest',
                    flushed ++ (st.batch ++ [(r.row (c, index), v)]), ?_, ?_⟩
                  · exact (List.append_nil _).trans hembedded
                  · rw [insertChunkRows_append] at hat
                    exact hat
          · rw [if_neg hfull, if_neg hfull]
            refine leads_pure (at_lasting _ _) fun w hat => ⟨?_, hcopied, hmanifest', flushed,
              hembedded, hat⟩
            exact congrArg Except.ok (by simp)
    · have hused : used [(c, index)] = [] := List.filter_cons_of_neg huse
      rw [if_neg huse, if_neg huse, hused, List.append_nil]
      exact leads_pure (at_lasting _ _) fun w hat => ⟨rfl, hpairs, hmanifest, flushed, hflushed, hat⟩

theorem stageChunks_leads (rest : List (ParsedChunk × ℕ)) :
    Leads mayLose a (r.Loop a table l st)
      (stageChunks r.services a r.generation r.already rest st)
      (fun st' w => r.services.turns r.already rest st.batch.length = .ok st'.batch.length ∧
        r.Loop a table (l ++ used rest) st' w)
      fun e w => r.services.turns r.already rest st.batch.length = .error e ∧ Working a w := by
  induction rest generalizing l st with
  | nil =>
    refine leads_pure loop_owned.lasting fun w h => ⟨rfl, ?_⟩
    rwa [used, List.filter_nil, List.append_nil]
  | cons x rest ih =>
    obtain ⟨c, index⟩ := x
    have hkeeps : Keeps (Over a) (stageChunks r.services a r.generation r.already
      ((c, index) :: rest) st) := keeps_stageChunks
    have happend : l ++ used ((c, index) :: rest) = l ++ used [(c, index)] ++ used rest := by
      rw [List.append_assoc, used, used, used, ← List.filter_append, List.singleton_append]
    refine leads_assume hkeeps fun hpairs => leads_assume hkeeps fun hmanifest => ?_
    refine leads_exists hkeeps fun flushed => leads_assume hkeeps fun hflushed => ?_
    rw [Services.turns, happend]
    refine leads_bind (leads_mono (stageChunk_leads hpairs hmanifest hflushed) (fun _ h => h)
      (fun _ _ h => h) fun e w h => ⟨by rw [h.1, error_bind], h.2⟩) (fun st' => ?_)
      fun _ => working_lasting.and
    refine leads_assume keeps_stageChunks fun hturn => ?_
    rw [hturn, ok_bind]
    exact ih

/-- The ids a run promises to serve. -/
def manifest (chunks : List ParsedChunk) : List String :=
  (used chunks.zipIdx).map fun x => (r.row x).id

theorem writeRest_leads {flushed : List (PreparedRow × Vectors)}
    {batch : List (PreparedRow × Vectors)}
    (hbatch : ∀ row ∈ batch, ∃ c index, row.1 = prepare r.services.fingerprint r.generation c index) :
    Leads mayLose a (At a r.generation (insertChunkRows a.candidateId table flushed))
      (writeRest r.services a batch)
      (fun _ w => r.services.lastWrite batch.length = .ok () ∧
        At a r.generation (insertChunkRows a.candidateId table (flushed ++ batch)) w)
      fun e w => r.services.lastWrite batch.length = .error e ∧ Working a w := by
  unfold writeRest Services.lastWrite
  by_cases hempty : batch = []
  · subst hempty
    simp only [List.isEmpty_nil, if_true, List.length_nil, List.append_nil]
    exact leads_pure (at_lasting _ _) fun w hat => ⟨trivial, hat⟩
  · rw [if_neg (by simpa using hempty), if_neg (by simpa using hempty)]
    cases hrest : r.services.raises .rest with
    | some e =>
      rw [meets_some hrest, Services.check_some hrest]
      exact leads_throw (at_lasting _ _) fun w hat => ⟨rfl, hat.working⟩
    | none =>
      rw [meets_none hrest, Services.check_none hrest, ← insertChunkRows_append]
      exact leads_mono (upsert_leads r.generation _ r.services.fingerprint hbatch) (fun _ h => h)
        (fun _ _ h => ⟨rfl, h⟩) fun _ _ h => h

theorem stageGeneration_leads (chunks : List ParsedChunk) :
    Leads mayLose a (At a r.generation table)
      (stageGeneration r.services a r.generation r.already chunks)
      (fun ids w => r.services.staging r.already chunks = .ok () ∧ ids = r.manifest chunks ∧
        At a r.generation ((r.plan a.candidateId (used chunks.zipIdx)).result table) w)
      fun e w => r.services.staging r.already chunks = .error e ∧ Working a w := by
  have hloop := @stageChunks_leads _ a mayLose r table [] ⟨[], [], []⟩ chunks.zipIdx
  simp only [List.length_nil] at hloop
  unfold Services.staging
  refine leads_bind (leads_mono hloop (fun w hat => ⟨rfl, rfl, [], rfl, hat⟩) (fun _ _ h => h)
    fun e w h => ⟨by rw [h.1, error_bind], h.2⟩) (fun st => ?_) fun _ => working_lasting.and
  have hkeeps : Keeps (Over a) (do
      writeRest r.services a st.batch
      r.services.meets .copy
      perform fun _ => .copy st.copyPairs a
      return st.manifest : Ingest (List String)) :=
    keeps_writeRest.bind fun _ => (keeps_meets _ _).bind fun _ =>
      (keeps_perform fun _ => rfl).bind fun _ => keeps_pure
  rw [List.nil_append]
  refine leads_assume hkeeps fun hturns => leads_assume hkeeps fun hpairs => ?_
  refine leads_assume hkeeps fun hmanifest => leads_exists hkeeps fun flushed => ?_
  refine leads_assume hkeeps fun hflushed => ?_
  rw [hturns, ok_bind]
  refine leads_bind (leads_mono (@writeRest_leads _ a mayLose r table flushed _ fun row hrow => ?_)
    (fun _ h => h) (fun _ _ h => h) fun e w h => ⟨by rw [h.1, error_bind], h.2⟩) (fun _ => ?_)
    fun _ => working_lasting.and
  · exact embedded_prepared row (hflushed ▸ List.mem_append_right _ hrow)
  refine leads_assume ((keeps_meets _ _).bind fun _ =>
    (keeps_perform fun _ => rfl).bind fun _ => keeps_pure) fun hlast => ?_
  rw [hlast, ok_bind]
  cases hcopy : r.services.raises .copy with
  | some e =>
    rw [meets_some hcopy, Services.check_some hcopy]
    exact leads_throw (at_lasting _ _) fun w hat => ⟨rfl, hat.working⟩
  | none =>
    rw [meets_none hcopy, Services.check_none hcopy]
    refine leads_bind (copy_leads _ _ r.services.fingerprint fun row hrow => ?_) (fun _ => ?_)
      fun _ => working_lasting.and
    · rw [hpairs] at hrow
      exact copied_prepared row hrow
    · refine leads_pure (at_lasting _ _) fun w hat => ⟨rfl, hmanifest, ?_⟩
      rw [hflushed, hpairs] at hat
      exact hat

end Course

/-- The refusals a closing write absorbs. -/
def Refusal.saysLost : Refusal → Prop
  | .attemptFenced _ => True
  | .attemptLeaseLost _ => True
  | _ => False

omit [Deployment] in
theorem authority_error {s : Store} {e : Refusal} (h : authority a s = .error e) : e.saysLost := by
  unfold authority at h
  cases hd : s.document with
  | none =>
    rw [hd] at h
    cases h
    trivial
  | some d =>
    rw [hd] at h
    by_cases hcand : d.candidateId = some a.candidateId
    · by_cases hatt : d.attemptId = some a.attemptId
      · simp [demand, require, hcand, hatt] at h
      · simp only [demand, require, hcand, hatt, if_true, if_false, ok_bind, error_bind] at h
        cases h
        trivial
    · simp only [demand, require, hcand, if_false, ok_bind, error_bind] at h
      cases h
      trivial

theorem recordOutcome_succeeds {status : AttemptOutcome} {s : Store} {d : DocumentRow}
    (note : Option String) (now : Time) (hstatus : status ∈ AttemptOutcome.workerWritable)
    (hauth : authority a s = .ok d) (hp : d.purgedAt = none) :
    ∃ s', recordAttemptOutcome a status note now s = .ok s' := by
  rw [recordAttemptOutcome, require_true hstatus, ok_bind, hauth, ok_bind]
  exact ⟨_, (updateDocument_ok (by rfl)).2 ⟨.inl hp, rfl⟩⟩

theorem recordOutcome_ensures {status : AttemptOutcome} (note : Option String)
    (hstatus : status ∈ AttemptOutcome.workerWritable) :
    Ensures (others mayLose a) (Begun a) (perform fun now => .recordOutcome a status note now)
      (fun _ => Over a) fun e w => e.saysLost ∧ Over a w := by
  refine ensures_transact (fun w w' h ⟨_, hstep, _⟩ => h.next hstep)
    (fun now w w' _ h hok => ?_) (fun now w e h herr => ?_) (fun _ => over_stable)
    fun e w w' hw ho => ⟨hw.1, over_stable w w' hw.2 ho⟩
  · simp only [bind_ok, pure_ok, Prod.mk.injEq] at hok
    obtain ⟨w', hact, rfl, -⟩ := hok
    have hnext := @Begun.next _ _ _ _ (.recordOutcome a status note now) h ⟨trivial, trivial, hact⟩
    refine hnext.working_or_over.resolve_left fun hworking => ?_
    simp only [Action.perform, bind_ok, pure_ok] at hact
    obtain ⟨s, hs, rfl⟩ := hact
    obtain ⟨d, -, -, rfl⟩ := recordAttemptOutcome_ok hs
    obtain ⟨d', hd', -, -, hatt, -⟩ := hworking.row
    cases hd'
    cases hatt
  · rcases h.working_or_over with hworking | hover
    · obtain ⟨d, hd, hauth, hcand, hatt, -, -, hp⟩ := hworking.row
      obtain ⟨s, hop⟩ := recordOutcome_succeeds note now hstatus hauth hp
      simp only [Action.perform, hop, ok_bind] at herr
      cases herr
    · refine ⟨?_, hover⟩
      cases hauth : authority a w.store with
      | ok d =>
        obtain ⟨hd, -, hatt⟩ := authority_ok.1 hauth
        exact absurd hatt (hover.released hd)
      | error e' =>
        have hop : recordAttemptOutcome a status note now w.store = .error e' := by
          rw [recordAttemptOutcome, require_true hstatus, ok_bind, hauth, error_bind]
        simp only [Action.perform, hop, error_bind] at herr
        cases herr
        exact authority_error hauth

/-- The closing write ends the attempt, and what it absorbs says it had ended. -/
theorem closeAttempt_ensures {status : AttemptOutcome} (note : Option String)
    (hstatus : status ∈ AttemptOutcome.workerWritable) :
    Ensures (others mayLose a) (Begun a) (closeAttempt a status note) (fun _ => Over a)
      fun _ _ => False := by
  refine ensures_tryCatch (recordOutcome_ensures note hstatus) (fun e => ensures_assume fun he => ?_)
    fun _ => over_stable
  cases e <;> first
    | exact ensures_pure over_stable fun _ h => h
    | cases he

end

end RagPipeline.Index

/-! # The promotion of a run

A run that staged its plan is promoted exactly if the copy found a row for every
chunk that was left to it. -/

set_option autoImplicit false

namespace RagPipeline.Index
open Guard Table Transition Fence Processes

section
variable [Deployment] {a : IngestAttempt} {w w' : World} {mayLose : Prop}

/-- The chunks a run does not skip, each with its index. -/
def usedChunks (chunks : List ParsedChunk) : List (ParsedChunk × ℕ) := Course.used chunks.zipIdx

/-- The ids a run promises to serve. -/
def manifestIds (generation : ℕ) (chunks : List ParsedChunk) : List String :=
  (usedChunks chunks).map fun x => chunkId x.1 x.2 generation

/-- Every stored content that the run will not embed can be copied. -/
def Reuses (a : IngestAttempt) (fingerprint : String) (chunks : List ParsedChunk) (s : Store) :
    Prop :=
  ∀ x ∈ usedChunks chunks, contentKey x.1 x.2 ∈ existingContentKeys fingerprint s →
    Reusable s.chunks a.candidateId fingerprint (contentKey x.1 x.2)

omit [Deployment] in
theorem existingContentKeys_congr {fingerprint : String} {s s' : Store}
    (h : s'.chunks = s.chunks) :
    existingContentKeys fingerprint s' = existingContentKeys fingerprint s := by
  rw [existingContentKeys, existingContentKeys, h]

/-- The record of a working attempt, as `promote_generation` looks for it. -/
theorem Working.record (h : Working a w) :
    ∃ row ∈ w.store.attempts, row.attemptId = a.attemptId ∧ row.candidateId = a.candidateId ∧
      row.status = none ∧ runningRecord a.candidateId a.attemptId w.store = .ok () := by
  obtain ⟨row, hrow, hid, hsubject⟩ := h.genuine
  obtain ⟨d, hd, -, -, hatt, -⟩ := h.row
  have hcand : row.candidateId = a.candidateId := congrArg Subject.candidateId hsubject
  have hheld : w.store.fence.holder = some row.attemptId :=
    (fence_holder hd).trans (hatt.trans (congrArg some hid.symm))
  have hrun : row.status = none := (h.exclusive.holder_iff hrow).1 hheld
  refine ⟨row, hrow, hid, hcand, hrun, runningRecord_ok.2 ⟨row, ?_, hrun⟩⟩
  cases hfind : w.store.attempts.find? fun x =>
      x.attemptId = a.attemptId ∧ x.candidateId = a.candidateId with
  | none => exact absurd (List.find?_eq_none.1 hfind row hrow) (by simp [hid, hcand])
  | some x =>
    have hx := List.find?_some hfind
    simp only [decide_eq_true_eq] at hx
    rw [h.exclusive.ident_inj (List.mem_of_find?_eq_some hfind) hrow (hx.1.trans hid.symm)]

omit [Deployment] in
theorem receipt_succeeds {s : Store} {old new : DocumentRow} {attempt : Uuid} (version : VersionRow)
    (n : ℕ) (hatt : old.attemptId = some attempt) (hpositive : 0 < new.activeGeneration)
    (hrecord : ∃ x ∈ s.attempts, x.attemptId = attempt) :
    s.receipt old new version n = .ok { s with
      builds := insertNew BuildRow.key s.builds
        ⟨version.id, new.activeGeneration, version.contentSha256, attempt, n⟩ } := by
  unfold Store.receipt
  rw [hatt]
  simp only [require_true hpositive, require_true hrecord, ok_bind]
  rfl

/-- The trigger lets a working attempt move the pointer to rows it staged. -/
theorem Working.activation (h : Working a w) {generation : ℕ} {d : DocumentRow}
    (hd : w.store.document = some d) (hown : (a.attemptId, generation) ∈ w.allocated)
    (hpositive : 0 < generation) (hcount : 1 ≤ (w.store.build a.candidateId generation).length) :
    ∃ t, recordVersionActivation d (d.promoted a.candidateId generation a.candidateSha)
      (w.store.withDocument (d.promoted a.candidateId generation a.candidateSha)) = .ok t := by
  obtain ⟨d', hd', -, hcand, hatt, hsha, -, hp⟩ := h.row
  obtain rfl : d = d' := Option.some.inj (hd.symm.trans hd')
  obtain ⟨row, hrow, hid, hrowcand, hrun, -⟩ := h.record
  have hcat := reachable_catalogued (System.reachable_of_only h.reachable)
  have hnot : ¬ w.store.isPurged := by
    rw [isPurged_row hd]
    exact not_not.2 hp
  have hnew := (reachable_complete h.reachable).unbuilt row generation
    ⟨hrow, hrun, hid ▸ hown⟩ hnot
  rw [hrowcand, active_row hd] at hnew
  have hoffer : w.store.offer = (some a.candidateId, some a.candidateSha) := by
    rw [offer_row hd, hcand, hsha]
  obtain ⟨v, hv, hvid, hdigest⟩ := hcat.known _ _ hoffer
  have hmoved : ¬ (some a.candidateId = d.activeVersionId ∧ generation = d.activeGeneration) :=
    fun heq => hnew.2 ⟨heq.1.symm, heq.2.symm⟩
  have hfind := find_version hcat hv
  rw [hvid] at hfind
  have hreceipt := @receipt_succeeds
    (w.store.withDocument (d.promoted a.candidateId generation a.candidateSha)) _
    (d.promoted a.candidateId generation a.candidateSha) _ v
    (w.store.build a.candidateId generation).length hatt hpositive ⟨row, hrow, hid⟩
  refine ⟨_, (recordVersionActivation_ok rfl hmoved).2 ⟨v, hfind, hcount, congrArg some hdigest,
    hreceipt, _, mem_insertNew.2 (.inr ⟨rfl, ?_⟩), ?_⟩⟩
  · rw [BuildRow.key, hvid]
    exact hnew.1
  · exact ⟨congrArg some hvid, rfl, congrArg some hdigest, .inr hatt.symm, rfl⟩

/-- A working attempt is promoted exactly if its rows are its manifest. -/
theorem At.promotes {generation : ℕ} {table : List ChunkRow} (h : At a generation table w)
    (hpositive : 0 < generation) {ids : List String} (hids : ids ≠ []) (now : Time) :
    (∃ s, promoteGeneration generation a.observedActive ids a.candidateSha a.candidateId
        a.attemptId now w.store = .ok s) ↔
      ((w.store.build a.candidateId generation).map ChunkRow.id).toFinset = ids.toFinset := by
  constructor
  · rintro ⟨s, hs⟩
    exact (promoteGeneration_ok.1 hs).2.2.1
  · intro hstaged
    obtain ⟨d, hd, -, hcand, hatt, -, hactive, hp⟩ := h.working.row
    obtain ⟨-, -, -, -, -, hrun⟩ := h.working.record
    have hne : ids.toFinset ≠ ∅ := fun hempty => hids ((List.toFinset_eq_empty_iff _).1 hempty)
    have hcount : 1 ≤ (w.store.build a.candidateId generation).length := by
      refine List.length_pos_of_ne_nil fun hnil => hne ?_
      rw [← hstaged, hnil]
      rfl
    obtain ⟨t, ht⟩ := h.working.activation hd h.own hpositive hcount
    exact ⟨_, promoteGeneration_ok.2 ⟨hne, h.working.version.2, hstaged, hrun, d, hd, hactive,
      hcand, hatt, .inl hp, t, ht, rfl⟩⟩

/-- A promotion stays on record. -/
theorem promoted_subset {act : Action} (h : orderlySystem.step w act w') :
    w.promoted ⊆ w'.promoted := by
  obtain ⟨-, -, hact⟩ := h
  cases act <;> simp only [Action.perform, bind_ok, pure_ok, Except.ok.injEq] at hact
  case promote =>
    obtain ⟨s, -, rfl⟩ := hact
    exact List.subset_append_left _ _
  case queue =>
    subst hact
    exact fun _ h => h
  all_goals
    obtain ⟨s, -, rfl⟩ := hact
    exact fun _ h => h

/-- The world after a promotion of this manifest. -/
def Promoted (a : IngestAttempt) (chunks : List ParsedChunk) (w : World) : Prop :=
  orderlySystem.Reachable w ∧
    ∃ g, ⟨a.candidateId, g, (manifestIds g chunks).toFinset⟩ ∈ w.promoted

theorem promoted_stable (chunks : List ParsedChunk) :
    Stable (others mayLose a) (Promoted a chunks) := fun _ _ ⟨hreach, g, hg⟩ ⟨_, hstep, _⟩ =>
  ⟨hreach.next hstep, g, promoted_subset hstep hg⟩

namespace Course
variable {r : Course} {chunks : List ParsedChunk} {table : List ChunkRow}

theorem plan_fits (hunused : Unused a table r.generation) :
    (r.plan a.candidateId (usedChunks chunks)).Fits table where
  embedded := embedded_prepared
  copied := copied_prepared
  unused c index := hunused.ids c index
  unstaged := hunused.builds
  apart row hrow row' hrow' heq := by
    obtain ⟨x, hx, rfl⟩ := List.mem_map.1 hrow
    obtain ⟨y, hy, rfl⟩ := List.mem_map.1 hrow'
    have hfresh := (List.mem_filter.1 hx).2
    have hstored := (List.mem_filter.1 hy).2
    simp only [decide_eq_true_eq] at hfresh hstored
    have heq' : contentKey x.1 x.2 = contentKey y.1 y.2 := heq
    exact hfresh (heq' ▸ hstored)

theorem plan_ids : (r.plan a.candidateId (usedChunks chunks)).ids.toFinset =
    (manifestIds r.generation chunks).toFinset := by
  ext x
  simp only [StagePlan.ids, plan, manifestIds, List.mem_toFinset, List.mem_append, List.mem_map,
    List.mem_filter, decide_eq_true_eq, exists_exists_and_eq_and, row, prepare]
  constructor
  · rintro (⟨y, ⟨hy, -⟩, rfl⟩ | ⟨y, ⟨hy, -⟩, rfl⟩)
    · exact ⟨y, hy, rfl⟩
    · exact ⟨y, hy, rfl⟩
  · rintro ⟨y, hy, rfl⟩
    by_cases hkey : contentKey y.1 y.2 ∈ r.already
    · exact .inr ⟨y, ⟨hy, hkey⟩, rfl⟩
    · exact .inl ⟨y, ⟨hy, hkey⟩, rfl⟩

theorem plan_reuses {s : Store} (halready : r.already = existingContentKeys r.services.fingerprint s) :
    (∀ row ∈ (r.plan a.candidateId (usedChunks chunks)).copied,
        Reusable s.chunks a.candidateId r.services.fingerprint row.contentKey) ↔
      Reuses a r.services.fingerprint chunks s := by
  constructor
  · intro h x hx hkey
    exact h (r.row x) (List.mem_map_of_mem (List.mem_filter.2 ⟨hx, by simp [halready, hkey]⟩))
  · intro h row hrow
    obtain ⟨x, hx, rfl⟩ := List.mem_map.1 hrow
    obtain ⟨hx, hkey⟩ := List.mem_filter.1 hx
    simp only [decide_eq_true_eq, halready] at hkey
    exact h x hx hkey

end Course

/-- The last transaction of a run that staged its plan. -/
theorem promote_leads (r : Course) {chunks : List ParsedChunk} {s : Store}
    (halready : r.already = existingContentKeys r.services.fingerprint s)
    (hunused : Unused a s.chunks r.generation) (hsome : usedChunks chunks ≠ []) :
    Leads mayLose a
      (At a r.generation ((r.plan a.candidateId (usedChunks chunks)).result s.chunks))
      (perform fun now => .promote r.generation a.observedActive (manifestIds r.generation chunks)
        a.candidateSha a.candidateId a.attemptId now)
      (fun _ w => Reuses a r.services.fingerprint chunks s ∧ Promoted a chunks w ∧ Over a w)
      fun _ w => ¬ Reuses a r.services.fingerprint chunks s ∧ Working a w := by
  have hids : manifestIds r.generation chunks ≠ [] := fun h => hsome (List.map_eq_nil_iff.1 h)
  have hcomplete : ∀ w, At a r.generation ((r.plan a.candidateId (usedChunks chunks)).result
      s.chunks) w → (((w.store.build a.candidateId r.generation).map ChunkRow.id).toFinset =
        (manifestIds r.generation chunks).toFinset ↔
          Reuses a r.services.fingerprint chunks s) := fun w h => by
    rw [← Course.plan_ids (a := a), ← Course.plan_reuses halready]
    exact (Course.plan_fits hunused).complete_iff h.chunks
  refine ensures_transact (at_lasting _ _) (fun now w w' _ hw hok => ?_)
    (fun now w e hw herr => ?_) (fun _ => ?_) fun _ => working_lasting.and
  · simp only [bind_ok, pure_ok, Prod.mk.injEq] at hok
    obtain ⟨w', hact, rfl, -⟩ := hok
    rcases hw with h | ⟨-, hover⟩
    · have hstep : orderlySystem.step w (.promote r.generation a.observedActive
          (manifestIds r.generation chunks) a.candidateSha a.candidateId a.attemptId now) w' :=
        ⟨h.own, trivial, hact⟩
      have hover := (h.working.toBegun.next hstep).working_or_over
      simp only [Action.perform, bind_ok, pure_ok] at hact
      obtain ⟨u, hu, rfl⟩ := hact
      refine .inl ⟨(hcomplete w h).1 ((h.promotes hunused.positive hids now).1 ⟨u, hu⟩),
        ⟨h.working.reachable.next hstep, r.generation, ?_⟩, hover.resolve_left fun hworking => ?_⟩
      · exact List.mem_append_right _ List.mem_cons_self
      · obtain ⟨-, -, -, -, d, hd, -, -, -, -, t, ht, rfl⟩ := promoteGeneration_ok.1 hu
        obtain ⟨builds, rfl⟩ := recordVersionActivation_frame ht
        obtain ⟨d', hd', -, -, hatt, -⟩ := hworking.row
        cases hd'
        cases hatt
    · exact absurd hact (hover.refused (.promote _ _ _ _ _ _ now) rfl)
  · rcases hw with h | hover
    · refine .inl ⟨fun hreuses => ?_, h.working⟩
      obtain ⟨u, hu⟩ := (h.promotes hunused.positive hids now).2 ((hcomplete w h).2 hreuses)
      simp only [Action.perform, hu, ok_bind] at herr
      cases herr
    · exact .inr hover
  · exact (Lasting.of_stable fun w w' hw ho => ⟨promoted_stable chunks w w' hw.1 ho,
      over_stable w w' hw.2 ho⟩).and

end

end RagPipeline.Index
