import RagPipeline.Index.Lease

/-! # The transactions of a run

Each succeeds while the attempt works, and none opens an attempt that is over. -/

set_option autoImplicit false

namespace RagPipeline.Index
open Guard Table Transition Fence Processes

section
variable [Deployment] {a : IngestAttempt} {w w' : World} {mayLose : Prop}

/-- The table and the generation of a run, between its transactions. -/
structure At (a : IngestAttempt) (generation : ℕ) (table : List ChunkRow) (w : World) : Prop where
  working : Working a w
  chunks : w.store.chunks = table
  own : (a.attemptId, generation) ∈ w.allocated

theorem at_owned (generation : ℕ) (table : List ChunkRow) : Owned a (At a generation table) where
  working _ hw := hw.working
  quiet _ _ hw hworking hquiet :=
    ⟨hworking, hquiet.chunks.trans hw.chunks, by rw [hquiet.allocated]; exact hw.own⟩

theorem at_lasting (generation : ℕ) (table : List ChunkRow) :
    Lasting mayLose a (At a generation table) := (at_owned generation table).lasting

theorem table_owned (table : List ChunkRow) :
    Owned a fun w => Working a w ∧ w.store.chunks = table where
  working _ hw := hw.1
  quiet _ _ hw hworking hquiet := ⟨hworking, hquiet.chunks.trans hw.2⟩

omit [Deployment] in
/-- A write of the attempt itself keeps its lease if the row keeps its names. -/
theorem keepsLease_row {d : DocumentRow} (hd : w.store.document = some d)
    (hcand : d.candidateId = some a.candidateId) (hatt : d.attemptId = some a.attemptId) :
    keepsLease a w := ⟨d, authority_ok.2 ⟨hd, hcand, hatt⟩⟩

/-- No row of the table has an id or a build of this generation. -/
structure Unused (a : IngestAttempt) (table : List ChunkRow) (generation : ℕ) : Prop where
  positive : 0 < generation
  ids : ∀ c index, chunkId c index generation ∉ table.map ChunkRow.id
  builds : ∀ c ∈ table, c.versionId = some a.candidateId → c.generation ≠ generation

section
variable {s : Store} {d : DocumentRow}

theorem allocateGeneration_succeeds (hauth : authority a s = .ok d) (hp : d.purgedAt = none) :
    allocateGeneration a s = .ok (s.withDocument { d with lastGeneration := d.lastGeneration + 1 },
      d.lastGeneration + 1) := by
  rw [allocateGeneration, hauth, ok_bind, (updateDocument_ok (by rfl)).2 ⟨.inl hp, rfl⟩]
  rfl

theorem heartbeatAttempt_succeeds (now : Time) (hauth : authority a s = .ok d)
    (hp : d.purgedAt = none) :
    ∃ t, heartbeatAttempt a now s = .ok (s.withDocument { d with attemptExpiresAt := some t }) := by
  rw [heartbeatAttempt, hauth, ok_bind]
  exact ⟨_, (updateDocument_ok (by rfl)).2 ⟨.inl hp, rfl⟩⟩

omit [Deployment] in
theorem upsertChunks_succeeds (rows : List (PreparedRow × Vectors)) (hauth : authority a s = .ok d)
    (hv : s.hasVersion a.candidateId) : upsertChunks rows a s =
      .ok { s with chunks := insertChunkRows a.candidateId s.chunks rows } := by
  rw [upsertChunks, hauth, ok_bind, require_true (.inr hv)]
  rfl

omit [Deployment] in
theorem copyChunks_succeeds (rows : List PreparedRow) (hauth : authority a s = .ok d)
    (hv : s.hasVersion a.candidateId) : copyChunksIntoGeneration rows a s =
      .ok { s with chunks := copyRows a.candidateId s.chunks rows } := by
  rw [copyChunksIntoGeneration, hauth, ok_bind, require_true (.inr hv)]
  rfl

end

/-- A transaction whose success is a step of the attempt, in a state it works in. -/
theorem Working.act (act : Action) {d : DocumentRow} (h : Working a w) (horderly : act.orderly w)
    (hminted : act.minted w.store) (hact : act.perform w = .ok w')
    (hd : w'.store.document = some d) (hcand : d.candidateId = some a.candidateId)
    (hatt : d.attemptId = some a.attemptId) : Working a w' :=
  ⟨h.toBegun.next ⟨horderly, hminted, hact⟩, keepsLease_row hd hcand hatt⟩

theorem allocate_leads (table : List ChunkRow) {E : Refusal → World → Prop} :
    Leads mayLose a (fun w => Working a w ∧ w.store.chunks = table) (allocate a)
      (fun generation w => Unused a table generation ∧ At a generation table w) E := by
  refine leads_transact (table_owned table).lasting (fun _ w ⟨h, hchunks⟩ => ?_)
    (fun _ w w' _ hover hok => ?_) fun generation => (at_lasting generation table).and
  · obtain ⟨d, hd, hauth, hcand, hatt, -, -, hp⟩ := h.row
    have hcomplete := reachable_complete h.reachable
    have hcounter := counter_row hd
    have hop := allocateGeneration_succeeds hauth hp
    have hact : (Action.allocate a).perform w = .ok { w with
        store := w.store.withDocument { d with lastGeneration := d.lastGeneration + 1 }
        allocated := w.allocated ++ [(a.attemptId, d.lastGeneration + 1)] } := by
      rw [Action.perform, hop]
      rfl
    refine ⟨_, d.lastGeneration + 1, by rw [hop, hact]; rfl, ?_, ?_, ?_, ?_⟩
    · refine ⟨Nat.succ_pos _, fun c index hmem => ?_, fun c hc hv hgen => ?_⟩
      · obtain ⟨row, hrow, hid⟩ := List.mem_map.1 hmem
        have hle := hcomplete.named row (hchunks ▸ hrow) c index _ hid
        omega
      · obtain ⟨x, -, -, hown⟩ := hcomplete.rows c (hchunks ▸ hc) _ hv
        have hle := hcomplete.counted _ _ hown
        omega
    · exact h.act (.allocate a) trivial trivial hact rfl hcand hatt
    · exact hchunks
    · exact List.mem_append_right _ List.mem_cons_self
  · simp only [bind_ok, pure_ok, Prod.mk.injEq] at hok
    obtain ⟨-, -, u, hu, -⟩ := hok
    exact hover.refused (.allocate a) rfl hu

theorem perform_leads {act : Time → Action} {P Q : World → Prop} {E : Refusal → World → Prop}
    (hact : ∀ now, (act now).actor = some a.attemptId) (hP : Lasting mayLose a P)
    (hQ : Lasting mayLose a Q)
    (h : ∀ now w, P w → ∃ w', (act now).perform w = .ok w' ∧ Q w') :
    Leads mayLose a P (perform act) (fun _ => Q) E := by
  refine leads_transact hP (fun now w hw => ?_) (fun now w w' b hover hok => ?_) fun _ => hQ
  · obtain ⟨w', hok, hq⟩ := h now w hw
    exact ⟨w', (), by rw [hok]; rfl, hq⟩
  · simp only [bind_ok, pure_ok, Prod.mk.injEq] at hok
    obtain ⟨u, hu, -⟩ := hok
    exact hover.refused (act now) (hact now) hu

theorem heartbeat_leads (generation : ℕ) (table : List ChunkRow) {E : Refusal → World → Prop} :
    Leads mayLose a (At a generation table) (heartbeat a) (fun _ => At a generation table) E := by
  refine perform_leads (fun _ => rfl) (at_lasting _ _) (at_lasting _ _) fun now w h => ?_
  obtain ⟨d, hd, hauth, hcand, hatt, -, -, hp⟩ := h.working.row
  obtain ⟨t, hop⟩ := heartbeatAttempt_succeeds now hauth hp
  have hact : (Action.heartbeat a now).perform w =
      .ok (w.withStore (w.store.withDocument { d with attemptExpiresAt := some t })) := by
    rw [Action.perform, hop]
    rfl
  exact ⟨_, hact, h.working.act (.heartbeat a now) trivial trivial hact rfl hcand hatt, h.chunks, h.own⟩

/-- Rows of this generation, each under its id. -/
theorem ownedBy_prepare {generation : ℕ} {row : PreparedRow} {fingerprint : String}
    (hown : (a.attemptId, generation) ∈ w.allocated)
    (hrow : ∃ c index, row = prepare fingerprint generation c index) :
    row.ownedBy a.attemptId w := by
  obtain ⟨c, index, rfl⟩ := hrow
  exact ⟨hown, c, index, rfl⟩

theorem upsert_leads (generation : ℕ) (table : List ChunkRow) (fingerprint : String)
    {rows : List (PreparedRow × Vectors)} {E : Refusal → World → Prop}
    (hrows : ∀ row ∈ rows, ∃ c index, row.1 = prepare fingerprint generation c index) :
    Leads mayLose a (At a generation table) (perform fun _ => .upsert rows a)
      (fun _ => At a generation (insertChunkRows a.candidateId table rows)) E := by
  refine perform_leads (fun _ => rfl) (at_lasting _ _) (at_lasting _ _) fun now w h => ?_
  obtain ⟨d, hd, hauth, hcand, hatt, -⟩ := h.working.row
  have hop := upsertChunks_succeeds rows hauth h.working.version.1
  have hact : (Action.upsert rows a).perform w = .ok (w.withStore { w.store with
      chunks := insertChunkRows a.candidateId w.store.chunks rows }) := by
    rw [Action.perform, hop]
    rfl
  have hown : (Action.upsert rows a).orderly w := fun row hrow => ownedBy_prepare h.own (hrows row hrow)
  exact ⟨_, hact, h.working.act (.upsert rows a) hown trivial hact hd hcand hatt,
    congrArg (insertChunkRows a.candidateId · rows) h.chunks, h.own⟩

theorem copy_leads (generation : ℕ) (table : List ChunkRow) (fingerprint : String)
    {rows : List PreparedRow} {E : Refusal → World → Prop}
    (hrows : ∀ row ∈ rows, ∃ c index, row = prepare fingerprint generation c index) :
    Leads mayLose a (At a generation table) (perform fun _ => .copy rows a)
      (fun _ => At a generation (copyRows a.candidateId table rows)) E := by
  refine perform_leads (fun _ => rfl) (at_lasting _ _) (at_lasting _ _) fun now w h => ?_
  obtain ⟨d, hd, hauth, hcand, hatt, -⟩ := h.working.row
  have hop := copyChunks_succeeds rows hauth h.working.version.1
  have hact : (Action.copy rows a).perform w = .ok (w.withStore { w.store with
      chunks := copyRows a.candidateId w.store.chunks rows }) := by
    rw [Action.perform, hop]
    rfl
  have hown : (Action.copy rows a).orderly w := fun row hrow => ownedBy_prepare h.own (hrows row hrow)
  exact ⟨_, hact, h.working.act (.copy rows a) hown trivial hact hd hcand hatt,
    congrArg (copyRows a.candidateId · rows) h.chunks, h.own⟩

/-- What a point raises, if anything. -/
def Services.check (services : Services) (p : Point) : Except Refusal Unit :=
  match services.raises p with
  | none => .ok ()
  | some e => .error e

/-! Nothing the run does changes that it is over. -/

section
variable {act : Time → Action}

theorem keeps_perform (hact : ∀ now, (act now).actor = some a.attemptId) :
    Keeps (Over a) (perform act) := by
  refine keeps_transact fun now w w' b hover hok => ?_
  simp only [bind_ok, pure_ok, Prod.mk.injEq] at hok
  obtain ⟨u, hu, -⟩ := hok
  exact absurd hu (hover.refused (act now) (hact now))

theorem keeps_meets (services : Services) (p : Point) : Keeps (Over a) (services.meets p) := by
  unfold Services.meets
  cases services.raises p with
  | none => exact keeps_pure
  | some e => exact keeps_throw

theorem keeps_allocate : Keeps (Over a) (allocate a) := by
  refine keeps_transact fun now w w' b hover hok => ?_
  simp only [bind_ok, pure_ok, Prod.mk.injEq] at hok
  obtain ⟨-, -, u, hu, -⟩ := hok
  exact absurd hu (hover.refused (.allocate a) rfl)

theorem keeps_read (fingerprint : String) : Keeps (Over a) (readContentKeys fingerprint) :=
  keeps_transact fun _ _ _ _ hover hok => (Prod.mk.inj (Except.ok.inj hok)).1 ▸ hover

theorem keeps_refuse : Keeps (Over a) (refuseIfSuperseded a) := by
  refine keeps_transact fun now w w' b hover hok => ?_
  simp only [bind_ok, pure_ok, Prod.mk.injEq] at hok
  obtain ⟨d, -, -, -, rfl, -⟩ := hok
  exact hover

theorem keeps_close {status : AttemptOutcome} {note : Option String} :
    Keeps (Over a) (closeAttempt a status note) := by
  refine (keeps_perform fun _ => rfl).tryCatch fun e => ?_
  split
  · exact keeps_pure
  · exact keeps_pure
  · exact keeps_throw

theorem keeps_stageChunk {services : Services} {generation : ℕ} {already : List String}
    {c : ParsedChunk} {index : ℕ} {st : Staging} :
    Keeps (Over a) (stageChunk services a generation already c index st) := by
  refine (keeps_meets _ _).bind fun _ => ?_
  dsimp only
  split
  · split
    · exact keeps_pure
    · cases services.embed c.text with
      | error e => exact keeps_throw
      | ok v =>
        rw [lift_ok_bind]
        split
        · exact (keeps_meets _ _).bind fun _ => (keeps_perform fun _ => rfl).bind fun _ =>
            (keeps_meets _ _).bind fun _ => (keeps_perform fun _ => rfl).bind fun _ => keeps_pure
        · exact keeps_pure
  · exact keeps_pure

theorem keeps_stageChunks {services : Services} {generation : ℕ} {already : List String}
    {rest : List (ParsedChunk × ℕ)} {st : Staging} :
    Keeps (Over a) (stageChunks services a generation already rest st) := by
  induction rest generalizing st with
  | nil => exact keeps_pure
  | cons x rest ih => exact keeps_stageChunk.bind fun _ => ih

theorem keeps_writeRest {services : Services} {batch : List (PreparedRow × Vectors)} :
    Keeps (Over a) (writeRest services a batch) := by
  unfold writeRest
  split
  · exact keeps_pure
  · exact (keeps_meets _ _).bind fun _ => keeps_perform fun _ => rfl

theorem keeps_stageGeneration {services : Services} {generation : ℕ} {already : List String}
    {chunks : List ParsedChunk} :
    Keeps (Over a) (stageGeneration services a generation already chunks) :=
  keeps_stageChunks.bind fun _ => keeps_writeRest.bind fun _ => (keeps_meets _ _).bind fun _ =>
    (keeps_perform fun _ => rfl).bind fun _ => keeps_pure

theorem keeps_stageOrClose {services : Services} {generation : ℕ} {already : List String}
    {chunks : List ParsedChunk} :
    Keeps (Over a) (stageOrClose services a generation already chunks) := by
  refine keeps_stageGeneration.tryCatch fun e => ?_
  split
  · exact keeps_close.bind fun _ => keeps_throw
  · exact keeps_throw

theorem keeps_finishRun {services : Services} {generation : ℕ} {manifest : List String}
    {failures : Option String} :
    Keeps (Over a) (finishRun services a generation manifest failures) := by
  cases failures with
  | some note => exact keeps_close.bind fun _ => (keeps_meets _ _).bind fun _ => keeps_pure
  | none =>
    exact (keeps_meets _ _).bind fun _ => (keeps_perform fun _ => rfl).bind fun _ =>
      (keeps_meets _ _).bind fun _ => keeps_pure

end

end

end RagPipeline.Index
