import RagPipeline.Index.Ingest

/-! # What a run stages

The rows a run adds to the table, as a set of ids: every embedded chunk is
there, and of the chunks left to the copy those for which the copy finds a row
of their own version, or of none. -/

set_option autoImplicit false

namespace RagPipeline.Index
open Guard Table

/-- A copy of this content finds vectors it may take. -/
def Reusable (chunks : List ChunkRow) (version : Uuid) (fingerprint key : String) : Prop :=
  ∃ c ∈ chunks, (c.versionId = some version ∨ c.versionId = none) ∧ c.contentKey = some key ∧
    c.embeddingFingerprint = some fingerprint

section
variable {version : Uuid} {fingerprint key : String} {table : List ChunkRow}

theorem ids_insertAll {rows : List ChunkRow} {x : String} :
    x ∈ (insertAll ChunkRow.id table rows).map ChunkRow.id ↔
      x ∈ table.map ChunkRow.id ∨ x ∈ rows.map ChunkRow.id := by
  constructor
  · intro h
    obtain ⟨c, hc, rfl⟩ := List.mem_map.1 h
    rcases mem_insertAll hc with hc | ⟨hc, -⟩
    · exact .inl (List.mem_map_of_mem hc)
    · exact .inr (List.mem_map_of_mem hc)
  · rintro (h | h)
    · exact List.map_subset _ subset_insertAll h
    · obtain ⟨c, hc, rfl⟩ := List.mem_map.1 h
      exact key_mem_insertAll hc

theorem insertAll_append {l r : List ChunkRow} :
    insertAll ChunkRow.id (insertAll ChunkRow.id table l) r =
      insertAll ChunkRow.id table (l ++ r) :=
  (List.foldl_append ..).symm

theorem copyRow_of_not_reusable {row : PreparedRow}
    (h : ¬ Reusable table version row.embeddingFingerprint row.contentKey) :
    copyRow version table row = table := by
  unfold copyRow
  cases hp : predecessor version row table with
  | none => rfl
  | some c => exact absurd (predecessor_isSome.1 ⟨c, hp⟩) h

theorem copyRow_of_reusable {row : PreparedRow}
    (h : Reusable table version row.embeddingFingerprint row.contentKey) :
    ∃ vectors, copyRow version table row =
      insertNew ChunkRow.id table (row.chunk version vectors) := by
  obtain ⟨c, hc⟩ := predecessor_isSome.2 h
  exact ⟨c.vectors, by rw [copyRow, hc]⟩

/-- A copy makes nothing reusable that was not. -/
theorem reusable_copyRow {row : PreparedRow} :
    Reusable (copyRow version table row) version fingerprint key ↔
      Reusable table version fingerprint key := by
  constructor
  · intro h
    by_cases hrow : Reusable table version row.embeddingFingerprint row.contentKey
    · obtain ⟨vectors, heq⟩ := copyRow_of_reusable hrow
      rw [heq] at h
      obtain ⟨c, hc, hversion, hkey, hfingerprint⟩ := h
      rcases mem_insertNew.1 hc with hc | ⟨rfl, -⟩
      · exact ⟨c, hc, hversion, hkey, hfingerprint⟩
      · obtain rfl : row.contentKey = key := Option.some.inj hkey
        obtain rfl : row.embeddingFingerprint = fingerprint := Option.some.inj hfingerprint
        exact hrow
    · rwa [copyRow_of_not_reusable hrow] at h
  · rintro ⟨c, hc, h⟩
    exact ⟨c, subset_copyRow hc, h⟩

theorem ids_copyRow {row : PreparedRow} {x : String} :
    x ∈ (copyRow version table row).map ChunkRow.id ↔ x ∈ table.map ChunkRow.id ∨
      row.id = x ∧ Reusable table version row.embeddingFingerprint row.contentKey := by
  by_cases hrow : Reusable table version row.embeddingFingerprint row.contentKey
  · obtain ⟨vectors, heq⟩ := copyRow_of_reusable hrow
    have hone : insertNew ChunkRow.id table (row.chunk version vectors) =
        insertAll ChunkRow.id table [row.chunk version vectors] := rfl
    rw [heq, hone, ids_insertAll]
    simp [hrow, PreparedRow.chunk, eq_comm]
  · rw [copyRow_of_not_reusable hrow]
    simp [hrow]

theorem ids_copyRows {rows : List PreparedRow} {x : String} :
    x ∈ (copyRows version table rows).map ChunkRow.id ↔ x ∈ table.map ChunkRow.id ∨
      ∃ row ∈ rows, row.id = x ∧
        Reusable table version row.embeddingFingerprint row.contentKey := by
  induction rows generalizing table with
  | nil => simp [copyRows]
  | cons row rest ih =>
    change x ∈ (copyRows version (copyRow version table row) rest).map ChunkRow.id ↔ _
    rw [ih, ids_copyRow]
    simp only [reusable_copyRow, List.mem_cons, exists_eq_or_imp, or_assoc]

theorem reusable_insertAll {rows : List ChunkRow} (h : ∀ c ∈ rows, c.contentKey ≠ some key) :
    Reusable (insertAll ChunkRow.id table rows) version fingerprint key ↔
      Reusable table version fingerprint key := by
  constructor
  · rintro ⟨c, hc, hversion, hkey, hfingerprint⟩
    rcases mem_insertAll hc with hc | ⟨hc, -⟩
    · exact ⟨c, hc, hversion, hkey, hfingerprint⟩
    · exact absurd hkey (h c hc)
  · rintro ⟨c, hc, h⟩
    exact ⟨c, subset_insertAll hc, h⟩

end

section
variable [Deployment]

/-- The rows of a run, the embedded ones with their vectors. -/
structure StagePlan where
  version : Uuid
  generation : ℕ
  fingerprint : String
  embedded : List (PreparedRow × Vectors)
  copied : List PreparedRow

namespace StagePlan

variable {p : StagePlan} {table : List ChunkRow}

def ids (p : StagePlan) : List String :=
  p.embedded.map (fun row => row.1.id) ++ p.copied.map PreparedRow.id

/-- The table once all of it was written. -/
def result (p : StagePlan) (table : List ChunkRow) : List ChunkRow :=
  copyRows p.version (insertChunkRows p.version table p.embedded) p.copied

/-- The ids are those of this generation, which the table has no row of, and no
embedded content is left to be copied as well. -/
structure Fits (p : StagePlan) (table : List ChunkRow) : Prop where
  embedded : ∀ row ∈ p.embedded, ∃ c index, row.1 = prepare p.fingerprint p.generation c index
  copied : ∀ row ∈ p.copied, ∃ c index, row = prepare p.fingerprint p.generation c index
  unused : ∀ c index, chunkId c index p.generation ∉ table.map ChunkRow.id
  unstaged : ∀ c ∈ table, c.versionId = some p.version → c.generation ≠ p.generation
  apart : ∀ row ∈ p.embedded, ∀ row' ∈ p.copied, row.1.contentKey ≠ row'.contentKey

/-- One id is one content. -/
theorem contentKey_of_id {row row' : PreparedRow} {fingerprint : String} {generation : ℕ}
    (h : ∃ c index, row = prepare fingerprint generation c index)
    (h' : ∃ c index, row' = prepare fingerprint generation c index) (hid : row.id = row'.id) :
    row.contentKey = row'.contentKey := by
  obtain ⟨c, i, rfl⟩ := h
  obtain ⟨c', i', rfl⟩ := h'
  exact (chunkId_inj hid).2

theorem Fits.fresh (h : p.Fits table) {row : PreparedRow}
    (hrow : ∃ c index, row = prepare p.fingerprint p.generation c index) :
    row.id ∉ table.map ChunkRow.id ∧ row.generation = p.generation ∧
      row.embeddingFingerprint = p.fingerprint := by
  obtain ⟨c, i, rfl⟩ := hrow
  exact ⟨h.unused c i, rfl, rfl⟩

/-- Which ids the table has in the end. -/
theorem Fits.ids_result (h : p.Fits table) {x : String} :
    x ∈ (p.result table).map ChunkRow.id ↔ x ∈ table.map ChunkRow.id ∨
      (∃ row ∈ p.embedded, row.1.id = x) ∨ ∃ row ∈ p.copied, row.id = x ∧
        Reusable table p.version p.fingerprint row.contentKey := by
  have hreuse : ∀ row ∈ p.copied, (Reusable (insertChunkRows p.version table p.embedded) p.version
      row.embeddingFingerprint row.contentKey ↔
        Reusable table p.version p.fingerprint row.contentKey) := by
    intro row hrow
    rw [(h.fresh (h.copied row hrow)).2.2]
    refine reusable_insertAll fun c hc => ?_
    obtain ⟨⟨row', vectors⟩, hmem, rfl⟩ := List.mem_map.1 hc
    exact fun heq => h.apart _ hmem row hrow (Option.some.inj heq)
  have hembedded : x ∈ (insertChunkRows p.version table p.embedded).map ChunkRow.id ↔
      x ∈ table.map ChunkRow.id ∨ ∃ row ∈ p.embedded, row.1.id = x := by
    rw [insertChunkRows, ids_insertAll]
    simp [PreparedRow.chunk]
  rw [result, ids_copyRows, hembedded, or_assoc]
  refine or_congr_right (or_congr_right ⟨?_, ?_⟩)
  · rintro ⟨row, hrow, hid, hr⟩
    exact ⟨row, hrow, hid, (hreuse row hrow).1 hr⟩
  · rintro ⟨row, hrow, hid, hr⟩
    exact ⟨row, hrow, hid, (hreuse row hrow).2 hr⟩

/-- A row is of this build exactly if it was not there before. -/
theorem Fits.mem_build (h : p.Fits table) {c : ChunkRow} (hc : c ∈ p.result table) :
    (c.versionId = some p.version ∧ c.generation = p.generation) ↔ c ∉ table := by
  constructor
  · exact fun hbuild hmem => h.unstaged c hmem hbuild.1 hbuild.2
  · intro hnew
    rcases mem_copyRows hc with hc | ⟨-, row, hrow, vectors, rfl⟩
    · rcases mem_insertAll hc with hc | ⟨hc, -⟩
      · exact absurd hc hnew
      · obtain ⟨⟨row, vectors⟩, hrow, rfl⟩ := List.mem_map.1 hc
        exact ⟨rfl, (h.fresh (h.embedded _ hrow)).2.1⟩
    · exact ⟨rfl, (h.fresh (h.copied _ hrow)).2.1⟩

theorem Fits.notMem_of_id (h : p.Fits table) {x : String}
    (hx : (∃ row ∈ p.embedded, row.1.id = x) ∨ ∃ row ∈ p.copied, row.id = x) :
    x ∉ table.map ChunkRow.id := by
  rcases hx with ⟨row, hrow, rfl⟩ | ⟨row, hrow, rfl⟩
  · exact (h.fresh (h.embedded row hrow)).1
  · exact (h.fresh (h.copied row hrow)).1

theorem Fits.new_id (h : p.Fits table) {c : ChunkRow} (hc : c ∈ p.result table) (hnew : c ∉ table) :
    c.id ∉ table.map ChunkRow.id := by
  rcases mem_copyRows hc with hc | ⟨-, row, hrow, vectors, rfl⟩
  · rcases mem_insertAll hc with hc | ⟨-, hid⟩
    · exact absurd hc hnew
    · exact hid
  · exact h.notMem_of_id (.inr ⟨row, hrow, rfl⟩)

theorem Fits.staged (h : p.Fits table) {s : Store} (hs : s.chunks = p.result table) {x : String} :
    x ∈ (s.build p.version p.generation).map ChunkRow.id ↔
      (∃ row ∈ p.embedded, row.1.id = x) ∨ ∃ row ∈ p.copied, row.id = x ∧
        Reusable table p.version p.fingerprint row.contentKey := by
  constructor
  · intro hx
    obtain ⟨c, hc, rfl⟩ := List.mem_map.1 hx
    obtain ⟨hmem, hbuild⟩ := Index.mem_build.1 hc
    rw [hs] at hmem
    refine (h.ids_result.1 (List.mem_map_of_mem hmem)).resolve_left ?_
    exact h.new_id hmem ((h.mem_build hmem).1 hbuild)
  · intro hx
    have hmem := h.ids_result.2 (.inr hx)
    obtain ⟨c, hc, rfl⟩ := List.mem_map.1 hmem
    refine List.mem_map.2 ⟨c, Index.mem_build.2 ⟨by rw [hs]; exact hc, ?_⟩, rfl⟩
    refine (h.mem_build hc).2 fun hold => ?_
    refine h.notMem_of_id (hx.imp_right fun ⟨row, hrow, hid, _⟩ => ⟨row, hrow, hid⟩) ?_
    exact List.mem_map_of_mem hold

/-- The build is the manifest exactly if the copy found everything it was left. -/
theorem Fits.complete_iff (h : p.Fits table) {s : Store} (hs : s.chunks = p.result table) :
    ((s.build p.version p.generation).map ChunkRow.id).toFinset = p.ids.toFinset ↔
      ∀ row ∈ p.copied, Reusable table p.version p.fingerprint row.contentKey := by
  have hids : ∀ x, x ∈ p.ids ↔ (∃ row ∈ p.embedded, row.1.id = x) ∨ ∃ row ∈ p.copied, row.id = x :=
    fun x => by simp [ids]
  constructor
  · intro heq row hrow
    have hmem : row.id ∈ ((s.build p.version p.generation).map ChunkRow.id).toFinset := by
      rw [heq, List.mem_toFinset, hids]
      exact .inr ⟨row, hrow, rfl⟩
    rw [List.mem_toFinset, h.staged hs] at hmem
    rcases hmem with ⟨row', hrow', hid⟩ | ⟨row', hrow', hid, hr⟩
    · exact absurd (contentKey_of_id (h.embedded _ hrow') (h.copied _ hrow) hid)
        (h.apart _ hrow' _ hrow)
    · rwa [← contentKey_of_id (h.copied _ hrow') (h.copied _ hrow) hid]
  · intro hall
    ext x
    rw [List.mem_toFinset, List.mem_toFinset, h.staged hs, hids]
    refine or_congr_right ⟨fun ⟨row, hrow, hid, _⟩ => ⟨row, hrow, hid⟩, ?_⟩
    exact fun ⟨row, hrow, hid⟩ => ⟨row, hrow, hid, hall row hrow⟩

end StagePlan

end

end RagPipeline.Index

/-! # A run and its lease

While an attempt keeps its lease nobody else changes what is stored, so the run
stages exactly its plan. Once the lease is gone the record is closed, and
nothing the run does opens it again. -/

namespace RagPipeline.Index
open Guard Table Transition Fence Processes

section
variable [Deployment] {a : IngestAttempt} {w w' : World} {mayLose : Prop}

def keepsLease (a : IngestAttempt) (w : World) : Prop := ∃ d, authority a w.store = .ok d

/-- What others commit during a run, which may take its lease or may not. -/
def others (mayLose : Prop) (a : IngestAttempt) (w w' : World) : Prop :=
  ∃ act, orderlySystem.step w act w' ∧ act.actor ≠ some a.attemptId ∧
    (¬ mayLose → keepsLease a w → keepsLease a w')

/-- The attempt is one that `begin_attempt` returned. -/
structure Begun (a : IngestAttempt) (w : World) : Prop where
  reachable : orderlySystem.Reachable w
  genuine : ∃ row ∈ w.store.attempts, row.attemptId = a.attemptId ∧
    attemptReading.candidate row = ⟨a.candidateId, a.candidateSha, a.observedActive⟩

/-- The attempt has its lease on the row. -/
structure Working (a : IngestAttempt) (w : World) : Prop extends Begun a w where
  lease : keepsLease a w

/-- The attempt's time is over. -/
structure Over (a : IngestAttempt) (w : World) : Prop extends Begun a w where
  closed : ∃ row ∈ w.store.attempts, row.attemptId = a.attemptId ∧ row.status ≠ none

theorem Begun.exclusive (h : Begun a w) : w.store.exclusive :=
  reachable_exclusive (System.reachable_of_only h.reachable)

theorem Begun.next {act : Action} (h : Begun a w) (hstep : orderlySystem.step w act w') :
    Begun a w' := by
  obtain ⟨row, hrow, hid, hsubject⟩ := h.genuine
  obtain ⟨row', hrow', hid', hsubject'⟩ := (step_moves h.exclusive hstep.2).continues hrow
  exact ⟨h.reachable.next hstep, row', hrow', hid'.trans hid, hsubject'.trans hsubject⟩

/-- A record that runs has its lease. -/
theorem Begun.working_or_over (h : Begun a w) : Working a w ∨ Over a w := by
  obtain ⟨row, hrow, hid, hsubject⟩ := h.genuine
  by_cases hrun : row.status = none
  · left
    obtain ⟨hholder, hcandidate⟩ := h.exclusive.running row hrow hrun
    have hheld : w.store.fence.holder = some row.attemptId := hholder
    cases hd : w.store.document with
    | none =>
      rw [Store.fence, hd] at hheld
      cases hheld
    | some d =>
      rw [fence_holder hd, hid] at hheld
      refine ⟨h, d, authority_ok.2 ⟨hd, ?_, hheld⟩⟩
      rw [(running_subject h.exclusive hd hrow hrun).1]
      exact congrArg (fun x => some (Subject.candidateId x)) hsubject
  · exact .inr ⟨h, row, hrow, hid, hrun⟩

theorem Over.next {act : Action} (h : Over a w) (hstep : orderlySystem.step w act w') :
    Over a w' := by
  obtain ⟨row, hrow, hid, hclosed⟩ := h.closed
  refine ⟨h.toBegun.next hstep, row, ?_, hid, hclosed⟩
  exact (step_moves h.exclusive hstep.2).finished hrow hclosed

/-- The row carries the lease of the attempt no more. -/
theorem Over.released (h : Over a w) {d : DocumentRow} (hd : w.store.document = some d) :
    d.attemptId ≠ some a.attemptId := by
  obtain ⟨row, hrow, hid, hclosed⟩ := h.closed
  intro hatt
  refine hclosed ((h.exclusive.holder_iff hrow).1 ?_)
  exact (fence_holder hd).trans (hatt.trans (congrArg some hid.symm))

theorem Over.not_keeps (h : Over a w) : ¬ keepsLease a w := by
  rintro ⟨d, hauth⟩
  obtain ⟨hd, -, hatt⟩ := authority_ok.1 hauth
  exact h.released hd hatt

/-- What is asked for in the name of an attempt that is over is refused. -/
theorem Over.refused (act : Action) (h : Over a w) (hact : act.actor = some a.attemptId) :
    act.perform w ≠ .ok w' := by
  intro hok
  obtain ⟨d, hd, hatt⟩ := actor_holder hact hok
  exact h.released hd hatt

theorem over_stable : Stable (others mayLose a) (Over a) :=
  fun _ _ h ⟨_, hstep, _⟩ => h.next hstep

/-- The row of the document, as the attempt knows it. -/
theorem Working.row (h : Working a w) : ∃ d, w.store.document = some d ∧
    authority a w.store = .ok d ∧ d.candidateId = some a.candidateId ∧
    d.attemptId = some a.attemptId ∧ d.contentSha256 = some a.candidateSha ∧
    d.activeGeneration = a.observedActive ∧ d.purgedAt = none := by
  obtain ⟨d, hauth⟩ := h.lease
  obtain ⟨hd, hcand, hatt⟩ := authority_ok.1 hauth
  obtain ⟨row, hrow, hid, hsubject⟩ := h.genuine
  have hheld : w.store.fence.holder = some a.attemptId := (fence_holder hd).trans hatt
  have hr := (h.exclusive.holder_iff hrow).1 (hheld.trans (congrArg some hid.symm))
  obtain ⟨-, hsha, hactive⟩ := subject_some.1
    ((fence_candidate hd).symm.trans ((h.exclusive.running row hrow hr).2.trans
      (congrArg some hsubject)))
  obtain ⟨hpublished, -⟩ := h.exclusive.held _ hheld
  rw [fence_row hd] at hpublished
  exact ⟨d, hd, hauth, hcand, hatt, hsha, hactive, hpublished.2⟩

/-- Whatever others commit, the attempt works on undisturbed or its time is over. -/
theorem Working.others (h : Working a w) (ho : others mayLose a w w') :
    Working a w' ∧ Quiet w w' ∨ mayLose ∧ Over a w' := by
  obtain ⟨act, hstep, hother, hkeeps⟩ := ho
  rcases (h.toBegun.next hstep).working_or_over with hworking | hover
  · obtain ⟨d, hd, -, -, hatt, -⟩ := h.row
    have hheld : w.store.fence.holder = some a.attemptId := (fence_holder hd).trans hatt
    refine .inl ⟨hworking, ?_⟩
    cases hact : act.actor with
    | none => exact held_quiet hheld hact hstep.2
    | some x =>
      obtain ⟨d', hd', hx⟩ := actor_holder hact hstep.2.2
      obtain rfl : d = d' := Option.some.inj (hd.symm.trans hd')
      exact absurd (hact.trans (hx.symm.trans hatt)) hother
  · by_cases hlose : mayLose
    · exact .inr ⟨hlose, hover⟩
    · exact absurd (hkeeps hlose h.lease) hover.not_keeps

/-- The candidate is a version, and its digest is one. -/
theorem Working.version (h : Working a w) :
    w.store.hasVersion a.candidateId ∧ a.candidateSha ≠ "" := by
  have hcat := reachable_catalogued (System.reachable_of_only h.reachable)
  obtain ⟨d, hd, -, hcand, -, hsha, -⟩ := h.row
  have hoffer : w.store.offer = (some a.candidateId, some a.candidateSha) := by
    rw [offer_row hd, hcand, hsha]
  obtain ⟨v, hv, hid, hdigest⟩ := hcat.known _ _ hoffer
  refine ⟨⟨v, hv, hid⟩, fun hempty => ?_⟩
  have hlength := (hcat.digests v hv).1
  rw [hdigest, hempty] at hlength
  cases hlength

/-- An assertion about a working attempt, which others may end where the lease
may be lost. -/
def Held (mayLose : Prop) (a : IngestAttempt) (P : World → Prop) (w : World) : Prop :=
  P w ∨ mayLose ∧ Over a w

/-- What is said of a working attempt and of what only it changes. -/
structure Owned (a : IngestAttempt) (P : World → Prop) : Prop where
  working : ∀ w, P w → Working a w
  quiet : ∀ w w', P w → Working a w' → Quiet w w' → P w'

/-- Others leave it true, or the attempt's time is over. -/
def Lasting (mayLose : Prop) (a : IngestAttempt) (P : World → Prop) : Prop :=
  Stable (others mayLose a) (Held mayLose a P)

theorem Owned.lasting {P : World → Prop} (h : Owned a P) : Lasting mayLose a P := by
  intro w w' hw ho
  rcases hw with hw | ⟨hlose, hover⟩
  · exact ((h.working w hw).others ho).imp_left fun hquiet => h.quiet w w' hw hquiet.1 hquiet.2
  · exact .inr ⟨hlose, over_stable w w' hover ho⟩

theorem Lasting.of_stable {P : World → Prop} (h : Stable (others mayLose a) P) :
    Lasting mayLose a P := by
  intro w w' hw ho
  rcases hw with hw | ⟨hlose, hover⟩
  · exact .inl (h w w' hw ho)
  · exact .inr ⟨hlose, over_stable w w' hover ho⟩

theorem Lasting.and {φ : Prop} {P : World → Prop} (h : Lasting mayLose a P) :
    Lasting mayLose a fun w => φ ∧ P w := by
  intro w w' hw ho
  rcases hw with ⟨hφ, hw⟩ | hw
  · exact (h w w' (.inl hw) ho).imp_left fun hw' => ⟨hφ, hw'⟩
  · exact .inr ⟨hw.1, over_stable w w' hw.2 ho⟩

theorem Lasting.or {P P' : World → Prop} (h : Lasting mayLose a P) (h' : Lasting mayLose a P') :
    Lasting mayLose a fun w => P w ∨ P' w := by
  intro w w' hw ho
  rcases hw with (hw | hw) | hw
  · exact (h w w' (.inl hw) ho).imp_left .inl
  · exact (h' w w' (.inl hw) ho).imp_left .inr
  · exact .inr ⟨hw.1, over_stable w w' hw.2 ho⟩

theorem working_lasting : Lasting mayLose a (Working a) :=
  Owned.lasting ⟨fun _ h => h, fun _ _ _ h _ => h⟩

theorem over_lasting : Lasting mayLose a (Over a) := .of_stable over_stable

/-- What a part of a run does, whether it is its turn or its time is over. -/
def Leads {α : Type} (mayLose : Prop) (a : IngestAttempt) (P : World → Prop) (p : Ingest α)
    (Q : α → World → Prop) (E : Refusal → World → Prop) : Prop :=
  Ensures (others mayLose a) (Held mayLose a P) p (fun b => Held mayLose a (Q b))
    fun e => Held mayLose a (E e)

section
variable {α β : Type} {P P' : World → Prop} {Q Q' : α → World → Prop} {E E' : Refusal → World → Prop}

theorem Held.mono (h : ∀ w, P w → P' w) (hw : Held mayLose a P w) : Held mayLose a P' w :=
  hw.imp_left (h w)

theorem leads_mono {p : Ingest α} (h : Leads mayLose a P p Q E) (hP : ∀ w, P' w → P w)
    (hQ : ∀ b w, Q b w → Q' b w) (hE : ∀ e w, E e w → E' e w) : Leads mayLose a P' p Q' E' :=
  ensures_mono h (fun _ hw => hw.mono hP) (fun b _ hw => hw.mono (hQ b))
    fun e _ hw => hw.mono (hE e)

theorem leads_pure {b : α} (hP : Lasting mayLose a P) (h : ∀ w, P w → Q b w) :
    Leads mayLose a P (pure b : Ingest α) Q E :=
  ensures_pure hP fun _ hw => hw.mono h

theorem leads_throw {e : Refusal} (hP : Lasting mayLose a P) (h : ∀ w, P w → E e w) :
    Leads mayLose a P (throw e : Ingest α) Q E :=
  ensures_throw hP fun _ hw => hw.mono h

theorem leads_bind {R : β → World → Prop} {p : Ingest β} {f : β → Ingest α}
    (hp : Leads mayLose a P p R E) (hf : ∀ b, Leads mayLose a (R b) (f b) Q E)
    (hE : ∀ e, Lasting mayLose a (E e)) : Leads mayLose a P (p >>= f) Q E :=
  ensures_bind hp hf hE

/-- From the end of an attempt there is only its end. -/
theorem leads_over {p : Ingest α} (hover : Keeps (Over a) p) :
    Leads mayLose a (fun _ => False) p Q E := by
  intro w r w' hw hrun
  obtain ⟨hlose, hw⟩ := hw.resolve_left id
  have hend := keeps_ensures hover over_stable w r w' hw hrun
  cases r with
  | ok b => exact .inr ⟨hlose, hend⟩
  | error e => exact .inr ⟨hlose, hend⟩

theorem leads_assume {φ : Prop} {p : Ingest α} (hover : Keeps (Over a) p)
    (h : φ → Leads mayLose a P p Q E) : Leads mayLose a (fun w => φ ∧ P w) p Q E := by
  by_cases hφ : φ
  · exact leads_mono (h hφ) (fun _ hw => hw.2) (fun _ _ h => h) fun _ _ h => h
  · exact leads_mono (leads_over hover) (fun _ hw => hφ hw.1) (fun _ _ h => h) fun _ _ h => h

theorem leads_exists {γ : Type} {P : γ → World → Prop} {p : Ingest α} (hover : Keeps (Over a) p)
    (h : ∀ x, Leads mayLose a (P x) p Q E) : Leads mayLose a (fun w => ∃ x, P x w) p Q E := by
  intro w r w' hw hrun
  rcases hw with ⟨x, hw⟩ | hw
  · exact h x w r w' (.inl hw) hrun
  · exact leads_over hover w r w' (.inr hw) hrun

theorem leads_tryCatch {F : Refusal → World → Prop} {p : Ingest α} {handler : Refusal → Ingest α}
    (hp : Leads mayLose a P p Q F) (hh : ∀ e, Leads mayLose a (F e) (handler e) Q E)
    (hQ : ∀ b, Lasting mayLose a (Q b)) : Leads mayLose a P (tryCatch p handler) Q E :=
  ensures_tryCatch hp hh hQ

end

/-- A transaction in the attempt's name: it succeeds while the attempt works,
and is refused once its time is over. -/
theorem leads_transact {α : Type} {op : Time → World → Except Refusal (World × α)}
    {P : World → Prop} {Q : α → World → Prop} {E : Refusal → World → Prop}
    (hP : Lasting mayLose a P)
    (hop : ∀ t w, P w → ∃ w' b, op t w = .ok (w', b) ∧ Q b w')
    (hover : ∀ t w w' b, Over a w → op t w ≠ .ok (w', b)) (hQ : ∀ b, Lasting mayLose a (Q b)) : Leads mayLose a P (transact op) Q E := by
  refine ensures_mono (ensures_transact (E := fun _ w => mayLose ∧ Over a w) hP
    (fun t w w' b hw hok => ?_) (fun t w e hw herr => ?_) hQ
    fun e w w' hw ho => ⟨hw.1, over_stable w w' hw.2 ho⟩) (fun _ hw => hw) (fun _ _ hw => hw)
    fun _ _ hw => .inr hw
  · rcases hw with hw | hw
    · obtain ⟨u, b', hok', hq⟩ := hop t w hw
      obtain ⟨rfl, rfl⟩ := Prod.mk.inj (Except.ok.inj (hok'.symm.trans hok))
      exact .inl hq
    · exact absurd hok (hover t w w' b hw.2)
  · rcases hw with hw | hw
    · obtain ⟨u, b', hok', -⟩ := hop t w hw
      cases hok'.symm.trans herr
    · exact hw

end

end RagPipeline.Index
