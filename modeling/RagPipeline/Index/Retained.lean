import RagPipeline.Index.Served

/-! # What a copy of the chunks still holds

A copy is made of every build with a receipt, and of the rows without a version
that are served without one. However long ago it was made, what a document that
is not purged serves now and the copy knows by its key is what was copied. -/

set_option autoImplicit false

namespace RagPipeline.Index
open Guard Table Transition

/-- The rows of one version, or of none, under one generation. -/
def Store.rowsOf (s : Store) (version : Option Uuid) (generation : ℕ) : List ChunkRow :=
  s.chunks.filter fun c => c.versionId = version ∧ c.generation = generation

theorem mem_rowsOf {s : Store} {version : Option Uuid} {generation : ℕ} {c : ChunkRow} :
    c ∈ s.rowsOf version generation ↔
      c ∈ s.chunks ∧ c.versionId = version ∧ c.generation = generation := by
  simp [Store.rowsOf]

/-- Two tables with distinct ids and the same rows of this kind. -/
theorem rowsOf_perm {s s' : Store} {version : Option Uuid} {generation : ℕ}
    (h : (s.chunks.map ChunkRow.id).Nodup) (h' : (s'.chunks.map ChunkRow.id).Nodup)
    (hmem : ∀ c, c.versionId = version → c.generation = generation →
      (c ∈ s'.chunks ↔ c ∈ s.chunks)) :
    (s'.rowsOf version generation).Perm (s.rowsOf version generation) := by
  refine (List.perm_ext_iff_of_nodup ?_ ?_).2 fun c => ?_
  · exact (List.Nodup.of_map _ h').filter _
  · exact (List.Nodup.of_map _ h).filter _
  · simp only [mem_rowsOf]
    exact ⟨fun hc => ⟨(hmem c hc.2.1 hc.2.2).1 hc.1, hc.2⟩,
      fun hc => ⟨(hmem c hc.2.1 hc.2.2).2 hc.1, hc.2⟩⟩

/-- When a document was archived, and when it was purged. -/
def Store.lifetime (s : Store) : Option (Option Time × Option Time) :=
  s.document.map fun d => (d.archivedAt, d.purgedAt)

section
variable {s s' : Store} {d new : DocumentRow}

/-- Archiving, restoring and the first upload find the document unpurged; a purge
finds it archived. -/
inductive Ages (s s' : Store) : Prop where
  | same (lifetime : s'.lifetime = s.lifetime)
  | moved (d : DocumentRow) (document : s'.document = some d)
      (fine : d.purgedAt = none ∨ d.archivedAt ≠ none)

theorem Ages.of_row (hd : s.document = some d) (hs' : s'.document = some new)
    (harchived : new.archivedAt = d.archivedAt) (hpurged : new.purgedAt = d.purgedAt) :
    Ages s s' :=
  .same (by simp [Store.lifetime, hd, hs', harchived, hpurged])

theorem Ages.of_document (h : s'.document = s.document) : Ages s s' :=
  .same (by rw [Store.lifetime, h, Store.lifetime])

end

section
variable [Deployment] {w w' : World}

theorem stage_ages {s : Store} {filename fileType : String} {sha : Option String}
    {allowReplace fresh : Bool} {candidate : Uuid} {now : Time} {r : Store × Option Uuid × String}
    (h : stageCandidate filename fileType sha allowReplace fresh candidate now s = .ok r) :
    Ages s r.1 := by
  obtain ⟨d, hrow, -, rfl⟩ := stageCandidate_ok h
  obtain ⟨n, versions, hreg⟩ := @registerVersion_eq (s.withDocument d) _ sha rfl
  simp only [hreg]
  rcases hrow with ⟨hnone, rfl⟩ | ⟨old, hold, rfl, -, -⟩
  · exact .moved _ rfl (.inl rfl)
  · by_cases hkeep : old.keepsCandidate sha
    · rw [staged_keep hkeep]
      exact .of_row hold rfl rfl rfl
    · refine .of_row hold rfl ?_ ?_ <;> simp [DocumentRow.staged, if_neg hkeep]

theorem step_ages {act : Action} (h : documentSystem.step w act w') : Ages w.store w'.store := by
  obtain ⟨-, h⟩ := h
  cases act <;> simp only [Action.perform, bind_ok, pure_ok] at h
  case stage =>
    obtain ⟨r, h, rfl⟩ := h
    exact stage_ages h
  case finalize =>
    obtain ⟨r, h, rfl⟩ := h
    rcases finalizeCandidatePublication_ok h with ⟨h, -⟩ | ⟨d, hd, -, rfl⟩
    · exact .of_document (by rw [World.withStore_store, h])
    · exact .of_row hd rfl rfl rfl
  case begin =>
    obtain ⟨r, h, rfl⟩ := h
    obtain ⟨d, candidate, sha, hd, -, -, -, -, -, -, -, -, -, hr, -⟩ := beginAttempt_ok h
    rw [World.withStore_store, hr]
    exact .of_row hd rfl rfl rfl
  case heartbeat =>
    obtain ⟨s, h, rfl⟩ := h
    obtain ⟨d, t, hauth, rfl⟩ := heartbeatAttempt_ok h
    exact .of_row (authority_ok.1 hauth).1 rfl rfl rfl
  case recordOutcome =>
    obtain ⟨s, h, rfl⟩ := h
    obtain ⟨d, hauth, -, rfl⟩ := recordAttemptOutcome_ok h
    exact .of_row (authority_ok.1 hauth).1 rfl rfl rfl
  case allocate =>
    obtain ⟨r, h, rfl⟩ := h
    obtain ⟨d, hauth, rfl⟩ := allocateGeneration_ok h
    exact .of_row (authority_ok.1 hauth).1 rfl rfl rfl
  case upsert =>
    obtain ⟨s, h, rfl⟩ := h
    obtain ⟨d, -, rfl⟩ := upsertChunks_ok h
    exact .of_document rfl
  case copy =>
    obtain ⟨s, h, rfl⟩ := h
    obtain ⟨d, -, rfl⟩ := copyChunksIntoGeneration_ok h
    exact .of_document rfl
  case promote =>
    obtain ⟨s, h, rfl⟩ := h
    obtain ⟨-, -, -, -, d, hd, -, -, -, -, t, ht, rfl⟩ := promoteGeneration_ok.1 h
    obtain ⟨builds, rfl⟩ := recordVersionActivation_frame ht
    exact .of_row hd rfl rfl rfl
  case activate =>
    obtain ⟨r, h, rfl⟩ := h
    rcases activateDocumentVersion_ok h with h | ⟨d, v, b, t, hd, -, -, -, -, -, -, -, -, ht, rfl⟩
    · exact .of_document (by rw [World.withStore_store, h])
    · obtain ⟨builds, rfl⟩ := recordVersionActivation_frame ht
      exact .of_row hd rfl rfl rfl
  case archive =>
    obtain ⟨r, h, rfl⟩ := h
    rcases setDocumentArchived_ok h with h | ⟨d, -, hp, -, -, -, h⟩
    · exact .of_document (by rw [World.withStore_store, h])
    · rw [World.withStore_store, h]
      exact .moved _ rfl (.inl hp)
  case setPolicy =>
    obtain ⟨s, h, rfl⟩ := h
    rw [updateTenantRetentionPolicy_ok h]
    exact .of_document rfl
  case hold =>
    obtain ⟨s, h, rfl⟩ := h
    obtain ⟨d, -, -, -, rfl⟩ := createDocumentLegalHold_ok h
    exact .of_document rfl
  case release =>
    obtain ⟨s, h, rfl⟩ := h
    rw [releaseDocumentLegalHold_ok h]
    exact .of_document rfl
  case schedule =>
    obtain ⟨s, h, rfl⟩ := h
    obtain ⟨d, archivedAt, -, -, -, -, -, -, -, -, rfl⟩ := scheduleDocumentPurge_ok h
    exact .of_document rfl
  case purge =>
    obtain ⟨s, h, rfl⟩ := h
    obtain ⟨r, -, hdone⟩ := claimed_ok.1 h
    obtain ⟨-, d, -, harch, -, -, -, -, rfl⟩ := completeDocumentPurge_ok.1 hdone
    exact .moved _ rfl (.inr harch)
  case failPurge =>
    obtain ⟨s, h, rfl⟩ := h
    obtain ⟨r, hclaim, hdone⟩ := claimed_ok.1 h
    obtain ⟨d, job, -, -, -, -, hr, -⟩ := claimDocumentPurge_some hclaim
    rw [failDocumentPurge_ok hdone, hr]
    exact .of_document rfl
  case queue =>
    obtain rfl := Except.ok.inj h
    exact .of_document rfl

/-- A document that is not archived has not been purged. -/
theorem not_purged (h : documentSystem.Reachable w) {d : DocumentRow}
    (hd : w.store.document = some d) (harch : d.archivedAt = none) : ¬ w.store.isPurged := by
  have hfine : ∀ d, w.store.document = some d → d.purgedAt = none ∨ d.archivedAt ≠ none := by
    clear hd harch
    induction h with
    | start h => exact fun d hd => .inl (h.1.idle d hd).2.2
    | @next w w' a hr hstep ih =>
      intro new hnew
      cases step_ages hstep with
      | moved d document fine => exact Option.some.inj (document.symm.trans hnew) ▸ fine
      | same lifetime =>
        simp only [Store.lifetime, hnew, Option.map_some] at lifetime
        obtain ⟨d, hd, heq⟩ := Option.map_eq_some_iff.1 lifetime.symm
        obtain ⟨harchived, hpurged⟩ := Prod.mk.inj heq
        rw [← hpurged, ← harchived]
        exact ih d hd
  rw [isPurged_row hd]
  exact not_not.2 ((hfine d hd).resolve_right (not_not.2 harch))

/-- One receipt for a version and a generation. -/
theorem builds_nodup (h : orderlySystem.Reachable w) : (w.store.builds.map BuildRow.key).Nodup := by
  induction h with
  | start h => simp [h.1.builds]
  | @next w w' act hr hstep ih =>
    have hc := reachable_complete hr
    have hs := reachable_exclusive (System.reachable_of_only hr)
    have hsame : SameBuilds w w' → (w'.store.builds.map BuildRow.key).Nodup := fun h => by
      rw [h.builds]
      exact ih
    cases step_footprint hs hc.unbuilt hstep with
    | quiet same => exact hsame same.builds
    | allocate attempt active purged counter chunks allocated builds => exact hsame builds
    | fill row allocated builds subset staged distinct => exact hsame builds
    | activate b mem active purged counter chunks allocated builds => exact hsame builds
    | purge purged counter chunks allocated builds => exact hsame builds
    | promote a generation ids version live holds mem candidate staged nonempty closed builds =>
      have hfresh := (hc.unbuilt a generation holds live).1
      rw [builds, List.map_append, List.map_singleton]
      refine List.nodup_append.2 ⟨ih, List.nodup_singleton _, fun k hk k' hk' => ?_⟩
      rintro rfl
      rw [List.mem_singleton.1 hk', BuildRow.key, candidate] at hk
      exact hfresh hk

omit [Deployment] in
theorem fill_perm (h : (w.store.chunks.map ChunkRow.id).Nodup)
    (h' : (w'.store.chunks.map ChunkRow.id).Nodup) {version : Option Uuid} {generation : ℕ}
    (hsubset : w.store.chunks ⊆ w'.store.chunks)
    (hother : ∀ c ∈ w'.store.chunks, c.versionId = version → c.generation = generation →
      c ∈ w.store.chunks) :
    (w'.store.rowsOf version generation).Perm (w.store.rowsOf version generation) :=
  rowsOf_perm h h' fun c hv hg => ⟨fun hc => hother c hc hv hg, fun hc => hsubset hc⟩

omit [Deployment] in
theorem rowsOf_eq {version : Option Uuid} {generation : ℕ}
    (h : w'.store.chunks = w.store.chunks) :
    (w'.store.rowsOf version generation).Perm (w.store.rowsOf version generation) := by
  rw [Store.rowsOf, h, ← Store.rowsOf]

/-- A build with a receipt keeps its rows until the purge. -/
theorem build_step {act : Action} (h : orderlySystem.Reachable w)
    (hstep : orderlySystem.step w act w') {version : Uuid} {generation : ℕ}
    (hbuilt : (version, generation) ∈ w.store.builds.map BuildRow.key) :
    (version, generation) ∈ w'.store.builds.map BuildRow.key ∧ (w'.store.isPurged ∨
      ¬ w.store.isPurged ∧ (w'.store.rowsOf (some version) generation).Perm
        (w.store.rowsOf (some version) generation)) := by
  have hc := reachable_complete h
  have hc' := reachable_complete (h.next hstep)
  have hs := reachable_exclusive (System.reachable_of_only h)
  have hlive : (w'.store.isPurged ↔ w.store.isPurged) →
      (¬ w.store.isPurged → (w'.store.rowsOf (some version) generation).Perm
        (w.store.rowsOf (some version) generation)) → w'.store.isPurged ∨ ¬ w.store.isPurged ∧
      (w'.store.rowsOf (some version) generation).Perm
        (w.store.rowsOf (some version) generation) := fun hpurged hperm => by
    by_cases hp : w.store.isPurged
    · exact .inl (hpurged.2 hp)
    · exact .inr ⟨hp, hperm hp⟩
  cases step_footprint hs hc.unbuilt hstep with
  | quiet same =>
    exact ⟨same.builds.builds ▸ hbuilt, hlive same.row.purged fun _ => rowsOf_eq same.chunks⟩
  | allocate attempt active purged counter chunks allocated builds =>
    exact ⟨builds.builds ▸ hbuilt, hlive purged fun _ => rowsOf_eq chunks⟩
  | fill row allocated builds subset staged distinct =>
    refine ⟨builds.builds ▸ hbuilt, hlive row.purged fun hp =>
      fill_perm hc.distinct hc'.distinct subset fun c hmem hv hg => ?_⟩
    rcases staged c hmem with hold | ⟨a, holds, hversion, -⟩
    · exact hold
    · -- a running attempt stages under generations without a receipt
      rw [hg] at holds
      obtain rfl : a.candidateId = version := Option.some.inj (hversion.symm.trans hv)
      exact absurd hbuilt (hc.unbuilt a generation holds hp).1
  | activate b mem active purged counter chunks allocated builds =>
    exact ⟨builds.builds ▸ hbuilt, hlive purged fun _ => rowsOf_eq chunks⟩
  | purge purged counter chunks allocated builds => exact ⟨builds.builds ▸ hbuilt, .inl purged⟩
  | promote a g ids v live holds mem candidate staged nonempty closed builds promoted chunks active
      purged =>
    have hkept : (version, generation) ∈ w'.store.builds.map BuildRow.key := by
      rw [builds, List.map_append]
      exact List.mem_append_left _ hbuilt
    refine ⟨hkept, hlive purged fun _ => rowsOf_perm hc.distinct hc'.distinct fun c hv hg => ?_⟩
    obtain ⟨b, hb, hkey⟩ := List.mem_map.1 hkept
    obtain ⟨hbv, hbg⟩ := Prod.mk.inj hkey
    have hretained : w'.store.retains v.id g c :=
      .inr ⟨b, hb, (congrArg some hbv).trans hv.symm, hbg.trans hg.symm⟩
    rw [chunks, mem_deleteWhere, not_not]
    exact and_iff_left hretained

/-- Rows without a version stay as they are while they are served. -/
theorem legacy_step {act : Action} (h : orderlySystem.Reachable w)
    (hstep : orderlySystem.step w act w') (hnone : w'.store.active.1 = none)
    (hp' : ¬ w'.store.isPurged) : ¬ w.store.isPurged ∧ w'.store.active = w.store.active ∧
      ∀ generation, (w'.store.rowsOf none generation).Perm (w.store.rowsOf none generation) := by
  have hc := reachable_complete h
  have hc' := reachable_complete (h.next hstep)
  have hs := reachable_exclusive (System.reachable_of_only h)
  cases step_footprint hs hc.unbuilt hstep with
  | quiet same =>
    exact ⟨mt same.row.purged.2 hp', same.row.active, fun _ => rowsOf_eq same.chunks⟩
  | allocate attempt active purged counter chunks allocated builds =>
    exact ⟨mt purged.2 hp', active, fun _ => rowsOf_eq chunks⟩
  | fill row allocated builds subset staged distinct =>
    refine ⟨mt row.purged.2 hp', row.active, fun generation =>
      fill_perm hc.distinct hc'.distinct subset fun c hmem hv hg => ?_⟩
    rcases staged c hmem with hold | ⟨a, -, hversion, -⟩
    · exact hold
    · rw [hv] at hversion
      cases hversion
  | activate b mem active purged counter chunks allocated builds =>
    rw [active] at hnone
    cases hnone
  | purge purged counter chunks allocated builds => exact absurd purged hp'
  | promote a g ids v live holds mem candidate staged nonempty closed builds promoted chunks active
      purged =>
    rw [active] at hnone
    cases hnone

theorem build_later (h : orderlySystem.Reachable w) (hl : orderlySystem.Later w w')
    {version : Uuid} {generation : ℕ}
    (hbuilt : (version, generation) ∈ w.store.builds.map BuildRow.key)
    (hp : ¬ w'.store.isPurged) : (w'.store.rowsOf (some version) generation).Perm
      (w.store.rowsOf (some version) generation) := by
  have hnext : ∀ u act u', orderlySystem.Reachable u →
      ((version, generation) ∈ u.store.builds.map BuildRow.key ∧
        (u.store.isPurged ∨ (u.store.rowsOf (some version) generation).Perm
          (w.store.rowsOf (some version) generation))) → orderlySystem.step u act u' →
      ((version, generation) ∈ u'.store.builds.map BuildRow.key ∧
        (u'.store.isPurged ∨ (u'.store.rowsOf (some version) generation).Perm
          (w.store.rowsOf (some version) generation))) := by
    rintro u act u' hu ⟨hmem, hrows⟩ hstep
    obtain ⟨hmem', hrows'⟩ := build_step hu hstep hmem
    refine ⟨hmem', hrows'.imp_right fun ⟨hlive, hperm⟩ => ?_⟩
    exact hperm.trans (hrows.resolve_left hlive)
  exact (System.stable hnext h ⟨hbuilt, .inr (.refl _)⟩ hl).2.resolve_left hp

theorem legacy_later (h : orderlySystem.Reachable w) (hl : orderlySystem.Later w w')
    (hnone : w'.store.active.1 = none) (hp : ¬ w'.store.isPurged) (generation : ℕ) :
    (w'.store.rowsOf none generation).Perm (w.store.rowsOf none generation) := by
  induction hl with
  | refl => exact .refl _
  | tail hlu hstep ih =>
    obtain ⟨act, hstep⟩ := hstep
    obtain ⟨hlive, hactive, hperm⟩ :=
      legacy_step (System.reachable_later h hlu) hstep hnone hp
    rw [hactive] at hnone
    exact (hperm generation).trans (ih hnone hlive)

/-- What was copied under a key is what is served under it. -/
theorem rowsOf_later (h : orderlySystem.Reachable w) (hl : orderlySystem.Later w w')
    {version : Option Uuid} {generation : ℕ}
    (hcopied : ∀ v, version = some v → (v, generation) ∈ w.store.builds.map BuildRow.key)
    (hp : ¬ w'.store.isPurged) (hversion : w'.store.active.1 = version) :
    (w'.store.rowsOf version generation).Perm (w.store.rowsOf version generation) := by
  cases version with
  | some v => exact build_later h hl (hcopied v rfl) hp
  | none => exact legacy_later h hl hversion hp generation

end

end RagPipeline.Index
