import RagPipeline.Index.Catalogue
import RagPipeline.Index.Footprint
import Mathlib.Data.List.Perm.Basic

/-! # What is served is one complete build

A generation belongs to the attempt it was handed to, so the rows of a build
come from one attempt, and nobody adds to them once that attempt is closed. The
sweep of a promotion passes over every build with a receipt. -/

set_option autoImplicit false

namespace RagPipeline.Index
open Guard Table Transition Fence

/-- A version and a generation that some attempt could stage under. -/
def Traced (w : World) (version : Uuid) (generation : ℕ) : Prop :=
  ∃ a ∈ w.store.attempts, a.candidateId = version ∧ (a.attemptId, generation) ∈ w.allocated

/-- The attempt a receipt names was handed its generation and is over. -/
structure Receipted (w : World) (b : BuildRow) : Prop where
  made : ∃ a ∈ w.store.attempts, a.attemptId = b.attemptId ∧ a.candidateId = b.versionId
  own : (b.attemptId, b.generation) ∈ w.allocated
  settled : ∀ a ∈ w.store.attempts, a.attemptId = b.attemptId → a.status ≠ none
  digest : ∃ v ∈ w.store.versions, v.id = b.versionId ∧ v.contentSha256 = b.contentSha256

/-- The rows of a build are the manifest it was promoted with. -/
structure Whole (w : World) (b : BuildRow) : Prop where
  nonempty : 1 ≤ b.chunkCount
  count : (w.store.build b.versionId b.generation).length = b.chunkCount
  manifest : ∃ ids, ⟨b.versionId, b.generation, ids⟩ ∈ w.promoted ∧
    ((w.store.build b.versionId b.generation).map ChunkRow.id).toFinset = ids

structure Complete [Deployment] (w : World) : Prop where
  owner : ∀ x y g, (x, g) ∈ w.allocated → (y, g) ∈ w.allocated → x = y
  counted : ∀ x g, (x, g) ∈ w.allocated → g ≤ w.store.counter
  distinct : (w.store.chunks.map ChunkRow.id).Nodup
  rows : ∀ c ∈ w.store.chunks, ∀ v, c.versionId = some v → Traced w v c.generation
  named : ∀ row ∈ w.store.chunks, ∀ c index g, row.id = chunkId c index g → g ≤ w.store.counter
  receipts : ∀ b ∈ w.store.builds, Receipted w b
  promotions : ∀ p ∈ w.promoted, (p.version, p.generation) ∈ w.store.builds.map BuildRow.key
  once : ∀ p ∈ w.promoted, ∀ q ∈ w.promoted, p.version = q.version →
    p.generation = q.generation → p = q
  whole : ¬ w.store.isPurged → ∀ b ∈ w.store.builds, Whole w b
  pointer : ¬ w.store.isPurged → ∀ v, w.store.active.1 = some v → ∃ b ∈ w.store.builds,
    w.store.active = (some b.versionId, b.generation, some b.contentSha256)

section
variable [Deployment] {w w' : World}

/-- What every step keeps of attempts, versions and generations. -/
structure Grows (w w' : World) : Prop where
  exclusive : w'.store.exclusive
  continues : ∀ a ∈ w.store.attempts, ∃ a' ∈ w'.store.attempts,
    a'.attemptId = a.attemptId ∧ a'.candidateId = a.candidateId
  finished : ∀ a ∈ w.store.attempts, a.status ≠ none → a ∈ w'.store.attempts
  versions : w.store.versions ⊆ w'.store.versions
  allocated : w.allocated ⊆ w'.allocated

omit [Deployment] in
theorem Traced.grows {version : Uuid} {generation : ℕ} (h : Traced w version generation)
    (hg : Grows w w') : Traced w' version generation := by
  obtain ⟨a, ha, hcand, hown⟩ := h
  obtain ⟨a', ha', hid, hcand'⟩ := hg.continues a ha
  exact ⟨a', ha', hcand'.trans hcand, hg.allocated (hid ▸ hown)⟩

omit [Deployment] in
theorem Receipted.grows {b : BuildRow} (h : Receipted w b) (hg : Grows w w') :
    Receipted w' b := by
  obtain ⟨a, ha, hid, hcand⟩ := h.made
  obtain ⟨v, hv, hvid, hsha⟩ := h.digest
  have hstays := hg.finished a ha (h.settled a ha hid)
  refine ⟨⟨a, hstays, hid, hcand⟩, hg.allocated h.own, fun x hx hxid => ?_,
    ⟨v, hg.versions hv, hvid, hsha⟩⟩
  obtain rfl : x = a := hg.exclusive.ident_inj hx hstays (hxid.trans hid.symm)
  exact h.settled x ha hid

/-- A running attempt's generation has no receipt yet, and is not served. -/
theorem Complete.unbuilt (h : Complete w) (a : AttemptRow) (g : ℕ) (hold : Holds w a g)
    (hp : ¬ w.store.isPurged) : (a.candidateId, g) ∉ w.store.builds.map BuildRow.key ∧
      ¬ (w.store.active.1 = some a.candidateId ∧ w.store.active.2.1 = g) := by
  have hother : ∀ b ∈ w.store.builds, b.generation ≠ g := fun b hb hbg => by
    have hid := h.owner _ _ g (hbg ▸ (h.receipts b hb).own) hold.own
    exact (h.receipts b hb).settled a hold.mem hid.symm hold.running
  constructor
  · intro hmem
    obtain ⟨b, hb, hkey⟩ := List.mem_map.1 hmem
    exact hother b hb (congrArg Prod.snd hkey)
  · rintro ⟨hv, hg⟩
    obtain ⟨b, hb, hactive⟩ := h.pointer hp _ hv
    rw [hactive] at hg
    exact hother b hb hg

omit [Deployment] in
/-- Two tables with distinct ids and the same rows of a build have the same build. -/
theorem build_perm {s s' : Store} {version : Uuid} {generation : ℕ}
    (h : (s.chunks.map ChunkRow.id).Nodup) (h' : (s'.chunks.map ChunkRow.id).Nodup)
    (hmem : ∀ c, c.versionId = some version → c.generation = generation →
      (c ∈ s'.chunks ↔ c ∈ s.chunks)) :
    (s'.build version generation).Perm (s.build version generation) := by
  refine (List.perm_ext_iff_of_nodup ?_ ?_).2 fun c => ?_
  · exact (List.Nodup.of_map _ h').filter _
  · exact (List.Nodup.of_map _ h).filter _
  · simp only [mem_build]
    exact ⟨fun hc => ⟨(hmem c hc.2.1 hc.2.2).1 hc.1, hc.2⟩,
      fun hc => ⟨(hmem c hc.2.1 hc.2.2).2 hc.1, hc.2⟩⟩

omit [Deployment] in
theorem build_nodup {s : Store} {version : Uuid} {generation : ℕ}
    (h : (s.chunks.map ChunkRow.id).Nodup) :
    ((s.build version generation).map ChunkRow.id).Nodup :=
  h.sublist (List.filter_sublist.map _)

omit [Deployment] in
theorem Whole.perm {b : BuildRow} (h : Whole w b) (hpromoted : w.promoted ⊆ w'.promoted)
    (hperm : (w'.store.build b.versionId b.generation).Perm
      (w.store.build b.versionId b.generation)) : Whole w' b := by
  obtain ⟨ids, hids, hmanifest⟩ := h.manifest
  refine ⟨h.nonempty, hperm.length_eq.trans h.count, ids, hpromoted hids, ?_⟩
  rw [← hmanifest]
  exact List.toFinset_eq_of_perm _ _ (hperm.map _)

/-- Steps that leave the chunks and the receipts as they are. -/
theorem Complete.of_same (h : Complete w) (hg : Grows w w') (hs : SameBuilds w w')
    (hchunks : w'.store.chunks = w.store.chunks)
    (howner : ∀ x y g, (x, g) ∈ w'.allocated → (y, g) ∈ w'.allocated → x = y)
    (hcounted : ∀ x g, (x, g) ∈ w'.allocated → g ≤ w'.store.counter)
    (hcounter : w.store.counter ≤ w'.store.counter)
    (hpurged : w'.store.isPurged ↔ w.store.isPurged)
    (hpointer : ¬ w.store.isPurged → ∀ v, w'.store.active.1 = some v → ∃ b ∈ w.store.builds,
      w'.store.active = (some b.versionId, b.generation, some b.contentSha256)) :
    Complete w' where
  owner := howner
  counted := hcounted
  distinct := by rw [hchunks]; exact h.distinct
  rows c hc v hv := (h.rows c (hchunks ▸ hc) v hv).grows hg
  named row hrow c i g hid := (h.named row (hchunks ▸ hrow) c i g hid).trans hcounter
  receipts b hb := (h.receipts b (hs.builds ▸ hb)).grows hg
  promotions p hp := by rw [hs.builds]; exact h.promotions p (hs.promoted ▸ hp)
  once p hp q hq := h.once p (hs.promoted ▸ hp) q (hs.promoted ▸ hq)
  whole hp b hb := by
    refine (h.whole (mt hpurged.2 hp) b (hs.builds ▸ hb)).perm (by rw [hs.promoted]; simp) ?_
    rw [Store.build, Store.build, hchunks]
  pointer hp v hv := by rw [hs.builds]; exact hpointer (mt hpurged.2 hp) v hv

/-- Rows staged under generations without a receipt change no build. -/
theorem Complete.fill (h : Complete w) (hg : Grows w w') (hs : SameBuilds w w')
    (hrow' : SameRow w.store w'.store) (hallocated : w'.allocated = w.allocated)
    (hsubset : w.store.chunks ⊆ w'.store.chunks)
    (hstaged : ∀ c ∈ w'.store.chunks, c ∈ w.store.chunks ∨
      ∃ a, Holds w a c.generation ∧ c.versionId = some a.candidateId ∧
        ∃ chunk index, c.id = chunkId chunk index c.generation)
    (hdistinct : (w'.store.chunks.map ChunkRow.id).Nodup) : Complete w' where
  owner := by rw [hallocated]; exact h.owner
  counted := by rw [hallocated, hrow'.counter]; exact h.counted
  distinct := hdistinct
  rows c hc v hv := by
    rcases hstaged c hc with hc | ⟨a, hold, hav, -⟩
    · exact (h.rows c hc v hv).grows hg
    · obtain rfl : a.candidateId = v := Option.some.inj (hav.symm.trans hv)
      exact Traced.grows ⟨a, hold.mem, rfl, hold.own⟩ hg
  named row hrow c i g hid := by
    rw [hrow'.counter]
    rcases hstaged row hrow with hmem | ⟨a, hold, -, chunk, index, hname⟩
    · exact h.named row hmem c i g hid
    · obtain ⟨hsame, -⟩ := chunkId_inj (hname.symm.trans hid)
      exact hsame ▸ h.counted _ _ hold.own
  receipts b hb := (h.receipts b (hs.builds ▸ hb)).grows hg
  promotions p hp := by rw [hs.builds]; exact h.promotions p (hs.promoted ▸ hp)
  once p hp q hq := h.once p (hs.promoted ▸ hp) q (hs.promoted ▸ hq)
  whole hp b hb := by
    have hlive := mt hrow'.purged.2 hp
    refine (h.whole hlive b (hs.builds ▸ hb)).perm (by rw [hs.promoted]; simp) ?_
    refine build_perm h.distinct hdistinct fun c hv hcg => ⟨fun hc => ?_, fun hc => hsubset hc⟩
    refine (hstaged c hc).resolve_right ?_
    rintro ⟨a, hold, hav, -⟩
    refine (h.unbuilt a c.generation hold hlive).1 (List.mem_map.2 ⟨b, hs.builds ▸ hb, ?_⟩)
    rw [BuildRow.key, hcg, Option.some.inj (hv.symm.trans hav)]
  pointer hp v hv := by
    rw [hrow'.active] at hv ⊢
    rw [hs.builds]
    exact h.pointer (mt hrow'.purged.2 hp) v hv

/-- The sweep passes over the winner and over every receipt. -/
theorem Complete.promote (h : Complete w) (hg : Grows w w') {a : AttemptRow} {generation : ℕ}
    {ids : Finset String} {version : VersionRow} (hlive : ¬ w.store.isPurged)
    (hold : Holds w a generation) (hmem : version ∈ w.store.versions)
    (hcandidate : version.id = a.candidateId)
    (hstaged : ((w.store.build version.id generation).map ChunkRow.id).toFinset = ids)
    (hnonempty : 1 ≤ (w.store.build version.id generation).length)
    (hclosed : ∀ a' ∈ w'.store.attempts, a'.attemptId = a.attemptId → a'.status ≠ none)
    (hbuilds : w'.store.builds = w.store.builds ++ [⟨version.id, generation,
      version.contentSha256, a.attemptId, (w.store.build version.id generation).length⟩])
    (hpromoted : w'.promoted = w.promoted ++ [⟨version.id, generation, ids⟩])
    (hchunks : w'.store.chunks =
      deleteWhere (fun c => ¬ w'.store.retains version.id generation c) w.store.chunks)
    (hactive : w'.store.active = (some version.id, generation, some version.contentSha256))
    (hcounter : w'.store.counter = w.store.counter) (hallocated : w'.allocated = w.allocated) :
    Complete w' := by
  have hdistinct : (w'.store.chunks.map ChunkRow.id).Nodup := by
    rw [hchunks]
    exact h.distinct.sublist (List.filter_sublist.map _)
  have hsub : w'.store.chunks ⊆ w.store.chunks := fun c hc => by
    rw [hchunks] at hc
    exact (mem_deleteWhere.1 hc).1
  have hkeep : ∀ b ∈ w'.store.builds,
      (w'.store.build b.versionId b.generation).Perm (w.store.build b.versionId b.generation) := by
    intro b hb
    refine build_perm h.distinct hdistinct fun c hv hcg => ⟨fun hc => hsub hc, fun hc => ?_⟩
    rw [hchunks]
    exact mem_deleteWhere.2 ⟨hc, not_not.2 (.inr ⟨b, hb, hv.symm, hcg.symm⟩)⟩
  obtain ⟨hfresh, -⟩ := h.unbuilt a generation hold hlive
  rw [← hcandidate] at hfresh
  have hunpromoted : ∀ p ∈ w.promoted, ¬ (p.version = version.id ∧ p.generation = generation) := by
    rintro p hp ⟨hv, hgen⟩
    have hkey := h.promotions p hp
    rw [hv, hgen] at hkey
    exact hfresh hkey
  constructor
  case owner => rw [hallocated]; exact h.owner
  case counted => rw [hallocated, hcounter]; exact h.counted
  case distinct => exact hdistinct
  case rows => exact fun c hc v hv => (h.rows c (hsub hc) v hv).grows hg
  case named =>
    rw [hcounter]
    exact fun row hrow => h.named row (hsub hrow)
  case receipts =>
    intro b hb
    rw [hbuilds] at hb
    rcases List.mem_append.1 hb with hb | hb
    · exact (h.receipts b hb).grows hg
    · obtain rfl := List.mem_singleton.1 hb
      obtain ⟨a', ha', hid, hcand⟩ := hg.continues a hold.mem
      exact ⟨⟨a', ha', hid, hcand.trans hcandidate.symm⟩, hg.allocated hold.own, hclosed,
        ⟨version, hg.versions hmem, rfl, rfl⟩⟩
  case promotions =>
    intro p hp
    rw [hpromoted] at hp
    rw [hbuilds, List.map_append]
    rcases List.mem_append.1 hp with hp | hp
    · exact List.mem_append_left _ (h.promotions p hp)
    · obtain rfl := List.mem_singleton.1 hp
      exact List.mem_append_right _ List.mem_cons_self
  case once =>
    intro p hp q hq hv hgen
    rw [hpromoted] at hp hq
    rcases List.mem_append.1 hp with hp | hp <;> rcases List.mem_append.1 hq with hq | hq
    · exact h.once p hp q hq hv hgen
    · obtain rfl := List.mem_singleton.1 hq
      exact absurd ⟨hv, hgen⟩ (hunpromoted p hp)
    · obtain rfl := List.mem_singleton.1 hp
      exact absurd ⟨hv.symm, hgen.symm⟩ (hunpromoted q hq)
    · rw [List.mem_singleton.1 hp, List.mem_singleton.1 hq]
  case whole =>
    intro _ b hb
    have hperm := hkeep b hb
    have hsubp : w.promoted ⊆ w'.promoted := by rw [hpromoted]; simp
    rw [hbuilds] at hb
    rcases List.mem_append.1 hb with hb | hb
    · exact (h.whole hlive b hb).perm hsubp hperm
    · obtain rfl := List.mem_singleton.1 hb
      refine ⟨hnonempty, hperm.length_eq, ids, ?_, ?_⟩
      · rw [hpromoted]
        exact List.mem_append_right _ List.mem_cons_self
      · rw [← hstaged]
        exact List.toFinset_eq_of_perm _ _ (hperm.map _)
  case pointer =>
    intro _ v _
    refine ⟨⟨version.id, generation, version.contentSha256, a.attemptId,
      (w.store.build version.id generation).length⟩, ?_, hactive⟩
    rw [hbuilds]
    exact List.mem_append_right _ List.mem_cons_self

theorem Footprint.complete (h : Complete w) (hg : Grows w w') (hstep : Footprint w w') :
    Complete w' := by
  cases hstep with
  | quiet same =>
    refine h.of_same hg same.builds same.chunks ?_ ?_ same.row.counter.ge same.row.purged
      fun hp v hv => ?_
    · rw [same.allocated]
      exact h.owner
    · rw [same.allocated, same.row.counter]
      exact h.counted
    · rw [same.row.active] at hv ⊢
      exact h.pointer hp v hv
  | allocate attempt active purged counter chunks allocated builds =>
    have hlast : ∀ x g, (x, g) ∈ w'.allocated →
        (x, g) ∈ w.allocated ∨ x = attempt ∧ g = w.store.counter + 1 := fun x g hx => by
      rw [allocated] at hx
      exact (List.mem_append.1 hx).imp_right fun hx => by simpa using hx
    refine h.of_same hg builds chunks (fun x y g hx hy => ?_) (fun x g hx => ?_) (by omega) purged
      fun hp v hv => ?_
    · rcases hlast x g hx with hx | ⟨rfl, hxg⟩ <;> rcases hlast y g hy with hy | ⟨rfl, hyg⟩
      · exact h.owner x y g hx hy
      · have := h.counted x g hx
        omega
      · have := h.counted y g hy
        omega
      · rfl
    · rw [counter]
      rcases hlast x g hx with hx | ⟨-, rfl⟩
      · have := h.counted x g hx
        omega
      · omega
    · rw [active] at hv ⊢
      exact h.pointer hp v hv
  | fill row allocated builds subset staged distinct =>
    exact h.fill hg builds row allocated subset staged (distinct h.distinct)
  | promote a generation ids version live holds mem candidate staged nonempty closed builds
      promoted chunks active purged counter allocated =>
    exact h.promote hg live holds mem candidate staged nonempty closed builds promoted chunks
      active counter allocated
  | activate b mem active purged counter chunks allocated builds =>
    refine h.of_same hg builds chunks ?_ ?_ counter.ge purged fun _ v _ => ⟨b, mem, active⟩
    · rw [allocated]
      exact h.owner
    · rw [allocated, counter]
      exact h.counted
  | purge purged counter chunks allocated builds =>
    constructor
    case owner => rw [allocated]; exact h.owner
    case counted => rw [allocated, counter]; exact h.counted
    case distinct => rw [chunks]; exact List.nodup_nil
    case rows => rw [chunks]; simp
    case named => rw [chunks]; simp
    case receipts => exact fun b hb => (h.receipts b (builds.builds ▸ hb)).grows hg
    case promotions =>
      intro p hp
      rw [builds.builds]
      exact h.promotions p (builds.promoted ▸ hp)
    case once => exact fun p hp q hq => h.once p (builds.promoted ▸ hp) q (builds.promoted ▸ hq)
    case whole => exact fun hp => absurd purged hp
    case pointer => exact fun hp => absurd purged hp

theorem migrated_complete (h : Migrated w.store) (hallocated : w.allocated = [])
    (hpromoted : w.promoted = []) : Complete w := by
  constructor
  case owner => simp [hallocated]
  case counted => simp [hallocated]
  case distinct => exact h.chunkIds
  case rows =>
    intro c hc v hv
    rw [h.unversioned c hc] at hv
    cases hv
  case named =>
    intro row hrow c i g hid
    cases hd : w.store.document with
    | none =>
      rw [(h.absent hd).2.2] at hrow
      cases hrow
    | some d =>
      rw [counter_row hd]
      exact h.ids row hrow c i g hid d hd
  case receipts => simp [h.builds]
  case promotions => simp [hpromoted]
  case once => simp [hpromoted]
  case whole => simp [h.builds]
  case pointer =>
    intro _ v hv
    cases hd : w.store.document with
    | none =>
      rw [Store.active, hd] at hv
      cases hv
    | some d =>
      rw [active_row hd] at hv
      exact absurd hv (by simp [(h.idle d hd).2.1])

end

section
variable [Deployment] {w w' : World}

theorem reachable_complete (h : orderlySystem.Reachable w) : Complete w := by
  induction h with
  | start h => exact migrated_complete h.1 h.2.1 h.2.2
  | next hr hstep ih =>
    have hs := reachable_exclusive (System.reachable_of_only hr)
    have hmove := step_moves hs hstep.2
    have hfoot := step_footprint hs ih.unbuilt hstep
    refine hfoot.complete ih ⟨hmove.exclusive hs, fun a ha => ?_,
      fun a ha hclosed => hmove.finished ha hclosed, (step_catalogues hstep.2).versions_subset,
      hfoot.allocated_subset⟩
    obtain ⟨a', ha', hid, hsubject⟩ := hmove.continues ha
    exact ⟨a', ha', hid, congrArg Subject.candidateId hsubject⟩

/-- A receipt names the only manifest its build was promoted with. -/
theorem Whole.manifest_eq {b : BuildRow} (h : Complete w) (hb : Whole w b) {ids : Finset String}
    (hids : ⟨b.versionId, b.generation, ids⟩ ∈ w.promoted) :
    ((w.store.build b.versionId b.generation).map ChunkRow.id).toFinset = ids := by
  obtain ⟨ids', hids', hmanifest⟩ := hb.manifest
  have hsame := h.once _ hids _ hids' rfl rfl
  rw [hmanifest]
  exact (congrArg Promotion.manifest hsame).symm

omit [Deployment] in
theorem find_version {s : Store} (h : Catalogued s) {v : VersionRow} (hv : v ∈ s.versions) :
    s.versions.find? (fun x => x.id = v.id) = some v :=
  find_key VersionRow.id h.ids hv

omit [Deployment] in
/-- Every whole build is ready, so the newest of its version is found. -/
theorem readyBuild_some {s : Store} {b : BuildRow} (hb : b ∈ s.builds)
    (hcount : (s.build b.versionId b.generation).length = b.chunkCount) :
    ∃ r, readyBuild b.versionId s = some r ∧ r ∈ s.builds ∧ r.versionId = b.versionId ∧
      b.generation ≤ r.generation := by
  have hmem : b ∈ s.builds.filter fun x => x.versionId = b.versionId ∧
      x.chunkCount = (s.build b.versionId x.generation).length :=
    List.mem_filter.2 ⟨hb, by simp [hcount]⟩
  cases hr : readyBuild b.versionId s with
  | none =>
    rw [readyBuild, List.argmax_eq_none] at hr
    rw [hr] at hmem
    cases hmem
  | some r =>
    obtain ⟨hrmem, hrkey⟩ := List.mem_filter.1 (List.argmax_mem hr)
    simp only [decide_eq_true_eq] at hrkey
    exact ⟨r, rfl, hrmem, hrkey.1, List.le_of_mem_argmax hmem hr⟩

/-- An idle document can serve every version that has a receipt. -/
theorem activate_receipted (h : Complete w) (hcat : Catalogued w.store) {d : DocumentRow}
    {b : BuildRow} (hd : w.store.document = some d) (hp : d.purgedAt = none)
    (hatt : d.attemptId = none) (harch : d.archivedAt = none) (hjob : ¬ w.store.hasActiveJob)
    (hb : b ∈ w.store.builds) : ∃ s act,
      activateDocumentVersion b.versionId d.revision b.contentSha256 w.store = .ok (s, some act) ∧
        b.generation ≤ act.activeGeneration := by
  have hlive : ¬ w.store.isPurged := by
    rw [isPurged_row hd]
    exact not_not.2 hp
  obtain ⟨r, hready, hr, hrversion, hle⟩ := readyBuild_some hb (h.whole hlive b hb).count
  obtain ⟨v, hv, hvid, hvsha⟩ := (h.receipts b hb).digest
  obtain ⟨x, hx, hxid, hxsha⟩ := (h.receipts r hr).digest
  obtain rfl : x = v :=
    List.inj_on_of_nodup_map hcat.ids hx hv (hxid.trans (hrversion.trans hvid.symm))
  have hfind := find_version hcat hv
  rw [hvid] at hfind
  have hcount := (h.whole hlive r hr).count
  rw [hrversion] at hcount
  simp only [activateDocumentVersion, hd, hfind, hready, require_true hatt, require_true harch,
    require_true hjob, require_true hvsha, ok_bind]
  by_cases hsame : d.activeVersionId = some b.versionId ∧ d.activeGeneration = r.generation
  · rw [if_pos hsame]
    exact ⟨_, _, rfl, hle⟩
  · rw [if_neg hsame]
    have hup : w.store.updateDocument d (d.activated b.versionId r.generation x.contentSha256) =
        .ok (w.store.withDocument (d.activated b.versionId r.generation x.contentSha256)) :=
      (updateDocument_ok (by rfl)).2 ⟨.inl hp, rfl⟩
    have htrigger : recordVersionActivation d
        (d.activated b.versionId r.generation x.contentSha256)
        (w.store.withDocument (d.activated b.versionId r.generation x.contentSha256)) =
        .ok (w.store.withDocument (d.activated b.versionId r.generation x.contentSha256)) := by
      refine (recordVersionActivation_ok rfl fun heq => hsame ⟨heq.1.symm, heq.2.symm⟩).2
        ⟨x, hfind, ?_, rfl, ?_, r, hr, ?_⟩
      · exact hcount.symm ▸ (h.whole hlive r hr).nonempty
      · rw [Store.receipt, hatt]
      · exact ⟨congrArg some hrversion, rfl, congrArg some hxsha.symm, .inl hatt, hcount.symm⟩
    rw [hup, ok_bind, htrigger]
    exact ⟨_, _, rfl, hle⟩

/-- What an unpurged document serves is one build, exactly as it was promoted,
under its version's digest; and every build with a receipt is still whole, so
that it can be activated. -/
theorem served_complete (h : orderlySystem.Reachable w) {d : DocumentRow}
    (hd : w.store.document = some d) (hp : d.purgedAt = none) :
    (∀ version, d.activeVersionId = some version →
      (∃ ids, ⟨version, d.activeGeneration, ids⟩ ∈ w.promoted) ∧
      (∀ ids, ⟨version, d.activeGeneration, ids⟩ ∈ w.promoted →
        ((w.store.build version d.activeGeneration).map ChunkRow.id).toFinset = ids ∧
          (w.store.build version d.activeGeneration).length = ids.card) ∧
      ∃ v ∈ w.store.versions, v.id = version ∧ d.activeContentSha = some v.contentSha256) ∧
    ∀ b ∈ w.store.builds,
      (∃ ids, ⟨b.versionId, b.generation, ids⟩ ∈ w.promoted ∧
        ((w.store.build b.versionId b.generation).map ChunkRow.id).toFinset = ids ∧
        (w.store.build b.versionId b.generation).length = b.chunkCount) ∧
      (d.attemptId = none → d.archivedAt = none → ¬ w.store.hasActiveJob →
        ∃ s act, activateDocumentVersion b.versionId d.revision b.contentSha256 w.store =
            .ok (s, some act) ∧ b.generation ≤ act.activeGeneration) := by
  have hc := reachable_complete h
  have hcat := reachable_catalogued (System.reachable_of_only h)
  have hlive : ¬ w.store.isPurged := by
    rw [isPurged_row hd]
    exact not_not.2 hp
  refine ⟨fun version hversion => ?_, fun b hb => ⟨?_, fun hatt harch hjob => ?_⟩⟩
  · obtain ⟨b, hb, hactive⟩ := hc.pointer hlive version (by rw [active_row hd]; exact hversion)
    rw [active_row hd] at hactive
    simp only [Prod.mk.injEq] at hactive
    obtain ⟨hbv, hbg, hbsha⟩ := hactive
    obtain rfl : b.versionId = version := Option.some.inj (hbv.symm.trans hversion)
    obtain ⟨ids, hids, -⟩ := (hc.whole hlive b hb).manifest
    obtain ⟨v, hv, hvid, hvsha⟩ := (hc.receipts b hb).digest
    rw [hbg]
    refine ⟨⟨ids, hids⟩, fun ids' hids' => ?_, v, hv, hvid, by rw [hbsha, hvsha]⟩
    have hmanifest := (hc.whole hlive b hb).manifest_eq hc hids'
    refine ⟨hmanifest, ?_⟩
    rw [← hmanifest, List.toFinset_card_of_nodup (build_nodup hc.distinct), List.length_map]
  · obtain ⟨ids, hids, hmanifest⟩ := (hc.whole hlive b hb).manifest
    exact ⟨ids, hids, hmanifest, (hc.whole hlive b hb).count⟩
  · exact activate_receipted hc hcat hd hp hatt harch hjob hb

end

section
attribute [local instance] sampleDeployment

theorem firstWorld_orderly : orderlySystem.Reachable firstWorld :=
  reachable_plain (l := firstRun) rfl

def firstChunk : ParsedChunk := ⟨"metin", "s"⟩

/-- The first document with its only chunk staged, and promoted. -/
def stageFirst : Action :=
  .upsert [(⟨chunkId firstChunk 0 1, "metin", "s", 1, contentKey firstChunk 0, "f"⟩, ⟨"d", "s"⟩)]
    ⟨10, 1, digestA, 0⟩

def promoteFirst : Action := .promote 1 0 [chunkId firstChunk 0 1] digestA 1 10 0

def stagedWorld : World := (stageFirst.exec firstWorld).getD World.empty

def promotedWorld : World := (promoteFirst.exec stagedWorld).getD World.empty

theorem stagedWorld_reachable : orderlySystem.Reachable stagedWorld := by
  refine @orderly_next _ _ _ stageFirst firstWorld_orderly ?_ rfl
  intro row hrow
  obtain rfl := List.mem_singleton.1 hrow
  exact ⟨List.mem_cons_self, firstChunk, 0, rfl⟩

theorem promotedWorld_reachable : orderlySystem.Reachable promotedWorld :=
  @orderly_next _ _ _ promoteFirst stagedWorld_reachable List.mem_cons_self rfl

theorem served_complete_promoted : ∃ ids, ⟨1, 1, ids⟩ ∈ promotedWorld.promoted :=
  ((served_complete promotedWorld_reachable rfl rfl).1 1 rfl).1

end

end RagPipeline.Index
