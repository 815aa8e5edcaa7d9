import RagPipeline.Index.OneAttempt

/-! # Versions and the recorded candidate

A version is written when its candidate is, and never changes. So the digest on
the document row is the digest of the version its candidate names. -/

set_option autoImplicit false

namespace RagPipeline.Index
open Guard Table Transition

/-- The recorded candidate and its digest. -/
def Store.offer (s : Store) : Option Uuid × Option String :=
  match s.document with
  | none => (none, none)
  | some d => (d.candidateId, d.contentSha256)

section
variable [Deployment] {w w' : World}

omit [Deployment] in
theorem offer_row {s : Store} {d : DocumentRow} (hd : s.document = some d) :
    s.offer = (d.candidateId, d.contentSha256) := by
  simp [Store.offer, hd]

/-- What a transaction does to the versions and the recorded candidate. -/
inductive Catalogues (s s' : Store) : Prop where
  | kept (versions : s'.versions = s.versions) (offer : s'.offer = s.offer)
  | unknown (versions : s'.versions = s.versions) (offer : s'.offer.2 = none)
  | minted (v : VersionRow) (versions : s'.versions = s.versions ++ [v])
      (unused : ¬ s.hasVersion v.id) (digest : isDigest v.contentSha256)
      (offer : s'.offer = (some v.id, some v.contentSha256))

omit [Deployment] in
theorem Catalogues.of_row {s s' : Store} {d new : DocumentRow} (hd : s.document = some d)
    (hs' : s'.document = some new) (hversions : s'.versions = s.versions)
    (hoffer : (new.candidateId, new.contentSha256) = (d.candidateId, d.contentSha256)) :
    Catalogues s s' :=
  .kept hversions (by rw [offer_row hd, offer_row hs', hoffer])

omit [Deployment] in
theorem Catalogues.of_same {s s' : Store} (hdocument : s'.document = s.document)
    (hversions : s'.versions = s.versions) : Catalogues s s' :=
  .kept hversions (by simp [Store.offer, hdocument])

omit [Deployment] in
theorem Catalogues.congr {s t t' : Store} (hversions : t'.versions = t.versions)
    (hdocument : t'.document = t.document) (h : Catalogues s t) : Catalogues s t' := by
  have hoffer : t'.offer = t.offer := by simp [Store.offer, hdocument]
  cases h with
  | kept hv ho => exact .kept (hversions.trans hv) (hoffer.trans ho)
  | unknown hv ho => exact .unknown (hversions.trans hv) (by rw [hoffer, ho])
  | minted v hv hunused hdigest ho =>
    exact .minted v (hversions.trans hv) hunused hdigest (hoffer.trans ho)

omit [Deployment] in
/-- A digest that comes with a candidate is registered, unless it was before. -/
theorem registerVersion_catalogues {s : Store} {d : DocumentRow} {digest : String}
    {candidate : Uuid} (hcand : d.candidateId = some candidate)
    (hsha : d.contentSha256 = some digest)
    (hdigest : ∀ v ∈ ((s.withDocument d).registerVersion d (some digest)).versions,
      v ∈ s.versions ∨ isDigest v.contentSha256)
    (hkept : s.hasVersion candidate → s.offer = (some candidate, some digest)) :
    Catalogues s ((s.withDocument d).registerVersion d (some digest)) := by
  have hoffer : (s.withDocument d).offer = (some candidate, some digest) := by
    rw [offer_row rfl, hcand, hsha]
  simp only [Store.registerVersion, hcand] at hdigest ⊢
  by_cases hv : s.hasVersion candidate
  · have hv' : (s.withDocument d).hasVersion candidate := hv
    rw [if_pos hv']
    exact .kept rfl (hoffer.trans (hkept hv).symm)
  · have hv' : ¬ (s.withDocument d).hasVersion candidate := hv
    rw [if_neg hv'] at hdigest ⊢
    refine .minted ⟨candidate, d.lastVersionNumber + 1, digest⟩ rfl hv ?_ ?_
    · refine (hdigest _ (List.mem_append_right _ List.mem_cons_self)).resolve_left fun hmem => ?_
      exact hv ⟨_, hmem, rfl⟩
    · rw [offer_row rfl]
      exact Prod.ext rfl hsha

theorem stage_catalogues {s : Store} {filename fileType : String} {sha : Option String}
    {allowReplace fresh : Bool} {candidate : Uuid} {now : Time} {r : Store × Option Uuid × String}
    (hminted : ¬ s.hasVersion candidate)
    (h : stageCandidate filename fileType sha allowReplace fresh candidate now s = .ok r) :
    Catalogues s r.1 := by
  obtain ⟨d, hrow, hdigest, rfl⟩ := stageCandidate_ok h
  refine Catalogues.congr (t := (s.withDocument d).registerVersion d sha) (by rfl) (by rfl) ?_
  rcases hrow with ⟨hnone, rfl⟩ | ⟨old, hold, rfl, -, -⟩
  · cases sha with
    | none => exact .unknown rfl rfl
    | some digest =>
      exact registerVersion_catalogues rfl rfl hdigest fun hv => absurd hv hminted
  · by_cases hkeep : old.keepsCandidate sha
    · cases sha with
      | none =>
        rw [staged_keep hkeep]
        exact .of_row hold rfl rfl rfl
      | some digest =>
        obtain ⟨hsha, hne⟩ := hkeep.resolve_left (by simp)
        obtain ⟨c, hc⟩ := Option.ne_none_iff_exists'.1 hne
        have hoffer : s.offer = (some c, some digest) := by rw [offer_row hold, hc, hsha]
        refine @registerVersion_catalogues _ _ _ c ?_ ?_ hdigest fun _ => hoffer
        · rw [staged_keep hkeep]
          exact hc
        · rw [staged_keep hkeep]
          rfl
    · cases sha with
      | none => exact absurd (.inl rfl) hkeep
      | some digest =>
        refine registerVersion_catalogues (staged_mint hkeep).1 ?_ hdigest fun hv =>
          absurd hv hminted
        rw [DocumentRow.staged, if_neg hkeep]
        rfl

theorem step_catalogues {act : Action} (h : documentSystem.step w act w') :
    Catalogues w.store w'.store := by
  obtain ⟨hminted, h⟩ := h
  cases act <;> simp only [Action.perform, bind_ok, pure_ok] at h
  case stage =>
    obtain ⟨r, h, rfl⟩ := h
    exact stage_catalogues hminted.1 h
  case finalize =>
    obtain ⟨r, h, rfl⟩ := h
    rcases finalizeCandidatePublication_ok h with ⟨h, -⟩ | ⟨d, hd, -, rfl⟩
    · rw [h]
      exact .of_same rfl rfl
    · exact .of_row hd rfl rfl rfl
  case begin =>
    obtain ⟨r, h, rfl⟩ := h
    obtain ⟨d, candidate, sha, hd, -, -, -, -, -, -, -, -, -, hr, -⟩ := beginAttempt_ok h
    rw [hr]
    exact .of_row hd rfl rfl rfl
  case heartbeat =>
    obtain ⟨s, h, rfl⟩ := h
    obtain ⟨d, t, hauth, rfl⟩ := heartbeatAttempt_ok h
    exact .of_row (authority_ok.1 hauth).1 rfl rfl rfl
  case recordOutcome =>
    obtain ⟨s, h, rfl⟩ := h
    obtain ⟨d, hauth, -, rfl⟩ := recordAttemptOutcome_ok h
    exact .of_row (authority_ok.1 hauth).1 rfl rfl rfl
  case allocate =>
    obtain ⟨r, h, rfl⟩ := h
    obtain ⟨d, hauth, rfl⟩ := allocateGeneration_ok h
    exact .of_row (authority_ok.1 hauth).1 rfl rfl rfl
  case upsert =>
    obtain ⟨s, h, rfl⟩ := h
    obtain ⟨d, -, rfl⟩ := upsertChunks_ok h
    exact .of_same rfl rfl
  case copy =>
    obtain ⟨s, h, rfl⟩ := h
    obtain ⟨d, -, rfl⟩ := copyChunksIntoGeneration_ok h
    exact .of_same rfl rfl
  case promote =>
    obtain ⟨s, h, rfl⟩ := h
    obtain ⟨-, -, -, -, d, hd, -, -, -, -, t, ht, rfl⟩ := promoteGeneration_ok.1 h
    obtain ⟨builds, rfl⟩ := recordVersionActivation_frame ht
    exact .of_row hd rfl rfl rfl
  case activate =>
    obtain ⟨r, h, rfl⟩ := h
    rcases activateDocumentVersion_ok h with
      h | ⟨d, v, b, t, hd, -, -, -, -, -, -, -, -, ht, rfl⟩
    · rw [h]
      exact .of_same rfl rfl
    · obtain ⟨builds, rfl⟩ := recordVersionActivation_frame ht
      exact .of_row hd rfl rfl rfl
  case archive =>
    obtain ⟨r, h, rfl⟩ := h
    rcases setDocumentArchived_ok h with h | ⟨d, hd, -, -, -, -, hr⟩
    · rw [h]
      exact .of_same rfl rfl
    · rw [hr]
      exact .of_row hd rfl rfl rfl
  case setPolicy =>
    obtain ⟨s, h, rfl⟩ := h
    rw [updateTenantRetentionPolicy_ok h]
    exact .of_same rfl rfl
  case hold =>
    obtain ⟨s, h, rfl⟩ := h
    obtain ⟨d, -, -, -, rfl⟩ := createDocumentLegalHold_ok h
    exact .of_same rfl rfl
  case release =>
    obtain ⟨s, h, rfl⟩ := h
    rw [releaseDocumentLegalHold_ok h]
    exact .of_same rfl rfl
  case schedule =>
    obtain ⟨s, h, rfl⟩ := h
    obtain ⟨d, archivedAt, -, -, -, -, -, -, -, -, rfl⟩ := scheduleDocumentPurge_ok h
    exact .of_same rfl rfl
  case purge =>
    obtain ⟨s, h, rfl⟩ := h
    obtain ⟨r, hclaim, hdone⟩ := claimed_ok.1 h
    obtain ⟨d, job, -, -, -, -, hr, -⟩ := claimDocumentPurge_some hclaim
    obtain ⟨-, d', -, -, -, -, -, -, rfl⟩ := completeDocumentPurge_ok.1 hdone
    refine .unknown ?_ rfl
    rw [hr]
    rfl
  case failPurge =>
    obtain ⟨s, h, rfl⟩ := h
    obtain ⟨r, hclaim, hdone⟩ := claimed_ok.1 h
    obtain ⟨d, job, -, -, -, -, hr, -⟩ := claimDocumentPurge_some hclaim
    rw [failDocumentPurge_ok hdone, hr]
    exact .of_same rfl rfl
  case queue =>
    obtain rfl := Except.ok.inj h
    exact .of_same rfl rfl

structure Catalogued (s : Store) : Prop where
  ids : (s.versions.map VersionRow.id).Nodup
  digests : ∀ v ∈ s.versions, isDigest v.contentSha256
  known : ∀ candidate sha, s.offer = (some candidate, some sha) →
    ∃ v ∈ s.versions, v.id = candidate ∧ v.contentSha256 = sha

omit [Deployment] in
theorem Catalogues.catalogued {s s' : Store} (h : Catalogued s) (hstep : Catalogues s s') :
    Catalogued s' := by
  cases hstep with
  | kept hversions hoffer =>
    refine ⟨by rw [hversions]; exact h.ids, by rw [hversions]; exact h.digests, ?_⟩
    rw [hversions, hoffer]
    exact h.known
  | unknown hversions hoffer =>
    refine ⟨by rw [hversions]; exact h.ids, by rw [hversions]; exact h.digests, ?_⟩
    intro candidate sha heq
    rw [heq] at hoffer
    cases hoffer
  | minted v hversions hunused hdigest hoffer =>
    refine ⟨?_, ?_, ?_⟩
    · rw [hversions, List.map_append, List.map_singleton]
      refine List.nodup_append.2 ⟨h.ids, List.nodup_singleton _, fun a ha b hb hab => hunused ?_⟩
      obtain ⟨x, hx, rfl⟩ := List.mem_map.1 ha
      exact ⟨x, hx, hab.trans (List.mem_singleton.1 hb)⟩
    · intro x hx
      rw [hversions] at hx
      rcases List.mem_append.1 hx with hx | hx
      · exact h.digests x hx
      · exact List.mem_singleton.1 hx ▸ hdigest
    · intro candidate sha heq
      obtain ⟨hid, hsha⟩ := Prod.mk.inj (hoffer.symm.trans heq)
      refine ⟨v, ?_, Option.some.inj hid, Option.some.inj hsha⟩
      rw [hversions]
      exact List.mem_append_right _ List.mem_cons_self

omit [Deployment] in
theorem Catalogues.versions_subset {s s' : Store} (h : Catalogues s s') :
    s.versions ⊆ s'.versions := by
  cases h with
  | kept hversions _ => rw [hversions]; simp
  | unknown hversions _ => rw [hversions]; simp
  | minted v hversions _ _ _ => rw [hversions]; simp

theorem reachable_catalogued (h : documentSystem.Reachable w) : Catalogued w.store := by
  induction h with
  | @start w hstart =>
    refine ⟨hstart.1.versionIds, hstart.1.digests, fun candidate sha hoffer => ?_⟩
    cases hd : w.store.document with
    | none =>
      rw [Store.offer, hd] at hoffer
      cases hoffer
    | some d =>
      rw [offer_row hd] at hoffer
      obtain ⟨hcand, hsha⟩ := Prod.mk.inj hoffer
      exact hstart.1.known d candidate sha hd hcand hsha
  | next _ hstep ih => exact (step_catalogues hstep).catalogued ih

end

end RagPipeline.Index
