import RagPipeline.Datasets.Sealed

/-! # The committed states of the datasets

Drafts, numbers, digests and current versions in every state that is committed, and
what an accepted request comes to. -/

set_option autoImplicit false

namespace RagPipeline.Datasets
open Guard Transition

variable [Digest] {s : Store} {c : Caller} {q : Request} {t t' : Archive}

/-! ## In one state -/

/-- What is said of every dataset and version of a committed state. -/
structure Sealed (s : Store) : Prop where
  owned : ∀ r ∈ s.versions, ∃ d ∈ s.datasets, d.id = r.dataset
  numbers : ∀ d ∈ s.datasets, ((s.versionsOf d.id).map VersionRow.versionNumber).Perm
    ((List.range (s.versionsOf d.id).length).map fun i => ((i + 1 : ℕ) : ℤ))
  draft : ∀ d ∈ s.datasets, ∀ r ∈ s.versionsOf d.id, r.state = .draft → ∀ r' ∈ s.versionsOf d.id,
    r' = r ∨ r'.state = .published ∧ r'.versionNumber < r.versionNumber
  digest : ∀ r ∈ s.versions, r.state = .published → ∃ cases digest,
    recomputed s r.id = .ok (cases, digest) ∧ r.contentSha256 = some digest ∧ r.caseCount = cases.length
  current : ∀ d ∈ s.datasets, ∀ v, d.currentVersion = some v ↔
    ∃ r ∈ s.versionsOf d.id, r.id = v ∧ r.state = .published ∧
      ∀ r' ∈ s.versionsOf d.id, r'.state = .published → r'.versionNumber ≤ r.versionNumber
  unpublished : ∀ d ∈ s.datasets, d.currentVersion = none ↔ ∀ r ∈ s.versionsOf d.id, r.state ≠ .published
  retired : ∀ d ∈ s.datasets, d.active = false → ∀ r ∈ s.versionsOf d.id, r.state = .published

namespace Sound

omit [Digest] in
theorem numbers_decreasing {d : Uuid} (h : History (s.lines d)) :
    (s.versionsOf d).Pairwise fun a b => b.versionNumber < a.versionNumber := by
  have hnumbers : (s.versionsOf d).map VersionRow.versionNumber = countdown (s.lines d).length := by
    rw [← h.numbers, Store.lines, List.map_map]
    rfl
  have hdecreasing := countdown_decreasing (s.lines d).length
  rw [← hnumbers, List.pairwise_map] at hdecreasing
  exact hdecreasing

theorem current_eq (hs : Sound s) {d : DatasetRow} (hd : d ∈ s.datasets) :
    d.currentVersion = ((s.versionsOf d.id).find? fun r => r.state = .published).map VersionRow.id := by
  rw [hs.current d hd, Store.lines, List.find?_map, Option.map_map]
  rfl

theorem sealed (hs : Sound s) : Sealed s := by
  constructor
  · intro r hr
    obtain ⟨d, hd, hid⟩ := List.mem_map.1 (hs.owned r hr)
    exact ⟨d, hd, hid⟩
  · intro d _
    have hnumbers := (hs.history d.id).numbers
    rw [Store.lines, List.map_map, List.length_map] at hnumbers
    have hperm := countdown_perm (s.versionsOf d.id).length
    rw [← hnumbers] at hperm
    exact hperm
  · intro d _ r hr hdraft r' hr'
    have hline : r.line ∈ s.lines d.id := List.mem_map_of_mem hr
    obtain ⟨rest, hrest⟩ := (hs.history d.id).draft_head hline hdraft
    have hdecreasing := numbers_decreasing (hs.history d.id)
    cases hrows : s.versionsOf d.id with
    | nil =>
      rw [hrows] at hr
      cases hr
    | cons head more =>
      rw [Store.lines, hrows, List.map_cons] at hrest
      have hhead : head = r := hs.row_eq
        (mem_versionsOf.1 (hrows ▸ List.mem_cons_self : head ∈ s.versionsOf d.id)).1 (mem_versionsOf.1 hr).1
        (congrArg Prod.fst (List.cons.inj hrest).1)
      rw [hrows] at hr' hdecreasing
      cases List.mem_cons.1 hr' with
      | inl heq => exact Or.inl (heq.trans hhead)
      | inr hlater =>
        right
        have hearlier := (hs.history d.id).earlier r'.line (by
          rw [Store.lines, hrows]
          exact List.mem_map_of_mem hlater)
        exact ⟨hearlier, hhead ▸ (List.pairwise_cons.1 hdecreasing).1 r' hlater⟩
  · exact hs.digests
  · intro d hd v
    have hdecreasing := numbers_decreasing (hs.history d.id)
    have hlast {r : VersionRow} (hfind : (s.versionsOf d.id).find? (fun r => r.state = .published) = some r) :
        ∀ r' ∈ s.versionsOf d.id, r'.state = .published → r'.versionNumber ≤ r.versionNumber := by
      intro r' hr' hpublished
      obtain ⟨-, before, after, hsplit, hbefore⟩ := List.find?_eq_some_iff_append.1 hfind
      rw [hsplit] at hr' hdecreasing
      cases List.mem_append.1 hr' with
      | inl hb =>
        have hnot := hbefore r' hb
        simp [hpublished] at hnot
      | inr ha =>
        cases List.mem_cons.1 ha with
        | inl heq => rw [heq]
        | inr hafter =>
          exact le_of_lt ((List.pairwise_cons.1 (List.pairwise_append.1 hdecreasing).2.1).1 r' hafter)
    rw [hs.current_eq hd, Option.map_eq_some_iff]
    constructor
    · intro h
      obtain ⟨r, hfind, hid⟩ := h
      have hstate := List.find?_some hfind
      exact ⟨r, List.mem_of_find?_eq_some hfind, hid, of_decide_eq_true hstate, hlast hfind⟩
    · intro h
      obtain ⟨r, hr, hid, hpublished, hmost⟩ := h
      obtain ⟨r₀, hfind⟩ : ∃ r₀, (s.versionsOf d.id).find? (fun r => r.state = .published) = some r₀ := by
        apply Option.isSome_iff_exists.1
        rw [List.find?_isSome]
        exact ⟨r, hr, decide_eq_true hpublished⟩
      have hr₀ := List.mem_of_find?_eq_some hfind
      have hfound := List.find?_some hfind
      have hstate : r₀.state = .published := of_decide_eq_true hfound
      have hequal : r₀.versionNumber = r.versionNumber :=
        le_antisymm (hmost r₀ hr₀ hstate) (hlast hfind r hr hpublished)
      have hnodup : ((s.versionsOf d.id).map VersionRow.versionNumber).Nodup :=
        List.pairwise_map.2 (hdecreasing.imp fun hlt => (ne_of_lt hlt).symm)
      obtain rfl := List.inj_on_of_nodup_map hnodup hr₀ hr hequal
      exact ⟨r₀, hfind, hid⟩
  · intro d hd
    rw [hs.current_eq hd, Option.map_eq_none_iff, List.find?_eq_none]
    apply forall₂_congr
    intro r _
    rw [decide_eq_true_iff]
  · intro d hd hretired r hr
    exact hs.retired d hd hretired r.line (List.mem_map_of_mem hr)

end Sound

/-! ## In one step -/

def Store.datasetAt (s : Store) (d : Uuid) (revision : ℤ) : Prop :=
  ∃ row ∈ s.datasets, row.id = d ∧ row.revision = revision

def Store.versionAt (s : Store) (v : Uuid) (revision : ℤ) : Prop :=
  ∃ row ∈ s.versions, row.id = v ∧ row.revision = revision

/-- One event was written, from a revision to the next one. -/
def Written (t t' : Archive) (d : Uuid) (base : ℤ) : Prop :=
  ∃ e, t'.events = e :: t.events ∧ e.dataset = d ∧ e.baseRevision = some base ∧ e.resultingRevision = base + 1

/-- What an accepted request comes to: the revision it was fenced on goes up by one, and its event
speaks of the dataset's revision, or of the version's where cases are replaced. -/
def Accounted (t t' : Archive) : Request → Prop
  | .createDataset _ _ d v => t'.store.datasetAt d 1 ∧ t'.store.versionAt v 1
  | .createDraft d e _ => t.store.datasetAt d e ∧ t'.store.datasetAt d (e + 1) ∧ Written t t' d e
  | .replace d v e _ => t.store.versionAt v e ∧ t'.store.versionAt v (e + 1) ∧ Written t t' d e
  | .publish d v e _ _ => t.store.versionAt v e ∧ t'.store.versionAt v (e + 1) ∧
    ∃ base, t.store.datasetAt d base ∧ t'.store.datasetAt d (base + 1) ∧ Written t t' d base
  | .retire d e _ => t.store.datasetAt d e ∧ t'.store.datasetAt d (e + 1) ∧ Written t t' d e

theorem Accepted.accounted (h : Accepted c t q t') : Accounted t t' q := by
  cases h with
  | createDataset slug label d v hd hv =>
    exact ⟨⟨_, List.mem_cons_self, rfl, rfl⟩, ⟨_, List.mem_cons_self, rfl, rfl⟩⟩
  | createDraft d v e dataset hdataset hid hactive hrevision hsealed hv =>
    exact ⟨⟨dataset, hdataset, hid, hrevision⟩,
      ⟨_, List.mem_map.2 ⟨dataset, hdataset, if_pos hid⟩, hid, congrArg (· + 1) hrevision⟩, ⟨_, rfl, rfl, rfl, rfl⟩⟩
  | replace d v e offered row hrow hid hdataset hdraft hrevision rows hrows digest =>
    exact ⟨⟨row, hrow, hid, hrevision⟩,
      ⟨_, List.mem_map.2 ⟨row, hrow, if_pos hid⟩, hid, congrArg (· + 1) hrevision⟩, ⟨_, rfl, rfl, rfl, rfl⟩⟩
  | publish d v e epoch expected dataset hdataset hd hactive row hrow hid howned hdraft hrevision cases digest
      hdigest =>
    exact ⟨⟨row, hrow, hid, hrevision⟩,
      ⟨_, List.mem_map.2 ⟨row, hrow, if_pos hid⟩, hid, congrArg (· + 1) hrevision⟩,
      dataset.revision, ⟨dataset, hdataset, hd, rfl⟩, ⟨_, List.mem_map.2 ⟨dataset, hdataset, if_pos hd⟩, hd, rfl⟩,
      ⟨_, rfl, rfl, rfl, rfl⟩⟩
  | retire d e epoch dataset hdataset hid hactive hrevision hsealed =>
    exact ⟨⟨dataset, hdataset, hid, hrevision⟩,
      ⟨_, List.mem_map.2 ⟨dataset, hdataset, if_pos hid⟩, hid, congrArg (· + 1) hrevision⟩, ⟨_, rfl, rfl, rfl, rfl⟩⟩

theorem datasets_stay_sealed (h : lifecycle.Reachable t) :
    Sealed t.store ∧ (∀ t', lifecycle.Later t t' → Unchanged t t') ∧
      ∀ c q, (∀ t', q.run c t = .ok t' → Accounted t t' q) ∧
        ∀ refusal, q.run c t = .error refusal → q.commit c t = t := by
  apply And.intro (sound_run h).sealed
  apply And.intro fun t' hlater => unchanged_later h hlater
  intro c q
  constructor
  · intro t' hrun
    exact (run_accepted hrun).accounted
  · intro refusal hrun
    rw [Request.commit, hrun]

end RagPipeline.Datasets

namespace RagPipeline.Datasets
open Guard Transition

/-! ## A dataset and its first draft -/

attribute [local instance] sampleDigest

def sampleCaller : Caller := ⟨sampleAuthority, 7, true⟩

def sampleRequest : Request := .createDataset "kaza".toList "Kaza".toList 1 2

def sampleEmpty : Archive := ⟨⟨[], [], []⟩, [], []⟩

/-- The first draft is the only version, and neither it nor the dataset is sealed or retired yet. -/
theorem datasets_stay_sealed_sample :
    Sealed (sampleRequest.commit sampleCaller sampleEmpty).store ∧
      Accounted sampleEmpty (sampleRequest.commit sampleCaller sampleEmpty) sampleRequest := by
  have hempty : lifecycle.Reachable sampleEmpty := .start rfl
  have hcreated : lifecycle.Reachable (sampleRequest.commit sampleCaller sampleEmpty) :=
    hempty.next (a := (sampleCaller, sampleRequest)) rfl
  have hrun : sampleRequest.run sampleCaller sampleEmpty =
      .ok (sampleRequest.commit sampleCaller sampleEmpty) := by rfl
  exact ⟨(datasets_stay_sealed hcreated).1, ((datasets_stay_sealed hempty).2.2 sampleCaller sampleRequest).1 _ hrun⟩

end RagPipeline.Datasets
