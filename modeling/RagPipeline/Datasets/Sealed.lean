import RagPipeline.Datasets.Lifecycle
import Mathlib.Data.List.Nodup
import Mathlib.Data.List.Perm.Basic

/-! # Sealed versions stay sealed

What holds in every committed state, what no later transaction changes, and what an
accepted transaction accounts for. -/

set_option autoImplicit false

namespace RagPipeline.Datasets
open Guard Transition

/-! ## The versions of a dataset -/

/-- What of a version decides on its place: its id, number and state. -/
abbrev Line := Uuid × ℤ × VersionState

def VersionRow.line (r : VersionRow) : Line := (r.id, r.versionNumber, r.state)

def Store.lines (s : Store) (d : Uuid) : List Line := (s.versionsOf d).map VersionRow.line

/-- From `n` to one. -/
def countdown : ℕ → List ℤ
  | 0 => []
  | n + 1 => ((n + 1 : ℕ) : ℤ) :: countdown n

/-- The last version first, with no number left out, and only the last one a draft. -/
structure History (lines : List Line) : Prop where
  numbers : (lines.map fun l => l.2.1) = countdown lines.length
  earlier : ∀ l ∈ lines.tail, l.2.2 = .published

theorem countdown_le {n : ℕ} {x : ℤ} (h : x ∈ countdown n) : x ≤ n := by
  induction n with
  | zero => cases h
  | succ n ih =>
    cases List.mem_cons.1 h with
    | inl hx => exact le_of_eq hx
    | inr hx =>
      have := ih hx
      omega

theorem countdown_decreasing (n : ℕ) : (countdown n).Pairwise fun a b => b < a := by
  induction n with
  | zero => exact List.Pairwise.nil
  | succ n ih =>
    apply List.Pairwise.cons _ ih
    intro x hx
    have := countdown_le hx
    omega

theorem countdown_perm (n : ℕ) : (countdown n).Perm ((List.range n).map fun i => ((i + 1 : ℕ) : ℤ)) := by
  induction n with
  | zero => exact List.Perm.nil
  | succ n ih =>
    rw [List.range_succ, List.map_append, countdown]
    exact (ih.cons _).trans (List.perm_append_singleton _ _).symm

theorem countdown_max (n : ℕ) : ((countdown n).max?).getD 0 = n := by
  cases n with
  | zero => rfl
  | succ n =>
    have hmax : (countdown (n + 1)).max? = some ((n + 1 : ℕ) : ℤ) := by
      apply List.max?_eq_some_iff.2
      exact ⟨List.mem_cons_self, fun x hx => countdown_le hx⟩
    rw [hmax]
    rfl

theorem History.next {lines : List Line} (h : History lines) (hsealed : ∀ l ∈ lines, l.2.2 = .published) (v : Uuid)
    (state : VersionState) : History ((v, ((lines.length + 1 : ℕ) : ℤ), state) :: lines) := by
  constructor
  · rw [List.map_cons, h.numbers, List.length_cons, countdown]
  · exact hsealed

/-- The version that is published. -/
def sealLine (v : Uuid) (l : Line) : Line := if l.1 = v then (l.1, l.2.1, .published) else l

theorem sealLine_number (v : Uuid) (l : Line) : (sealLine v l).2.1 = l.2.1 := by
  rw [sealLine]
  split <;> rfl

theorem sealLine_published {v : Uuid} {l : Line} (h : l.2.2 = .published) : (sealLine v l).2.2 = .published := by
  rw [sealLine]
  split
  · rfl
  · exact h

theorem History.sealed {lines : List Line} (h : History lines) (v : Uuid) : History (lines.map (sealLine v)) := by
  constructor
  · rw [List.map_map, List.length_map, ← h.numbers]
    apply List.map_congr_left
    intro l _
    exact sealLine_number v l
  · intro l hl
    rw [← List.map_tail] at hl
    obtain ⟨l', hl', rfl⟩ := List.mem_map.1 hl
    exact sealLine_published (h.earlier l' hl')

/-- The draft of a dataset is its last version. -/
theorem History.draft_head {lines : List Line} (h : History lines) {l : Line} (hl : l ∈ lines)
    (hdraft : l.2.2 = .draft) : ∃ rest, lines = l :: rest := by
  cases lines with
  | nil => cases hl
  | cons head rest =>
    cases List.mem_cons.1 hl with
    | inl heq => exact ⟨rest, heq ▸ rfl⟩
    | inr hrest =>
      have hpublished := h.earlier l hrest
      rw [hdraft] at hpublished
      cases hpublished

/-! ## Rows and their updates -/

section
variable {s s' : Store} {d v : Uuid}

theorem mem_versionsOf {r : VersionRow} : r ∈ s.versionsOf d ↔ r ∈ s.versions ∧ r.dataset = d := by
  rw [Store.versionsOf, List.mem_filter, decide_eq_true_iff]

theorem mem_lines {r : VersionRow} (h : r ∈ s.versions) : r.line ∈ s.lines r.dataset :=
  List.mem_map_of_mem (mem_versionsOf.2 ⟨h, rfl⟩)

theorem hasDraft_false : s.hasDraft d = false ↔ ∀ l ∈ s.lines d, l.2.2 = .published := by
  rw [Store.hasDraft, List.any_eq_false, Store.lines, List.forall_mem_map]
  apply forall₂_congr
  intro r _
  rw [decide_eq_true_iff]
  show ¬ r.state = .draft ↔ r.state = .published
  cases r.state <;> simp

/-- An update of version rows that keeps their dataset acts on the lines. -/
theorem lines_update (s' : Store) {f : VersionRow → VersionRow} {g : Line → Line} (hversions : s'.versions = s.versions.map f)
    (hdataset : ∀ r ∈ s.versions, (f r).dataset = r.dataset) (hline : ∀ r ∈ s.versions, (f r).line = g r.line) (d : Uuid) :
    s'.lines d = (s.lines d).map g := by
  rw [Store.lines, Store.versionsOf, hversions, List.filter_map, List.map_map, Store.lines, Store.versionsOf,
    List.map_map]
  have hsame : s.versions.filter ((fun r => decide (r.dataset = d)) ∘ f) =
      s.versions.filter fun r => decide (r.dataset = d) := by
    apply List.filter_congr
    intro r hr
    rw [Function.comp_apply, hdataset r hr]
  rw [hsame]
  apply List.map_congr_left
  intro r hr
  exact hline r (List.mem_of_mem_filter hr)

theorem lines_new (s' : Store) {r : VersionRow} (hversions : s'.versions = r :: s.versions) (d : Uuid) :
    s'.lines d = if r.dataset = d then r.line :: s.lines d else s.lines d := by
  rw [Store.lines, Store.versionsOf, hversions, List.filter_cons]
  by_cases hd : r.dataset = d
  · rw [if_pos (decide_eq_true hd), if_pos hd]
    rfl
  · rw [if_neg (by simpa using hd), if_neg hd]
    rfl

theorem eq_of_id {α : Type} {l : List α} {id : α → Uuid} (h : (l.map id).Nodup) {a b : α} (ha : a ∈ l) (hb : b ∈ l)
    (heq : id a = id b) : a = b :=
  List.inj_on_of_nodup_map h ha hb heq

end

/-! ## What an accepted request does -/

section
variable [Digest] {c : Caller} {q : Request} {t t' : Archive}

/-- The accepted requests, with what they found and what they leave. -/
inductive Accepted (c : Caller) (t : Archive) : Request → Archive → Prop
  | createDataset (slug label : Text) (d v : Uuid) (hd : d ∉ t.store.datasets.map DatasetRow.id)
      (hv : v ∉ t.store.versions.map VersionRow.id) :
      Accepted c t (.createDataset slug label d v)
        ⟨⟨⟨d, true, 1, none⟩ :: t.store.datasets, ⟨v, d, 1, .draft, 1, 0, none⟩ :: t.store.versions, t.store.cases⟩,
          slug :: t.slugs, ⟨d, some v, c.actor, .versionCreated, none, 1, some 0, none⟩ ::
            ⟨d, none, c.actor, .datasetCreated, none, 1, none, none⟩ :: t.events⟩
  | createDraft (d v : Uuid) (e : ℤ) (dataset : DatasetRow) (hdataset : dataset ∈ t.store.datasets)
      (hid : dataset.id = d) (hactive : dataset.active = true) (hrevision : dataset.revision = e)
      (hsealed : ∀ l ∈ t.store.lines d, l.2.2 = .published) (hv : v ∉ t.store.versions.map VersionRow.id) :
      Accepted c t (.createDraft d e v)
        ⟨({ t.store with versions := ⟨v, d, t.store.nextVersionNumber d, .draft, 1, 0, none⟩ :: t.store.versions
            }).updateDataset d fun row => { row with revision := row.revision + 1 }, t.slugs,
          ⟨d, some v, c.actor, .versionCreated, some e, e + 1, some 0, none⟩ :: t.events⟩
  | replace (d v : Uuid) (e : ℤ) (offered : List Offered) (row : VersionRow) (hrow : row ∈ t.store.versions)
      (hid : row.id = v) (hdataset : row.dataset = d) (hdraft : row.state = .draft) (hrevision : row.revision = e)
      (rows : List CaseRow) (hrows : ∀ r ∈ rows, r.version = v) (digest : ByteArray) :
      Accepted c t (.replace d v e offered)
        ⟨⟨t.store.datasets, t.store.versions.map fun r =>
            if r.id = v then { r with caseCount := rows.length, revision := r.revision + 1 } else r,
          t.store.cases.filter (fun r => r.version ≠ v) ++ rows⟩, t.slugs,
          ⟨d, some v, c.actor, .versionCasesReplaced, some e, e + 1, some rows.length, some digest⟩ :: t.events⟩
  | publish (d v : Uuid) (e epoch : ℤ) (expected : ByteArray) (dataset : DatasetRow)
      (hdataset : dataset ∈ t.store.datasets) (hd : dataset.id = d) (hactive : dataset.active = true)
      (row : VersionRow) (hrow : row ∈ t.store.versions) (hid : row.id = v) (howned : row.dataset = d)
      (hdraft : row.state = .draft) (hrevision : row.revision = e) (cases : List EvalCase) (digest : ByteArray)
      (hdigest : recomputed t.store v = .ok (cases, digest)) :
      Accepted c t (.publish d v e epoch expected)
        ⟨⟨t.store.datasets.map fun row =>
            if row.id = d then { row with currentVersion := some v, revision := row.revision + 1 } else row,
          t.store.versions.map fun r => if r.id = v then { r with
            state := .published
            caseCount := cases.length
            contentSha256 := some digest
            revision := r.revision + 1 } else r, t.store.cases⟩, t.slugs,
          ⟨d, some v, c.actor, .versionPublished, some dataset.revision, dataset.revision + 1, some cases.length,
            some digest⟩ :: t.events⟩
  | retire (d : Uuid) (e epoch : ℤ) (dataset : DatasetRow) (hdataset : dataset ∈ t.store.datasets)
      (hid : dataset.id = d) (hactive : dataset.active = true) (hrevision : dataset.revision = e)
      (hsealed : ∀ l ∈ t.store.lines d, l.2.2 = .published) :
      Accepted c t (.retire d e epoch)
        ⟨t.store.updateDataset d fun row => { row with
            active := false
            revision := row.revision + 1 }, t.slugs,
          ⟨d, none, c.actor, .datasetRetired, some e, e + 1, none, none⟩ :: t.events⟩

omit [Digest] in
theorem dataset?_some {s : Store} {a : Authority} {d : Uuid} {dataset : DatasetRow}
    (h : s.dataset? a d = some dataset) : dataset ∈ s.datasets ∧ dataset.id = d := by
  have hfound := List.find?_some h
  simp only [decide_eq_true_eq] at hfound
  exact ⟨List.mem_of_find?_eq_some h, hfound.1⟩

omit [Digest] in
theorem version?_some {s : Store} {d v : Uuid} {row : VersionRow} (h : s.version? d v = some row) :
    row ∈ s.versions ∧ row.id = v ∧ row.dataset = d := by
  have hfound := List.find?_some h
  simp only [decide_eq_true_eq] at hfound
  exact ⟨List.mem_of_find?_eq_some h, hfound⟩

theorem createEvalDataset_accepted {slug label : Text} {d v : Uuid}
    (h : createEvalDataset c slug label d v t = .ok t') : Accepted c t (.createDataset slug label d v) t' := by
  obtain ⟨_, -, h⟩ := bind_ok.1 h
  obtain ⟨_, -, h⟩ := bind_ok.1 h
  obtain ⟨_, -, h⟩ := bind_ok.1 h
  obtain ⟨_, -, h⟩ := bind_ok.1 h
  obtain ⟨_, hfresh, h⟩ := bind_ok.1 h
  have hfresh := require_ok.1 hfresh
  rw [← pure_ok.1 h]
  exact .createDataset slug label d v hfresh.2.1 hfresh.2.2

theorem createEvalDraft_accepted {d v : Uuid} {e : ℤ} (h : createEvalDraft c d e v t = .ok t') :
    Accepted c t (.createDraft d e v) t' := by
  obtain ⟨_, -, h⟩ := bind_ok.1 h
  obtain ⟨_, -, h⟩ := bind_ok.1 h
  obtain ⟨_, -, h⟩ := bind_ok.1 h
  obtain ⟨dataset, hdataset, h⟩ := bind_ok.1 h
  obtain ⟨hmem, hid⟩ := dataset?_some (demand_ok.1 hdataset)
  obtain ⟨_, hactive, h⟩ := bind_ok.1 h
  obtain ⟨_, hrevision, h⟩ := bind_ok.1 h
  obtain ⟨_, hdraft, h⟩ := bind_ok.1 h
  obtain ⟨_, hfresh, h⟩ := bind_ok.1 h
  have hrevision := require_ok.1 hrevision
  rw [← pure_ok.1 h, hrevision]
  exact .createDraft d v e dataset hmem hid (require_ok.1 hactive) hrevision
    (hasDraft_false.1 (require_ok.1 hdraft)) (require_ok.1 hfresh)

theorem retireEvalDataset_accepted {d : Uuid} {e epoch : ℤ} (h : retireEvalDataset c d e epoch t = .ok t') :
    Accepted c t (.retire d e epoch) t' := by
  obtain ⟨_, -, h⟩ := bind_ok.1 h
  obtain ⟨_, -, h⟩ := bind_ok.1 h
  obtain ⟨_, -, h⟩ := bind_ok.1 h
  obtain ⟨_, -, h⟩ := bind_ok.1 h
  obtain ⟨dataset, hdataset, h⟩ := bind_ok.1 h
  obtain ⟨hmem, hid⟩ := dataset?_some (demand_ok.1 hdataset)
  obtain ⟨_, hactive, h⟩ := bind_ok.1 h
  obtain ⟨_, hrevision, h⟩ := bind_ok.1 h
  obtain ⟨_, hdraft, h⟩ := bind_ok.1 h
  have hrevision := require_ok.1 hrevision
  rw [← pure_ok.1 h, hrevision]
  exact .retire d e epoch dataset hmem hid (require_ok.1 hactive) hrevision
    (hasDraft_false.1 (require_ok.1 hdraft))

theorem replaceCases_accepted {d v : Uuid} {e : ℤ} {offered : List Offered}
    (h : replaceCases c d v e offered t = .ok t') : Accepted c t (.replace d v e offered) t' := by
  obtain ⟨_, -, h⟩ := bind_ok.1 h
  obtain ⟨⟨store, replaced⟩, hreplace, h⟩ := bind_ok.1 h
  obtain ⟨cases, hcases, hreplace⟩ := bind_ok.1 hreplace
  obtain ⟨_, -, hreplace⟩ := bind_ok.1 hreplace
  obtain ⟨_, -, hreplace⟩ := bind_ok.1 hreplace
  obtain ⟨_, -, hreplace⟩ := bind_ok.1 hreplace
  obtain ⟨row, hrow, hreplace⟩ := bind_ok.1 hreplace
  obtain ⟨hmem, hid, hdataset⟩ := version?_some (demand_ok.1 hrow)
  obtain ⟨_, hdraft, hreplace⟩ := bind_ok.1 hreplace
  obtain ⟨_, hrevision, hreplace⟩ := bind_ok.1 hreplace
  obtain ⟨rows, hrows, hreplace⟩ := bind_ok.1 hreplace
  obtain ⟨_, -, hreplace⟩ := bind_ok.1 hreplace
  obtain ⟨digest, -, hreplace⟩ := bind_ok.1 hreplace
  have hrevision := require_ok.1 hrevision
  have hvalid := caseSequence_ok (mapError_ok.1 hcases)
  have hpair := pure_ok.1 hreplace
  rw [hrevision] at hpair
  obtain ⟨rfl, rfl⟩ := Prod.mk.inj hpair
  rw [← pure_ok.1 h]
  exact .replace d v e offered row hmem hid hdataset (require_ok.1 hdraft) hrevision rows
    (caseRows_ok hrows hvalid.each).1.version digest

theorem publishVersion_accepted {d v : Uuid} {e epoch : ℤ} {expected : ByteArray}
    (h : publishVersion c d v e epoch expected t = .ok t') : Accepted c t (.publish d v e epoch expected) t' := by
  obtain ⟨_, -, h⟩ := bind_ok.1 h
  obtain ⟨⟨store, published⟩, hpublish, h⟩ := bind_ok.1 h
  obtain ⟨dataset, hdataset, h⟩ := bind_ok.1 h
  obtain ⟨_, -, hpublish⟩ := bind_ok.1 hpublish
  obtain ⟨_, -, hpublish⟩ := bind_ok.1 hpublish
  obtain ⟨_, -, hpublish⟩ := bind_ok.1 hpublish
  obtain ⟨dataset', hdataset', hpublish⟩ := bind_ok.1 hpublish
  obtain rfl : dataset' = dataset :=
    Option.some.inj ((demand_ok.1 hdataset').symm.trans (demand_ok.1 hdataset))
  obtain ⟨hmem, hd⟩ := dataset?_some (demand_ok.1 hdataset')
  obtain ⟨row, hrow, hpublish⟩ := bind_ok.1 hpublish
  obtain ⟨hrowmem, hid, howned⟩ := version?_some (demand_ok.1 hrow)
  obtain ⟨_, hstate, hpublish⟩ := bind_ok.1 hpublish
  obtain ⟨_, hrevision, hpublish⟩ := bind_ok.1 hpublish
  obtain ⟨⟨cases, digest⟩, hdigest, hpublish⟩ := bind_ok.1 hpublish
  obtain ⟨_, -, hpublish⟩ := bind_ok.1 hpublish
  obtain ⟨rfl, rfl⟩ := Prod.mk.inj (pure_ok.1 hpublish)
  have hstate := require_ok.1 hstate
  rw [← pure_ok.1 h]
  exact .publish d v e epoch expected dataset' hmem hd hstate.1 row hrowmem hid howned hstate.2
    (require_ok.1 hrevision) cases digest hdigest

theorem run_accepted (h : q.run c t = .ok t') : Accepted c t q t' := by
  cases q with
  | createDataset slug label d v => exact createEvalDataset_accepted h
  | createDraft d e v => exact createEvalDraft_accepted h
  | replace d v e offered => exact replaceCases_accepted h
  | publish d v e epoch expected => exact publishVersion_accepted h
  | retire d e epoch => exact retireEvalDataset_accepted h

theorem commit_cases (c : Caller) (q : Request) (t : Archive) : q.commit c t = t ∨ Accepted c t q (q.commit c t) := by
  rw [Request.commit]
  cases hrun : q.run c t with
  | error refusal => exact Or.inl rfl
  | ok t' => exact Or.inr (run_accepted hrun)

end

/-! ## What every committed state keeps -/

section
variable [Digest] {s : Store} {c : Caller} {q : Request} {t t' : Archive}

/-- What is digested are the cases of the version alone. -/
theorem recomputed_congr {s s' : Store} {v : Uuid}
    (h : (s.cases.filter fun r => r.version = v) = s'.cases.filter fun r => r.version = v) :
    recomputed s v = recomputed s' v := by
  rw [recomputed, recomputed, Store.ordered, Store.ordered, h]

structure Sound (s : Store) : Prop where
  datasets : (s.datasets.map DatasetRow.id).Nodup
  versions : (s.versions.map VersionRow.id).Nodup
  owned : ∀ r ∈ s.versions, r.dataset ∈ s.datasets.map DatasetRow.id
  history : ∀ d, History (s.lines d)
  current : ∀ d ∈ s.datasets,
    d.currentVersion = ((s.lines d.id).find? fun l => l.2.2 = .published).map Prod.fst
  retired : ∀ d ∈ s.datasets, d.active = false → ∀ l ∈ s.lines d.id, l.2.2 = .published
  digests : ∀ r ∈ s.versions, r.state = .published → ∃ cases digest,
    recomputed s r.id = .ok (cases, digest) ∧ r.contentSha256 = some digest ∧ r.caseCount = cases.length

omit [Digest] in
theorem ids_update {α : Type} {k : α → Uuid} {f : α → α} (hf : ∀ a, k (f a) = k a) (l : List α) (d : Uuid) :
    (l.map fun a => if k a = d then f a else a).map k = l.map k := by
  rw [List.map_map]
  apply List.map_congr_left
  intro a _
  rw [Function.comp_apply]
  split
  · exact hf a
  · rfl

omit [Digest] in
theorem nextVersionNumber_eq {d : Uuid} (h : History (s.lines d)) :
    s.nextVersionNumber d = (((s.lines d).length + 1 : ℕ) : ℤ) := by
  have hnumbers : (s.versionsOf d).map VersionRow.versionNumber = countdown (s.lines d).length := by
    rw [← h.numbers, Store.lines, List.map_map]
    rfl
  rw [Store.nextVersionNumber, hnumbers, countdown_max]
  omega

namespace Sound

theorem row_eq (hs : Sound s) {a b : VersionRow} (ha : a ∈ s.versions) (hb : b ∈ s.versions) (h : a.id = b.id) :
    a = b := eq_of_id hs.versions ha hb h

theorem dataset_eq (hs : Sound s) {a b : DatasetRow} (ha : a ∈ s.datasets) (hb : b ∈ s.datasets)
    (h : a.id = b.id) : a = b := eq_of_id hs.datasets ha hb h

theorem lines_none (hs : Sound s) {d : Uuid} (hd : d ∉ s.datasets.map DatasetRow.id) : s.lines d = [] := by
  apply List.map_eq_nil_iff.2
  apply List.filter_eq_nil_iff.2
  intro r hr heq
  exact hd (of_decide_eq_true heq ▸ hs.owned r hr)

theorem createDataset (hs : Sound s) {d v : Uuid} (hd : d ∉ s.datasets.map DatasetRow.id)
    (hv : v ∉ s.versions.map VersionRow.id) :
    Sound ⟨⟨d, true, 1, none⟩ :: s.datasets, ⟨v, d, 1, .draft, 1, 0, none⟩ :: s.versions, s.cases⟩ := by
  have hlines (x : Uuid) := lines_new (s := s)
    ⟨⟨d, true, 1, none⟩ :: s.datasets, ⟨v, d, 1, .draft, 1, 0, none⟩ :: s.versions, s.cases⟩ rfl x
  have hother {row : DatasetRow} (hrow : row ∈ s.datasets) : d ≠ row.id :=
    fun heq => hd (heq ▸ List.mem_map_of_mem hrow)
  constructor
  · exact List.nodup_cons.2 ⟨hd, hs.datasets⟩
  · exact List.nodup_cons.2 ⟨hv, hs.versions⟩
  · intro r hr
    cases List.mem_cons.1 hr with
    | inl heq =>
      rw [heq]
      exact List.mem_cons_self
    | inr hold => exact List.mem_cons_of_mem _ (hs.owned r hold)
  · intro x
    rw [hlines]
    split
    next heq =>
      rw [← (heq : d = x), hs.lines_none hd]
      exact ⟨rfl, fun l hl => nomatch hl⟩
    next => exact hs.history x
  · intro row hrow
    cases List.mem_cons.1 hrow with
    | inl heq =>
      rw [heq, hlines, if_pos rfl, hs.lines_none hd]
      rfl
    | inr hold =>
      rw [hlines, if_neg (hother hold)]
      exact hs.current row hold
  · intro row hrow hretired
    cases List.mem_cons.1 hrow with
    | inl heq =>
      rw [heq] at hretired
      cases hretired
    | inr hold =>
      rw [hlines, if_neg (hother hold)]
      exact hs.retired row hold hretired
  · intro r hr hpublished
    cases List.mem_cons.1 hr with
    | inl heq =>
      rw [heq] at hpublished
      cases hpublished
    | inr hold => exact hs.digests r hold hpublished

theorem createDraft (hs : Sound s) {d v : Uuid} {dataset : DatasetRow} (hdataset : dataset ∈ s.datasets)
    (hid : dataset.id = d) (hactive : dataset.active = true)
    (hsealed : ∀ l ∈ s.lines d, l.2.2 = .published) (hv : v ∉ s.versions.map VersionRow.id) :
    Sound (({ s with versions := ⟨v, d, s.nextVersionNumber d, .draft, 1, 0, none⟩ :: s.versions
      }).updateDataset d fun row => { row with revision := row.revision + 1 }) := by
  have hlines (x : Uuid) := lines_new (s := s)
    (({ s with versions := ⟨v, d, s.nextVersionNumber d, .draft, 1, 0, none⟩ :: s.versions
      }).updateDataset d fun row => { row with revision := row.revision + 1 }) rfl x
  have hids := ids_update (k := DatasetRow.id) (f := fun row => { row with revision := row.revision + 1 })
    (fun _ => rfl) s.datasets d
  have hfind (x : Uuid) : List.find? (fun l : Line => l.2.2 = .published)
      ((({ s with versions := ⟨v, d, s.nextVersionNumber d, .draft, 1, 0, none⟩ :: s.versions}).updateDataset d
        fun row => { row with revision := row.revision + 1 }).lines x) =
      (s.lines x).find? fun l => l.2.2 = .published := by
    rw [hlines]
    split
    next =>
      apply List.find?_cons_of_neg
      simp [VersionRow.line]
    next => rfl
  constructor
  · exact hids ▸ hs.datasets
  · exact List.nodup_cons.2 ⟨hv, hs.versions⟩
  · intro r hr
    show r.dataset ∈ List.map _ (List.map _ _)
    rw [hids]
    cases List.mem_cons.1 hr with
    | inl heq =>
      rw [heq, ← hid]
      exact List.mem_map_of_mem hdataset
    | inr hold => exact hs.owned r hold
  · intro x
    rw [hlines]
    split
    next heq =>
      obtain rfl : d = x := heq
      rw [VersionRow.line, nextVersionNumber_eq (hs.history d)]
      exact (hs.history d).next hsealed v .draft
    next => exact hs.history x
  · intro row' hrow'
    obtain ⟨row, hrow, rfl⟩ := List.mem_map.1 hrow'
    rw [hfind]
    split
    · exact hs.current row hrow
    · exact hs.current row hrow
  · intro row' hrow' hretired
    obtain ⟨row, hrow, rfl⟩ := List.mem_map.1 hrow'
    split at hretired
    next hsame =>
      obtain rfl := hs.dataset_eq hrow hdataset (hsame.trans hid.symm)
      have hinactive : row.active = false := hretired
      rw [hactive] at hinactive
      cases hinactive
    next hother =>
      rw [if_neg hother, hlines, if_neg fun heq => hother heq.symm]
      exact hs.retired row hrow hretired
  · intro r hr hpublished
    cases List.mem_cons.1 hr with
    | inl heq =>
      rw [heq] at hpublished
      cases hpublished
    | inr hold => exact hs.digests r hold hpublished

theorem retire (hs : Sound s) {d : Uuid} (hsealed : ∀ l ∈ s.lines d, l.2.2 = .published) :
    Sound (s.updateDataset d fun row => { row with
      active := false
      revision := row.revision + 1 }) := by
  have hids := ids_update (k := DatasetRow.id) (f := fun row => { row with
      active := false
      revision := row.revision + 1 }) (fun _ => rfl) s.datasets d
  constructor
  · exact hids ▸ hs.datasets
  · exact hs.versions
  · intro r hr
    show r.dataset ∈ List.map _ (List.map _ _)
    rw [hids]
    exact hs.owned r hr
  · exact hs.history
  · intro row' hrow'
    obtain ⟨row, hrow, rfl⟩ := List.mem_map.1 hrow'
    split
    · exact hs.current row hrow
    · exact hs.current row hrow
  · intro row' hrow' hretired
    obtain ⟨row, hrow, rfl⟩ := List.mem_map.1 hrow'
    split at hretired
    next hsame =>
      rw [if_pos hsame]
      exact (congrArg s.lines hsame).symm ▸ hsealed
    next hother =>
      rw [if_neg hother]
      exact hs.retired row hrow hretired
  · exact hs.digests

/-- A draft is filled again: the lines stay, and so does what published versions are digested from. -/
theorem replace (hs : Sound s) {v : Uuid} {row : VersionRow} (hrow : row ∈ s.versions) (hid : row.id = v)
    (hdraft : row.state = .draft) {rows : List CaseRow} (hrows : ∀ r ∈ rows, r.version = v) :
    Sound ⟨s.datasets, s.versions.map fun r =>
        if r.id = v then { r with caseCount := rows.length, revision := r.revision + 1 } else r,
      s.cases.filter (fun r => r.version ≠ v) ++ rows⟩ := by
  have hlines (x : Uuid) := lines_update (s := s) (g := fun l => l)
    ⟨s.datasets, s.versions.map fun r =>
        if r.id = v then { r with caseCount := rows.length, revision := r.revision + 1 } else r,
      s.cases.filter (fun r => r.version ≠ v) ++ rows⟩ rfl
    (fun r _ => by split <;> rfl) (fun r _ => by split <;> rfl) x
  simp only [List.map_id'] at hlines
  have hids := ids_update (k := VersionRow.id)
    (f := fun r => { r with caseCount := rows.length, revision := r.revision + 1 }) (fun _ => rfl) s.versions v
  constructor
  · exact hs.datasets
  · exact hids ▸ hs.versions
  · intro r' hr'
    obtain ⟨r, hr, rfl⟩ := List.mem_map.1 hr'
    split
    · exact hs.owned r hr
    · exact hs.owned r hr
  · intro x
    rw [hlines]
    exact hs.history x
  · intro d hd
    rw [hlines]
    exact hs.current d hd
  · intro d hd hretired
    rw [hlines]
    exact hs.retired d hd hretired
  · intro r' hr' hpublished
    obtain ⟨r, hr, rfl⟩ := List.mem_map.1 hr'
    split at hpublished
    next hsame =>
      obtain rfl := hs.row_eq hr hrow (hsame.trans hid.symm)
      have hstate : r.state = .published := hpublished
      rw [hdraft] at hstate
      cases hstate
    next hother =>
      rw [if_neg hother]
      obtain ⟨cases, digest, hdigest, hkept⟩ := hs.digests r hr hpublished
      apply Exists.intro cases
      apply Exists.intro digest
      apply And.intro _ hkept
      rw [← hdigest]
      exact recomputed_congr (filter_other (fun heq => hother heq.symm) s.cases hrows)

/-- The draft is sealed with what was digested, and is now the last published one. -/
theorem publish (hs : Sound s) {d v : Uuid} {dataset : DatasetRow} (hdataset : dataset ∈ s.datasets)
    (hd : dataset.id = d) (hactive : dataset.active = true) {row : VersionRow} (hrow : row ∈ s.versions)
    (hid : row.id = v) (howned : row.dataset = d) (hdraft : row.state = .draft) {cases : List EvalCase}
    {digest : ByteArray} (hdigest : recomputed s v = .ok (cases, digest)) :
    Sound ⟨s.datasets.map fun row =>
        if row.id = d then { row with currentVersion := some v, revision := row.revision + 1 } else row,
      s.versions.map fun r => if r.id = v then { r with
        state := .published
        caseCount := cases.length
        contentSha256 := some digest
        revision := r.revision + 1 } else r, s.cases⟩ := by
  have hlines (x : Uuid) := lines_update (s := s) (g := sealLine v)
    ⟨s.datasets.map fun row =>
        if row.id = d then { row with currentVersion := some v, revision := row.revision + 1 } else row,
      s.versions.map fun r => if r.id = v then { r with
        state := .published
        caseCount := cases.length
        contentSha256 := some digest
        revision := r.revision + 1 } else r, s.cases⟩ rfl
    (fun r _ => by split <;> rfl)
    (fun r _ => by
      rw [sealLine]
      show VersionRow.line _ = if r.id = v then _ else _
      split <;> rfl) x
  have hother {x : Uuid} (hx : x ≠ d) : (s.lines x).map (sealLine v) = s.lines x := by
    have hsame : ∀ l ∈ s.lines x, sealLine v l = id l := by
      intro l hl
      obtain ⟨r, hr, rfl⟩ := List.mem_map.1 hl
      obtain ⟨hr, hrx⟩ := mem_versionsOf.1 hr
      apply if_neg
      intro heq
      obtain rfl := hs.row_eq hr hrow ((heq : r.id = v).trans hid.symm)
      exact hx (hrx.symm.trans howned)
    rw [List.map_congr_left hsame, List.map_id]
  have hids := ids_update (k := DatasetRow.id)
    (f := fun row => { row with currentVersion := some v, revision := row.revision + 1 }) (fun _ => rfl) s.datasets d
  have hids' := ids_update (k := VersionRow.id) (f := fun r => { r with
        state := .published
        caseCount := cases.length
        contentSha256 := some digest
        revision := r.revision + 1 }) (fun _ => rfl) s.versions v
  constructor
  · exact hids ▸ hs.datasets
  · exact hids' ▸ hs.versions
  · intro r' hr'
    obtain ⟨r, hr, rfl⟩ := List.mem_map.1 hr'
    show _ ∈ List.map _ (List.map _ _)
    rw [hids]
    split
    · exact hs.owned r hr
    · exact hs.owned r hr
  · intro x
    rw [hlines]
    exact (hs.history x).sealed v
  · intro row' hrow'
    obtain ⟨row₀, hrow₀, rfl⟩ := List.mem_map.1 hrow'
    rw [hlines]
    by_cases hsame : row₀.id = d
    · rw [if_pos hsame]
      show some v = (((s.lines row₀.id).map (sealLine v)).find? _).map Prod.fst
      have hline := mem_lines hrow
      rw [howned] at hline
      obtain ⟨rest, hrest⟩ := (hs.history d).draft_head hline hdraft
      rw [hsame, hrest, List.map_cons, sealLine, VersionRow.line, if_pos hid, List.find?_cons_of_pos (by simp), hid]
      rfl
    · rw [if_neg hsame, hother hsame]
      exact hs.current row₀ hrow₀
  · intro row' hrow' hretired
    obtain ⟨row₀, hrow₀, rfl⟩ := List.mem_map.1 hrow'
    split at hretired
    next hsame =>
      obtain rfl := hs.dataset_eq hrow₀ hdataset (hsame.trans hd.symm)
      have hinactive : row₀.active = false := hretired
      rw [hactive] at hinactive
      cases hinactive
    next hsame =>
      rw [if_neg hsame, hlines, hother hsame]
      exact hs.retired row₀ hrow₀ hretired
  · intro r' hr' hpublished
    obtain ⟨r, hr, rfl⟩ := List.mem_map.1 hr'
    split
    next hsame =>
      rw [← hsame] at hdigest
      exact ⟨cases, digest, hdigest, rfl, rfl⟩
    next hsame =>
      rw [if_neg hsame] at hpublished
      exact hs.digests r hr hpublished

theorem step (hs : Sound t.store) (h : Accepted c t q t') : Sound t'.store := by
  cases h with
  | createDataset slug label d v hd hv => exact hs.createDataset hd hv
  | createDraft d v e dataset hdataset hid hactive hrevision hsealed hv =>
    exact hs.createDraft hdataset hid hactive hsealed hv
  | replace d v e offered row hrow hid hdataset hdraft hrevision rows hrows digest =>
    exact hs.replace hrow hid hdraft hrows
  | publish d v e epoch expected dataset hdataset hd hactive row hrow hid howned hdraft hrevision cases digest
      hdigest =>
    exact hs.publish hdataset hd hactive hrow hid howned hdraft hdigest
  | retire d e epoch dataset hdataset hid hactive hrevision hsealed => exact hs.retire hsealed

end Sound

theorem sound_run (h : lifecycle.Reachable t) : Sound t.store := by
  apply System.invariant _ _ h
  · intro t ht
    rw [ht]
    constructor
    · exact List.nodup_nil
    · exact List.nodup_nil
    · intro r hr
      cases hr
    · intro d
      exact ⟨rfl, fun l hl => nomatch hl⟩
    · intro d hd
      cases hd
    · intro d hd
      cases hd
    · intro r hr
      cases hr
  · intro t call t' _ hs hstep
    obtain ⟨c, q⟩ := call
    have heq : t' = q.commit c t := hstep
    rw [heq]
    cases commit_cases c q t with
    | inl hsame => exact hsame.symm ▸ hs
    | inr haccepted => exact hs.step haccepted

/-! ## What no later transaction changes -/

/-- A published version of another id than the draft that is written to. -/
theorem Sound.ne_draft (hs : Sound s) {r row : VersionRow} (hr : r ∈ s.versions) (hrow : row ∈ s.versions)
    (hpublished : r.state = .published) (hdraft : row.state = .draft) : r.id ≠ row.id := by
  intro heq
  obtain rfl := hs.row_eq hr hrow heq
  rw [hdraft] at hpublished
  cases hpublished

theorem Sound.keeps_version (hs : Sound t.store) (h : Accepted c t q t') {r : VersionRow}
    (hr : r ∈ t.store.versions) (hpublished : r.state = .published) :
    r ∈ t'.store.versions ∧ (t'.store.cases.filter fun x => x.version = r.id) =
      t.store.cases.filter fun x => x.version = r.id := by
  cases h with
  | createDataset slug label d v hd hv => exact ⟨List.mem_cons_of_mem _ hr, rfl⟩
  | createDraft d v e dataset hdataset hid hactive hrevision hsealed hv => exact ⟨List.mem_cons_of_mem _ hr, rfl⟩
  | replace d v e offered row hrow hid hdataset hdraft hrevision rows hrows digest =>
    have hne := hs.ne_draft hr hrow hpublished hdraft
    rw [hid] at hne
    exact ⟨List.mem_map.2 ⟨r, hr, if_neg hne⟩, filter_other hne.symm _ hrows⟩
  | publish d v e epoch expected dataset hdataset hd hactive row hrow hid howned hdraft hrevision cases digest
      hdigest =>
    have hne := hs.ne_draft hr hrow hpublished hdraft
    rw [hid] at hne
    exact ⟨List.mem_map.2 ⟨r, hr, if_neg hne⟩, rfl⟩
  | retire d e epoch dataset hdataset hid hactive hrevision hsealed => exact ⟨hr, rfl⟩

omit [Digest] in
theorem versionsOf_update {f : VersionRow → VersionRow} {v d : Uuid} (hdataset : ∀ r, (f r).dataset = r.dataset)
    (hother : ∀ r ∈ s.versionsOf d, r.id ≠ v) :
    ((s.versions.map fun r => if r.id = v then f r else r).filter fun r => r.dataset = d) = s.versionsOf d := by
  rw [List.filter_map]
  have hsame : s.versions.filter ((fun r => decide (r.dataset = d)) ∘ fun r => if r.id = v then f r else r) =
      s.versionsOf d := by
    apply List.filter_congr
    intro r _
    rw [Function.comp_apply]
    split
    · rw [hdataset]
    · rfl
  rw [hsame]
  have hid : ∀ r ∈ s.versionsOf d, (if r.id = v then f r else r) = id r := fun r hr => if_neg (hother r hr)
  rw [List.map_congr_left hid, List.map_id]

/-- A retired dataset, its versions and its events. -/
theorem Sound.keeps_retired (hs : Sound t.store) (h : Accepted c t q t') {d : DatasetRow}
    (hd : d ∈ t.store.datasets) (hretired : d.active = false) :
    d ∈ t'.store.datasets ∧ t'.store.versionsOf d.id = t.store.versionsOf d.id ∧
      (t'.events.filter fun e => e.dataset = d.id) = t.events.filter fun e => e.dataset = d.id := by
  have hactive_ne {dataset : DatasetRow} (hdataset : dataset ∈ t.store.datasets) (hactive : dataset.active = true) :
      d.id ≠ dataset.id := by
    intro heq
    obtain rfl := hs.dataset_eq hd hdataset heq
    rw [hretired] at hactive
    cases hactive
  have hdraft_ne {row : VersionRow} (hrow : row ∈ t.store.versions) (hdraft : row.state = .draft) :
      row.dataset ≠ d.id := by
    intro heq
    have hline := mem_lines hrow
    rw [heq] at hline
    have hpublished : row.state = .published := hs.retired d hd hretired _ hline
    rw [hdraft] at hpublished
    cases hpublished
  cases h with
  | createDataset slug label d' v hd' hv =>
    have hne : d' ≠ d.id := fun heq => hd' (heq ▸ List.mem_map_of_mem hd)
    exact ⟨List.mem_cons_of_mem _ hd, List.filter_cons_of_neg (by simpa using hne),
      (List.filter_cons_of_neg (by simpa using hne)).trans (List.filter_cons_of_neg (by simpa using hne))⟩
  | createDraft d' v e dataset hdataset hid hactive hrevision hsealed hv =>
    have hne := hactive_ne hdataset hactive
    rw [hid] at hne
    exact ⟨List.mem_map.2 ⟨d, hd, if_neg hne⟩, List.filter_cons_of_neg (by simpa using hne.symm),
      List.filter_cons_of_neg (by simpa using hne.symm)⟩
  | replace d' v e offered row hrow hid hdataset hdraft hrevision rows hrows digest =>
    have hne := hdraft_ne hrow hdraft
    have hother : ∀ r ∈ t.store.versionsOf d.id, r.id ≠ v := by
      intro r hr heq
      obtain ⟨hr, howned⟩ := mem_versionsOf.1 hr
      obtain rfl := hs.row_eq hr hrow (heq.trans hid.symm)
      exact hne howned
    rw [hdataset] at hne
    exact ⟨hd, versionsOf_update (fun _ => rfl) hother, List.filter_cons_of_neg (by simpa using hne)⟩
  | publish d' v e epoch expected dataset hdataset hid' hactive row hrow hid howned hdraft hrevision cases digest
      hdigest =>
    have hne := hdraft_ne hrow hdraft
    have hother : ∀ r ∈ t.store.versionsOf d.id, r.id ≠ v := by
      intro r hr heq
      obtain ⟨hr, howned'⟩ := mem_versionsOf.1 hr
      obtain rfl := hs.row_eq hr hrow (heq.trans hid.symm)
      exact hne howned'
    rw [howned] at hne
    exact ⟨List.mem_map.2 ⟨d, hd, if_neg hne.symm⟩, versionsOf_update (fun _ => rfl) hother,
      List.filter_cons_of_neg (by simpa using hne)⟩
  | retire d' e epoch dataset hdataset hid hactive hrevision hsealed =>
    have hne := hactive_ne hdataset hactive
    rw [hid] at hne
    exact ⟨List.mem_map.2 ⟨d, hd, if_neg hne⟩, rfl, List.filter_cons_of_neg (by simpa using hne.symm)⟩

/-- What is sealed or retired is as it was. -/
structure Unchanged (t t' : Archive) : Prop where
  published : ∀ r ∈ t.store.versions, r.state = .published → r ∈ t'.store.versions ∧
    (t'.store.cases.filter fun x => x.version = r.id) = t.store.cases.filter fun x => x.version = r.id
  retired : ∀ d ∈ t.store.datasets, d.active = false → d ∈ t'.store.datasets ∧
    t'.store.versionsOf d.id = t.store.versionsOf d.id ∧
    (t'.events.filter fun e => e.dataset = d.id) = t.events.filter fun e => e.dataset = d.id

omit [Digest] in
theorem Unchanged.refl (t : Archive) : Unchanged t t := ⟨fun _ hr _ => ⟨hr, rfl⟩, fun _ hd _ => ⟨hd, rfl, rfl⟩⟩

omit [Digest] in
theorem Unchanged.trans {t₁ t₂ t₃ : Archive} (h : Unchanged t₁ t₂) (h' : Unchanged t₂ t₃) : Unchanged t₁ t₃ := by
  constructor
  · intro r hr hpublished
    obtain ⟨hr₂, hcases₂⟩ := h.published r hr hpublished
    obtain ⟨hr₃, hcases₃⟩ := h'.published r hr₂ hpublished
    exact ⟨hr₃, hcases₃.trans hcases₂⟩
  · intro d hd hretired
    obtain ⟨hd₂, hversions₂, hevents₂⟩ := h.retired d hd hretired
    obtain ⟨hd₃, hversions₃, hevents₃⟩ := h'.retired d hd₂ hretired
    exact ⟨hd₃, hversions₃.trans hversions₂, hevents₃.trans hevents₂⟩

theorem unchanged_later (h : lifecycle.Reachable t) (hlater : lifecycle.Later t t') : Unchanged t t' := by
  induction hlater with
  | refl => exact Unchanged.refl t
  | @tail t₁ t₂ hprefix hstep ih =>
    obtain ⟨⟨c, q⟩, hstep⟩ := hstep
    have heq : t₂ = q.commit c t₁ := hstep
    have hs := sound_run (System.reachable_later h hprefix)
    rw [heq]
    cases commit_cases c q t₁ with
    | inl hsame => exact hsame.symm ▸ ih
    | inr haccepted =>
      exact ih.trans ⟨fun r hr => hs.keeps_version haccepted hr, fun d hd => hs.keeps_retired haccepted hd⟩

end

end RagPipeline.Datasets
