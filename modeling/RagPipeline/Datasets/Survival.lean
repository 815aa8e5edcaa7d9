import RagPipeline.Datasets.Store
import Mathlib.Data.List.Nodup

/-! # A dataset survives its encoding

The stored rows of a version, in whatever order they stand, give the cases back that
were normalised, for as long as the version has the revision that the replacement
gave it. -/

set_option autoImplicit false

namespace RagPipeline.Datasets
open Guard Transition
open RagPipeline.Answer (Json)
open JsonText (dumpArray dumpObject commas dumpMember)

/-! ## Rows and cases -/

/-- A case as it is selected from its row. -/
def stored (c : EvalCase) : Offered :=
  .value (.obj [("case_key".toList, .str c.caseKey), ("q".toList, .str c.q), ("key".toList, .str c.key),
    ("answer".toList, .str c.answer), ("pages".toList, .arr (c.pages.map .int)),
    ("type".toList, .str c.type.word)])

theorem ValidCase.stored {c : EvalCase} (hc : ValidCase c) : asCase (stored c) = .ok c :=
  hc.ok ⟨rfl, rfl⟩ rfl rfl rfl rfl rfl rfl

section
variable [Digest] {cases : List EvalCase} {rows rows' : List CaseRow} {v : Uuid} {s s' : Store}
  {a : Authority} {r : ℤ}

/-- The rows of a collection: one for each case, in order, and read back as the case. -/
structure RowsOf (v : Uuid) (cases : List EvalCase) (rows : List CaseRow) : Prop where
  version : ∀ r ∈ rows, r.version = v
  selected : rows.map CaseRow.selected = cases.map stored
  increasing : rows.Pairwise fun a b => a.ordinal < b.ordinal

theorem caseRows_ok {ordinal : ℕ} (h : caseRows v ordinal cases = .ok rows)
    (hvalid : ∀ c ∈ cases, ValidCase c) :
    RowsOf v cases rows ∧ ∀ r ∈ rows, ordinal ≤ r.ordinal := by
  induction cases generalizing ordinal rows with
  | nil =>
    obtain rfl : [] = rows := Except.ok.inj h
    exact ⟨⟨by simp, rfl, .nil⟩, by simp⟩
  | cons c rest ih =>
    rw [caseRows] at h
    obtain ⟨caseKey, hkey, h⟩ := bind_ok.1 h
    obtain ⟨sha, -, h⟩ := bind_ok.1 h
    obtain ⟨more, hmore, h⟩ := bind_ok.1 h
    obtain rfl := pure_ok.1 h
    obtain ⟨hrows, hlarge⟩ := ih hmore fun c' hc' => hvalid c' (List.mem_cons_of_mem c hc')
    obtain ⟨-, n, hparse, htext⟩ := checkKey_ok (hvalid c List.mem_cons_self).caseKey
    have hsame : uuidText caseKey = c.caseKey := by
      rw [demand_ok.1 hkey] at hparse
      rw [Option.some.inj hparse, htext]
    refine ⟨⟨?_, ?_, ?_⟩, ?_⟩
    · intro r hr
      cases List.mem_cons.1 hr with
      | inl heq => rw [heq]
      | inr hmem => exact hrows.version r hmem
    · rw [List.map_cons, List.map_cons, hrows.selected]
      rw [CaseRow.selected, stored, hsame]
    · apply List.pairwise_cons.2
      exact ⟨fun r hr => Nat.lt_of_succ_le (hlarge r hr), hrows.increasing⟩
    · intro r hr
      cases List.mem_cons.1 hr with
      | inl heq => rw [heq]
      | inr hmem => exact Nat.le_of_succ_le (hlarge r hmem)

omit [Digest] in
/-- However the rows stand, their ordinals put them in order. -/
theorem ordered_eq (h : RowsOf v cases rows)
    (hperm : (s.cases.filter fun r => r.version = v).Perm rows) : s.ordered v = rows := by
  have hsort := List.perm_insertionSort (fun a b : CaseRow => a.ordinal ≤ b.ordinal)
    (s.cases.filter fun r => r.version = v)
  have : Std.Total fun a b : CaseRow => a.ordinal ≤ b.ordinal := ⟨fun a b => Nat.le_total _ _⟩
  have : IsTrans CaseRow fun a b => a.ordinal ≤ b.ordinal := ⟨fun a b c hab hbc => Nat.le_trans hab hbc⟩
  have hweak := List.pairwise_insertionSort (fun a b : CaseRow => a.ordinal ≤ b.ordinal)
    (s.cases.filter fun r => r.version = v)
  have hwhole := hsort.trans hperm
  have hdistinct : (s.ordered v).Pairwise fun a b => a.ordinal ≠ b.ordinal := by
    apply List.pairwise_map.1
    apply (hwhole.map CaseRow.ordinal).nodup_iff.2
    exact List.pairwise_map.2 (h.increasing.imp fun hlt => Nat.ne_of_lt hlt)
  have hstrict : (s.ordered v).Pairwise fun a b => a.ordinal < b.ordinal :=
    hweak.imp₂ (fun a b hle hne => Nat.lt_of_le_of_ne hle hne) hdistinct
  apply hwhole.eq_of_pairwise _ hstrict h.increasing
  intro a b _ _ hab hba
  exact absurd hab (Nat.lt_asymm hba)

theorem digest_normalized (hcases : ValidCases cases) :
    versionDigest (cases.map normalized) =
      .ok (Digest.sha256 (canonical (.obj [("cases".toList, .arr (cases.map caseObject))]))) := by
  rw [versionDigest, hcases.sequence fun c hc => (hcases.each c hc).normalized]
  rfl

/-- The stored rows are digested as the cases they came from. -/
theorem recomputed_ok (hcases : ValidCases cases) (h : RowsOf v cases rows)
    (hperm : (s.cases.filter fun r => r.version = v).Perm rows) :
    recomputed s v = .ok (cases,
      Digest.sha256 (canonical (.obj [("cases".toList, .arr (cases.map caseObject))]))) := by
  rw [recomputed, ordered_eq h hperm, h.selected, normalizeCases,
    hcases.sequence fun c hc => (hcases.each c hc).stored]
  apply bind_ok.2
  refine ⟨cases, rfl, ?_⟩
  rw [digest_normalized hcases]
  rfl

/-! ## What a replacement and a publication leave -/

/-- The row of the version goes up by one revision, the others are as they were. -/
def Raised (v : Uuid) (s t : Store) : Prop :=
  ∃ f : VersionRow → VersionRow, (∀ row, (f row).id = row.id ∧ (f row).revision = row.revision + 1) ∧
    t.versions = s.versions.map fun row => if row.id = v then f row else row

omit [Digest] in
theorem Raised.ids (h : Raised v s s') : s'.versions.map VersionRow.id = s.versions.map VersionRow.id := by
  obtain ⟨f, hf, hversions⟩ := h
  rw [hversions, List.map_map]
  apply List.map_congr_left
  intro row _
  show (if row.id = v then f row else row).id = row.id
  split_ifs
  · exact (hf row).1
  · rfl

omit [Digest] in
theorem Raised.back (h : Raised v s s') {row : VersionRow} (hrow : row ∈ s'.versions) :
    ∃ old ∈ s.versions, old.id = row.id ∧
      row.revision = if old.id = v then old.revision + 1 else old.revision := by
  obtain ⟨f, hf, hversions⟩ := h
  rw [hversions] at hrow
  obtain ⟨old, hold, rfl⟩ := List.mem_map.1 hrow
  refine ⟨old, hold, ?_⟩
  split_ifs
  · exact ⟨(hf old).1.symm, (hf old).2⟩
  · exact ⟨rfl, rfl⟩

omit [Digest] in
theorem Raised.forth (h : Raised v s s') {row : VersionRow} (hrow : row ∈ s.versions) :
    ∃ new ∈ s'.versions, new.id = row.id := by
  have hid : row.id ∈ s'.versions.map VersionRow.id := by
    rw [h.ids]
    exact List.mem_map_of_mem hrow
  obtain ⟨new, hnew, heq⟩ := List.mem_map.1 hid
  exact ⟨new, hnew, heq⟩

theorem replace_ok {d : Uuid} {offered : List Offered} {replaced : Replaced}
    (h : replaceEvalCases a d v r offered s = .ok (s', replaced)) :
    ∃ cases rows, ValidCases cases ∧ RowsOf v cases rows ∧
      (∃ row ∈ s.versions, row.id = v ∧ row.revision = r) ∧
      Raised v s s' ∧ s'.cases = s.cases.filter (fun r => r.version ≠ v) ++ rows ∧
      replaced.revision = r + 1 ∧ replaced.contentSha256 =
        Digest.sha256 (canonical (.obj [("cases".toList, .arr (cases.map caseObject))])) := by
  obtain ⟨cases, hcases, h⟩ := bind_ok.1 h
  obtain ⟨_, -, h⟩ := bind_ok.1 h
  obtain ⟨_, -, h⟩ := bind_ok.1 h
  obtain ⟨_, -, h⟩ := bind_ok.1 h
  obtain ⟨version, hversion, h⟩ := bind_ok.1 h
  obtain ⟨_, -, h⟩ := bind_ok.1 h
  obtain ⟨_, hrevision, h⟩ := bind_ok.1 h
  obtain ⟨rows, hrows, h⟩ := bind_ok.1 h
  obtain ⟨_, -, h⟩ := bind_ok.1 h
  obtain ⟨digest, hdigest, h⟩ := bind_ok.1 h
  have hpair := pure_ok.1 h
  obtain rfl := congrArg Prod.fst hpair
  obtain rfl := congrArg Prod.snd hpair
  have hvalid := caseSequence_ok (mapError_ok.1 hcases)
  have hfound := demand_ok.1 hversion
  have hid := List.find?_some hfound
  simp only [decide_eq_true_eq] at hid
  have heq := require_ok.1 hrevision
  rw [digest_normalized hvalid] at hdigest
  refine ⟨cases, rows, hvalid, (caseRows_ok hrows hvalid.each).1,
    ⟨version, List.mem_of_find?_eq_some hfound, hid.1, heq⟩, ⟨_, fun row => ⟨?_, ?_⟩, rfl⟩, rfl, ?_, ?_⟩
  · rfl
  · rfl
  · show version.revision + 1 = r + 1
    rw [heq]
  · exact (Except.ok.inj hdigest).symm

theorem publish_ok {d : Uuid} {epoch : ℤ} {expected : ByteArray} {published : Published}
    (h : publishEvalVersion a d v r epoch expected s = .ok (s', published)) :
    (∃ row ∈ s.versions, row.id = v ∧ row.revision = r) ∧
      (∃ cases, recomputed s v = .ok (cases, published.contentSha256)) ∧
      Raised v s s' ∧ s'.cases = s.cases := by
  obtain ⟨_, -, h⟩ := bind_ok.1 h
  obtain ⟨policy, -, h⟩ := bind_ok.1 h
  obtain ⟨_, -, h⟩ := bind_ok.1 h
  obtain ⟨dataset, -, h⟩ := bind_ok.1 h
  obtain ⟨version, hversion, h⟩ := bind_ok.1 h
  obtain ⟨_, -, h⟩ := bind_ok.1 h
  obtain ⟨_, hrevision, h⟩ := bind_ok.1 h
  obtain ⟨⟨cases, digest⟩, hdigest, h⟩ := bind_ok.1 h
  obtain ⟨_, -, h⟩ := bind_ok.1 h
  have hpair := pure_ok.1 h
  obtain rfl := congrArg Prod.fst hpair
  obtain rfl := congrArg Prod.snd hpair
  have hfound := demand_ok.1 hversion
  have hid := List.find?_some hfound
  simp only [decide_eq_true_eq] at hid
  refine ⟨⟨version, List.mem_of_find?_eq_some hfound, hid.1, require_ok.1 hrevision⟩, ⟨cases, hdigest⟩,
    ⟨_, fun row => ⟨?_, ?_⟩, rfl⟩, rfl⟩
  · rfl
  · rfl

/-! ## Runs -/

/-- The ids of the versions are a primary key. -/
theorem nodup_run (h : drafts.Reachable s) : (s.versions.map VersionRow.id).Nodup := by
  apply System.invariant _ _ h
  · intro s hs
    rw [hs.1]
    exact List.nodup_nil
  · intro s op s' _ hs hstep
    cases hstep with
    | @create version hfresh =>
      show (version.id :: s.versions.map VersionRow.id).Nodup
      apply List.nodup_cons.2
      refine ⟨?_, hs⟩
      intro hmem
      obtain ⟨row, hrow, hid⟩ := List.mem_map.1 hmem
      exact hfresh row hrow hid
    | @replace a d v r offered t replaced rows hreplace hperm =>
      obtain ⟨cases, new, -, -, -, hraised, -⟩ := replace_ok hreplace
      show (t.versions.map VersionRow.id).Nodup
      rw [hraised.ids]
      exact hs
    | @publish a d v r epoch expected t published hpublish =>
      obtain ⟨-, -, hraised, -⟩ := publish_ok hpublish
      rw [hraised.ids]
      exact hs
    | datasets => exact hs

/-- What stays true of a version after its cases were replaced: its revision only goes up, and
while it does not, the rows are there. -/
structure Keeps (v : Uuid) (r : ℤ) (rows : List CaseRow) (s : Store) : Prop where
  known : ∃ row ∈ s.versions, row.id = v
  since : ∀ row ∈ s.versions, row.id = v → r ≤ row.revision
  rows : ∀ row ∈ s.versions, row.id = v → row.revision = r →
    (s.cases.filter fun c => c.version = v).Perm rows

omit [Digest] in
theorem filter_other {w : Uuid} (hne : w ≠ v) (cases : List CaseRow) {new : List CaseRow} (hnew : ∀ c ∈ new, c.version = w) :
    (cases.filter (fun c => c.version ≠ w) ++ new).filter (fun c => c.version = v) =
      cases.filter fun c => c.version = v := by
  have hnone : new.filter (fun c => c.version = v) = [] := by
    apply List.filter_eq_nil_iff.2
    intro c hc
    simp only [decide_eq_true_eq, hnew c hc]
    exact hne
  rw [List.filter_append, hnone, List.append_nil, List.filter_filter]
  apply List.filter_congr
  intro c _
  by_cases hc : c.version = v
  · simp [hc, hne.symm]
  · simp [hc]

omit [Digest] in
/-- A step that raises the revision of a version, whichever one. -/
theorem Keeps.raised {w : Uuid} {t : Store} (hs : Keeps v r rows s) (h : Raised w s t)
    (hcases : w ≠ v → (t.cases.filter fun c => c.version = v).Perm (s.cases.filter fun c => c.version = v)) :
    Keeps v r rows t := by
  constructor
  · obtain ⟨row, hrow, hid⟩ := hs.known
    obtain ⟨new, hnew, hsame⟩ := h.forth hrow
    exact ⟨new, hnew, hsame.trans hid⟩
  · intro row hrow hid
    obtain ⟨old, hold, hsame, hrevision⟩ := h.back hrow
    have hsince := hs.since old hold (hsame.trans hid)
    rw [hrevision]
    split_ifs
    · omega
    · exact hsince
  · intro row hrow hid hlevel
    obtain ⟨old, hold, hsame, hrevision⟩ := h.back hrow
    have hv : old.id = v := hsame.trans hid
    have hsince := hs.since old hold hv
    by_cases hw : old.id = w
    · rw [if_pos hw] at hrevision
      omega
    · rw [if_neg hw] at hrevision
      have hne : w ≠ v := fun heq => hw (hv.trans heq.symm)
      exact (hcases hne).trans (hs.rows old hold hv (hrevision.symm.trans hlevel))

theorem keeps_step {op : Op} (hs : Keeps v r rows s) (h : Step s op s') : Keeps v r rows s' := by
  cases h with
  | @create version hfresh =>
    obtain ⟨row, hrow, hid⟩ := hs.known
    have hother : version.id ≠ v := fun heq => hfresh row hrow (hid.trans heq.symm)
    have hback : ∀ row ∈ version :: s.versions, row.id = v → row ∈ s.versions := by
      intro row hmem hv
      cases List.mem_cons.1 hmem with
      | inl heq =>
        rw [heq] at hv
        exact absurd hv hother
      | inr hold => exact hold
    constructor
    · exact ⟨row, List.mem_cons_of_mem version hrow, hid⟩
    · intro row' hmem hv
      exact hs.since row' (hback row' hmem hv) hv
    · intro row' hmem hv
      exact hs.rows row' (hback row' hmem hv) hv
  | @replace a d w r' offered t replaced new hreplace hperm =>
    obtain ⟨cases, written, -, hwritten, -, hraised, hcases, -⟩ := replace_ok hreplace
    have hraised' : Raised w s { t with cases := new } := hraised
    apply hs.raised hraised'
    intro hne
    have hfilter := filter_other (v := v) hne s.cases hwritten.version
    rw [← hfilter, ← hcases]
    exact hperm.filter _
  | @publish a d w r' epoch expected t published hpublish =>
    obtain ⟨-, -, hraised, hcases⟩ := publish_ok hpublish
    apply hs.raised hraised
    intro _
    rw [hcases]
  | datasets => exact ⟨hs.known, hs.since, hs.rows⟩

theorem keeps_later (hs : Keeps v r rows s) (h : drafts.Later s s') : Keeps v r rows s' := by
  induction h with
  | refl => exact hs
  | tail _ hstep ih =>
    obtain ⟨op, hop⟩ := hstep
    exact keeps_step ih hop

/-- What a replacement digested is what is recomputed from the rows, however they stand and
whatever was done since, while the version has the revision it was given. -/
theorem digest_kept {d : Uuid} {offered : List Offered} {replaced : Replaced} {t : Store}
    (hs : drafts.Reachable s) (hreplace : replaceEvalCases a d v r offered s = .ok (s', replaced))
    (hperm : rows.Perm s'.cases) (hlater : drafts.Later { s' with cases := rows } t)
    (hrevision : ∃ row ∈ t.versions, row.id = v ∧ row.revision = replaced.revision) :
    ∃ cases, recomputed t v = .ok (cases, replaced.contentSha256) := by
  obtain ⟨cases, written, hvalid, hwritten, ⟨row, hrow, hid, hr⟩, hraised, hcases, hnext, hdigest⟩ :=
    replace_ok hreplace
  have hunique : ∀ old ∈ s.versions, old.id = v → old = row := by
    intro old hold hv
    exact List.inj_on_of_nodup_map (nodup_run hs) hold hrow (hv.trans hid.symm)
  have hstart : Keeps v replaced.revision written { s' with cases := rows } := by
    have hback : ∀ new ∈ s'.versions, new.id = v → new.revision = r + 1 := by
      intro new hnew hv
      obtain ⟨old, hold, hsame, hrevision⟩ := hraised.back hnew
      rw [hunique old hold (hsame.trans hv), if_pos hid] at hrevision
      rw [hrevision, hr]
    have hwhole : (s'.cases.filter fun c => c.version = v) = written := by
      have hall : written.filter (fun c => c.version = v) = written := by
        apply List.filter_eq_self.2
        intro c hc
        exact decide_eq_true (hwritten.version c hc)
      have hnone : (s.cases.filter fun c => c.version ≠ v).filter (fun c => c.version = v) = [] := by
        apply List.filter_eq_nil_iff.2
        intro c hc hv
        have hne := of_decide_eq_true (List.mem_filter.1 hc).2
        exact hne (of_decide_eq_true hv)
      rw [hcases, List.filter_append, hnone, hall, List.nil_append]
    constructor
    · obtain ⟨new, hnew, hsame⟩ := hraised.forth hrow
      exact ⟨new, hnew, hsame.trans hid⟩
    · intro new hnew hv
      rw [hnext, hback new hnew hv]
    · intro new _ _ _
      have hfilter := hperm.filter fun c => decide (c.version = v)
      rw [hwhole] at hfilter
      exact hfilter
  obtain ⟨last, hlast, hv, hlevel⟩ := hrevision
  have hkept := (keeps_later hstart hlater).rows last hlast hv hlevel
  exact ⟨cases, by rw [recomputed_ok hvalid hwritten hkept, hdigest]⟩

end

/-! ## How long a text is -/

theorem commas_count (parts : List Text) : parts.length ≤ (commas parts).length + 1 := by
  induction parts with
  | nil => exact Nat.zero_le _
  | cons s rest ih =>
    cases rest with
    | nil => exact Nat.le_add_left 1 _
    | cons t rest =>
      rw [List.length_cons] at ih
      rw [commas, List.length_append, List.length_cons, List.length_cons, List.length_cons]
      omega

theorem commas_part {parts : List Text} {t : Text} (h : t ∈ parts) : t.length ≤ (commas parts).length := by
  induction parts with
  | nil => cases h
  | cons s rest ih =>
    cases rest with
    | nil =>
      rw [List.mem_singleton.1 h]
      exact Nat.le_refl _
    | cons u rest =>
      rw [commas, List.length_append, List.length_cons]
      cases List.mem_cons.1 h with
      | inl heq =>
        rw [heq]
        exact Nat.le_add_right _ _
      | inr hmem =>
        have hrest := ih hmem
        omega

theorem dumps_count {α : Type} (f : α → Json) (l : List α) : l.length ≤ (dumps (.arr (l.map f))).length := by
  have hcount := commas_count (l.map fun a => dumps (f a))
  rw [List.length_map] at hcount
  rw [dumps, dumpsItems_map, dumpArray, List.length_cons, List.length_append]
  omega

theorem dumps_item {α : Type} {f : α → Json} {l : List α} {a : α} (h : a ∈ l) :
    (dumps (f a)).length ≤ (dumps (.arr (l.map f))).length := by
  have hpart := commas_part (List.mem_map_of_mem (f := fun a => dumps (f a)) h)
  rw [dumps, dumpsItems_map, dumpArray, List.length_cons, List.length_append]
  omega

theorem dumps_member {members : List (Text × Json)} {m : Text × Json} (h : m ∈ members) :
    (dumps m.2).length ≤ (dumps (.obj members)).length := by
  have hdumped : (m.1, dumps m.2) ∈ dumpsMembers members := by
    induction members with
    | nil => cases h
    | cons p rest ih =>
      cases List.mem_cons.1 h with
      | inl heq =>
        rw [heq]
        exact List.mem_cons_self
      | inr hmem => exact List.mem_cons_of_mem _ (ih hmem)
  have hsorted : (m.1, dumps m.2) ∈ sorted Prod.fst (dumpsMembers members) :=
    (List.mem_insertionSort _).2 hdumped
  have hpart := commas_part (List.mem_map_of_mem (f := dumpMember) hsorted)
  have hwritten : (dumpMember (m.1, dumps m.2)).length =
      (JsonText.writeString false m.1).length + ((dumps m.2).length + 1) := List.length_append
  rw [dumps, dumpObject, List.length_cons, List.length_append]
  omega

def sampleCase (pages : List ℤ) : EvalCase where
  caseKey := "7c9e6679-7425-40de-944b-e07fc1f90ae7".toList
  q := "kac?".toList
  key := "rapor".toList
  answer := "42".toList
  pages := pages
  type := .sayisal

theorem sampleCase_valid {pages : List ℤ} (h : checkPages (.arr (pages.map .int)) = .ok pages) :
    ValidCase (sampleCase pages) := by
  have hcaseKey : checkKey (.str "7c9e6679-7425-40de-944b-e07fc1f90ae7".toList) =
      .ok "7c9e6679-7425-40de-944b-e07fc1f90ae7".toList := by decide +kernel
  have hq : checkText 4096 (.str "kac?".toList) = .ok "kac?".toList := by decide +kernel
  have hkey : checkText 16384 (.str "rapor".toList) = .ok "rapor".toList := by decide +kernel
  have hanswer : checkText 16384 (.str "42".toList) = .ok "42".toList := by decide +kernel
  have htype : checkType (.str CaseType.sayisal.word) = .ok .sayisal := by decide +kernel
  exact ⟨hcaseKey, hq, hkey, hanswer, h, htype⟩

theorem sampleCases_valid {pages : List ℤ} (h : checkPages (.arr (pages.map .int)) = .ok pages) :
    ValidCases [sampleCase pages] := by
  refine ⟨⟨Nat.le_refl 1, ?_⟩, ?_, ?_⟩
  · show 1 ≤ 500
    omega
  · intro c hc
    rw [List.mem_singleton.1 hc]
    exact sampleCase_valid h
  · exact bind_ok.2 ⟨(), require_true (List.nodup_singleton _), require_true rfl⟩

theorem sampleVersion_valid {pages : List ℤ} (h : checkPages (.arr (pages.map .int)) = .ok pages) :
    validateVersion (versionObject ⟨1, [sampleCase pages]⟩) = .ok ⟨1, [sampleCase pages]⟩ := by
  have hversion : checkVersion (.int 1) = .ok 1 := by decide +kernel
  apply bind_ok.2
  refine ⟨(), require_true ⟨rfl, rfl⟩, bind_ok.2 ⟨1, hversion, ?_⟩⟩
  exact bind_ok.2 ⟨[sampleCase pages], (sampleCases_valid h).objects, rfl⟩

theorem pagesLoop_range {previous start n : ℕ} (hstart : previous < start) (hmost : start + n ≤ 2147483648) :
    pagesLoop previous (((List.range' start n).map Int.ofNat).map .int) =
      .ok ((List.range' start n).map Int.ofNat) := by
  induction n generalizing previous start with
  | zero => rfl
  | succ n ih =>
    have hpage : (0 : ℤ) < Int.ofNat start ∧ Int.ofNat start ≤ MAX_VERSION := by
      rw [MAX_VERSION]
      show (0 : ℤ) < (start : ℤ) ∧ (start : ℤ) ≤ 2147483647
      omega
    have hnext : (previous : ℤ) < Int.ofNat start := by
      show (previous : ℤ) < (start : ℤ)
      omega
    have hrest := ih (Nat.lt_succ_self start) (by omega)
    rw [List.range'_succ, List.map_cons, List.map_cons, pagesLoop, require_true hpage, require_true hnext]
    apply bind_ok.2
    refine ⟨(), rfl, bind_ok.2 ⟨(), rfl, bind_ok.2 ⟨_, hrest, rfl⟩⟩⟩

theorem checkPages_range {n : ℕ} (hn : 0 < n) (hmost : n ≤ 2147483647) :
    checkPages (.arr (((List.range' 1 n).map Int.ofNat).map .int)) =
      .ok ((List.range' 1 n).map Int.ofNat) := by
  have hpages := pagesLoop_range (by omega : 0 < 1) (by omega : 1 + n ≤ 2147483648)
  have hne : ((List.range' 1 n).map Int.ofNat).map Json.int ≠ [] := by
    intro hnil
    have hlength := congrArg List.length hnil
    rw [List.length_map, List.length_map, List.length_range', List.length_nil] at hlength
    omega
  rw [checkPages, require_true hne]
  exact hpages

/-- A text is at least as long as it has pages. -/
theorem sampleVersion_length (pages : List ℤ) :
    pages.length ≤ (dumps (versionObject ⟨1, [sampleCase pages]⟩)).length := by
  have hpages := dumps_count Json.int pages
  have hcase : (dumps (.arr (pages.map .int))).length ≤ (dumps (caseObject (sampleCase pages))).length := by
    have hmem : ("pages".toList, Json.arr (pages.map .int)) ∈
        [("answer".toList, Json.str (sampleCase pages).answer),
          ("case_key".toList, .str (sampleCase pages).caseKey), ("key".toList, .str (sampleCase pages).key),
          ("pages".toList, .arr (pages.map .int)), ("q".toList, .str (sampleCase pages).q),
          ("type".toList, .str (sampleCase pages).type.word)] :=
      .tail _ (.tail _ (.tail _ (.head _)))
    exact dumps_member hmem
  have hlist : (dumps (caseObject (sampleCase pages))).length ≤
      (dumps (.arr ([sampleCase pages].map caseObject))).length := dumps_item List.mem_cons_self
  have hversion : (dumps (.arr ([sampleCase pages].map caseObject))).length ≤
      (dumps (versionObject ⟨1, [sampleCase pages]⟩)).length :=
    dumps_member (m := ("cases".toList, .arr ([sampleCase pages].map caseObject))) List.mem_cons_self
  omega

/-- A version with more pages than a reader takes bytes. -/
theorem oversized_refused : ¬ ∀ (value : Json) (v : EvalDatasetVersion) (bytes : ByteArray),
    validateVersion value = .ok v → canonicalVersionBytes v = .ok bytes →
      loadVersionJson bytes = .ok v := by
  intro hclaim
  obtain ⟨n, hmore, hmost⟩ : ∃ n : ℕ, 16777216 < n ∧ n ≤ 2147483647 := ⟨16777217, by omega, by omega⟩
  have hpages := checkPages_range (by omega : 0 < n) hmost
  have hlong : ((List.range' 1 n).map Int.ofNat).length = n := by
    rw [List.length_map, List.length_range']
  generalize (List.range' 1 n).map Int.ofNat = pages at hpages hlong
  have hvalid := sampleVersion_valid hpages
  have hload := hclaim _ _ _ hvalid (canonicalVersionBytes_ok hvalid)
  have hlength := sampleVersion_length pages
  have hbytes := length_le_encode (dumps (versionObject ⟨1, [sampleCase pages]⟩))
  have hlarge : ¬ (canonical (versionObject ⟨1, [sampleCase pages]⟩)).size ≤ MAX_JSON_BYTES := by
    rw [MAX_JSON_BYTES, canonical]
    omega
  rw [load_canonical hvalid, if_neg hlarge] at hload
  cases hload

/-- A governed dataset survives its own encoding. -/
theorem dataset_survives [Digest] :
    (∀ value v, validateVersion value = .ok v → ∃ bytes, canonicalVersionBytes v = .ok bytes ∧
      (bytes.size ≤ MAX_JSON_BYTES → loadVersionJson bytes = .ok v) ∧
      (MAX_JSON_BYTES < bytes.size → loadVersionJson bytes = .error "eval_json_invalid")) ∧
    (∀ value value' v w, validateVersion value = .ok v → validateVersion value' = .ok w →
      canonicalVersionBytes v = canonicalVersionBytes w → v = w) ∧
    (∀ s a d v r offered s' replaced rows t, drafts.Reachable s →
      replaceEvalCases a d v r offered s = .ok (s', replaced) → rows.Perm s'.cases →
      drafts.Later { s' with cases := rows } t →
      ((∃ row ∈ t.versions, row.id = v ∧ row.revision = replaced.revision) →
        ∃ cases, recomputed t v = .ok (cases, replaced.contentSha256)) ∧
      ∀ a' d' epoch expected t' published,
        publishEvalVersion a' d' v replaced.revision epoch expected t = .ok (t', published) →
        published.contentSha256 = replaced.contentSha256) := by
  refine ⟨?_, ?_, ?_⟩
  · intro value v hvalue
    have hvalid := validateVersion_object hvalue
    have hload := load_canonical hvalid
    refine ⟨_, canonicalVersionBytes_ok hvalid, ?_, ?_⟩
    · intro hsmall
      rw [hload, if_pos hsmall]
    · intro hlarge
      rw [hload, if_neg (Nat.not_le.2 hlarge)]
  · intro value value' v w hv hw hbytes
    have hv' := validateVersion_object hv
    have hw' := validateVersion_object hw
    rw [canonicalVersionBytes_ok hv', canonicalVersionBytes_ok hw'] at hbytes
    exact canonical_injective hv' hw' (Except.ok.inj hbytes)
  · intro s a d v r offered s' replaced rows t hs hreplace hperm hlater
    have hkept := digest_kept hs hreplace hperm hlater
    refine ⟨hkept, ?_⟩
    intro a' d' epoch expected t' published hpublish
    obtain ⟨hrevision, ⟨cases, hdigest⟩, -⟩ := publish_ok hpublish
    obtain ⟨cases', hsame⟩ := hkept hrevision
    rw [hdigest] at hsame
    exact congrArg Prod.snd (Except.ok.inj hsame)

attribute [local instance] bytesEq

def sampleBody : Json := .obj [("cases".toList, .arr ([sampleCase [1, 3]].map caseObject))]

/-- The digests of the sample. -/
@[reducible] def sampleDigest : Digest where
  sha256 b :=
    if b = canonical (caseObject (sampleCase [1, 3])) then ⟨#[0x55, 0x60, 0x89, 0xf7, 0x8c, 0x73, 0x0f, 0xcf, 0xaf, 0x47, 0x83, 0x49, 0x79, 0x71, 0xb4, 0xa8,
      0x5f, 0xfd, 0x3f, 0x03, 0x0b, 0x04, 0x0b, 0x7e, 0x1b, 0x0d, 0x93, 0x41, 0x5d, 0xe7, 0x7a, 0x3e]⟩
    else if b = canonical sampleBody then ⟨#[0x83, 0xdc, 0x22, 0x20, 0x56, 0x94, 0x5e, 0x5f, 0xcb, 0xba, 0x1e, 0x4c, 0x65, 0x91, 0x40, 0x43,
      0x1c, 0xba, 0x1f, 0xec, 0xd3, 0xd8, 0xd9, 0x08, 0x0a, 0xcf, 0x82, 0x48, 0x89, 0xd9, 0x8c, 0x9c]⟩
    else ByteArray.empty

attribute [local instance] sampleDigest

def sampleAuthority : Authority := ⟨some 1, fun _ => true⟩

def sampleStore : Store := ⟨[⟨1, true, 1, none⟩], [⟨2, 1, 1, .draft, 1, 0, none⟩], []⟩

/-- A draft of one case, replaced and read back. -/
theorem dataset_survives_sample :
    (∃ bytes, canonicalVersionBytes ⟨1, [sampleCase [1, 3]]⟩ = .ok bytes ∧
      loadVersionJson bytes = .ok ⟨1, [sampleCase [1, 3]]⟩) ∧
    (∃ s' replaced cases, replaceEvalCases sampleAuthority 1 2 1 [.case (sampleCase [1, 3])] sampleStore =
      .ok (s', replaced) ∧ recomputed s' 2 = .ok (cases, replaced.contentSha256)) := by
  obtain ⟨hload, hsame, hdigest⟩ := dataset_survives
  have hpages : checkPages (.arr ([1, 3].map .int)) = .ok [1, 3] := by decide +kernel
  have hvalid := sampleVersion_valid hpages
  obtain ⟨bytes, hbytes, hsmall, -⟩ := hload _ _ hvalid
  have hsize : (canonical (versionObject ⟨1, [sampleCase [1, 3]]⟩)).size ≤ MAX_JSON_BYTES := by
    decide +kernel
  have hself := hsame _ _ _ _ hvalid hvalid rfl
  rw [canonicalVersionBytes_ok hvalid] at hbytes
  obtain rfl := Except.ok.inj hbytes
  refine ⟨⟨_, canonicalVersionBytes_ok hvalid, hsmall hsize⟩, ?_⟩
  have hempty : drafts.Reachable ⟨sampleStore.datasets, [], []⟩ := .start ⟨rfl, rfl⟩
  have hstart : drafts.Reachable sampleStore :=
    hempty.next (a := .create ⟨2, 1, 1, .draft, 1, 0, none⟩) (Step.create (by simp))
  have hreplaced : (replaceEvalCases sampleAuthority 1 2 1 [.case (sampleCase [1, 3])] sampleStore).isOk =
      true := by decide +kernel
  cases hresult : replaceEvalCases sampleAuthority 1 2 1 [.case (sampleCase [1, 3])] sampleStore with
  | error e =>
    rw [hresult] at hreplaced
    cases hreplaced
  | ok result =>
    obtain ⟨s', replaced⟩ := result
    obtain ⟨hkept, -⟩ := hdigest _ _ _ _ _ _ _ _ _ s' hstart hresult (List.Perm.refl _) .refl
    obtain ⟨_, _, _, _, ⟨row, hrow, hid, hrevision⟩, hraised, _, hnext, _⟩ := replace_ok hresult
    obtain ⟨new, hnew, hnewid⟩ := hraised.forth hrow
    obtain ⟨old, hold, holdid, hlevel⟩ := hraised.back hnew
    have honly : old = row := List.inj_on_of_nodup_map (nodup_run hstart) hold hrow
      (holdid.trans hnewid)
    rw [honly, if_pos hid, hrevision] at hlevel
    obtain ⟨cases, hcases⟩ := hkept ⟨new, hnew, hnewid.trans hid, hlevel.trans hnext.symm⟩
    exact ⟨s', replaced, cases, rfl, hcases⟩

end RagPipeline.Datasets
