import RagPipeline.Scan.Marks
import Mathlib.Data.List.Forall2

/-! # When a verdict can be trusted

A scan of one commit, or of the working tree, says clean only where everything
was read and nothing was found. Merging the reports of several commits keeps
every bucket but the one of the files that were not read. -/

set_option autoImplicit false

namespace RagPipeline.Scan
open Guard

namespace Verdict

variable {l : List Verdict} {v u : Verdict}

theorem worse_failed : worse v u = failed ↔ v = failed ∨ u = failed := by
  cases v <;> cases u <;> decide

theorem worse_clean : worse v u = clean ↔ v = clean ∧ u = clean := by
  cases v <;> cases u <;> decide

theorem worst_failed : worst l = failed ↔ failed ∈ l := by
  induction l with
  | nil => simp [worst]
  | cons v l ih =>
    show worse v (worst l) = failed ↔ _
    rw [worse_failed, ih, List.mem_cons, eq_comm]

theorem worst_clean : worst l = clean ↔ ∀ v ∈ l, v = clean := by
  induction l with
  | nil => simp [worst]
  | cons v l ih =>
    show worse v (worst l) = clean ↔ _
    rw [worse_clean, ih, List.forall_mem_cons]

/-- There are three of them. -/
theorem eq_of_ends (hfailed : v = failed ↔ u = failed) (hclean : v = clean ↔ u = clean) : v = u := by
  cases v <;> cases u <;> simp_all

theorem ofFlags_failed {hard soft : Bool} : ofFlags hard soft = failed ↔ hard = true := by
  cases hard <;> cases soft <;> decide

theorem ofFlags_clean {hard soft : Bool} : ofFlags hard soft = clean ↔ hard = false ∧ soft = false := by
  cases hard <;> cases soft <;> decide

end Verdict

/-! ## Merged reports -/

section
variable {r p : Report} {parts : List Report}

theorem merge_hard : (r.merge p).hard = false ↔ r.hard = false ∧ p.hard = false := by
  simp only [Report.hard, Report.merge, Bool.not_eq_false', Bool.and_eq_true, List.isEmpty_iff,
    Dict.update_nil]
  tauto

theorem merge_soft : (r.merge p).soft = false ↔ r.soft = false ∧ p.soft = false := by
  simp only [Report.soft, Report.merge, Bool.not_eq_false', Bool.and_eq_true, List.isEmpty_iff,
    Dict.update_nil]
  tauto

/-- What the merged report keeps of its parts, and what it does not. -/
theorem merged_flags (parts : List Report) (r : Report) :
    ((parts.foldl Report.merge r).hard = false ↔ r.hard = false ∧ ∀ p ∈ parts, p.hard = false) ∧
    ((parts.foldl Report.merge r).soft = false ↔ r.soft = false ∧ ∀ p ∈ parts, p.soft = false) ∧
    (parts.foldl Report.merge r).kapsamDisi = r.kapsamDisi := by
  induction parts generalizing r with
  | nil => simp
  | cons p parts ih =>
    obtain ⟨hhard, hsoft, hskipped⟩ := ih (r.merge p)
    rw [List.foldl_cons]
    refine ⟨?_, ?_, hskipped⟩
    · rw [hhard, merge_hard, List.forall_mem_cons, and_assoc]
    · rw [hsoft, merge_soft, List.forall_mem_cons, and_assoc]

theorem mapM_mem {ε α β : Type} {f : α → Except ε β} {l : List α} {bs : List β} {b : β}
    (h : l.mapM f = .ok bs) : b ∈ bs ↔ ∃ a ∈ l, f a = .ok b := by
  induction l generalizing bs with
  | nil =>
    rw [List.mapM_nil, pure_ok] at h
    rw [← h]
    simp
  | cons a l ih =>
    simp only [List.mapM_cons, bind_ok, pure_ok] at h
    obtain ⟨b', hb', rest, hrest, rfl⟩ := h
    simp only [List.mem_cons, ih hrest, exists_eq_or_imp, hb', Except.ok.injEq, eq_comm (a := b)]

end

/-! ## What is scanned -/

section
variable [Tables] (e : Environment)

/-- The sets of files that are scanned, each with the texts beside it: one for each commit, or the
working tree. -/
def Environment.groups (commits : List Commit) : List (List Source × List (Text × Text)) :=
  if commits.isEmpty then [(e.sources, e.stagedBodies)]
  else commits.map fun c => (c.sources, [c.messageBody])

/-- Every file that is there was read as text. -/
def AllRead (commits : List Commit) : Prop :=
  ∀ g ∈ e.groups commits, ∀ f ∈ g.1, f.isFile = true → f.body.isSome = true

/-- No text of any group has a mark. -/
def NothingFound (corpora : Corpora) (width : ℕ) (commits : List Commit) : Prop :=
  ∀ g ∈ e.groups commits, ∀ x ∈ texts g.1 g.2, Unremarkable corpora width x.2

/-- Clean only if everything was read and nothing was found, and over several commits the worst
of what each alone gets. -/
def Sound (commits : List Commit) (width : ℕ) : Prop :=
  (verdict e commits width = .clean → ∃ corpora, e.corpora = .ok corpora ∧ AllRead e commits ∧
    NothingFound e corpora width commits) ∧
  (commits ≠ [] → verdict e commits width =
    .worst (commits.map fun c => verdict e [c] width))

/-- A file with the name of a source. -/
def NamesSource (corpora : Corpora) (name : Text) : Prop :=
  5 ≤ (pathStem name).length ∧ fold (pathStem name) ∈ corpora.dataStems ++ corpora.vocabStems

/-- There is something to scan, and apart from what cannot be read nothing is found. -/
def OtherwiseClean (commits : List Commit) (width : ℕ) : Prop :=
  ∃ corpora, (8 ≤ width ∧ width ≤ 64 ∧ e.corpora = .ok corpora) ∧ corpora.incomplete = false ∧
    (∀ name ∈ trackedFiles e commits, ¬ NamesSource corpora name) ∧
    (∀ g ∈ e.groups commits, g.1 ≠ [] ∧ texts g.1 g.2 ≠ []) ∧
    NothingFound e corpora width commits

variable {e} {corpora : Corpora} {width : ℕ} {commits : List Commit}

theorem skipped_nil {files : List Source} :
    skipped files = [] ↔ ∀ f ∈ files, f.isFile = true → f.body.isSome = true := by
  rw [skipped, sorted_nil, List.map_eq_nil_iff, List.filter_eq_nil_iff]
  apply forall₂_congr
  intro f _
  cases f.body <;> cases f.isFile <;> simp

theorem nameHits_nil {files : List Text} :
    nameHits corpora files = [] ↔ ∀ name ∈ files, ¬ NamesSource corpora name := by
  rw [nameHits, sorted_nil, List.dedup_eq_nil, List.filter_eq_nil_iff]
  simp only [Bool.and_eq_true, decide_eq_true_eq, List.contains_iff_mem, NamesSource]

omit [Tables] in
theorem mem_groups {commits : List Commit} (h : commits ≠ [])
    {g : List Source × List (Text × Text)} :
    g ∈ e.groups commits ↔ ∃ c ∈ commits, (c.sources, [c.messageBody]) = g := by
  rw [Environment.groups, if_neg (by simpa using h), List.mem_map]

omit [Tables] in
theorem group_one {c : Commit} : e.groups [c] = [(c.sources, [c.messageBody])] := rfl

/-- One set of files is scanned as it is, several have their reports merged. -/
theorem report_cases (e : Environment) (corpora : Corpora) (width : ℕ) (commits : List Commit) :
    (commits.length < 2 ∧ ∃ g, e.groups commits = [g] ∧
      report e corpora commits width = scan corpora width g.1 g.2) ∨
    (2 ≤ commits.length ∧ report e corpora commits width =
      (commits.mapM (Commit.scanned corpora width)).map fun parts =>
        parts.foldl Report.merge .empty) := by
  match commits with
  | [] => exact .inl ⟨by decide, _, rfl, rfl⟩
  | [c] => exact .inl ⟨by simp, _, rfl, rfl⟩
  | c :: c' :: rest =>
    refine .inr ⟨by simp, ?_⟩
    rw [report]
    · cases List.mapM (Commit.scanned corpora width) (c :: c' :: rest) <;> rfl
    · intro h
      cases h
    · intro _ h
      cases h

/-- The report is there where each group can be scanned. -/
theorem report_exists : (∃ r, report e corpora commits width = .ok r) ↔
    ∀ g ∈ e.groups commits, ∃ p, scan corpora width g.1 g.2 = .ok p := by
  rcases report_cases e corpora width commits with ⟨-, g, hg, hreport⟩ | ⟨hlength, hreport⟩
  · rw [hreport, hg, List.forall_mem_singleton]
  · have hne : commits ≠ [] := by
      intro h
      rw [h] at hlength
      simp at hlength
    have hparts : (∃ r, report e corpora commits width = .ok r) ↔
        ∃ parts, commits.mapM (Commit.scanned corpora width) = .ok parts := by
      rw [hreport]
      cases commits.mapM (Commit.scanned corpora width) <;> simp [Except.map]
    rw [hparts, mapM_exists]
    constructor
    · intro h g hg
      obtain ⟨c, hc, rfl⟩ := (mem_groups hne).1 hg
      exact h c hc
    · intro h c hc
      exact h _ ((mem_groups hne).2 ⟨c, hc, rfl⟩)

/-- Its flags are those of the groups; the files that were not read are only kept where there is
one group. -/
theorem report_flags {r : Report} (h : report e corpora commits width = .ok r) :
    (r.hard = false ↔ ∀ g ∈ e.groups commits, ∀ p, scan corpora width g.1 g.2 = .ok p →
      p.hard = false) ∧
    (r.soft = false ↔ ∀ g ∈ e.groups commits, ∀ p, scan corpora width g.1 g.2 = .ok p →
      p.soft = false) ∧
    (r.kapsamDisi = [] ↔ (commits.length < 2 → AllRead e commits)) := by
  rcases report_cases e corpora width commits with ⟨hlength, g, hg, hreport⟩ | ⟨hlength, hreport⟩
  · rw [hreport] at h
    rw [AllRead, hg, scan_skipped h, skipped_nil]
    simp only [List.forall_mem_singleton, h, Except.ok.injEq, forall_eq', hlength, true_implies]
    exact ⟨trivial, trivial, trivial⟩
  · rw [hreport] at h
    have hne : commits ≠ [] := by
      intro hnil
      rw [hnil] at hlength
      simp at hlength
    cases hparts : commits.mapM (Commit.scanned corpora width) with
    | error m =>
      rw [hparts] at h
      cases h
    | ok parts =>
      rw [hparts] at h
      obtain rfl := Except.ok.inj h
      obtain ⟨hhard, hsoft, hskipped⟩ := merged_flags parts .empty
      have hall : ∀ P : Report → Prop, (∀ p ∈ parts, P p) ↔ ∀ g ∈ e.groups commits, ∀ p,
          scan corpora width g.1 g.2 = .ok p → P p := by
        intro P
        constructor
        · intro h g hg p hp
          obtain ⟨c, hc, rfl⟩ := (mem_groups hne).1 hg
          exact h p ((mapM_mem hparts).2 ⟨c, hc, hp⟩)
        · intro h p hp
          obtain ⟨c, hc, hscan⟩ := (mapM_mem hparts).1 hp
          exact h _ ((mem_groups hne).2 ⟨c, hc, rfl⟩) p hscan
      refine ⟨?_, ?_, ?_⟩
      · rw [hhard, hall fun p => p.hard = false]
        exact ⟨fun h => h.2, fun h => ⟨rfl, h⟩⟩
      · rw [hsoft, hall fun p => p.soft = false]
        exact ⟨fun h => h.2, fun h => ⟨rfl, h⟩⟩
      · rw [hskipped]
        exact ⟨fun _ hlt => absurd hlt (by omega), fun _ => rfl⟩

/-! ## The verdict -/

/-- What is checked before anything is scanned. -/
def Ready (e : Environment) (width : ℕ) (corpora : Corpora) : Prop :=
  8 ≤ width ∧ width ≤ 64 ∧ e.corpora = .ok corpora

omit [Tables] in
theorem Ready.unique {c c' : Corpora} (h : Ready e width c) (h' : Ready e width c') : c = c' :=
  Except.ok.inj (h.2.2.symm.trans h'.2.2)

theorem judged_ok {v : Verdict} : judged e commits width = .ok v ↔
    ∃ corpora r, Ready e width corpora ∧ report e corpora commits width = .ok r ∧
      v = .ofFlags r.hard (r.soft || !(nameHits corpora (trackedFiles e commits)).isEmpty ||
        !r.kapsamDisi.isEmpty || corpora.incomplete) := by
  simp only [judged, bind_ok, require_ok, exists_unit, pure_ok, Ready]
  constructor
  · intro h
    obtain ⟨hwidth, corpora, hcorpora, r, hr, rfl⟩ := h
    exact ⟨corpora, r, ⟨hwidth.1, hwidth.2, hcorpora⟩, hr, rfl⟩
  · intro h
    obtain ⟨corpora, r, ⟨hlow, hhigh, hcorpora⟩, hr, rfl⟩ := h
    exact ⟨⟨hlow, hhigh⟩, corpora, hcorpora, r, hr, rfl⟩

theorem verdict_eq {v : Verdict} (hv : v ≠ .failed) :
    verdict e commits width = v ↔ judged e commits width = .ok v := by
  rw [verdict]
  cases judged e commits width with
  | ok u => simp
  | error m => simp [hv.symm]

theorem verdict_failed : verdict e commits width ≠ .failed ↔ ∃ corpora, Ready e width corpora ∧
    ∀ g ∈ e.groups commits, ∃ p, scan corpora width g.1 g.2 = .ok p ∧ p.hard = false := by
  have hjudged : verdict e commits width ≠ .failed ↔
      ∃ v, judged e commits width = .ok v ∧ v ≠ .failed := by
    rw [verdict]
    cases judged e commits width <;> simp
  rw [hjudged]
  constructor
  · intro h
    obtain ⟨v, hv, hne⟩ := h
    obtain ⟨corpora, r, hready, hr, rfl⟩ := judged_ok.1 hv
    have hhard : r.hard = false := by
      by_contra hhard
      exact hne (Verdict.ofFlags_failed.2 (by simpa using hhard))
    refine ⟨corpora, hready, ?_⟩
    intro g hg
    obtain ⟨p, hp⟩ := report_exists.1 ⟨r, hr⟩ g hg
    exact ⟨p, hp, (report_flags hr).1.1 hhard g hg p hp⟩
  · intro h
    obtain ⟨corpora, hready, hall⟩ := h
    obtain ⟨r, hr⟩ := report_exists.2 fun g hg => (hall g hg).imp fun p hp => hp.1
    refine ⟨_, judged_ok.2 ⟨corpora, r, hready, hr, rfl⟩, ?_⟩
    intro hfailed
    have hhard : r.hard = false := (report_flags hr).1.2 fun g hg p hp => by
      obtain ⟨p', hp', hclear⟩ := hall g hg
      rw [hp'] at hp
      rwa [Except.ok.inj hp] at hclear
    rw [Verdict.ofFlags_failed, hhard] at hfailed
    cases hfailed

/-- Each group can be scanned and its buckets are empty. -/
theorem groups_quiet : (∀ g ∈ e.groups commits, ∃ p, scan corpora width g.1 g.2 = .ok p ∧
      p.hard = false ∧ p.soft = false) ↔
    (∀ g ∈ e.groups commits, g.1 ≠ [] ∧ texts g.1 g.2 ≠ []) ∧
      NothingFound e corpora width commits := by
  constructor
  · intro h
    constructor
    · intro g hg
      obtain ⟨p, hp, -⟩ := h g hg
      exact scan_ok_iff.1 ⟨p, hp⟩
    · intro g hg
      obtain ⟨p, hp, hflags⟩ := h g hg
      exact (scan_quiet hp).1 hflags
  · intro h g hg
    obtain ⟨p, hp⟩ := scan_ok_iff.2 (h.1 g hg)
    exact ⟨p, hp, (scan_quiet hp).2 (h.2 g hg)⟩

theorem verdict_clean : verdict e commits width = .clean ↔
    OtherwiseClean e commits width ∧ (commits.length < 2 → AllRead e commits) := by
  rw [verdict_eq (by decide), judged_ok]
  constructor
  · intro h
    obtain ⟨corpora, r, hready, hr, hclean⟩ := h
    obtain ⟨hhard, hrest⟩ := Verdict.ofFlags_clean.1 hclean.symm
    simp only [Bool.or_eq_false_iff, Bool.not_eq_false', List.isEmpty_iff] at hrest
    obtain ⟨⟨⟨hsoft, hnames⟩, hskipped⟩, hcomplete⟩ := hrest
    obtain ⟨hhards, hsofts, hread⟩ := report_flags hr
    have hquiet := groups_quiet.1 fun g hg => by
      obtain ⟨p, hp⟩ := report_exists.1 ⟨r, hr⟩ g hg
      exact ⟨p, hp, hhards.1 hhard g hg p hp, hsofts.1 hsoft g hg p hp⟩
    exact ⟨⟨corpora, hready, hcomplete, nameHits_nil.1 hnames, hquiet.1, hquiet.2⟩,
      hread.1 hskipped⟩
  · intro h
    obtain ⟨⟨corpora, hready, hcomplete, hnames, htexts, hnothing⟩, hread⟩ := h
    have hquiet := groups_quiet.2 ⟨htexts, hnothing⟩
    obtain ⟨r, hr⟩ := report_exists.2 fun g hg => (hquiet g hg).imp fun p hp => hp.1
    obtain ⟨hhards, hsofts, hskipped⟩ := report_flags hr
    have hflags : ∀ g ∈ e.groups commits, ∀ p, scan corpora width g.1 g.2 = .ok p →
        p.hard = false ∧ p.soft = false := by
      intro g hg p hp
      obtain ⟨p', hp', hflags⟩ := hquiet g hg
      rw [hp'] at hp
      rwa [Except.ok.inj hp] at hflags
    refine ⟨corpora, r, hready, hr, ?_⟩
    rw [hhards.2 fun g hg p hp => (hflags g hg p hp).1,
      hsofts.2 fun g hg p hp => (hflags g hg p hp).2, hskipped.2 hread, nameHits_nil.2 hnames,
      hcomplete]
    rfl

/-! ## Several commits -/

omit [Tables] in
theorem mem_trackedFiles (h : commits ≠ []) {name : Text} :
    name ∈ trackedFiles e commits ↔ ∃ c ∈ commits, name ∈ c.files := by
  rw [trackedFiles, if_neg (by simpa using h), sorted, List.mem_insertionSort, List.mem_dedup,
    List.mem_flatMap]

omit [Tables] in
/-- What holds of every group holds of the group of each commit alone. -/
theorem groups_each (h : commits ≠ []) {P : List Source × List (Text × Text) → Prop} :
    (∀ g ∈ e.groups commits, P g) ↔ ∀ c ∈ commits, ∀ g ∈ e.groups [c], P g := by
  constructor
  · intro hall c hc g hg
    rw [group_one, List.mem_singleton] at hg
    exact hall g ((mem_groups h).2 ⟨c, hc, hg.symm⟩)
  · intro hall g hg
    obtain ⟨c, hc, rfl⟩ := (mem_groups h).1 hg
    exact hall c hc _ List.mem_cons_self

theorem allRead_each (h : commits ≠ []) :
    AllRead e commits ↔ ∀ c ∈ commits, AllRead e [c] := groups_each h

theorem otherwiseClean_each (h : commits ≠ []) :
    OtherwiseClean e commits width ↔ ∀ c ∈ commits, OtherwiseClean e [c] width := by
  constructor
  · intro hclean c hc
    obtain ⟨corpora, hready, hcomplete, hnames, htexts, hnothing⟩ := hclean
    refine ⟨corpora, hready, hcomplete, ?_, (groups_each h).1 htexts c hc,
      (groups_each h).1 hnothing c hc⟩
    intro name hname
    obtain ⟨c', hc', hmem⟩ := (mem_trackedFiles (List.cons_ne_nil _ _)).1 hname
    rw [List.mem_singleton.1 hc'] at hmem
    exact hnames name ((mem_trackedFiles h).2 ⟨c, hc, hmem⟩)
  · intro hclean
    obtain ⟨c, hc⟩ := List.exists_mem_of_ne_nil _ h
    obtain ⟨corpora, hready, hcomplete, -⟩ := hclean c hc
    have hsame : ∀ c ∈ commits, (∀ name ∈ trackedFiles e [c], ¬ NamesSource corpora name) ∧
        (∀ g ∈ e.groups [c], g.1 ≠ [] ∧ texts g.1 g.2 ≠ []) ∧
        NothingFound e corpora width [c] := by
      intro c hc
      obtain ⟨corpora', hready', -, hrest⟩ := hclean c hc
      rwa [Ready.unique hready' hready] at hrest
    refine ⟨corpora, hready, hcomplete, ?_, (groups_each h).2 fun c hc => (hsame c hc).2.1,
      (groups_each h).2 fun c hc => (hsame c hc).2.2⟩
    intro name hname
    obtain ⟨c, hc, hmem⟩ := (mem_trackedFiles h).1 hname
    exact (hsame c hc).1 name
      ((mem_trackedFiles (List.cons_ne_nil _ _)).2 ⟨c, List.mem_cons_self, hmem⟩)

theorem failed_each (h : commits ≠ []) : verdict e commits width ≠ .failed ↔
    ∀ c ∈ commits, verdict e [c] width ≠ .failed := by
  simp only [verdict_failed]
  constructor
  · intro hall c hc
    obtain ⟨corpora, hready, hgroups⟩ := hall
    exact ⟨corpora, hready, (groups_each h).1 hgroups c hc⟩
  · intro hall
    obtain ⟨c, hc⟩ := List.exists_mem_of_ne_nil _ h
    obtain ⟨corpora, hready, -⟩ := hall c hc
    refine ⟨corpora, hready, (groups_each h).2 ?_⟩
    intro c hc
    obtain ⟨corpora', hready', hgroups⟩ := hall c hc
    rwa [Ready.unique hready' hready] at hgroups

/-- The worst of the single verdicts, unless only what was not read speaks against the whole. -/
theorem verdict_worst (h : commits ≠ []) (hread : commits.length < 2 ∨ AllRead e commits ∨
    ¬ OtherwiseClean e commits width) :
    verdict e commits width = .worst (commits.map fun c => verdict e [c] width) := by
  apply Verdict.eq_of_ends
  · rw [Verdict.worst_failed, List.mem_map, ← not_iff_not]
    show verdict e commits width ≠ .failed ↔ _
    rw [failed_each h]
    constructor
    · intro hall hfailed
      obtain ⟨c, hc, hv⟩ := hfailed
      exact hall c hc hv
    · intro hnone c hc hv
      exact hnone ⟨c, hc, hv⟩
  · rw [Verdict.worst_clean, List.forall_mem_map, verdict_clean]
    have hone : ∀ c : Commit, verdict e [c] width = .clean ↔
        OtherwiseClean e [c] width ∧ AllRead e [c] := by
      intro c
      rw [verdict_clean]
      simp
    simp only [hone, forall_and, ← otherwiseClean_each h, ← allRead_each h]
    constructor
    · intro hclean
      refine ⟨hclean.1, ?_⟩
      rcases hread with hlength | hread | hnot
      · exact hclean.2 hlength
      · exact hread
      · exact absurd hclean.1 hnot
    · intro hclean
      exact ⟨hclean.1, fun _ => hclean.2⟩

/-- The verdict can be trusted unless there are several commits, some file of them was not read,
and nothing else speaks against them. -/
theorem sound_iff : Sound e commits width ↔
    commits.length < 2 ∨ AllRead e commits ∨ ¬ OtherwiseClean e commits width := by
  constructor
  · intro hsound
    by_contra hnot
    simp only [not_or, not_not] at hnot
    obtain ⟨hlength, hread, hclean⟩ := hnot
    have hverdict : verdict e commits width = .clean :=
      verdict_clean.2 ⟨hclean, fun hlt => absurd hlt hlength⟩
    obtain ⟨-, -, hall, -⟩ := hsound.1 hverdict
    exact hread hall
  · intro hor
    constructor
    · intro hverdict
      obtain ⟨hclean, hread⟩ := verdict_clean.1 hverdict
      have hall : AllRead e commits := by
        rcases hor with hlength | hall | hnot
        · exact hread hlength
        · exact hall
        · exact absurd hclean hnot
      obtain ⟨corpora, hready, -, -, -, hnothing⟩ := hclean
      exact ⟨corpora, hready.2.2, hall, hnothing⟩
    · intro hne
      exact verdict_worst hne hor

end

/-! ## A picture in the second of two commits -/

/-- Tables for a text of small letters. -/
@[reducible] def smallTables : Tables where
  lower := id
  nfkd := id
  combining _ := false
  alnum _ := false
  aboveFloor _ := false

def noteCommit : Commit where
  id := ['a']
  message := ['i', 'l', 'k']
  files := [['n', '.', 'm', 'd']]
  content name := if name = ['n', '.', 'm', 'd'] then some ['n', 'o', 't'] else none

def pictureCommit : Commit where
  id := ['b']
  message := ['s', 'o', 'n']
  files := [['l', '.', 'p', 'n', 'g']]
  content _ := some []

def smallEnvironment : Environment where
  corpora := .ok ⟨['k', 'o', 'r', 'p', 'u', 's'], ['k', 'o', 'r', 'p', 'u', 's'], [], [], 0, [], [], []⟩
  tree := []
  staged := []

/-- The picture was not read, the commit alone needs a look, and the two together are clean. -/
theorem picture_unread :
    @verdict smallTables smallEnvironment [noteCommit, pictureCommit] 14 = .clean ∧
    @verdict smallTables smallEnvironment [pictureCommit] 14 = .triage ∧
    ¬ @Sound smallTables smallEnvironment [noteCommit, pictureCommit] 14 := by
  have hclean : @verdict smallTables smallEnvironment [noteCommit, pictureCommit] 14 = .clean := by
    decide +kernel
  refine ⟨hclean, by decide +kernel, ?_⟩
  intro hsound
  obtain ⟨-, -, hread, -⟩ := hsound.1 hclean
  have hpicture := hread (pictureCommit.sources, [pictureCommit.messageBody])
    (List.mem_cons_of_mem _ List.mem_cons_self) ⟨['l', '.', 'p', 'n', 'g'], true, some []⟩
    (by decide +kernel) rfl
  exact absurd hpicture (by decide +kernel)

end RagPipeline.Scan
