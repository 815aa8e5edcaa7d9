import RagPipeline.Scan.Report

/-! # What a report says of the texts

A bucket is empty where no text has its mark, and the buckets of the two
haystacks are where no text shares a window with either. -/

set_option autoImplicit false

namespace RagPipeline.Scan
open Guard Regex

/-! ## Dictionaries -/

namespace Dict

variable {ν : Type} {d d' : Dict ν} {k : Text} {v : ν}

theorem put_ne_nil : d.put k v ≠ [] := by
  rw [put]
  split
  case isTrue hk =>
    intro h
    rw [List.map_eq_nil_iff.1 h] at hk
    cases hk
  case isFalse => exact List.append_ne_nil_of_right_ne_nil _ (List.cons_ne_nil _ _)

theorem note_nil {o : Option ν} : d.note k o = [] ↔ d = [] ∧ o = none := by
  cases o with
  | none => simp [note]
  | some v => simp [note, put_ne_nil]

theorem update_nil : d.update d' = [] ↔ d = [] ∧ d' = [] := by
  have hne : ∀ (l : Dict ν) (a : Dict ν), a ≠ [] → l.foldl (fun d p => d.put p.1 p.2) a ≠ [] := by
    intro l
    induction l with
    | nil =>
      intro a ha
      exact ha
    | cons p l ih =>
      intro a _
      exact ih _ put_ne_nil
  cases d' with
  | nil => simp [update]
  | cons p l =>
    constructor
    · intro h
      exact absurd h (hne l _ put_ne_nil)
    · intro h
      cases h.2

/-- A bucket after a pass has an entry where it had one or where a text has something. -/
theorem fold_nil {σ α : Type} (step : σ → α → σ) (bucket : σ → Dict ν) (name : α → Text)
    (found : α → Option ν)
    (h : ∀ s x, bucket (step s x) = (bucket s).note (name x) (found x)) (l : List α) (s : σ) :
    bucket (l.foldl step s) = [] ↔ bucket s = [] ∧ ∀ x ∈ l, found x = none := by
  induction l generalizing s with
  | nil => simp
  | cons x l ih => rw [List.foldl_cons, ih, h, note_nil, List.forall_mem_cons, and_assoc]

end Dict

/-! ## Windows -/

theorem mem_windowsOf {width : ℕ} {w l : Text} :
    w ∈ windowsOf width l ↔ w.length = width ∧ w <:+: l := by
  simp only [windowsOf, List.mem_map, List.mem_range]
  constructor
  · intro h
    obtain ⟨i, hi, rfl⟩ := h
    constructor
    · rw [List.length_take, List.length_drop]
      omega
    · exact (List.take_prefix _ _).isInfix.trans (List.drop_suffix _ _).isInfix
  · intro h
    obtain ⟨hlength, a, b, rfl⟩ := h
    refine ⟨a.length, ?_, ?_⟩
    · simp only [List.length_append]
      omega
    · rw [List.append_assoc, List.drop_left, ← hlength, List.take_left]

theorem ifAny_none {α : Type} {l : List α} : ifAny l = none ↔ l = [] := by
  cases l <;> simp [ifAny]

theorem sorted_nil {α : Type} [LinearOrder α] {l : List α} : sorted l = [] ↔ l = [] := by
  rw [← List.length_eq_zero_iff, sorted, List.length_insertionSort, List.length_eq_zero_iff]

section
variable [Tables] {corpora : Corpora} {width : ℕ} {items : List (Text × Text)}

/-! ## The marks of a text -/

/-- A text has a window of a corpus. -/
def Shares (width : ℕ) (corpus body : Text) : Prop :=
  ∃ w : Text, w.length = width ∧ w <:+: fold body ∧ w <:+: corpus

def HasSecret (body : Text) : Prop :=
  ∃ label : Label, ∃ m ∈ finditer label.pattern body, documentedPlaceholder label m.2 = false

def HasInvisible (body : Text) : Prop := ∃ p ∈ invisible, p.1 ∈ body

def HasStem (stems : List Text) (body : Text) : Prop :=
  ∃ piece ∈ stems, 4 ≤ piece.length ∧ stemSearch piece (fold body) = true

def HasEntropy (body : Text) : Prop :=
  ∃ m ∈ finditer entropyToken body, Tables.aboveFloor ((m.2.drop 1).dropLast) = true

/-- A text that nothing is found in. -/
structure Unremarkable (corpora : Corpora) (width : ℕ) (body : Text) : Prop where
  documents : ¬ Shares width corpora.documents body
  full : ¬ Shares width corpora.full body
  secrets : ¬ HasSecret body
  invisible : ¬ HasInvisible body
  stems : ¬ HasStem corpora.dataStems body
  vocab : ¬ HasStem corpora.vocabStems body
  entropy : ¬ HasEntropy body

omit [Tables] in
theorem mem_labels (label : Label) : label ∈ labels := by
  cases label <;> decide

theorem secretLabels_nil {body : Text} : secretLabels body = [] ↔ ¬ HasSecret body := by
  rw [secretLabels, List.filter_eq_nil_iff, HasSecret]
  constructor
  · intro h hsecret
    obtain ⟨label, m, hm, hplain⟩ := hsecret
    apply h label (mem_labels label)
    rw [List.any_eq_true]
    exact ⟨m, hm, by rw [hplain]; rfl⟩
  · intro h label _ hany
    obtain ⟨m, hm, hplain⟩ := List.any_eq_true.1 hany
    exact h ⟨label, m, hm, by simpa using hplain⟩

omit [Tables] in
theorem ghosts_nil {body : Text} : ghosts body = [] ↔ ¬ HasInvisible body := by
  rw [ghosts, List.filter_eq_nil_iff, HasInvisible]
  constructor
  · intro h hinvisible
    obtain ⟨p, hp, hbody⟩ := hinvisible
    have hlabel : p.2 ∈ [Ghost.bidi, .bom, .nbsp, .nnbsp, .zwsp] := by
      cases p.2 <;> decide
    apply h p.2 hlabel
    rw [List.any_eq_true]
    refine ⟨p, hp, ?_⟩
    simpa using hbody
  · intro h label _ hany
    obtain ⟨p, hp, hfound⟩ := List.any_eq_true.1 hany
    rw [Bool.and_eq_true, List.contains_iff_mem] at hfound
    exact h ⟨p, hp, hfound.2⟩

theorem foundStems_nil {stems : List Text} {body : Text} :
    foundStems (longEnough stems) (fold body) = [] ↔ ¬ HasStem stems body := by
  rw [foundStems, sorted_nil, List.map_eq_nil_iff, List.filter_eq_nil_iff, HasStem]
  simp only [longEnough, List.mem_filter, decide_eq_true_eq]
  constructor
  · intro h hstem
    obtain ⟨piece, hpiece, hlength, hfound⟩ := hstem
    exact h piece ⟨hpiece, hlength⟩ hfound
  · intro h piece hpiece hfound
    exact h ⟨piece, hpiece.1, hpiece.2, hfound⟩

theorem entropic_none {body : Text} : entropic (entropicLines body) = none ↔ ¬ HasEntropy body := by
  have hlines : entropicLines body = [] ↔ ¬ HasEntropy body := by
    rw [entropicLines, List.map_eq_nil_iff, List.filter_eq_nil_iff, HasEntropy]
    constructor
    · intro h hentropy
      obtain ⟨m, hm, habove⟩ := hentropy
      exact h m hm habove
    · intro h m hm habove
      exact h ⟨m, hm, habove⟩
  rw [← hlines, entropic]
  cases entropicLines body <;> simp

/-! ## A pass -/

theorem taken_files : (taken corpora width items).report.files = items.length := by
  have hstep : ∀ s : Taken, (items.foldl (take corpora width) s).report.files =
      s.report.files + items.length := by
    induction items with
    | nil =>
      intro s
      rfl
    | cons x items ih =>
      intro s
      rw [List.foldl_cons, ih, List.length_cons]
      show s.report.files + 1 + items.length = _
      omega
  rw [taken, hstep]
  show 0 + items.length = items.length
  omega

theorem mem_taken_windows {p : Text × Text} : p ∈ (taken corpora width items).windows ↔
    ∃ x ∈ items, p.1 ∈ windowsOf width (fold x.2) ∧ p.2 = x.1 := by
  have hstep : ∀ s : Taken, (items.foldl (take corpora width) s).windows = s.windows ++
      items.flatMap fun x => (windowsOf width (fold x.2)).map fun w => (w, x.1) := by
    induction items with
    | nil =>
      intro s
      simp
    | cons x items ih =>
      intro s
      rw [List.foldl_cons, ih, List.flatMap_cons, ← List.append_assoc]
      rfl
  rw [taken, hstep, List.nil_append, List.mem_flatMap]
  constructor
  · intro h
    obtain ⟨x, hx, hp⟩ := h
    obtain ⟨w, hw, rfl⟩ := List.mem_map.1 hp
    exact ⟨x, hx, hw, rfl⟩
  · intro h
    obtain ⟨x, hx, hw, hname⟩ := h
    exact ⟨x, hx, List.mem_map.2 ⟨p.1, hw, by rw [← hname]⟩⟩

section
variable (corpora width items)

theorem taken_secrets : (taken corpora width items).report.secrets = [] ∧
    (taken corpora width items).report.testSecrets = [] ↔ ∀ x ∈ items, ¬ HasSecret x.2 := by
  have hsecrets := Dict.fold_nil (take corpora width) (fun s : Taken => s.report.secrets) Prod.fst
    (fun x => if fixturePath x.1 then none else ifAny (secretLabels x.2))
    (fun _ _ => rfl) items ⟨.empty, [], []⟩
  have htests := Dict.fold_nil (take corpora width) (fun s : Taken => s.report.testSecrets) Prod.fst
    (fun x => if fixturePath x.1 then ifAny (secretLabels x.2) else none)
    (fun _ _ => rfl) items ⟨.empty, [], []⟩
  rw [taken, hsecrets, htests]
  constructor
  · intro h x hx
    rw [← secretLabels_nil, ← ifAny_none]
    by_cases hfixture : fixturePath x.1 = true
    · have hx := h.2.2 x hx
      rwa [if_pos hfixture] at hx
    · have hx := h.1.2 x hx
      rwa [if_neg hfixture] at hx
  · intro h
    refine ⟨⟨rfl, ?_⟩, rfl, ?_⟩
    · intro x hx
      rw [ifAny_none.2 (secretLabels_nil.2 (h x hx)), ite_self]
    · intro x hx
      rw [ifAny_none.2 (secretLabels_nil.2 (h x hx)), ite_self]

theorem taken_invisible :
    (taken corpora width items).report.invisible = [] ↔ ∀ x ∈ items, ¬ HasInvisible x.2 := by
  rw [taken, Dict.fold_nil (take corpora width) (fun s : Taken => s.report.invisible) Prod.fst
    (fun x => ifAny (ghosts x.2)) (fun _ _ => rfl)]
  simp only [ifAny_none, ghosts_nil]
  exact ⟨fun h => h.2, fun h => ⟨rfl, h⟩⟩

theorem taken_stems :
    (taken corpora width items).report.stemHits = [] ↔ ∀ x ∈ items, ¬ HasStem corpora.dataStems x.2 := by
  rw [taken, Dict.fold_nil (take corpora width) (fun s : Taken => s.report.stemHits) Prod.fst
    (fun x => (ifAny (foundStems (longEnough corpora.dataStems) (fold x.2))).map (·.take 8))
    (fun _ _ => rfl)]
  simp only [Option.map_eq_none_iff, ifAny_none, foundStems_nil]
  exact ⟨fun h => h.2, fun h => ⟨rfl, h⟩⟩

theorem taken_vocab : (taken corpora width items).report.stemVocabHits = [] ↔
    ∀ x ∈ items, ¬ HasStem corpora.vocabStems x.2 := by
  rw [taken, Dict.fold_nil (take corpora width) (fun s : Taken => s.report.stemVocabHits) Prod.fst
    (fun x => (ifAny (foundStems (longEnough corpora.vocabStems) (fold x.2))).map (·.take 8))
    (fun _ _ => rfl)]
  simp only [Option.map_eq_none_iff, ifAny_none, foundStems_nil]
  exact ⟨fun h => h.2, fun h => ⟨rfl, h⟩⟩

theorem taken_entropy :
    (taken corpora width items).report.yuksekEntropi = [] ↔ ∀ x ∈ items, ¬ HasEntropy x.2 := by
  rw [taken, Dict.fold_nil (take corpora width) (fun s : Taken => s.report.yuksekEntropi) Prod.fst
    (fun x => entropic (entropicLines x.2)) (fun _ _ => rfl)]
  simp only [entropic_none]
  exact ⟨fun h => h.2, fun h => ⟨rfl, h⟩⟩

end

/-! ## The haystacks -/

theorem located_nil {bodies : Dict Text} {found : List (Text × List Text)}
    (hnames : ∀ p ∈ found, p.2 ≠ []) : located bodies found = [] ↔ found = [] := by
  have hfold : ∀ (pairs : List (Text × Text)) (d : Dict Hit),
      pairs.foldl (locate bodies) d = [] ↔ d = [] ∧ pairs = [] := by
    intro pairs
    induction pairs with
    | nil => simp
    | cons p pairs ih =>
      intro d
      rw [List.foldl_cons, ih]
      simp [locate, Dict.put_ne_nil]
  rw [located, List.map_eq_nil_iff, ← List.length_eq_zero_iff, List.length_insertionSort,
    List.length_eq_zero_iff, hfold]
  constructor
  · intro h
    rw [List.flatMap_eq_nil_iff] at h
    apply List.eq_nil_iff_forall_not_mem.2
    intro p hp
    exact hnames p hp (List.map_eq_nil_iff.1 (h.2 p hp))
  · intro h
    rw [h]
    exact ⟨rfl, rfl⟩

omit [Tables] in
theorem mem_sweep {windows : List (Text × Text)} {corpus : Text} {p : Text × List Text}
    (h : p ∈ sweep width windows corpus) :
    p.1 ∈ windowsOf width corpus ∧ (∃ q ∈ windows, q.1 = p.1) ∧ p.2 ≠ [] := by
  obtain ⟨piece, hpiece, rfl⟩ := List.mem_map.1 h
  rw [List.mem_filter, List.mem_eraseDups, List.any_eq_true] at hpiece
  obtain ⟨hcorpus, q, hq, hsame⟩ := hpiece
  refine ⟨hcorpus, ⟨q, hq, eq_of_beq hsame⟩, ?_⟩
  intro hnil
  have hmem : q.2 ∈ ((windows.filter fun p => p.1 == piece).map Prod.snd).dedup :=
    List.mem_dedup.2 (List.mem_map_of_mem (List.mem_filter.2 ⟨hq, hsame⟩))
  rw [sorted_nil.1 hnil] at hmem
  cases hmem

omit [Tables] in
theorem sweep_of_window {windows : List (Text × Text)} {corpus : Text} {q : Text × Text}
    (hcorpus : q.1 ∈ windowsOf width corpus) (hq : q ∈ windows) :
    ∃ p ∈ sweep width windows corpus, p.1 = q.1 := by
  refine ⟨(q.1, _), List.mem_map.2 ⟨q.1, ?_, rfl⟩, rfl⟩
  rw [List.mem_filter, List.mem_eraseDups, List.any_eq_true]
  exact ⟨hcorpus, q, hq, beq_self_eq_true _⟩

/-- A sweep finds nothing where no text shares a window with the corpus. -/
theorem sweep_nil {corpus : Text} : sweep width (taken corpora width items).windows corpus = [] ↔
    ∀ x ∈ items, ¬ Shares width corpus x.2 := by
  rw [List.eq_nil_iff_forall_not_mem]
  constructor
  · intro h x hx hshares
    obtain ⟨w, hlength, hbody, hcorpus⟩ := hshares
    have hwindow : (w, x.1) ∈ (taken corpora width items).windows :=
      mem_taken_windows.2 ⟨x, hx, mem_windowsOf.2 ⟨hlength, hbody⟩, rfl⟩
    obtain ⟨p, hp, -⟩ := sweep_of_window (mem_windowsOf.2 ⟨hlength, hcorpus⟩) hwindow
    exact h p hp
  · intro h p hp
    obtain ⟨hcorpus, ⟨q, hq, hsame⟩, -⟩ := mem_sweep hp
    obtain ⟨x, hx, hwindow, -⟩ := mem_taken_windows.1 hq
    rw [hsame] at hwindow
    exact h x hx ⟨p.1, (mem_windowsOf.1 hwindow).1, (mem_windowsOf.1 hwindow).2,
      (mem_windowsOf.1 hcorpus).2⟩

/-- The three buckets of the haystacks have between them whatever either sweep found. -/
theorem haystacks_nil (bodies : Dict Text) (found whole : List (Text × List Text))
    (hfound : ∀ p ∈ found, p.2 ≠ []) (hwhole : ∀ p ∈ whole, p.2 ≠ []) :
    located bodies (found.filter fun p => isSpecific p.1) = [] ∧
      located bodies (found.filter fun p => !isSpecific p.1) = [] ∧
      located bodies (whole.filter fun p => !found.any fun q => q.1 == p.1) = [] ↔
    found = [] ∧ whole = [] := by
  rw [located_nil fun p hp => hfound p (List.mem_filter.1 hp).1,
    located_nil fun p hp => hfound p (List.mem_filter.1 hp).1,
    located_nil fun p hp => hwhole p (List.mem_filter.1 hp).1]
  constructor
  · intro h
    have hnone : found = [] := by
      apply List.eq_nil_iff_forall_not_mem.2
      intro p hp
      by_cases hspecific : isSpecific p.1 = true
      · exact List.filter_eq_nil_iff.1 h.1 p hp hspecific
      · exact List.filter_eq_nil_iff.1 h.2.1 p hp (by simpa using hspecific)
    refine ⟨hnone, ?_⟩
    apply List.eq_nil_iff_forall_not_mem.2
    intro p hp
    apply List.filter_eq_nil_iff.1 h.2.2 p hp
    rw [hnone]
    rfl
  · intro h
    rw [h.1, h.2]
    exact ⟨rfl, rfl, rfl⟩

/-! ## The report -/

variable {files : List Source} {extra : List (Text × Text)} {r : Report}

/-- The texts of a scan. -/
def texts (files : List Source) (extra : List (Text × Text)) : List (Text × Text) :=
  files.filterMap Source.body ++ extra

theorem scan_ok_iff : (∃ r, scan corpora width files extra = .ok r) ↔
    files ≠ [] ∧ texts files extra ≠ [] := by
  simp only [scan, bind_ok, require_ok, exists_unit, pure_ok, taken_files, texts]
  constructor
  · intro h
    obtain ⟨r, hfiles, htexts, -⟩ := h
    exact ⟨hfiles, fun hnil => htexts (List.length_eq_zero_iff.2 hnil)⟩
  · intro h
    exact ⟨_, h.1, fun hzero => h.2 (List.length_eq_zero_iff.1 hzero), rfl⟩

theorem scan_skipped (h : scan corpora width files extra = .ok r) : r.kapsamDisi = skipped files := by
  simp only [scan, bind_ok, require_ok, exists_unit, pure_ok] at h
  obtain ⟨-, -, rfl⟩ := h
  rfl

/-- The buckets are empty where no text is remarkable. -/
theorem scan_quiet (h : scan corpora width files extra = .ok r) :
    r.hard = false ∧ r.soft = false ↔ ∀ x ∈ texts files extra, Unremarkable corpora width x.2 := by
  simp only [scan, bind_ok, require_ok, exists_unit, pure_ok] at h
  obtain ⟨-, -, rfl⟩ := h
  have hhaystacks := haystacks_nil (taken corpora width (texts files extra)).bodies
    (sweep width (taken corpora width (texts files extra)).windows corpora.documents)
    (sweep width (taken corpora width (texts files extra)).windows corpora.full)
    (fun p hp => (mem_sweep hp).2.2) (fun p hp => (mem_sweep hp).2.2)
  have hsecrets := taken_secrets corpora width (texts files extra)
  have hinvisible := taken_invisible corpora width (texts files extra)
  have hstems := taken_stems corpora width (texts files extra)
  have hvocab := taken_vocab corpora width (texts files extra)
  have hentropy := taken_entropy corpora width (texts files extra)
  rw [sweep_nil, sweep_nil] at hhaystacks
  simp only [Report.hard, Report.soft, Bool.not_eq_false', Bool.and_eq_true, List.isEmpty_iff]
  constructor
  · intro h x hx
    obtain ⟨⟨⟨⟨hdocument, hsecret⟩, hghost⟩, hstem⟩, ⟨⟨⟨htest, hvocab'⟩, hhigh⟩, hprose⟩, hfull⟩ := h
    have hshares := hhaystacks.1 ⟨hdocument, hprose, hfull⟩
    exact ⟨hshares.1 x hx, hshares.2 x hx, hsecrets.1 ⟨hsecret, htest⟩ x hx, hinvisible.1 hghost x hx,
      hstems.1 hstem x hx, hvocab.1 hvocab' x hx, hentropy.1 hhigh x hx⟩
  · intro h
    obtain ⟨hdocument, hprose, hfull⟩ := hhaystacks.2
      ⟨fun x hx => (h x hx).documents, fun x hx => (h x hx).full⟩
    obtain ⟨hsecret, htest⟩ := hsecrets.2 fun x hx => (h x hx).secrets
    exact ⟨⟨⟨⟨hdocument, hsecret⟩, hinvisible.2 fun x hx => (h x hx).invisible⟩,
      hstems.2 fun x hx => (h x hx).stems⟩, ⟨⟨⟨htest, hvocab.2 fun x hx => (h x hx).vocab⟩,
      hentropy.2 fun x hx => (h x hx).entropy⟩, hprose⟩, hfull⟩

end

end RagPipeline.Scan
