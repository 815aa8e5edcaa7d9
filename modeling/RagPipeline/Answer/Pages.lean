import RagPipeline.Answer.Guard

/-! # What an accepted answer shows

An answer without a flag names passages that exist and quotes that stand in
them, each of its figures is read in the quotes together, and each page it
cites is a page of its evidence, as soon as its evidence has pages at all. -/

set_option autoImplicit false

namespace RagPipeline.Answer
open RagPipeline.Guard (bind_ok require_ok pure_ok)

variable {context : RagContext} {parsed : Parsed}

theorem mem_cited {p : Passage} : p ∈ cited parsed context ↔ Names context parsed p := by
  simp [cited, Names]

/-- The trusted page of a passage that the reply names. -/
def NamedPage (context : RagContext) (parsed : Parsed) (page : ℕ) : Prop :=
  ∃ p, Names context parsed p ∧ p.page = some page

theorem mem_named_pages {page : ℕ} :
    page ∈ (cited parsed context).filterMap Passage.page ↔ NamedPage context parsed page := by
  simp only [List.mem_filterMap, mem_cited, NamedPage]

theorem unambiguous_named {page : ℕ} (h : unambiguousEvidencePage parsed context = some page) :
    NamedPage context parsed page := by
  simp only [unambiguousEvidencePage] at h
  split at h
  · cases h
  · rename_i passages hmap
    split at h
    · rename_i first hpages
      cases h
      have hmem : some page ∈ passages.map Passage.page := by
        rw [← List.mem_dedup, hpages]
        simp
      obtain ⟨p, hpm, hpage⟩ := List.mem_map.1 hmem
      have hall : ∀ (l : List ℕ) (ps : List Passage), l.mapM context.find = some ps →
          ∀ p ∈ ps, ∃ n ∈ l, context.find n = some p := by
        intro l
        induction l with
        | nil => intro ps hps p hp; simp_all
        | cons n l ih =>
          intro ps hps p hp
          simp only [List.mapM_cons, Option.bind_eq_bind, Option.bind_eq_some_iff] at hps
          obtain ⟨q, hq, qs, hqs, heq⟩ := hps
          cases heq
          rcases List.mem_cons.1 hp with rfl | hp
          · exact ⟨n, List.mem_cons_self .., hq⟩
          · obtain ⟨m, hm, hfind⟩ := ih qs hqs p hp
            exact ⟨m, List.mem_cons_of_mem _ hm, hfind⟩
      obtain ⟨n, hn, hfind⟩ := hall _ _ hmap p hpm
      rw [handles, List.mem_eraseDups] at hn
      obtain ⟨item, hitem, rfl⟩ := List.mem_map.1 hn
      exact ⟨p, ⟨item, hitem, hfind⟩, hpage⟩
    · cases h

theorem mem_oncePerChunk {citations : List PageCitation} {c : PageCitation}
    (h : c ∈ oncePerChunk citations) : c ∈ citations := by
  have hstep (seen l : List PageCitation)
      (hc : c ∈ l.foldl (fun seen c =>
        if seen.any (·.chunkId = c.chunkId) then seen else seen ++ [c]) seen) :
      c ∈ seen ∨ c ∈ l := by
    induction l generalizing seen with
    | nil => exact .inl hc
    | cons d l ih =>
      rcases ih _ hc with hc | hc
      · dsimp only at hc
        split_ifs at hc
        · exact .inl hc
        · rcases List.mem_append.1 hc with hc | hc
          · exact .inl hc
          · exact .inr (by rw [List.mem_singleton.1 hc]; exact List.mem_cons_self ..)
      · exact .inr (List.mem_cons_of_mem _ hc)
  exact (hstep [] citations h).resolve_left List.not_mem_nil

theorem citationsFor_page {passages : List Passage} {source : CitationSource} {page : ℕ}
    {citations : List PageCitation} (h : citationsFor passages source page = .ok citations) :
    ∀ c ∈ citations, c.page = page := by
  simp only [citationsFor, bind_ok] at h
  obtain ⟨_, -, h⟩ := h
  cases pure_ok.1 h
  intro c hc
  split_ifs at hc with hempty
  · rw [List.mem_singleton.1 hc]
  · obtain ⟨p, -, rfl⟩ := List.mem_map.1 (mem_oncePerChunk hc)
    rfl

theorem pageCitations_named [Unicode] {citations : List PageCitation}
    (ha : isAbstention parsed.cevap = false)
    (hcited : ∀ pages, citedPages parsed.cevap = .ok pages →
      ∀ page ∈ pages, NamedPage context parsed page)
    (h : pageCitations parsed context = .ok citations) :
    ∀ c ∈ citations, NamedPage context parsed c.page := by
  simp only [pageCitations, ha, Bool.false_eq_true, if_false, bind_ok] at h
  obtain ⟨pages, hpages, h⟩ := h
  intro c hc
  split_ifs at h with hne
  · obtain ⟨lists, hlists, h⟩ := bind_ok.1 h
    cases pure_ok.1 h
    obtain ⟨l, hl, hcl⟩ := List.mem_flatten.1 hc
    have hall : ∀ (ps : List ℕ) (ls : List (List PageCitation)),
        ps.mapM (citationsFor ((handles parsed).filterMap context.find) .model) = .ok ls →
        ∀ l ∈ ls, ∃ page ∈ ps, ∀ c ∈ l, c.page = page := by
      intro ps
      induction ps with
      | nil => intro ls hls l hl; cases pure_ok.1 hls; cases hl
      | cons page ps ih =>
        intro ls hls l hl
        simp only [List.mapM_cons, bind_ok] at hls
        obtain ⟨first, hfirst, rest, hrest, heq⟩ := hls
        cases pure_ok.1 heq
        rcases List.mem_cons.1 hl with rfl | hl
        · exact ⟨page, List.mem_cons_self .., citationsFor_page hfirst⟩
        · obtain ⟨q, hq, hql⟩ := ih rest hrest l hl
          exact ⟨q, List.mem_cons_of_mem _ hq, hql⟩
    obtain ⟨page, hpage, hcp⟩ := hall pages lists hlists l hl
    rw [hcp c hcl]
    exact hcited pages hpages page hpage
  · cases hu : unambiguousEvidencePage parsed context with
    | none =>
      rw [hu] at h
      cases pure_ok.1 h
      cases hc
    | some page =>
      rw [hu] at h
      rw [citationsFor_page h c hc]
      exact unambiguous_named hu

section
variable [Unicode] {V : Type} [Arithmetic V] [LinearOrder V] {minimum : V} {derive : Bool}

/-- What it means that an answer, which is no refusal, carries no flag. -/
structure Clear (parsed : Parsed) (context : RagContext) (minimum : V) (derive : Bool) : Prop where
  evidence : parsed.dayanak ≠ []
  known : ∀ item ∈ parsed.dayanak, ∃ p, context.find item.pasaj = some p
  quotes : ∀ item ∈ parsed.dayanak, badQuote context item = false
  figures : unsupportedFigures parsed.cevap (quoted parsed) minimum derive = []
  pages : ∃ pages, citedPages parsed.cevap = .ok pages ∧
    (pages = [] → (unambiguousEvidencePage parsed context).isSome) ∧
    ((cited parsed context).filterMap Passage.page ≠ [] →
      ∀ page ∈ pages, page ∈ (cited parsed context).filterMap Passage.page)

theorem checkParsed_clear (ha : isAbstention parsed.cevap = false)
    (h : checkParsed parsed context minimum derive = .ok []) :
    Clear parsed context minimum derive := by
  simp only [checkParsed, ha, Bool.not_false, Bool.true_and, bind_ok, Bool.false_eq_true,
    if_false] at h
  obtain ⟨pages, hpages, stray, hstray, h⟩ := h
  have hnil := pure_ok.1 h
  simp only [List.append_eq_nil_iff] at hnil
  obtain ⟨⟨⟨⟨⟨hevidence, hhandles⟩, hquotes⟩, hpage⟩, hfigures⟩, hstrays⟩ := hnil
  refine ⟨?_, ?_, ?_, ?_, pages, hpages, ?_, ?_⟩
  · intro hempty
    simp [hempty] at hevidence
  · intro item hitem
    have hbad : badHandles parsed context = [] := by
      cases hb : badHandles parsed context with
      | nil => rfl
      | cons a as => simp [hb] at hhandles
    simp only [badHandles, List.map_eq_nil_iff, List.filter_eq_nil_iff] at hbad
    have hsome : (context.find item.pasaj).isSome = true := by
      simpa [Option.isSome_iff_ne_none] using hbad item hitem
    exact Option.isSome_iff_exists.1 hsome
  · intro item hitem
    have hbad : badQuotes parsed context = [] := by
      cases hb : badQuotes parsed context with
      | nil => rfl
      | cons a as => simp [hb] at hquotes
    simp only [badQuotes, List.map_eq_nil_iff, List.filter_eq_nil_iff] at hbad
    simpa using hbad item hitem
  · split at hfigures
    · split at hfigures
      · assumption
      · simp at hfigures
    · simp at hfigures
  · rintro rfl
    simpa [Option.isSome_iff_ne_none] using hpage
  · intro hknown page hmem
    rw [strayPages, if_neg hknown, hpages] at hstray
    have hs : stray = [] := by
      by_contra hne
      simp [hne] at hstrays
    cases hstray
    simp only [List.filter_eq_nil_iff] at hs
    simpa using hs page hmem

/-- A figure of an accepted answer is below the minimum, or one of its readings
is a reading of the quotes put together, or implied by a rate in them. -/
theorem Clear.figure (h : Clear parsed context minimum derive) {forms : List V}
    (hforms : forms ∈ statedFigures parsed.cevap) (hne : forms ≠ []) :
    belowMinimum minimum forms = true ∨
      ∃ v ∈ forms, v ∈ supportedFigures (quoted parsed) derive := by
  have hnil := h.figures
  simp only [unsupportedFigures, List.map_eq_nil_iff, List.filter_eq_nil_iff] at hnil
  have := hnil forms hforms
  by_contra hcon
  rw [not_or] at hcon
  apply this
  have hany : forms.any (fun v => decide (v ∈ supportedFigures (quoted parsed) derive)) = false := by
    rw [List.any_eq_false]
    intro v hv
    simpa using fun hs => hcon.2 ⟨v, hv, hs⟩
  simp [hne, hany, Bool.eq_false_iff.2 hcon.1]

variable [Decoder] {reply : Reply}

theorem check_clear (hp : parsedReply reply = some parsed)
    (hc : checkStructured reply context minimum derive = .ok [])
    (ha : isAbstention parsed.cevap = false) : Clear parsed context minimum derive := by
  simp only [checkStructured, hp, bind_ok, require_ok] at hc
  obtain ⟨-, -, hc⟩ := hc
  exact checkParsed_clear ha hc

/-- Every page that the answer cites or that is returned with it is a page of
its evidence. -/
structure PageTruthful (reply : Reply) (context : RagContext) (minimum : V) (derive : Bool)
    (parsed : Parsed) : Prop where
  cited : ∀ pages, citedPages parsed.cevap = .ok pages →
    ∀ page ∈ pages, NamedPage context parsed page
  returned : ∀ result, validateStructured reply context minimum derive = .ok result →
    ∀ c ∈ result.citations, NamedPage context parsed c.page

/-- The answer cites no page, or some passage it names has one. -/
def Paged (context : RagContext) (parsed : Parsed) : Prop :=
  citedPages parsed.cevap = .ok [] ∨ ∃ page, NamedPage context parsed page

theorem validate_citations {result : GuardResult V} (hp : parsedReply reply = some parsed)
    (h : validateStructured reply context minimum derive = .ok result) :
    pageCitations parsed context = .ok result.citations := by
  simp only [validateStructured, bind_ok] at h
  obtain ⟨diagnostics, -, h⟩ := h
  simp only [hp, bind_ok] at h
  obtain ⟨citations, hcitations, h⟩ := h
  split_ifs at h <;> cases pure_ok.1 h <;> exact hcitations

/-- An accepted answer shows pages of its evidence, and no others, exactly when
it cites none or when a passage that it names has a page. -/
theorem page_truthful_iff (hp : parsedReply reply = some parsed)
    (hc : checkStructured reply context minimum derive = .ok [])
    (ha : isAbstention parsed.cevap = false) :
    PageTruthful reply context minimum derive parsed ↔ Paged context parsed := by
  obtain ⟨pages, hpages, -, hknown⟩ := (check_clear hp hc ha).pages
  constructor
  · intro h
    cases pages with
    | nil => exact .inl hpages
    | cons page rest =>
      exact .inr ⟨page, h.cited _ hpages page (List.mem_cons_self ..)⟩
  · intro h
    have hcited : ∀ pages, citedPages parsed.cevap = .ok pages →
        ∀ page ∈ pages, NamedPage context parsed page := by
      intro pages' hpages' page hpage
      rw [hpages] at hpages'
      cases hpages'
      rcases h with h | ⟨q, hq⟩
      · rw [hpages] at h
        cases h
        cases hpage
      · exact mem_named_pages.1 (hknown (List.ne_nil_of_mem (mem_named_pages.2 hq)) page hpage)
    exact ⟨hcited, fun result hr c hc =>
      pageCitations_named ha hcited (validate_citations hp hr) c hc⟩

end

/-! ## Replies of one line -/

/-- Text without letters outside the plain alphabet. -/
@[reducible] def plainTables : Unicode where
  lower s := s.map Char.toLower
  nfkd s := s
  combining _ := false
  isSpace c := c = ' ' || c = '\n' || c = '\t' || c = '\r'
  isDigit c := c.isDigit
  isWord c := c.isAlphanum || c = '_'
  int s := s.foldlM (fun n c => if c.isDigit then some (n * 10 + (c.toNat - 48)) else none) 0
  setOrder s := s

/-- Whole numbers, which is all that the figures below are. -/
@[reducible] def wholeNumbers : Arithmetic ℕ where
  float s := if s = [] then none
    else s.foldlM (fun n c => if c.isDigit then some (n * 10 + (c.toNat - 48)) else none) 0
  ofNat n := n
  round v _ := v
  mul a b := a * b
  div a b := a / b

@[reducible] def noText : Decoder where
  loads _ := none

attribute [local instance] plainTables wholeNumbers noText

theorem page_seven : ∀ n ∈ some 7, 1 ≤ n := by simp

theorem page_none : ∀ n ∈ (none : Option ℕ), 1 ≤ n := by simp

def onePassage (page : Option ℕ) (text : String) (hp : ∀ n ∈ page, 1 ≤ n) : RagContext where
  passages := [⟨1, page, text.toList, "kaynak".toList, none, none, le_refl 1, hp⟩]
  numbered := true
  unique := by simp

def replyOf (dayanak : List Evidence) (cevap : String) : Reply :=
  .object [("dayanak".toList, .arr (dayanak.map fun item =>
      .obj [("pasaj".toList, .int item.pasaj), ("alinti".toList, .str item.alinti)])),
    ("cevap".toList, .str cevap.toList)]

/-- One passage of page 7, quoted and cited. -/
theorem page_truthful_seven :
    PageTruthful (V := ℕ) (replyOf [⟨1, "ucret 2500 lira".toList⟩] "Ucret 2500 lira (sayfa 7)")
        (onePassage (some 7) "Aylik ucret 2500 lira" page_seven) 0 false
        ⟨[⟨1, "ucret 2500 lira".toList⟩], "Ucret 2500 lira (sayfa 7)".toList⟩ ↔
      Paged (onePassage (some 7) "Aylik ucret 2500 lira" page_seven)
        ⟨[⟨1, "ucret 2500 lira".toList⟩], "Ucret 2500 lira (sayfa 7)".toList⟩ :=
  page_truthful_iff (by decide +kernel) (by decide +kernel) (by decide +kernel)

/-- A passage without a page lets any page pass: nobody has read page 999. -/
theorem unpaged_passage_cited :
    validateStructured (replyOf [⟨1, "ucret 2500 lira".toList⟩] "Ucret 2500 lira (sayfa 999)")
        (onePassage none "Aylik ucret 2500 lira" page_none) (0 : ℕ) false =
        .ok ⟨.answered, some "Ucret 2500 lira (sayfa 999)".toList, [],
          [⟨999, .model, none, none⟩]⟩ ∧
      ¬ NamedPage (onePassage none "Aylik ucret 2500 lira" page_none)
        ⟨[⟨1, "ucret 2500 lira".toList⟩], "Ucret 2500 lira (sayfa 999)".toList⟩ 999 := by
  refine ⟨by decide +kernel, ?_⟩
  rintro ⟨p, ⟨item, -, hfind⟩, hpage⟩
  have hp := (RagContext.find_handle hfind).1
  rw [show (onePassage none "Aylik ucret 2500 lira" page_none).passages = [_] from rfl,
    List.mem_singleton] at hp
  rw [hp] at hpage
  cases hpage

end RagPipeline.Answer
