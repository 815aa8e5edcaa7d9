import RagPipeline.Answer.Cardinals

/-! # Printed figures

A decimal number in its notations: plain, grouped the Turkish way, the English
way or by blanks. Whatever the notation, one of the two readings of its token
is the plain numeral; in a text the token is found where the blanks around it
do not take part in a grouping of their own. -/

set_option autoImplicit false

namespace RagPipeline.Answer

/-! ## Notations -/

/-- A non-negative decimal number with at most four fractional digits. -/
structure Decimal where
  whole : ℕ
  fraction : List (Fin 10)
  short : fraction.length ≤ 4

inductive Style where
  | plain (point : Char)
  | turkish
  | english
  | spaced (point : Char)

/-- Both points are decimal points. -/
def Style.Proper : Style → Prop
  | .plain point => point = '.' ∨ point = ','
  | .spaced point => point = '.' ∨ point = ','
  | .turkish => True
  | .english => True

/-- Groups of three from the right. -/
def grouped (mark : Char) : Text → Text
  | [] => []
  | d :: rest =>
    if rest ≠ [] ∧ rest.length % 3 = 0 then d :: mark :: grouped mark rest
    else d :: grouped mark rest

namespace Decimal

def digits (x : Decimal) : Text := Nat.toDigits 10 x.whole

def fractionText (x : Decimal) (point : Char) : Text :=
  if x.fraction = [] then [] else point :: x.fraction.map fun d : Fin 10 => Nat.digitChar d.val

/-- The numeral that the host language reads. -/
def numeral (x : Decimal) : Text := x.digits ++ x.fractionText '.'

def write (x : Decimal) : Style → Text
  | .plain point => x.digits ++ x.fractionText point
  | .turkish => grouped '.' x.digits ++ x.fractionText ','
  | .english => grouped ',' x.digits ++ x.fractionText '.'
  | .spaced point => grouped ' ' x.digits ++ x.fractionText point

end Decimal

/-- The text with the notation in it, between blanks. -/
def around (before after : Option Text) (s : Text) : Text :=
  (before.map fun b => b ++ [' ']).getD [] ++ s ++ (after.map fun a => ' ' :: a).getD []

def figureChar (c : Char) : Bool := c.isDigit || c = '.' || c = ','

/-- What every table of characters says of digits, points, commas and blanks. -/
structure Tables [Unicode] : Prop where
  digit : ∀ c : Char, c.isDigit = true → Unicode.isDigit c = true
  mark : Unicode.isDigit '.' = false ∧ Unicode.isDigit ',' = false ∧ Unicode.isDigit ' ' = false
  blank : Unicode.isSpace ' ' = true
  solid : ∀ c, figureChar c = true → Unicode.isSpace c = false
  lowerFigure : ∀ s : Text, (∀ c ∈ s, figureChar c = true ∨ c = ' ') → Unicode.lower s = s
  lowerBlank : ∀ a b, Unicode.lower (a ++ ' ' :: b) = Unicode.lower a ++ ' ' :: Unicode.lower b
  nfkdFigure : ∀ s : Text, (∀ c ∈ s, figureChar c = true ∨ c = ' ') → Unicode.nfkd s = s
  nfkdBlank : ∀ a b, Unicode.nfkd (a ++ ' ' :: b) = Unicode.nfkd a ++ ' ' :: Unicode.nfkd b
  combining : ∀ c, figureChar c = true ∨ c = ' ' → Unicode.combining c = false

/-! ## Digits -/

def Digits (s : Text) : Prop := ∀ c ∈ s, c.isDigit = true

theorem digitChar_isDigit {d : ℕ} (hd : d < 10) : d.digitChar.isDigit = true := by
  have hall : ∀ d < 10, d.digitChar.isDigit = true := by decide
  exact hall d hd

theorem digits_digits (x : Decimal) : Digits x.digits := fun c hc =>
  Nat.isDigit_of_mem_toDigits (by decide) (by decide) hc

theorem digits_ne_nil (x : Decimal) : x.digits ≠ [] := Nat.toDigits_ne_nil

theorem isDigit_ne {c d : Char} (hc : c.isDigit = true) (hd : d.isDigit = false) : c ≠ d := by
  rintro rfl
  rw [hc] at hd
  cases hd

theorem fraction_digits (x : Decimal) : Digits (x.fraction.map fun d : Fin 10 => Nat.digitChar d.val) := by
  intro c hc
  obtain ⟨d, -, rfl⟩ := List.mem_map.1 hc
  exact digitChar_isDigit d.isLt

/-- The fraction is nothing, or a point and digits. -/
theorem fractionText_cases (x : Decimal) (point : Char) :
    x.fractionText point = [] ∨ ∃ ds, ds ≠ [] ∧ Digits ds ∧ x.fractionText point = point :: ds ∧
      ∀ point', x.fractionText point' = point' :: ds := by
  unfold Decimal.fractionText
  split_ifs with h
  · exact .inl rfl
  · exact .inr ⟨_, mt List.map_eq_nil_iff.1 h, fraction_digits x, rfl, fun _ => rfl⟩

theorem mem_fractionText {x : Decimal} {point c : Char} (hc : c ∈ x.fractionText point) :
    c = point ∨ c.isDigit = true := by
  obtain h | ⟨ds, -, hds, h, -⟩ := fractionText_cases x point
  · rw [h] at hc
    cases hc
  · rw [h] at hc
    obtain rfl | hc := List.mem_cons.1 hc
    · exact .inl rfl
    · exact .inr (hds c hc)

theorem mem_grouped {mark c : Char} {s : Text} (hc : c ∈ grouped mark s) : c = mark ∨ c ∈ s := by
  induction s with
  | nil => cases hc
  | cons d rest ih =>
    unfold grouped at hc
    split_ifs at hc
    · obtain rfl | hc := List.mem_cons.1 hc
      · exact .inr List.mem_cons_self
      · obtain rfl | hc := List.mem_cons.1 hc
        · exact .inl rfl
        · exact (ih hc).imp id (List.mem_cons_of_mem _)
    · obtain rfl | hc := List.mem_cons.1 hc
      · exact .inr List.mem_cons_self
      · exact (ih hc).imp id (List.mem_cons_of_mem _)

section
variable [Unicode]

/-! ## Dropping the group marks -/

/-- No digit begins it. -/
def Stops (tail : Text) : Prop := ∀ c rest, tail = c :: rest → Unicode.isDigit c = false

theorem takeWhile_stops {ds tail : Text} (hds : ∀ c ∈ ds, Unicode.isDigit c = true)
    (htail : Stops tail) : (ds ++ tail).takeWhile Unicode.isDigit = ds := by
  rw [List.takeWhile_append_of_pos hds]
  cases tail with
  | nil => simp
  | cons c rest => simp [htail c rest rfl]

theorem dropThousands_absent {mark : Char} {s : Text} (h : mark ∉ s) (digit : Bool) :
    dropThousands mark digit s = s := by
  induction s generalizing digit with
  | nil => rfl
  | cons c rest ih =>
    have hc : c ≠ mark := fun heq => h (heq ▸ List.mem_cons_self)
    rw [dropThousands, if_neg fun hif => hc hif.1, ih fun hmem => h (List.mem_cons_of_mem _ hmem)]

/-- How many digits begin a grouped run. -/
def leading (n : ℕ) : ℕ := if n % 3 = 0 then 3 else n % 3

theorem takeWhile_grouped (tables : Tables) {mark : Char} (hmark : Unicode.isDigit mark = false)
    {ds tail : Text} (hds : Digits ds) (hne : ds ≠ []) (htail : Stops tail) :
    ((grouped mark ds ++ tail).takeWhile Unicode.isDigit).length = leading ds.length := by
  induction ds with
  | nil => exact absurd rfl hne
  | cons d rest ih =>
    have hd : Unicode.isDigit d = true := tables.digit d (hds d List.mem_cons_self)
    have hrest : Digits rest := fun c hc => hds c (List.mem_cons_of_mem _ hc)
    unfold grouped
    split_ifs with h
    · rw [List.cons_append, List.cons_append, List.takeWhile_cons_of_pos hd,
        List.takeWhile_cons_of_neg (by simp [hmark])]
      have hmod := h.2
      have hone : (rest.length + 1) % 3 = 1 := by omega
      simp [leading, hone]
    · rw [List.cons_append, List.takeWhile_cons_of_pos hd, List.length_cons]
      by_cases hempty : rest = []
      · subst hempty
        have hnone : (grouped mark [] ++ tail).takeWhile Unicode.isDigit = [] :=
          @takeWhile_stops _ [] tail (fun c hc => nomatch hc) htail
        rw [hnone]
        rfl
      · rw [ih hrest hempty]
        have hmod : rest.length % 3 ≠ 0 := fun hzero => h ⟨hempty, hzero⟩
        simp only [leading, List.length_cons]
        split_ifs <;> omega

/-- Exactly the marks of the grouping go. -/
theorem dropThousands_grouped (tables : Tables) {mark : Char}
    (hmark : Unicode.isDigit mark = false) (hchar : mark.isDigit = false) {ds tail : Text}
    (hds : Digits ds) (htail : Stops tail) (habsent : mark ∉ tail) (digit : Bool) :
    dropThousands mark digit (grouped mark ds ++ tail) = ds ++ tail := by
  induction ds generalizing digit with
  | nil => exact dropThousands_absent habsent digit
  | cons d rest ih =>
    have hdigit : d.isDigit = true := hds d List.mem_cons_self
    have hd : Unicode.isDigit d = true := tables.digit d hdigit
    have hne : d ≠ mark := isDigit_ne hdigit hchar
    have hrest : Digits rest := fun c hc => hds c (List.mem_cons_of_mem _ hc)
    unfold grouped
    split_ifs with h
    · have hthree : threeDigits (grouped mark rest ++ tail) = true := by
        rw [threeDigits, takeWhile_grouped tables hmark hrest h.1 htail]
        simp [leading, h.2]
      rw [List.cons_append, List.cons_append, dropThousands, if_neg fun hif => hne hif.1, dropThousands,
        if_pos ⟨rfl, hd, hthree⟩, ih hrest]
      rfl
    · rw [List.cons_append, dropThousands, if_neg fun hif => hne hif.1, ih hrest]
      rfl

/-! ## The token and its readings -/

/-- The notation without its blanks. -/
def token (x : Decimal) : Style → Text
  | .spaced point => x.write (.plain point)
  | .plain point => x.write (.plain point)
  | .turkish => x.write .turkish
  | .english => x.write .english

theorem stops_fraction (tables : Tables) (x : Decimal) {point : Char} (hp : point = '.' ∨ point = ',') :
    Stops (x.fractionText point) := by
  intro c rest heq
  obtain h | ⟨ds, -, -, h, -⟩ := fractionText_cases x point
  · rw [h] at heq
    cases heq
  · rw [h] at heq
    obtain ⟨rfl, -⟩ := List.cons.inj heq
    obtain rfl | rfl := hp
    · exact tables.mark.1
    · exact tables.mark.2.1

omit [Unicode] in
theorem not_mem_fraction {x : Decimal} {mark point : Char} (hne : mark ≠ point)
    (hmark : mark.isDigit = false) : mark ∉ x.fractionText point := by
  intro hmem
  obtain rfl | hdigit := mem_fractionText hmem
  · exact hne rfl
  · rw [hmark] at hdigit
    cases hdigit

omit [Unicode] in
theorem not_mem_digits {x : Decimal} {mark : Char} (hmark : mark.isDigit = false) :
    mark ∉ x.digits := by
  intro hmem
  have hdigit := digits_digits x mark hmem
  rw [hmark] at hdigit
  cases hdigit

/-- A grouped whole part and a fraction with another point. -/
theorem dropThousands_write (tables : Tables) (x : Decimal) {mark point : Char}
    (hmark : Unicode.isDigit mark = false) (hchar : mark.isDigit = false)
    (hp : point = '.' ∨ point = ',') (hne : mark ≠ point) (digit : Bool) :
    dropThousands mark digit (grouped mark x.digits ++ x.fractionText point) =
      x.digits ++ x.fractionText point :=
  dropThousands_grouped tables hmark hchar (digits_digits x) (stops_fraction tables x hp)
    (not_mem_fraction hne hchar) digit

theorem dropThousands_plain (x : Decimal) {mark point : Char} (hchar : mark.isDigit = false)
    (hne : mark ≠ point) (digit : Bool) :
    dropThousands mark digit (x.digits ++ x.fractionText point) = x.digits ++ x.fractionText point := by
  apply dropThousands_absent
  intro hmem
  obtain h | h := List.mem_append.1 hmem
  · exact not_mem_digits hchar h
  · exact not_mem_fraction hne hchar h

omit [Unicode] in
/-- The Turkish reading turns a decimal comma into a point. -/
theorem map_comma (x : Decimal) :
    (x.digits ++ x.fractionText ',').map (fun c => if c = ',' then '.' else c) = x.numeral := by
  have hkept : ∀ ds : Text, Digits ds → ds.map (fun c => if c = ',' then '.' else c) = ds := by
    intro ds hds
    refine (List.map_congr_left fun c hc => ?_).trans (List.map_id' ds)
    rw [if_neg (isDigit_ne (hds c hc) (by decide))]
  rw [Decimal.numeral, List.map_append, hkept _ (digits_digits x)]
  obtain h | ⟨ds, -, hds, h, hall⟩ := fractionText_cases x ','
  · have hempty : x.fraction = [] := by
      by_contra hne
      rw [Decimal.fractionText, if_neg hne] at h
      cases h
    simp [Decimal.fractionText, hempty]
  · rw [h, hall '.', List.map_cons, hkept ds hds, if_pos rfl]

/-- One of the two conventions reads the plain numeral. -/
theorem token_reads (tables : Tables) (x : Decimal) {style : Style} (hproper : style.Proper) :
    (dropThousands '.' false (token x style)).map (fun c => if c = ',' then '.' else c) = x.numeral ∨
      dropThousands ',' false (token x style) = x.numeral := by
  have hplain : ∀ point, point = '.' ∨ point = ',' →
      (dropThousands '.' false (x.digits ++ x.fractionText point)).map
          (fun c => if c = ',' then '.' else c) = x.numeral ∨
        dropThousands ',' false (x.digits ++ x.fractionText point) = x.numeral := by
    rintro point (rfl | rfl)
    · exact .inr (dropThousands_plain x (by decide) (by decide) false)
    · refine .inl ?_
      rw [dropThousands_plain x (by decide) (by decide) false]
      exact map_comma x
  cases style with
  | plain point => exact hplain point hproper
  | spaced point => exact hplain point hproper
  | turkish =>
    refine .inl ?_
    rw [token, Decimal.write, dropThousands_write tables x tables.mark.1 (by decide) (.inr rfl)
      (by decide)]
    exact map_comma x
  | english =>
    exact .inr (dropThousands_write tables x tables.mark.2.1 (by decide) (.inl rfl) (by decide) false)

/-- Of the blanks in a notation none is left. -/
theorem dropThousands_blank_write (tables : Tables) (x : Decimal) {style : Style}
    (hproper : style.Proper) (digit : Bool) :
    dropThousands ' ' digit (x.write style) = token x style := by
  have hpoint : ∀ point : Char, point = '.' ∨ point = ',' → (' ' : Char) ≠ point := by
    rintro point (rfl | rfl) <;> decide
  have hgrouped : ∀ mark point : Char, (' ' : Char) ≠ mark → (' ' : Char) ≠ point →
      dropThousands ' ' digit (grouped mark x.digits ++ x.fractionText point) =
        grouped mark x.digits ++ x.fractionText point := by
    intro mark point hmark hpoint
    apply dropThousands_absent
    intro hmem
    obtain h | h := List.mem_append.1 hmem
    · obtain h | h := mem_grouped h
      · exact hmark h
      · exact not_mem_digits (by decide) h
    · exact not_mem_fraction hpoint (by decide) h
  cases style with
  | plain point => exact dropThousands_plain x (by decide) (hpoint point hproper) digit
  | spaced point =>
    exact dropThousands_write tables x tables.mark.2.2 (by decide) hproper (hpoint point hproper) digit
  | turkish => exact hgrouped _ _ (by decide) (by decide)
  | english => exact hgrouped _ _ (by decide) (by decide)

/-! ## Folding -/

/-- `fold` before its words are joined. -/
def raw (text : Text) : Text :=
  (Unicode.nfkd (((Unicode.lower text).filter fun c => !markdown c).map fun c =>
    if c = 'ı' ∨ c = 'ý' then 'i' else c)).filter fun c => !Unicode.combining c

theorem fold_raw (text : Text) : fold text = joinWords (words (raw text)) := rfl

def Printed (s : Text) : Prop := ∀ c ∈ s, figureChar c = true ∨ c = ' '

omit [Unicode] in
theorem printed_char {c : Char} (hc : figureChar c = true ∨ c = ' ') :
    markdown c = false ∧ c ≠ 'ı' ∧ c ≠ 'ý' := by
  have hall : ∀ d : Char, figureChar d = false → d ≠ ' ' → c ≠ d := by
    rintro d hd hblank rfl
    obtain hc | hc := hc
    · rw [hd] at hc
      cases hc
    · exact hblank hc
  refine ⟨?_, hall _ (by decide) (by decide), hall _ (by decide) (by decide)⟩
  simp [markdown, hall '*' (by decide) (by decide), hall '_' (by decide) (by decide),
    hall '\x60' (by decide) (by decide), hall '~' (by decide) (by decide),
    hall '#' (by decide) (by decide)]

theorem raw_printed (tables : Tables) {s : Text} (hs : Printed s) : raw s = s := by
  have hmarkdown : s.filter (fun c => !markdown c) = s :=
    List.filter_eq_self.2 fun c hc => by simp [(printed_char (hs c hc)).1]
  have hmap : s.map (fun c => if c = 'ı' ∨ c = 'ý' then 'i' else c) = s := by
    refine (List.map_congr_left fun c hc => ?_).trans (List.map_id' s)
    obtain ⟨-, hne, hne'⟩ := printed_char (hs c hc)
    rw [if_neg (by simp [hne, hne'])]
  rw [raw, tables.lowerFigure s hs, hmarkdown, hmap, tables.nfkdFigure s hs]
  exact List.filter_eq_self.2 fun c hc => by simp [tables.combining c (hs c hc)]

theorem raw_blank (tables : Tables) (a b : Text) : raw (a ++ ' ' :: b) = raw a ++ ' ' :: raw b := by
  have hmarkdown : markdown ' ' = false := by decide
  have hcombining : Unicode.combining ' ' = false := tables.combining ' ' (.inr rfl)
  have hletter : (if (' ' : Char) = 'ı' ∨ (' ' : Char) = 'ý' then 'i' else ' ') = ' ' := by decide
  simp only [raw, tables.lowerBlank, List.filter_append, List.filter_cons, hmarkdown, Bool.not_false,
    if_true, List.map_append, List.map_cons, hletter, tables.nfkdBlank, hcombining]

theorem words_blank (tables : Tables) (a b : Text) : words (a ++ ' ' :: b) = words a ++ words b := by
  rw [words, List.splitOnP_append_cons a b tables.blank, List.filter_append]
  rfl

/-- Two texts with a blank between them, where both are there. -/
def beside (a b : Text) : Text := if a = [] then b else if b = [] then a else a ++ ' ' :: b

theorem word_ne_nil {s word : Text} (h : word ∈ words s) : word ≠ [] := by
  simpa using (List.mem_filter.1 h).2

omit [Unicode] in
theorem joinWords_cons {word : Text} {rest : List Text} (h : rest ≠ []) :
    joinWords (word :: rest) = word ++ ' ' :: joinWords rest := by
  rw [joinWords, List.intercalate_cons_of_ne_nil h]
  simp [joinWords]

omit [Unicode] in
theorem joinWords_eq_nil {l : List Text} (h : ∀ word ∈ l, word ≠ []) :
    joinWords l = [] ↔ l = [] := by
  constructor
  · intro hnil
    cases l with
    | nil => rfl
    | cons word rest =>
      have hword := h word List.mem_cons_self
      by_cases hrest : rest = []
      · subst hrest
        exact absurd (by simpa [joinWords] using hnil) hword
      · rw [joinWords_cons hrest] at hnil
        exact absurd (List.append_eq_nil_iff.1 hnil).1 hword
  · rintro rfl
    rfl

omit [Unicode] in
theorem joinWords_append {l m : List Text} (hl : ∀ word ∈ l, word ≠ []) (hm : ∀ word ∈ m, word ≠ []) :
    joinWords (l ++ m) = beside (joinWords l) (joinWords m) := by
  unfold beside
  split_ifs with hleft hright
  · rw [(joinWords_eq_nil hl).1 hleft, List.nil_append]
  · rw [(joinWords_eq_nil hm).1 hright, List.append_nil]
  · have hnil : l ≠ [] := mt (joinWords_eq_nil hl).2 hleft
    have hnil' : m ≠ [] := mt (joinWords_eq_nil hm).2 hright
    clear hm hleft
    induction l with
    | nil => exact absurd rfl hnil
    | cons word rest ih =>
      by_cases hrest : rest = []
      · subst hrest
        rw [List.singleton_append, joinWords_cons hnil']
        simp [joinWords]
      · rw [List.cons_append, joinWords_cons (by simp [hrest]), joinWords_cons hrest,
          ih (fun word hword => hl word (List.mem_cons_of_mem _ hword)) hrest]
        simp

theorem fold_blank (tables : Tables) (a b : Text) :
    fold (a ++ ' ' :: b) = beside (fold a) (fold b) := by
  rw [fold_raw, raw_blank tables, words_blank tables, joinWords_append (fun _ => word_ne_nil)
    fun _ => word_ne_nil]
  rfl

theorem words_solid {s : Text} (hne : s ≠ []) (hs : ∀ c ∈ s, Unicode.isSpace c = false) :
    words s = [s] := by
  simp [words, List.splitOnP_eq_singleton hs, hne]

/-- Single blanks between groups are what joining the words gives back. -/
theorem fold_grouped (tables : Tables) {ds tail : Text} (hds : Digits ds) (hne : ds ≠ [])
    (htail : ∀ c ∈ tail, Unicode.isSpace c = false) (front : Text)
    (hfront : ∀ c ∈ front, Unicode.isSpace c = false) :
    joinWords (words (front ++ (grouped ' ' ds ++ tail))) = front ++ (grouped ' ' ds ++ tail) := by
  induction ds generalizing front with
  | nil => exact absurd rfl hne
  | cons d rest ih =>
    have hd : Unicode.isSpace d = false :=
      tables.solid d (by simp [figureChar, hds d List.mem_cons_self])
    have hrest : Digits rest := fun c hc => hds c (List.mem_cons_of_mem _ hc)
    have hnext : ∀ c ∈ front ++ [d], Unicode.isSpace c = false := by
      intro c hc
      obtain hc | hc := List.mem_append.1 hc
      · exact hfront c hc
      · rw [List.mem_singleton.1 hc]
        exact hd
    unfold grouped
    split_ifs with h
    · have hlater := ih hrest h.1 [] (fun c hc => nomatch hc)
      rw [List.nil_append] at hlater
      have hsplit : front ++ (d :: ' ' :: grouped ' ' rest ++ tail) =
          (front ++ [d]) ++ ' ' :: (grouped ' ' rest ++ tail) := by simp
      have hsome : words (grouped ' ' rest ++ tail) ≠ [] := by
        intro hnil
        rw [hnil] at hlater
        cases rest with
        | nil => exact h.1 rfl
        | cons e rest =>
          unfold grouped at hlater
          split_ifs at hlater <;> cases hlater
      rw [hsplit, words_blank tables, words_solid (by simp) hnext, List.singleton_append,
        joinWords_cons hsome, hlater]
    · by_cases hempty : rest = []
      · subst hempty
        have hsolid : ∀ c ∈ front ++ ([d] ++ tail), Unicode.isSpace c = false := by
          intro c hc
          rw [← List.append_assoc] at hc
          obtain hc | hc := List.mem_append.1 hc
          · exact hnext c hc
          · exact htail c hc
        have hlast : front ++ (d :: grouped ' ' [] ++ tail) = front ++ ([d] ++ tail) := rfl
        rw [hlast, words_solid (by simp) hsolid]
        simp [joinWords]
      · have hlater := ih hrest hempty (front ++ [d]) hnext
        simpa using hlater

omit [Unicode] in
theorem mem_write {x : Decimal} {style : Style} (hproper : style.Proper) {c : Char}
    (hc : c ∈ x.write style) : figureChar c = true ∨ c = ' ' := by
  have hdigit : c.isDigit = true → figureChar c = true := fun h => by simp [figureChar, h]
  have hpoint : ∀ point : Char, point = '.' ∨ point = ',' → c ∈ x.fractionText point →
      figureChar c = true := by
    intro point hp hmem
    obtain rfl | h := mem_fractionText hmem
    · obtain rfl | rfl := hp <;> decide
    · exact hdigit h
  have hwhole : c ∈ x.digits → figureChar c = true := fun h => hdigit (digits_digits x c h)
  cases style with
  | plain point =>
    exact .inl ((List.mem_append.1 hc).elim hwhole (hpoint point hproper))
  | spaced point =>
    obtain hc | hc := List.mem_append.1 hc
    · exact (mem_grouped hc).symm.imp hwhole id
    · exact .inl (hpoint point hproper hc)
  | turkish =>
    obtain hc | hc := List.mem_append.1 hc
    · obtain rfl | hc := mem_grouped hc
      · exact .inl (by decide)
      · exact .inl (hwhole hc)
    · exact .inl (hpoint ',' (.inr rfl) hc)
  | english =>
    obtain hc | hc := List.mem_append.1 hc
    · obtain rfl | hc := mem_grouped hc
      · exact .inl (by decide)
      · exact .inl (hwhole hc)
    · exact .inl (hpoint '.' (.inl rfl) hc)

omit [Unicode] in
theorem mem_token {x : Decimal} (style : Style) (hproper : style.Proper) {c : Char}
    (hc : c ∈ token x style) : figureChar c = true := by
  have hplain : ∀ style : Style, style.Proper → (' ' : Char) ∉ x.write style →
      c ∈ x.write style → figureChar c = true := by
    intro style hproper hblank hc
    obtain h | rfl := mem_write hproper hc
    · exact h
    · exact absurd hc hblank
  have hgrouped : ∀ mark point : Char, (' ' : Char) ≠ mark → (' ' : Char) ≠ point →
      (' ' : Char) ∉ grouped mark x.digits ++ x.fractionText point := by
    intro mark point hmark hpoint hmem
    obtain h | h := List.mem_append.1 hmem
    · obtain h | h := mem_grouped h
      · exact hmark h
      · exact not_mem_digits (by decide) h
    · exact not_mem_fraction hpoint (by decide) h
  have hbare : ∀ point : Char, point = '.' ∨ point = ',' →
      (' ' : Char) ∉ x.digits ++ x.fractionText point := by
    intro point hp hmem
    obtain h | h := List.mem_append.1 hmem
    · exact not_mem_digits (by decide) h
    · exact not_mem_fraction (by obtain rfl | rfl := hp <;> decide) (by decide) h
  cases style with
  | plain point => exact hplain (.plain point) hproper (hbare point hproper) hc
  | spaced point => exact hplain (.plain point) hproper (hbare point hproper) hc
  | turkish => exact hplain .turkish hproper (hgrouped _ _ (by decide) (by decide)) hc
  | english => exact hplain .english hproper (hgrouped _ _ (by decide) (by decide)) hc

theorem fold_write (tables : Tables) (x : Decimal) {style : Style} (hproper : style.Proper) :
    fold (x.write style) = x.write style := by
  rw [fold_raw, raw_printed tables fun c hc => mem_write hproper hc]
  have hsolid : ∀ s : Text, s ≠ [] → (∀ c ∈ s, figureChar c = true) → joinWords (words s) = s := by
    intro s hne hs
    rw [words_solid hne fun c hc => tables.solid c (hs c hc)]
    simp [joinWords]
  have hne : ∀ mark, grouped mark x.digits ≠ [] := by
    intro mark
    cases h : x.digits with
    | nil => exact absurd h (digits_ne_nil x)
    | cons d rest =>
      unfold grouped
      split_ifs <;> simp
  cases style with
  | plain point =>
    exact hsolid _ (by simp [Decimal.write, digits_ne_nil]) fun c hc =>
      mem_token (.plain point) hproper hc
  | turkish =>
    exact hsolid _ (by simp [Decimal.write, hne]) fun c hc => mem_token .turkish hproper hc
  | english =>
    exact hsolid _ (by simp [Decimal.write, hne]) fun c hc => mem_token .english hproper hc
  | spaced point =>
    have hback : ∀ c ∈ x.fractionText point, Unicode.isSpace c = false := by
      intro c hc
      exact tables.solid c (mem_token (.plain point) hproper (List.mem_append_right _ hc))
    have hfront : ∀ c ∈ ([] : Text), Unicode.isSpace c = false := by
      intro c hc
      cases hc
    exact fold_grouped tables (digits_digits x) (digits_ne_nil x) hback [] hfront

end

end RagPipeline.Answer
