import RagPipeline.Answer.Figures
import Mathlib.Data.Rat.Floor

/-! # Printed figures in a text

A printed number is a token of the text it stands in, unless a blank beside it
joins two groups of digits; what the host's arithmetic makes of the plain
numeral is then among the readings. -/

set_option autoImplicit false

namespace RagPipeline.Answer

section
variable [Unicode]

/-! ## Finding the token -/

/-- The last character is a digit; `digit` says so of what stood in front. -/
def endsDigit (digit : Bool) (s : Text) : Bool := (s.getLast?.map Unicode.isDigit).getD digit

theorem takeWhile_blank (tables : Tables) (a rest : Text) :
    (a ++ ' ' :: rest).takeWhile Unicode.isDigit = a.takeWhile Unicode.isDigit := by
  induction a with
  | nil => rw [List.nil_append, List.takeWhile_cons_of_neg (by simp [tables.mark.2.2]),
      List.takeWhile_nil]
  | cons c a ih =>
    by_cases hc : Unicode.isDigit c = true
    · rw [List.cons_append, List.takeWhile_cons_of_pos hc, List.takeWhile_cons_of_pos hc, ih]
    · rw [List.cons_append, List.takeWhile_cons_of_neg hc, List.takeWhile_cons_of_neg hc]

/-- A blank that groups nothing stays, and the two sides are read apart. -/
theorem dropThousands_blank (tables : Tables) {a rest : Text} {digit : Bool}
    (h : ¬ (endsDigit digit a = true ∧ threeDigits rest = true)) :
    dropThousands ' ' digit (a ++ ' ' :: rest) =
      dropThousands ' ' digit a ++ ' ' :: dropThousands ' ' false rest := by
  induction a generalizing digit with
  | nil =>
    have hif : ¬ ((' ' : Char) = ' ' ∧ digit = true ∧ threeDigits rest = true) := fun hif =>
      h ⟨hif.2.1, hif.2.2⟩
    have hone : dropThousands ' ' digit (' ' :: rest) = ' ' :: dropThousands ' ' false rest := by
      rw [dropThousands, if_neg hif, tables.mark.2.2]
    exact hone
  | cons c a ih =>
    have hnext : ¬ (endsDigit (Unicode.isDigit c) a = true ∧ threeDigits rest = true) := by
      intro hends
      refine h ⟨?_, hends.2⟩
      cases a with
      | nil => exact hends.1
      | cons d a =>
        simp only [endsDigit, List.getLast?_cons_cons,
          List.getLast?_eq_some_getLast (List.cons_ne_nil d a)] at hends ⊢
        exact hends.1
    have hthree : threeDigits (a ++ ' ' :: rest) = threeDigits a := by
      rw [threeDigits, threeDigits, takeWhile_blank tables]
    rw [List.cons_append, dropThousands, dropThousands, ih hnext, hthree]
    split_ifs <;> rfl

theorem figureToken_token (tables : Tables) {s tail : Text} (hs : ∀ c ∈ s, figureChar c = true)
    (hlast : ∃ front d, s = front ++ [d] ∧ d.isDigit = true)
    (htail : tail = [] ∨ ∃ rest, tail = ' ' :: rest) : figureToken (s ++ tail) = s := by
  have htaken : (s ++ tail).takeWhile (fun c => Unicode.isDigit c || c = '.' || c = ',') = s := by
    rw [List.takeWhile_append_of_pos]
    · obtain rfl | ⟨rest, rfl⟩ := htail
      · simp
      · rw [List.takeWhile_cons_of_neg (by simp [tables.mark.2.2]), List.append_nil]
    · intro c hc
      have hfigure := hs c hc
      simp only [figureChar, Bool.or_eq_true, decide_eq_true_eq] at hfigure ⊢
      exact hfigure.imp_left (Or.imp_left (tables.digit c))
  obtain ⟨front, d, rfl, hd⟩ := hlast
  rw [figureToken, htaken, List.rdropWhile_concat_neg]
  simp [tables.digit d hd]

omit [Unicode] in
theorem length_le_of_prefix {l x y : Text} (h : l <+: x ++ ' ' :: y) (hl : ' ' ∉ l) :
    l.length ≤ x.length := by
  by_contra hlt
  have hx : x ++ [' '] <+: x ++ ' ' :: y := ⟨y, by simp⟩
  have hle : (x ++ [' ']).length ≤ l.length := by
    simp only [List.length_append, List.length_singleton]
    omega
  have hinner := List.prefix_of_prefix_length_le hx h hle
  exact hl (hinner.subset (by simp))

omit [Unicode] in
theorem magnitudes_letters : ∀ m ∈ magnitudes, ' ' ∉ m.1 ∧ m.1.head?.any Char.isDigit = false ∧
    m.1 ≠ [] := by
  decide

/-- A magnitude word behind a token does not reach over a blank to a digit. -/
theorem magnitude_within (tables : Tables) {rest : Text} {m : Text × ℕ} (hm : m ∈ magnitudes)
    (hrest : ∃ d tail, rest = d :: tail ∧ d.isDigit = true) (x : Text)
    (h : m.1 <+: (x ++ ' ' :: rest).dropWhile Unicode.isSpace) :
    (x ++ ' ' :: rest).length - ((x ++ ' ' :: rest).dropWhile Unicode.isSpace).length + m.1.length ≤
      x.length := by
  obtain ⟨hblank, hletter, hne⟩ := magnitudes_letters m hm
  induction x with
  | nil =>
    obtain ⟨d, tail, rfl, hd⟩ := hrest
    have hsolid : Unicode.isSpace d = false := tables.solid d (by simp [figureChar, hd])
    rw [List.nil_append, List.dropWhile_cons_of_pos tables.blank,
      List.dropWhile_cons_of_neg (by simp [hsolid])] at h
    obtain ⟨t, ht⟩ := h
    cases hm' : m.1 with
    | nil => exact absurd hm' hne
    | cons l word =>
      rw [hm'] at ht hletter
      obtain ⟨rfl, -⟩ := List.cons.inj ht
      simp [hd] at hletter
  | cons c x ih =>
    by_cases hc : Unicode.isSpace c = true
    · rw [List.cons_append, List.dropWhile_cons_of_pos hc] at h ⊢
      have hle := ih h
      have hshort := (List.dropWhile_suffix Unicode.isSpace (l := x ++ ' ' :: rest)).length_le
      simp only [List.length_cons] at hle ⊢
      omega
    · rw [List.cons_append, List.dropWhile_cons_of_neg hc] at h ⊢
      have hle := length_le_of_prefix (x := c :: x) h hblank
      omega

theorem figureToken_length (tables : Tables) (a rest : Text) :
    (figureToken (a ++ ' ' :: rest)).length ≤ a.length := by
  have htaken : (a ++ ' ' :: rest).takeWhile (fun c => Unicode.isDigit c || c = '.' || c = ',') =
      a.takeWhile fun c => Unicode.isDigit c || c = '.' || c = ',' := by
    have hstop : ¬ (Unicode.isDigit ' ' || (' ' : Char) = '.' || (' ' : Char) = ',') = true := by
      simp [tables.mark.2.2]
    induction a with
    | nil => exact List.takeWhile_cons_of_neg hstop
    | cons c a ih =>
      rw [List.cons_append, List.takeWhile_cons, List.takeWhile_cons, ih]
  rw [figureToken, htaken]
  exact ((List.rdropWhile_prefix _ _).trans (List.takeWhile_prefix _)).length_le

/-- The scan comes to what stands behind a blank, whatever it found before. -/
theorem figuresFrom_past (tables : Tables) {rest : Text}
    (hrest : ∃ d tail, rest = d :: tail ∧ d.isDigit = true) (a : Text) (skip : ℕ)
    (hskip : skip ≤ a.length) :
    ∃ found, figuresFrom skip (a ++ ' ' :: rest) = found ++ figuresFrom 0 rest := by
  induction a generalizing skip with
  | nil =>
    obtain rfl : skip = 0 := Nat.le_zero.1 hskip
    refine ⟨[], ?_⟩
    rw [List.nil_append, figuresFrom, if_neg (by simp [tables.mark.2.2])]
    rfl
  | cons c a ih =>
    cases skip with
    | succ skip => exact ih skip (Nat.le_of_succ_le_succ hskip)
    | zero =>
      have htoken : (figureToken (c :: (a ++ ' ' :: rest))).length ≤ a.length + 1 :=
        figureToken_length tables (c :: a) rest
      rw [List.cons_append, figuresFrom]
      split_ifs with hc
      · have hdrop : (c :: (a ++ ' ' :: rest)).drop (figureToken (c :: (a ++ ' ' :: rest))).length =
            (c :: a).drop (figureToken (c :: (a ++ ' ' :: rest))).length ++ ' ' :: rest := by
          rw [← List.cons_append, List.drop_append_of_le_length htoken]
        have hlater : ∀ (figure : Text × Option ℕ) (n : ℕ), n ≤ a.length → ∃ found,
            figure :: figuresFrom n (a ++ ' ' :: rest) = found ++ figuresFrom 0 rest := by
          intro figure n hn
          obtain ⟨found, hfound⟩ := ih n hn
          exact ⟨figure :: found, by rw [hfound]; rfl⟩
        dsimp only
        split
        · rename_i m hfind
          have hprefix := List.find?_some hfind
          rw [List.isPrefixOf_iff_prefix, hdrop] at hprefix
          have hwithin := magnitude_within tables (List.mem_of_find?_eq_some hfind) hrest _ hprefix
          rw [hdrop]
          apply hlater
          rw [List.length_drop, List.length_cons] at hwithin
          omega
        · apply hlater
          omega
      · exact ih 0 (Nat.zero_le _)

/-! ## The value -/

omit [Unicode] in
theorem digits_ends {s : Text} (hs : Digits s) (hne : s ≠ []) :
    (∃ d tail, s = d :: tail ∧ d.isDigit = true) ∧ ∃ front d, s = front ++ [d] ∧ d.isDigit = true := by
  constructor
  · cases s with
    | nil => exact absurd rfl hne
    | cons d tail => exact ⟨d, tail, rfl, hs d List.mem_cons_self⟩
  · refine ⟨s.dropLast, s.getLast hne, (List.dropLast_append_getLast hne).symm, ?_⟩
    exact hs _ (List.getLast_mem hne)

omit [Unicode] in
theorem grouped_ends {mark : Char} {s : Text} (hs : Digits s) (hne : s ≠ []) :
    (∃ d tail, grouped mark s = d :: tail ∧ d.isDigit = true) ∧
      ∃ front d, grouped mark s = front ++ [d] ∧ d.isDigit = true := by
  induction s with
  | nil => exact absurd rfl hne
  | cons c rest ih =>
    have hc : c.isDigit = true := hs c List.mem_cons_self
    unfold grouped
    split_ifs with h
    · obtain ⟨-, front, d, hfront, hd⟩ := ih (fun c hc => hs c (List.mem_cons_of_mem _ hc)) h.1
      exact ⟨⟨c, _, rfl, hc⟩, c :: mark :: front, d, by rw [hfront]; rfl, hd⟩
    · by_cases hempty : rest = []
      · subst hempty
        exact ⟨⟨c, _, rfl, hc⟩, [], c, rfl, hc⟩
      · obtain ⟨-, front, d, hfront, hd⟩ := ih (fun c hc => hs c (List.mem_cons_of_mem _ hc)) hempty
        exact ⟨⟨c, _, rfl, hc⟩, c :: front, d, by rw [hfront]; rfl, hd⟩

omit [Unicode] in
/-- A token begins and ends with a digit. -/
theorem token_ends (x : Decimal) (style : Style) :
    (∃ d tail, token x style = d :: tail ∧ d.isDigit = true) ∧
      ∃ front d, token x style = front ++ [d] ∧ d.isDigit = true := by
  have hends : ∀ (s : Text) (point : Char), (∃ d tail, s = d :: tail ∧ d.isDigit = true) →
      (∃ front d, s = front ++ [d] ∧ d.isDigit = true) →
      (∃ d tail, s ++ x.fractionText point = d :: tail ∧ d.isDigit = true) ∧
        ∃ front d, s ++ x.fractionText point = front ++ [d] ∧ d.isDigit = true := by
    rintro s point ⟨d, tail, rfl, hd⟩ hlast
    refine ⟨⟨d, tail ++ x.fractionText point, rfl, hd⟩, ?_⟩
    obtain h | ⟨ds, hne, hds, h, -⟩ := fractionText_cases x point
    · rw [h, List.append_nil]
      exact hlast
    · obtain ⟨-, front, e, hfront, he⟩ := digits_ends hds hne
      exact ⟨(d :: tail) ++ point :: front, e, by rw [h, hfront]; simp, he⟩
  obtain ⟨hfirst, hlast⟩ := digits_ends (digits_digits x) (digits_ne_nil x)
  have hgrouped : ∀ mark, _ := fun mark => @grouped_ends mark _ (digits_digits x) (digits_ne_nil x)
  cases style with
  | plain point => exact hends _ point hfirst hlast
  | spaced point => exact hends _ point hfirst hlast
  | turkish => exact hends _ ',' (hgrouped '.').1 (hgrouped '.').2
  | english => exact hends _ '.' (hgrouped ',').1 (hgrouped ',').2

theorem figures_head (tables : Tables) (x : Decimal) {style : Style} (hproper : style.Proper)
    {tail : Text} (htail : tail = [] ∨ ∃ rest, tail = ' ' :: rest) :
    ∃ magnitude later,
      figuresFrom 0 (token x style ++ tail) = (token x style, magnitude) :: later := by
  obtain ⟨⟨d, after, hfirst, hd⟩, hlast⟩ := token_ends x style
  have htoken := figureToken_token tables (fun c hc => mem_token style hproper hc) hlast htail
  rw [hfirst] at htoken ⊢
  rw [List.cons_append] at htoken ⊢
  rw [figuresFrom, if_pos (tables.digit d hd)]
  dsimp only
  rw [htoken]
  split
  · exact ⟨_, _, rfl⟩
  · exact ⟨_, _, rfl⟩

theorem fold_around (tables : Tables) (x : Decimal) {style : Style} (hproper : style.Proper)
    (before after : Option Text) : fold (around before after (x.write style)) =
      beside ((before.map fold).getD []) (beside (x.write style) ((after.map fold).getD [])) := by
  have hwrite := fold_write tables x hproper
  have hnil : ∀ s, beside s [] = s := fun s => by
    unfold beside
    split_ifs with h
    · exact h.symm
    · rfl
    · contradiction
  cases before with
  | none =>
    cases after with
    | none =>
      have htext : around none none (x.write style) = x.write style := by simp [around]
      rw [htext, hwrite]
      exact (hnil _).symm
    | some a =>
      have htext : around none (some a) (x.write style) = x.write style ++ ' ' :: a := by simp [around]
      rw [htext, fold_blank tables, hwrite]
      rfl
  | some b =>
    cases after with
    | none =>
      have htext : around (some b) none (x.write style) = b ++ ' ' :: x.write style := by simp [around]
      rw [htext, fold_blank tables, hwrite]
      simp [hnil]
    | some a =>
      have htext : around (some b) (some a) (x.write style) = b ++ ' ' :: (x.write style ++ ' ' :: a) := by
        simp [around]
      rw [htext, fold_blank tables, fold_blank tables, hwrite]
      rfl

/-- The token stands in the text as a figure of its own. -/
theorem token_found (tables : Tables) (x : Decimal) {style : Style} (hproper : style.Proper)
    {before after : Text} (hbefore : ¬ (endsDigit false before = true ∧ threeDigits (x.write style) = true))
    (hafter : ¬ threeDigits after = true) : ∃ magnitude, (token x style, magnitude) ∈
      figuresFrom 0 (dropThousands ' ' false (beside before (beside (x.write style) after))) := by
  have hne : x.write style ≠ [] := by
    intro hnil
    have htoken := dropThousands_blank_write tables x hproper false
    obtain ⟨⟨d, tail, hfirst, -⟩, -⟩ := token_ends x style
    rw [hnil, hfirst] at htoken
    cases htoken
  have hright : ∃ tail, dropThousands ' ' false (beside (x.write style) after) = token x style ++ tail ∧
      (tail = [] ∨ ∃ rest, tail = ' ' :: rest) := by
    unfold beside
    rw [if_neg hne]
    split_ifs with hempty
    · exact ⟨[], by rw [List.append_nil, dropThousands_blank_write tables x hproper], .inl rfl⟩
    · refine ⟨' ' :: dropThousands ' ' false after, ?_, .inr ⟨_, rfl⟩⟩
      rw [dropThousands_blank tables fun h => hafter h.2, dropThousands_blank_write tables x hproper]
  obtain ⟨tail, hdropped, htail⟩ := hright
  obtain ⟨magnitude, later, hhead⟩ := figures_head tables x hproper htail
  refine ⟨magnitude, ?_⟩
  by_cases hempty : before = []
  · rw [beside, if_pos hempty, hdropped, hhead]
    exact List.mem_cons_self
  · have hbeside : beside (x.write style) after ≠ [] := by
      unfold beside
      rw [if_neg hne]
      split_ifs
      · exact hne
      · simp
    have hthree : threeDigits (beside (x.write style) after) = threeDigits (x.write style) := by
      unfold beside
      rw [if_neg hne]
      split_ifs
      · rfl
      · rw [threeDigits, threeDigits, takeWhile_blank tables]
    have hsplit : dropThousands ' ' false (before ++ ' ' :: beside (x.write style) after) =
        dropThousands ' ' false before ++ ' ' :: (token x style ++ tail) := by
      rw [dropThousands_blank tables (by rw [hthree]; exact hbefore), hdropped]
    obtain ⟨d, rest, hfirst, hd⟩ := (token_ends x style).1
    have hdigit : ∃ d' tail', token x style ++ tail = d' :: tail' ∧ d'.isDigit = true :=
      ⟨d, rest ++ tail, by rw [hfirst]; rfl, hd⟩
    obtain ⟨found, hfound⟩ :=
      figuresFrom_past tables hdigit (dropThousands ' ' false before) 0 (Nat.zero_le _)
    rw [beside, if_neg hempty, if_neg hbeside, hsplit, hfound, hhead]
    exact List.mem_append_right _ List.mem_cons_self

section
variable {V : Type} [Arithmetic V] [DecidableEq V] {v : V}

theorem readings_token (tables : Tables) (x : Decimal) {style : Style} (hproper : style.Proper)
    (hv : Arithmetic.float x.numeral = some v) :
    Arithmetic.round v 4 ∈ (readings (token x style) : List V) := by
  rw [readings, List.mem_dedup, List.mem_filterMap]
  obtain h | h := token_reads tables x hproper
  · exact ⟨x.numeral, by rw [h]; exact List.mem_cons_self, by rw [hv]; rfl⟩
  · exact ⟨x.numeral, by rw [h]; exact List.mem_cons_of_mem _ (List.mem_singleton_self _),
      by rw [hv]; rfl⟩

theorem mem_numberForms (tables : Tables) (x : Decimal) {style : Style} (hproper : style.Proper)
    {before after : Option Text}
    (hbefore : ∀ b, before = some b →
      ¬ (endsDigit false (fold b) = true ∧ threeDigits (x.write style) = true))
    (hafter : ∀ a, after = some a → ¬ threeDigits (fold a) = true)
    (hv : Arithmetic.float x.numeral = some v) :
    ∃ forms ∈ (numberForms (around before after (x.write style)) : List (List V)),
      Arithmetic.round v 4 ∈ forms := by
  have hleft : ¬ (endsDigit false ((before.map fold).getD []) = true ∧
      threeDigits (x.write style) = true) := by
    cases before with
    | none => exact fun h => Bool.false_ne_true h.1
    | some b => exact hbefore b rfl
  have hright : ¬ threeDigits ((after.map fold).getD []) = true := by
    cases after with
    | none => exact Bool.false_ne_true
    | some a => exact hafter a rfl
  obtain ⟨magnitude, hfound⟩ := token_found tables x hproper hleft hright
  have hread : Arithmetic.round v 4 ∈ (readings (token x style) : List V) :=
    readings_token tables x hproper hv
  unfold numberForms
  rw [fold_around tables x hproper]
  cases hforms : (readings (token x style) : List V) with
  | nil =>
    rw [hforms] at hread
    cases hread
  | cons form forms =>
    rw [hforms] at hread
    cases magnitude with
    | none =>
      refine ⟨form :: forms, List.mem_flatMap.2 ⟨_, hfound, ?_⟩, hread⟩
      simp only [hforms]
      exact List.mem_singleton_self _
    | some m =>
      refine ⟨(form :: forms) ++ (form :: forms).map fun v =>
          Arithmetic.round (Arithmetic.mul v (Arithmetic.ofNat m)) 4,
        List.mem_flatMap.2 ⟨_, hfound, ?_⟩, List.mem_append_left _ hread⟩
      simp only [hforms]
      exact List.mem_singleton_self _

/-- Whatever its notation, a number is read as its plain numeral is; and so it
is in a text, where neither blank beside it joins two groups of digits. -/
theorem notations_read (tables : Tables) (x : Decimal) (style : Style) (hproper : style.Proper) (v : V)
    (hv : Arithmetic.float x.numeral = some v) :
    (∃ forms ∈ (numberForms (x.write style) : List (List V)), Arithmetic.round v 4 ∈ forms) ∧
      ∀ before after : Option Text,
        (∀ b, before = some b →
          ¬ (endsDigit false (fold b) = true ∧ threeDigits (x.write style) = true)) →
        (∀ a, after = some a → ¬ threeDigits (fold a) = true) →
        Arithmetic.round v 4 ∈ (numbers (around before after (x.write style)) : List V) := by
  constructor
  · have halone : around none none (x.write style) = x.write style := by simp [around]
    have h : ∃ forms ∈ (numberForms (around none none (x.write style)) : List (List V)),
        Arithmetic.round v 4 ∈ forms :=
      mem_numberForms tables x hproper (fun b h => nomatch h) (fun a h => nomatch h) hv
    rwa [halone] at h
  · intro before after hbefore hafter
    obtain ⟨forms, hforms, hmem⟩ := mem_numberForms tables x hproper hbefore hafter hv
    exact List.mem_flatten.2 ⟨forms, hforms, hmem⟩

end

end

/-! ## Binary floating point -/

def roundHalfEven (q : ℚ) : ℤ :=
  let f := q.floor
  if q - f < 1 / 2 then f else if 1 / 2 < q - f then f + 1 else if f % 2 = 0 then f else f + 1

/-- The double nearest to a non-negative number of the normal range. -/
def nearestDouble (q : ℚ) : ℚ :=
  if q = 0 then 0
  else
    let e : ℤ := (Nat.log2 q.num.natAbs : ℤ) - Nat.log2 q.den - 52
    let e := if q / 2 ^ e < 2 ^ 52 then e - 1 else e
    roundHalfEven (q / 2 ^ e) * 2 ^ e

def decimalText (s : Text) : Option ℚ :=
  let whole := s.takeWhile Char.isDigit
  let natural : Text → ℕ := fun ds => ds.foldl (fun n c => n * 10 + (c.toNat - 48)) 0
  match s.drop whole.length with
  | [] => if whole = [] then none else some (natural whole)
  | '.' :: fraction =>
    if whole ≠ [] ∧ fraction ≠ [] ∧ fraction.all Char.isDigit then
      some ((natural (whole ++ fraction) : ℚ) / 10 ^ fraction.length)
    else none
  | _ => none

@[reducible] def doubles : Arithmetic ℚ where
  float s := (decimalText s).map nearestDouble
  ofNat n := nearestDouble n
  round v places := nearestDouble (roundHalfEven (v * 10 ^ places) / 10 ^ places)
  mul a b := nearestDouble (a * b)
  div a b := nearestDouble (a / b)

def Decimal.value (x : Decimal) : ℚ :=
  x.whole + ((x.fraction.foldl (fun n d => n * 10 + d.val) 0 : ℕ) : ℚ) / 10 ^ x.fraction.length

section
attribute [local instance] plainTables doubles

theorem toLower_figure {c : Char} (hc : figureChar c = true ∨ c = ' ') : c.toLower = c := by
  have hsmall : c.val ≤ '9'.val := by
    simp only [figureChar, Char.isDigit, Bool.or_eq_true, Bool.and_eq_true, decide_eq_true_eq] at hc
    obtain ((⟨-, h⟩ | rfl) | rfl) | rfl := hc
    · exact h
    · decide
    · decide
    · decide
  have hupper : ¬ (c.val ≥ 'A'.val ∧ c.val ≤ 'Z'.val) := fun h =>
    absurd (UInt32.le_trans h.1 hsmall) (by decide)
  delta Char.toLower
  exact dif_neg hupper

theorem plain_tables : Tables where
  digit c hc := hc
  mark := by decide
  blank := by decide
  solid c hc := by
    have hne : ∀ d : Char, figureChar d = false → c ≠ d := by
      rintro d hd rfl
      rw [hc] at hd
      cases hd
    have hblank : (c = ' ' || c = '\n' || c = '\t' || c = '\r') = false := by
      simp [hne ' ' (by decide), hne '\n' (by decide), hne '\t' (by decide), hne '\r' (by decide)]
    exact hblank
  lowerFigure s hs := (List.map_congr_left fun c hc => toLower_figure (hs c hc)).trans (List.map_id' s)
  lowerBlank a b := by
    show (a ++ ' ' :: b).map Char.toLower = a.map Char.toLower ++ ' ' :: b.map Char.toLower
    rw [List.map_append, List.map_cons]
    rfl
  nfkdFigure s _ := rfl
  nfkdBlank a b := rfl
  combining c _ := rfl

def tenth : Decimal := ⟨0, [1], by decide⟩

def hundredTwentyThree : Decimal := ⟨123, [], by decide⟩

def price : Decimal := ⟨1234567, [8, 9], by decide⟩

theorem exact_value_not_read :
    tenth.value ∉ (numberForms (tenth.write (.plain ','))).flatten ∧
      hundredTwentyThree.value ∉
        numbers (around (some "5".toList) none (hundredTwentyThree.write (.plain '.'))) := by
  decide +kernel

theorem price_read :
    price.write .turkish = "1.234.567,89".toList ∧
      (∃ v, doubles.float price.numeral = some v) ∧
      Arithmetic.round (nearestDouble price.value) 4 ∈
        (numbers (around (some "toplam".toList) (some "lira".toList) (price.write .turkish)) : List ℚ) := by
  have hv : doubles.float price.numeral = some (nearestDouble price.value) := by decide +kernel
  refine ⟨by decide +kernel, ⟨_, hv⟩, ?_⟩
  apply (notations_read plain_tables price .turkish trivial _ hv).2 (some "toplam".toList) (some "lira".toList)
  · intro b hb
    obtain rfl := Option.some.inj hb
    decide +kernel
  · intro a ha
    obtain rfl := Option.some.inj ha
    decide +kernel

end

end RagPipeline.Answer
