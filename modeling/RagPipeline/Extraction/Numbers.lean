import RagPipeline.Extraction.Normalize

/-! # Numbers and cells

A number keeps its digits and its sign while its separators are swapped, once;
what the two normalizers do twice is what they do once, but for what the repairs
leave over. -/

set_option autoImplicit false

namespace RagPipeline.Extraction
open Text Replace

/-! ## Separators -/

section
variable {U : Unicode} {l : List Char}

theorem rfind_eq_none_iff {c : Char} : rfind c l = none ↔ c ∉ l := by
  induction l with
  | nil => simp [rfind]
  | cons d rest ih =>
    rw [List.mem_cons, not_or, ← ih, rfind]
    cases rfind c rest with
    | some i => simp
    | none =>
      by_cases hd : d = c
      · simp [hd]
      · simp [hd, Ne.symm hd]

theorem rfind_map {f : Char → Char} {c d : Char} (h : ∀ x ∈ l, f x = d ↔ x = c) :
    rfind d (l.map f) = rfind c l := by
  induction l with
  | nil => rfl
  | cons x rest ih =>
    rw [List.map_cons, rfind, rfind, ih fun y hy => h y (List.mem_cons_of_mem x hy)]
    have hx := h x List.mem_cons_self
    by_cases hc : x = c
    · rw [if_pos hc, if_pos (hx.2 hc)]
    · rw [if_neg hc, if_neg fun hd => hc (hx.1 hd)]

def swapSeparator (c : Char) : Char := if c = ',' then '.' else if c = '.' then ',' else c

theorem swapSeparators_eq (h : '\x00' ∉ l) : swapSeparators l = l.map swapSeparator := by
  unfold swapSeparators
  rw [List.map_map, List.map_map]
  apply List.map_congr_left
  intro c hc
  have hzero : c ≠ '\x00' := fun heq => h (heq ▸ hc)
  simp only [Function.comp_apply, swapSeparator]
  by_cases hcomma : c = ','
  · rw [hcomma]
    decide
  · by_cases hdot : c = '.'
    · rw [hdot]
      decide
    · simp [hcomma, hdot, hzero]

/-- Digits and separators. -/
def Plain (U : Unicode) (l : List Char) : Prop :=
  ∀ c ∈ l, U.digit c = true ∨ c = '.' ∨ c = ','

theorem Plain.zero (hU : Composing U) (h : Plain U l) : '\x00' ∉ l := by
  intro hmem
  obtain hdigit | hsep | hsep := h _ hmem
  · rw [hU.digit_other _ (by decide)] at hdigit
    cases hdigit
  · cases hsep
  · cases hsep

theorem Plain.hyphen (hU : Composing U) (h : Plain U l) : '-' ∉ l := by
  intro hmem
  obtain hdigit | hsep | hsep := h _ hmem
  · rw [hU.digit_other _ (by decide)] at hdigit
    cases hdigit
  · cases hsep
  · cases hsep

/-- What a number body becomes: it, or its characters mapped so that digits stay and
separators stay separators. -/
theorem turkishBody_cases (hU : Composing U) (h : Plain U l) :
    turkishBody l = l ∨ ∃ f : Char → Char, turkishBody l = l.map f ∧
      (∀ c, c ≠ '.' → c ≠ ',' → f c = c) ∧ (∀ c, c = '.' ∨ c = ',' → f c = '.' ∨ f c = ',') ∧
      turkishBody (l.map f) = l.map f := by
  cases hdot : rfind '.' l with
  | none =>
    left
    unfold turkishBody
    rw [hdot]
  | some dot =>
    cases hcomma : rfind ',' l with
    | none =>
      have hnocomma := rfind_eq_none_iff.1 hcomma
      by_cases hparts : ∃ whole fraction, l.splitOn '.' = [whole, fraction] ∧
          (fraction.length = 1 ∨ fraction.length = 2)
      · right
        obtain ⟨whole, fraction, hsplit, hlen⟩ := hparts
        refine ⟨fun c => if c = '.' then ',' else c, ?_, ?_, ?_, ?_⟩
        · unfold turkishBody
          rw [hdot, hcomma]
          dsimp only
          rw [hsplit]
          exact if_pos hlen
        · intro c hc _
          exact if_neg hc
        · intro c hc
          obtain rfl | rfl := hc
          · exact .inr rfl
          · exact .inr rfl
        · have hnodot : rfind '.' (l.map fun c => if c = '.' then ',' else c) = none := by
            rw [rfind_eq_none_iff, List.mem_map]
            rintro ⟨c, -, hc⟩
            split at hc
            case isTrue => cases hc
            case isFalse hne => exact hne hc
          unfold turkishBody
          rw [hnodot]
      · left
        unfold turkishBody
        rw [hdot, hcomma]
        dsimp only
        split
        case h_1 whole fraction hsplit =>
          apply if_neg
          intro hlen
          exact hparts ⟨whole, fraction, hsplit, hlen⟩
        case h_2 => rfl
    | some comma =>
      by_cases hlt : comma < dot
      · right
        have hswap := swapSeparators_eq (h.zero hU)
        have hdot' : rfind ',' (l.map swapSeparator) = some dot := by
          rw [← hdot]
          apply rfind_map
          intro x _
          unfold swapSeparator
          split_ifs with h1 h2
          · simp [h1]
          · simp [h2]
          · simp [h1, h2]
        have hcomma' : rfind '.' (l.map swapSeparator) = some comma := by
          rw [← hcomma]
          apply rfind_map
          intro x _
          unfold swapSeparator
          split_ifs with h1 h2
          · simp [h1]
          · simp [h2]
          · simp [h1, h2]
        refine ⟨swapSeparator, ?_, ?_, ?_, ?_⟩
        · unfold turkishBody
          rw [hdot, hcomma]
          dsimp only
          rw [if_pos hlt, hswap]
        · intro c hc hc'
          rw [swapSeparator, if_neg hc', if_neg hc]
        · intro c hc
          obtain rfl | rfl := hc
          · exact .inr rfl
          · exact .inl rfl
        · rw [turkishBody, hdot', hcomma']
          exact if_neg (by omega)
      · left
        unfold turkishBody
        rw [hdot, hcomma]
        exact if_neg hlt

/-! ## Numbers -/

theorem strip_eq {text : String} (h : ∀ c ∈ text.toList, isSpace c = false) : strip text = text := by
  have hdrop : ∀ l : List Char, (∀ c ∈ l, isSpace c = false) → l.dropWhile isSpace = l := by
    intro l hl
    cases l with
    | nil => rfl
    | cons c rest => exact List.dropWhile_cons_of_neg (by simp [hl c List.mem_cons_self])
  unfold strip
  rw [hdrop _ h, hdrop _ (by simpa using h), List.reverse_reverse, String.ofList_toList]

theorem numberBody_plain (h : numberBody U l = true) : Plain U l := by
  cases l with
  | nil => cases h
  | cons c rest =>
    simp only [numberBody, Bool.and_eq_true, List.all_eq_true, Bool.or_eq_true,
      decide_eq_true_eq] at h
    intro d hd
    obtain rfl | hd := List.mem_cons.1 hd
    · exact .inl h.1
    · obtain (hd | hd) | hd := h.2 d hd
      · exact .inl hd
      · exact .inr (.inl hd)
      · exact .inr (.inr hd)

theorem numberBody_map (hU : Composing U) {f : Char → Char}
    (hkeep : ∀ c, c ≠ '.' → c ≠ ',' → f c = c) (hsep : ∀ c, c = '.' ∨ c = ',' → f c = '.' ∨ f c = ',')
    (h : numberBody U l = true) : numberBody U (l.map f) = true := by
  have hdigit : ∀ c, U.digit c = true → f c = c := by
    intro c hc
    apply hkeep
    · rintro rfl
      rw [hU.digit_other _ (by decide)] at hc
      cases hc
    · rintro rfl
      rw [hU.digit_other _ (by decide)] at hc
      cases hc
  cases l with
  | nil => cases h
  | cons c rest =>
    simp only [numberBody, List.map_cons, Bool.and_eq_true, List.all_eq_true, Bool.or_eq_true,
      decide_eq_true_eq, List.mem_map] at h ⊢
    rw [hdigit c h.1]
    refine ⟨h.1, ?_⟩
    rintro _ ⟨d, hd, rfl⟩
    obtain (hd | hd) | hd := h.2 d hd
    · rw [hdigit d hd]
      exact .inl (.inl hd)
    · obtain h' | h' := hsep d (.inl hd)
      · exact .inl (.inr h')
      · exact .inr h'
    · obtain h' | h' := hsep d (.inr hd)
      · exact .inl (.inr h')
      · exact .inr h'

/-- A number: its sign, its body, and a separator somewhere in it. -/
structure Numeral (U : Unicode) (sign body : List Char) : Prop where
  sign_eq : sign = [] ∨ sign = ['-']
  like : numberBody U body = true
  separated : '.' ∈ body ∨ ',' ∈ body

theorem Numeral.head (hU : Composing U) {sign body : List Char} (h : Numeral U sign body) :
    ∃ c rest, body = c :: rest ∧ c ≠ '-' := by
  cases body with
  | nil => cases h.like
  | cons c rest =>
    refine ⟨c, rest, rfl, ?_⟩
    have hplain := (numberBody_plain h.like).hyphen hU
    intro hc
    exact hplain (hc ▸ List.mem_cons_self)

theorem Numeral.plain {sign body : List Char} (h : Numeral U sign body) :
    ∀ c ∈ sign ++ body, U.digit c = true ∨ c = '.' ∨ c = ',' ∨ c = '-' := by
  intro c hc
  obtain hc | hc := List.mem_append.1 hc
  · obtain hsign | hsign := h.sign_eq
    · rw [hsign] at hc
      cases hc
    · rw [hsign] at hc
      exact .inr (.inr (.inr (List.mem_singleton.1 hc)))
  · obtain h' | h' | h' := numberBody_plain h.like c hc
    · exact .inl h'
    · exact .inr (.inl h')
    · exact .inr (.inr (.inl h'))

/-- A number in Turkish format is again a number, in Turkish format. -/
theorem Numeral.turkish (hU : Composing U) {sign body : List Char} (h : Numeral U sign body) :
    Numeral U sign (turkishBody body) ∧ turkishBody (turkishBody body) = turkishBody body := by
  obtain heq | ⟨f, heq, hkeep, hsep, hagain⟩ := turkishBody_cases hU (numberBody_plain h.like)
  · rw [heq]
    exact ⟨h, heq⟩
  · rw [heq]
    refine ⟨⟨h.sign_eq, numberBody_map hU hkeep hsep h.like, ?_⟩, hagain⟩
    obtain hmem | hmem := h.separated
    · obtain h' | h' := hsep _ (.inl rfl)
      · exact .inl (List.mem_map.2 ⟨_, hmem, h'⟩)
      · exact .inr (List.mem_map.2 ⟨_, hmem, h'⟩)
    · obtain h' | h' := hsep _ (.inr rfl)
      · exact .inl (List.mem_map.2 ⟨_, hmem, h'⟩)
      · exact .inr (List.mem_map.2 ⟨_, hmem, h'⟩)

theorem Numeral.strip (hU : Composing U) {sign body : List Char} (h : Numeral U sign body) :
    (strip (String.ofList (sign ++ body))).toList = sign ++ body := by
  rw [strip_eq, String.toList_ofList]
  rw [String.toList_ofList]
  intro c hc
  obtain hdigit | hc | hc | hc := h.plain c hc
  · exact hU.digit_space c hdigit
  · rw [hc]; decide
  · rw [hc]; decide
  · rw [hc]; decide

end

/-! ## Spellings of a decimal -/

/-- Groups of digits with a separator between two. -/
def joined (sep : Char) : List (List Char) → List Char
  | [] => []
  | [g] => g
  | g :: rest => g ++ sep :: joined sep rest

/-- A decimal with one or two fractional digits; a whole part without grouping is
one group. -/
structure Decimal (U : Unicode) where
  negative : Bool
  groups : List (List Char)
  fraction : List Char
  groups_ne : groups ≠ []
  group_ne : ∀ g ∈ groups, g ≠ []
  group_digits : ∀ g ∈ groups, ∀ c ∈ g, U.digit c = true
  fraction_digits : ∀ c ∈ fraction, U.digit c = true
  places : fraction.length = 1 ∨ fraction.length = 2

namespace Decimal

variable {U : Unicode}

def sign (d : Decimal U) : List Char := if d.negative then ['-'] else []

def english (d : Decimal U) : String :=
  String.ofList (d.sign ++ (joined ',' d.groups ++ '.' :: d.fraction))

def turkish (d : Decimal U) : String :=
  String.ofList (d.sign ++ (joined '.' d.groups ++ ',' :: d.fraction))

end Decimal

section
variable {U : Unicode} {groups : List (List Char)} {sep : Char}

end

end RagPipeline.Extraction
