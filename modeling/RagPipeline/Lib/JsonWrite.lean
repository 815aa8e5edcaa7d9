import RagPipeline.Lib.Json

/-! # Writing JSON

Strings with their escapes and numbers, and that the decoder reads back what
was written, whatever stands behind it. -/

set_option autoImplicit false

namespace RagPipeline.JsonText

/-! ## Strings -/

/-- The characters with an escape of their own, and its letter. -/
def shortEscapes : List (Char × Char) :=
  [('\\', '\\'), ('"', '"'), ('\x08', 'b'), ('\x0c', 'f'), ('\n', 'n'), ('\r', 'r'), ('\t', 't')]

def hexText (n : Nat) : Text :=
  [Nat.digitChar (n / 4096 % 16), Nat.digitChar (n / 256 % 16), Nat.digitChar (n / 16 % 16),
    Nat.digitChar (n % 16)]

/-- One sixteen-bit unit as an escape. -/
def writeUnit (n : Nat) : Text := '\\' :: 'u' :: hexText n

/-- A character past the sixteen bits is two units. -/
def writeUnits (n : Nat) : Text :=
  if n < 0x10000 then writeUnit n
  else writeUnit (0xd800 + (n - 0x10000) / 1024) ++ writeUnit (0xdc00 + (n - 0x10000) % 1024)

/-- One character of a string; with `ascii` everything past it is escaped. -/
def writeChar (ascii : Bool) (c : Char) : Text :=
  match shortEscapes.find? fun e => e.1 = c with
  | some e => ['\\', e.2]
  | none => if c.toNat < 32 ∨ (ascii ∧ 126 < c.toNat) then writeUnits c.toNat else [c]

def writeString (ascii : Bool) (t : Text) : Text := '"' :: (t.flatMap (writeChar ascii) ++ ['"'])

theorem hexDigit_digitChar {d : Nat} (hd : d < 16) : hexDigit (Nat.digitChar d) = some d := by
  have hall : ∀ d < 16, hexDigit (Nat.digitChar d) = some d := by decide
  exact hall d hd

theorem string_hex {high : Option Nat} {n : Nat} (hn : n < 0x10000) (rest : Text) :
    string high (.hex 3 0) (hexText n ++ rest) =
      match codeUnit high n with
      | .char d => push d (string none .plain rest)
      | .high h => string (some h) .plain rest
      | .lone => none := by
  have hdigit : ∀ m, hexDigit (Nat.digitChar (m % 16)) = some (m % 16) := fun m =>
    hexDigit_digitChar (Nat.mod_lt m (by decide))
  have hsum : (((0 * 16 + n / 4096 % 16) * 16 + n / 256 % 16) * 16 + n / 16 % 16) * 16 + n % 16 = n := by
    omega
  simp only [hexText, List.cons_append, List.nil_append, string, hdigit, hsum] <;> rfl

theorem string_unit {high : Option Nat} {n : Nat} (hn : n < 0x10000) (rest : Text) :
    string high .plain (writeUnit n ++ rest) =
      match codeUnit high n with
      | .char d => push d (string none .plain rest)
      | .high h => string (some h) .plain rest
      | .lone => none := by
  rw [writeUnit, List.cons_append, List.cons_append, string, if_pos rfl, string, if_pos rfl]
  exact string_hex hn rest

/-- No character is a surrogate. -/
theorem toNat_range (c : Char) : c.toNat < 0xd800 ∨ 0xdfff < c.toNat ∧ c.toNat < 0x110000 := c.valid

theorem string_units (c : Char) (rest : Text) :
    string none .plain (writeUnits c.toNat ++ rest) = push c (string none .plain rest) := by
  have hrange := toNat_range c
  unfold writeUnits
  split_ifs with hsmall
  · have hunit : codeUnit none c.toNat = .char c := by
      rw [codeUnit, if_neg (by omega), if_neg (by omega), Char.ofNat_toNat]
    rw [string_unit hsmall, hunit]
  · have hhigh : codeUnit none (0xd800 + (c.toNat - 0x10000) / 1024) =
        .high (0xd800 + (c.toNat - 0x10000) / 1024) := by
      rw [codeUnit, if_pos (by omega)]
    have hsum : 0x10000 + (0xd800 + (c.toNat - 0x10000) / 1024 - 0xd800) * 1024 +
        (0xdc00 + (c.toNat - 0x10000) % 1024 - 0xdc00) = c.toNat := by
      omega
    have hlow : codeUnit (some (0xd800 + (c.toNat - 0x10000) / 1024))
        (0xdc00 + (c.toNat - 0x10000) % 1024) = .char c := by
      rw [codeUnit, if_pos (by omega), hsum, Char.ofNat_toNat]
    rw [List.append_assoc, string_unit (by omega), hhigh]
    simp only
    rw [string_unit (by omega), hlow]

theorem string_writeChar (ascii : Bool) (c : Char) (rest : Text) :
    string none .plain (writeChar ascii c ++ rest) = push c (string none .plain rest) := by
  unfold writeChar
  split
  · rename_i e hfound
    have hall : ∀ e ∈ shortEscapes, e.2 ≠ 'u' ∧ escapes.lookup e.2 = some e.1 := by decide
    obtain ⟨hu, hescape⟩ := hall e (List.mem_of_find?_eq_some hfound)
    have hc : e.1 = c := by simpa using List.find?_some hfound
    rw [List.cons_append, List.cons_append, List.nil_append, string, if_pos rfl, string, if_neg hu,
      if_neg (by decide), hescape, hc]
  · rename_i hnone
    have hne : ∀ e ∈ shortEscapes, c ≠ e.1 := fun e he heq => by
      simpa [heq] using List.find?_eq_none.1 hnone e he
    split_ifs with hcontrol
    · exact string_units c rest
    · have hlarge : ¬ c.toNat < 32 := fun h => hcontrol (.inl h)
      rw [List.cons_append, List.nil_append, string, if_neg (hne ('\\', '\\') (by decide)),
        if_neg (by decide), if_neg (hne ('"', '"') (by decide)), if_neg hlarge]

/-- A string is read back. -/
theorem string_write (ascii : Bool) (t rest : Text) :
    string none .plain (t.flatMap (writeChar ascii) ++ '"' :: rest) = some (t, rest) := by
  induction t with
  | nil => rfl
  | cons c t ih =>
    rw [List.flatMap_cons, List.append_assoc, string_writeChar, ih]
    rfl

/-! ## Numbers -/

/-- What may stand behind a value. -/
def Ends (rest : Text) : Prop :=
  ∀ c tail, rest = c :: tail → c = ',' ∨ c = ']' ∨ c = '}' ∨ isBlank c = true

theorem Ends.head {rest : Text} (h : Ends rest) {c : Char} {tail : Text} (hrest : rest = c :: tail) :
    c.isDigit = false ∧ c ≠ '.' ∧ c ≠ 'e' ∧ c ≠ 'E' := by
  have hc := h c tail hrest
  simp only [isBlank, Bool.or_eq_true, decide_eq_true_eq] at hc
  obtain rfl | rfl | rfl | ((rfl | rfl) | rfl) | rfl := hc <;> decide

theorem takeWhile_ends {rest : Text} (h : Ends rest) : rest.takeWhile Char.isDigit = [] := by
  cases rest with
  | nil => rfl
  | cons c tail => rw [List.takeWhile_cons_of_neg (by simp [(h.head rfl).1])]

theorem dropWhile_ends {rest : Text} (h : Ends rest) : rest.dropWhile Char.isDigit = rest := by
  cases rest with
  | nil => rfl
  | cons c tail => rw [List.dropWhile_cons_of_neg (by simp [(h.head rfl).1])]

theorem takeWhile_append_ends (s : Text) {rest : Text} (h : Ends rest) :
    (s ++ rest).takeWhile Char.isDigit = s.takeWhile Char.isDigit ∧
      (s ++ rest).dropWhile Char.isDigit = s.dropWhile Char.isDigit ++ rest := by
  induction s with
  | nil => exact ⟨takeWhile_ends h, dropWhile_ends h⟩
  | cons c s ih =>
    by_cases hc : c.isDigit = true
    · rw [List.cons_append, List.takeWhile_cons_of_pos hc, List.takeWhile_cons_of_pos hc,
        List.dropWhile_cons_of_pos hc, List.dropWhile_cons_of_pos hc, ih.1]
      exact ⟨rfl, ih.2⟩
    · rw [List.cons_append, List.takeWhile_cons_of_neg hc, List.takeWhile_cons_of_neg hc,
        List.dropWhile_cons_of_neg hc, List.dropWhile_cons_of_neg hc]
      exact ⟨rfl, rfl⟩

theorem natural_append {s t r rest : Text} (hs : natural s = some (t, r)) (h : Ends rest) :
    natural (s ++ rest) = some (t, r ++ rest) := by
  cases s with
  | nil => cases hs
  | cons c s =>
    rw [natural] at hs
    rw [List.cons_append, natural, (takeWhile_append_ends s h).1, (takeWhile_append_ends s h).2]
    split_ifs at hs ⊢
    · cases hs
      rfl
    · cases hs
      rfl

theorem integer_append {s t r rest : Text} (hs : integer s = some (t, r)) (h : Ends rest) :
    integer (s ++ rest) = some (t, r ++ rest) := by
  unfold integer at hs
  split at hs
  · obtain ⟨⟨t', r'⟩, hn, heq⟩ := Option.map_eq_some_iff.1 hs
    cases heq
    rw [List.cons_append, integer, natural_append hn h]
    rfl
  · rename_i hsign
    cases s with
    | nil => cases hs
    | cons c s =>
      have hne : c ≠ '-' := by
        rintro rfl
        exact hsign s rfl
      have hint : integer (c :: s ++ rest) = natural (c :: s ++ rest) := by
        unfold integer
        split
        · rename_i heq
          exact absurd (List.cons.inj heq).1 hne
        · rfl
      rw [hint, natural_append hs h]

theorem digitRun_append (opening s digits : Text) {rest : Text} (h : Ends rest) :
    digitRun opening (s ++ rest) (digits ++ rest) =
      ((digitRun opening s digits).1, (digitRun opening s digits).2 ++ rest) := by
  unfold digitRun
  rw [(takeWhile_append_ends digits h).1, (takeWhile_append_ends digits h).2]
  split_ifs <;> rfl

theorem fraction_append (s : Text) {rest : Text} (h : Ends rest) :
    fraction (s ++ rest) = ((fraction s).1, (fraction s).2 ++ rest) := by
  have hplain : ∀ t : Text, (∀ tail, t ≠ '.' :: tail) → fraction t = ([], t) := by
    intro t ht
    unfold fraction
    split
    · exact absurd rfl (ht _)
    · rfl
  cases s with
  | nil => exact hplain rest fun tail heq => (h.head heq).2.1 rfl
  | cons c s =>
    by_cases hc : c = '.'
    · subst hc
      exact digitRun_append ['.'] ('.' :: s) s h
    · have hne : ∀ t tail : Text, c :: t ≠ '.' :: tail := fun t tail heq => hc (List.cons.inj heq).1
      rw [List.cons_append, hplain _ (hne _), hplain _ (hne _)]
      rfl

theorem exponentDigits_append (c : Char) (s : Text) {rest : Text} (h : Ends rest) :
    exponentDigits c (s ++ rest) = ((exponentDigits c s).1, (exponentDigits c s).2 ++ rest) := by
  have hplain : ∀ t : Text, (∀ tail, t ≠ '+' :: tail) → (∀ tail, t ≠ '-' :: tail) →
      exponentDigits c t = digitRun [c] (c :: t) t := by
    intro t hplus hminus
    unfold exponentDigits
    split
    · exact absurd rfl (hplus _)
    · exact absurd rfl (hminus _)
    · rfl
  by_cases hplus : ∃ tail, s = '+' :: tail
  · obtain ⟨tail, rfl⟩ := hplus
    exact digitRun_append [c, '+'] (c :: '+' :: tail) tail h
  by_cases hminus : ∃ tail, s = '-' :: tail
  · obtain ⟨tail, rfl⟩ := hminus
    exact digitRun_append [c, '-'] (c :: '-' :: tail) tail h
  have hfirst : ∀ d : Char, (∀ tail, s ≠ d :: tail) → (∀ tail, rest ≠ d :: tail) →
      ∀ tail, s ++ rest ≠ d :: tail := by
    intro d hs hrest tail heq
    cases s with
    | nil => exact hrest tail heq
    | cons e s => exact hs s (by rw [(List.cons.inj heq).1])
  have hsign : ∀ d : Char, d = '+' ∨ d = '-' → ∀ tail, rest ≠ d :: tail := by
    intro d hd tail heq
    have hc := h d tail heq
    obtain rfl | rfl := hd <;> simp [isBlank] at hc
  rw [hplain _ (hfirst '+' (fun tail heq => hplus ⟨tail, heq⟩) (hsign _ (.inl rfl)))
    (hfirst '-' (fun tail heq => hminus ⟨tail, heq⟩) (hsign _ (.inr rfl))),
    hplain s (fun tail heq => hplus ⟨tail, heq⟩) (fun tail heq => hminus ⟨tail, heq⟩)]
  exact digitRun_append [c] (c :: s) s h

theorem exponent_append (s : Text) {rest : Text} (h : Ends rest) :
    exponent (s ++ rest) = ((exponent s).1, (exponent s).2 ++ rest) := by
  cases s with
  | nil =>
    cases rest with
    | nil => rfl
    | cons c tail =>
      obtain ⟨-, -, hlower, hupper⟩ := h.head rfl
      have hnone : exponent (c :: tail) = ([], c :: tail) := by
        rw [exponent, if_neg (by simp [hlower, hupper])]
      exact hnone
  | cons c s =>
    rw [List.cons_append, exponent, exponent, exponentDigits_append c s h]
    split_ifs <;> rfl

/-- Nothing behind a number that ends there belongs to it. -/
theorem number_append {s t r rest : Text} {b : Bool} (hs : number s = some (t, b, r)) (h : Ends rest) :
    number (s ++ rest) = some (t, b, r ++ rest) := by
  obtain ⟨⟨whole, tail⟩, hinteger, heq⟩ := Option.map_eq_some_iff.1 hs
  rw [number, integer_append hinteger h]
  simp only [Option.map_some, fraction_append tail h, exponent_append _ h] at heq ⊢
  cases heq
  rfl

/-- `str` of an integer. -/
def writeInt (n : Int) : Text :=
  if n < 0 then '-' :: Nat.toDigits 10 n.natAbs else Nat.toDigits 10 n.natAbs

/-- `int` of the digits behind the sign. -/
def readInt : Text → Int
  | '-' :: digits => -(Nat.ofDigitChars 10 digits 0 : Int)
  | digits => (Nat.ofDigitChars 10 digits 0 : Int)

/-- Only nought begins with a nought. -/
theorem toDigits_head {n : Nat} {rest : Text} (h : Nat.toDigits 10 n = '0' :: rest) : n = 0 := by
  induction n using Nat.strongRecOn generalizing rest with
  | ind n ih =>
    by_cases hsmall : n < 10
    · rw [Nat.toDigits_of_lt_base hsmall] at h
      have hall : ∀ d < 10, Nat.digitChar d = '0' → d = 0 := by decide
      exact hall n hsmall (List.cons.inj h).1
    · rw [Nat.toDigits_of_base_le (by decide) (by omega)] at h
      cases htext : Nat.toDigits 10 (n / 10) with
      | nil => exact absurd htext Nat.toDigits_ne_nil
      | cons c tail =>
        rw [htext] at h
        obtain ⟨rfl, -⟩ := List.cons.inj h
        have hzero : n / 10 = 0 := ih (n / 10) (by omega) htext
        omega

theorem natural_toDigits (n : Nat) : natural (Nat.toDigits 10 n) = some (Nat.toDigits 10 n, []) := by
  have hdigits : ∀ c ∈ Nat.toDigits 10 n, c.isDigit = true := fun c hc =>
    Nat.isDigit_of_mem_toDigits (by decide) (by decide) hc
  cases htext : Nat.toDigits 10 n with
  | nil => exact absurd htext Nat.toDigits_ne_nil
  | cons c rest =>
    rw [htext] at hdigits
    have hrest : ∀ d ∈ rest, d.isDigit = true := fun d hd => hdigits d (List.mem_cons_of_mem _ hd)
    rw [natural]
    split_ifs with hzero hdigit
    · subst hzero
      obtain rfl : n = 0 := toDigits_head htext
      rw [Nat.toDigits_zero] at htext
      obtain ⟨-, rfl⟩ := List.cons.inj htext
      rfl
    · rw [List.takeWhile_eq_self_iff.2 hrest, List.dropWhile_eq_nil_iff.2 hrest]
    · exact absurd (hdigits c List.mem_cons_self) hdigit

theorem integer_writeInt (n : Int) : integer (writeInt n) = some (writeInt n, []) := by
  unfold writeInt
  split_ifs
  · rw [integer, natural_toDigits]
    rfl
  · unfold integer
    split
    · rename_i rest heq
      have hsign : ('-' : Char).isDigit = true :=
        Nat.isDigit_of_mem_toDigits (by decide) (by decide) (heq ▸ List.mem_cons_self)
      cases hsign
    · exact natural_toDigits _

/-- An integer is read as one, whatever stands behind it. -/
theorem number_writeInt (n : Int) {rest : Text} (h : Ends rest) :
    number (writeInt n ++ rest) = some (writeInt n, false, rest) := by
  have hnumber : number (writeInt n) = some (writeInt n, false, []) := by
    rw [number, integer_writeInt]
    simp [fraction, exponent]
  rw [number_append hnumber h]
  rfl

theorem readInt_writeInt (n : Int) : readInt (writeInt n) = n := by
  have hvalue : Nat.ofDigitChars 10 (Nat.toDigits 10 n.natAbs) 0 = n.natAbs :=
    Nat.ofDigitChars_toDigits (by decide) (by decide)
  unfold writeInt
  split_ifs with hneg
  · rw [readInt, hvalue]
    omega
  · unfold readInt
    split
    · rename_i digits heq
      have hsign : ('-' : Char).isDigit = true :=
        Nat.isDigit_of_mem_toDigits (by decide) (by decide) (heq ▸ List.mem_cons_self)
      cases hsign
    · rw [hvalue]
      omega

/-! ## Scalars -/

theorem natural_head {s t rest : Text} (h : natural s = some (t, rest)) :
    ∃ c tail, s = c :: tail ∧ c.isDigit = true := by
  cases s with
  | nil => cases h
  | cons c s =>
    rw [natural] at h
    split_ifs at h with hzero hdigit
    · exact ⟨c, s, rfl, by rw [hzero]; decide⟩
    · exact ⟨c, s, rfl, hdigit⟩

theorem integer_head {s t rest : Text} (h : integer s = some (t, rest)) :
    ∃ c tail, (s = c :: tail ∨ s = '-' :: c :: tail) ∧ c.isDigit = true := by
  unfold integer at h
  split at h
  · obtain ⟨⟨t', rest'⟩, hn, -⟩ := Option.map_eq_some_iff.1 h
    obtain ⟨c, tail, rfl, hc⟩ := natural_head hn
    exact ⟨c, tail, .inr rfl, hc⟩
  · obtain ⟨c, tail, rfl, hc⟩ := natural_head h
    exact ⟨c, tail, .inl rfl, hc⟩

section
variable {V : Type} {hooks : Hooks V}

/-- No constant begins the way a number does. -/
theorem scalar_number {s t rest : Text} {b : Bool} (hnumber : number s = some (t, b, rest)) :
    scalar hooks s = (if b then hooks.real t else hooks.int t).map fun v => (v, rest) := by
  obtain ⟨⟨whole, tail⟩, hinteger, -⟩ := Option.map_eq_some_iff.1 hnumber
  obtain ⟨c, after, hs, hc⟩ := integer_head hinteger
  have hne : ∀ d : Char, d.isDigit = false → (d == c) = false := by
    intro d hd
    apply beq_eq_false_iff_ne.2
    rintro rfl
    rw [hc] at hd
    cases hd
  have hnone : (constants hooks).find? (fun l => l.1.isPrefixOf s) = none := by
    apply List.find?_eq_none.2
    intro word hword
    simp only [constants, List.mem_cons, List.not_mem_nil, or_false] at hword
    obtain rfl | rfl := hs
    · obtain rfl | rfl | rfl | rfl | rfl | rfl := hword <;>
        simp [List.isPrefixOf, hne 'n' (by decide), hne 't' (by decide), hne 'f' (by decide),
          hne 'N' (by decide), hne 'I' (by decide), hne '-' (by decide)]
    · obtain rfl | rfl | rfl | rfl | rfl | rfl := hword <;>
        simp [List.isPrefixOf, hne 'I' (by decide)]
  rw [scalar, hnone, hnumber]

theorem scalar_constant {word : Text} {v : V} {rest : Text}
    (hword : word = "null".toList ∧ v = hooks.null ∨ word = "true".toList ∧ v = hooks.bool true ∨
      word = "false".toList ∧ v = hooks.bool false) :
    scalar hooks (word ++ rest) = some (v, rest) := by
  obtain ⟨rfl, rfl⟩ | ⟨rfl, rfl⟩ | ⟨rfl, rfl⟩ := hword <;>
    simp [scalar, constants, List.isPrefixOf]

/-! ## Values -/

/-- Begins with no blank, no closing and no byte order mark. -/
def Begins (s : Text) : Prop :=
  ∃ c tail, s = c :: tail ∧ isBlank c = false ∧ c ≠ ']' ∧ c ≠ '}' ∧ c ≠ '\ufeff'

theorem Begins.append {s : Text} (h : Begins s) (t : Text) : Begins (s ++ t) := by
  obtain ⟨c, tail, rfl, hc⟩ := h
  exact ⟨c, tail ++ t, rfl, hc⟩

theorem Begins.skip {s : Text} (h : Begins s) : skip s = s := by
  obtain ⟨c, tail, rfl, hc, -⟩ := h
  rw [JsonText.skip, List.dropWhile_cons_of_neg (by simp [hc])]

theorem Begins.skip_blank {s : Text} (h : Begins s) : JsonText.skip (' ' :: s) = s := by
  rw [JsonText.skip, List.dropWhile_cons_of_pos (by decide)]
  exact h.skip

theorem begins_writeString (ascii : Bool) (t : Text) : Begins (writeString ascii t) :=
  ⟨'"', _, rfl, by decide, by decide, by decide, by decide⟩

theorem begins_number {s t rest : Text} {b : Bool} (h : number s = some (t, b, rest)) : Begins s := by
  obtain ⟨⟨whole, tail⟩, hinteger, -⟩ := Option.map_eq_some_iff.1 h
  obtain ⟨c, after, hs, hc⟩ := integer_head hinteger
  have hne : ∀ d : Char, d.isDigit = false → c ≠ d := by
    rintro d hd rfl
    rw [hc] at hd
    cases hd
  obtain rfl | rfl := hs
  · refine ⟨c, after, rfl, ?_, hne ']' (by decide), hne '}' (by decide), hne '\ufeff' (by decide)⟩
    simp [isBlank, hne ' ' (by decide), hne '\t' (by decide), hne '\n' (by decide),
      hne '\r' (by decide)]
  · exact ⟨'-', c :: after, rfl, by decide, by decide, by decide, by decide⟩

theorem value_string (fuel : Nat) (ascii : Bool) (t rest : Text) :
    value hooks (fuel + 1) (writeString ascii t ++ rest) = some (hooks.str t, rest) := by
  rw [writeString, List.cons_append, List.append_assoc, value, if_pos rfl]
  simp only [List.singleton_append, string_write, Option.map_some]

theorem value_scalar (fuel : Nat) {c : Char} (hc : c ≠ '"' ∧ c ≠ '{' ∧ c ≠ '[') (s : Text) :
    value hooks (fuel + 1) (c :: s) = scalar hooks (c :: s) := by
  rw [value, if_neg hc.1, if_neg hc.2.1, if_neg hc.2.2]

theorem value_number (fuel : Nat) {s t rest : Text} {b : Bool} (hnumber : number s = some (t, b, rest)) :
    value hooks (fuel + 1) s = (if b then hooks.real t else hooks.int t).map fun v => (v, rest) := by
  have hscalar : scalar hooks s = _ := scalar_number hnumber
  obtain ⟨⟨whole, tail⟩, hinteger, -⟩ := Option.map_eq_some_iff.1 hnumber
  obtain ⟨c, after, hs, hc⟩ := integer_head hinteger
  have hne : ∀ d : Char, d.isDigit = false → c ≠ d := by
    rintro d hd rfl
    rw [hc] at hd
    cases hd
  obtain rfl | rfl := hs
  · rw [value_scalar fuel ⟨hne _ (by decide), hne _ (by decide), hne _ (by decide)⟩, hscalar]
  · rw [value_scalar fuel (by decide), hscalar]

theorem value_array {fuel : Nat} {s rest : Text} {vs : List V} (h : items hooks fuel s = some (vs, rest))
    (hs : Begins s) : value hooks (fuel + 1) ('[' :: s) = some (hooks.arr vs, rest) := by
  rw [value, if_neg (by decide), if_neg (by decide), if_pos rfl, hs.skip]
  obtain ⟨c, tail, rfl, -, hc, -⟩ := hs
  split
  · rename_i heq
    exact absurd (List.cons.inj heq).1 hc
  · rw [h]
    rfl

theorem value_object {fuel : Nat} {s rest : Text} {ms : List (Text × V)} {v : V}
    (h : members hooks fuel s = some (ms, rest)) (hv : hooks.obj ms = some v) (hs : Begins s) :
    value hooks (fuel + 1) ('{' :: s) = some (v, rest) := by
  rw [value, if_neg (by decide), if_pos rfl, hs.skip]
  obtain ⟨c, tail, rfl, -, -, hc, -⟩ := hs
  split
  · rename_i heq
    exact absurd (List.cons.inj heq).1 hc
  · rw [h]
    simp only [Option.bind_some, hv, Option.map_some]

theorem items_last {fuel : Nat} {s rest : Text} {v : V}
    (h : value hooks fuel s = some (v, ']' :: rest)) : items hooks (fuel + 1) s = some ([v], rest) := by
  rw [items, h]
  rfl

theorem items_more {fuel : Nat} {s t rest : Text} {v : V} {vs : List V}
    (h : value hooks fuel s = some (v, ',' :: ' ' :: t)) (ht : Begins t)
    (hmore : items hooks fuel t = some (vs, rest)) :
    items hooks (fuel + 1) s = some (v :: vs, rest) := by
  have hcomma : skip (',' :: ' ' :: t) = ',' :: ' ' :: t := rfl
  rw [items, h]
  simp only [Option.bind_some, hcomma, ht.skip_blank, hmore, Option.map_some]

/-- A key with its colon, up to the value. -/
theorem members_key {fuel : Nat} (ascii : Bool) (key : Text) {s : Text} (hs : Begins s) :
    members hooks (fuel + 1) (writeString ascii key ++ ':' :: ' ' :: s) =
      (value hooks fuel s).bind fun (v, rest) =>
        match skip rest with
        | '}' :: rest => some ([(key, v)], rest)
        | ',' :: rest => (members hooks fuel (skip rest)).map fun (ms, rest) => ((key, v) :: ms, rest)
        | _ => none := by
  have hcolon : skip (':' :: ' ' :: s) = ':' :: ' ' :: s := rfl
  rw [writeString, List.cons_append, List.append_assoc, members, if_pos rfl]
  simp only [List.singleton_append, string_write, Option.bind_some, hcolon, hs.skip_blank] <;> rfl

theorem members_last {fuel : Nat} {ascii : Bool} {key s rest : Text} {v : V} (hs : Begins s)
    (h : value hooks fuel s = some (v, '}' :: rest)) :
    members hooks (fuel + 1) (writeString ascii key ++ ':' :: ' ' :: s) = some ([(key, v)], rest) := by
  rw [members_key ascii key hs, h]
  rfl

theorem members_more {fuel : Nat} {ascii : Bool} {key s t rest : Text} {v : V} {ms : List (Text × V)}
    (hs : Begins s) (h : value hooks fuel s = some (v, ',' :: ' ' :: t)) (ht : Begins t)
    (hmore : members hooks fuel t = some (ms, rest)) :
    members hooks (fuel + 1) (writeString ascii key ++ ':' :: ' ' :: s) =
      some ((key, v) :: ms, rest) := by
  have hcomma : skip (',' :: ' ' :: t) = ',' :: ' ' :: t := rfl
  rw [members_key ascii key hs, h]
  simp only [Option.bind_some, hcomma, ht.skip_blank, hmore, Option.map_some]

/-- A whole text that is one value. -/
theorem loads_value {s : Text} {v : V} (hs : Begins s)
    (h : value hooks (s.length + 1) s = some (v, [])) : loads hooks s = some v := by
  have hmark : ¬ s.head? = some '\ufeff' := by
    obtain ⟨c, tail, rfl, -, -, -, hc⟩ := hs
    exact fun heq => hc (Option.some.inj heq)
  rw [loads, if_neg hmark, hs.skip, h]
  rfl

end

end RagPipeline.JsonText
