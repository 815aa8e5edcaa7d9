import Mathlib.Data.List.TakeWhile

/-! # JSON texts

A decoder with hooks, which decide what becomes of each kind of value, and the
bracket structure of a text: what a decoder reads is always closed in itself. -/

set_option autoImplicit false

namespace RagPipeline.JsonText

abbrev Text := List Char

/-- What is made of each kind of value; `none` where the hook raises. -/
structure Hooks (V : Type) where
  null : V
  bool : Bool → V
  int : Text → Option V
  real : Text → Option V
  constant : Text → Option V
  str : Text → V
  arr : List V → V
  obj : List (Text × V) → Option V

def isBlank (c : Char) : Bool := c = ' ' || c = '\t' || c = '\n' || c = '\r'

def skip (s : Text) : Text := s.dropWhile isBlank

/-! ## Strings -/

/-- Where in a string the decoder is: in an escape, or with so many more hex
digits to come after the next. -/
inductive Mode where
  | plain
  | escape
  | hex (more : Nat) (n : Nat)

def escapes : List (Char × Char) :=
  [('"', '"'), ('\\', '\\'), ('/', '/'), ('b', '\x08'), ('f', '\x0c'), ('n', '\n'), ('r', '\r'),
    ('t', '\t')]

def hexDigit (c : Char) : Option Nat :=
  if c.isDigit then some (c.toNat - 48)
  else if 'a' ≤ c ∧ c ≤ 'f' then some (c.toNat - 87)
  else if 'A' ≤ c ∧ c ≤ 'F' then some (c.toNat - 55)
  else none

inductive CodeUnit where
  | char (c : Char)
  | high (n : Nat)
  | lone

/-- One sixteen-bit unit, behind a high surrogate or not. A surrogate without
the other half is no character. -/
def codeUnit : Option Nat → Nat → CodeUnit
  | none, n =>
    if 0xd800 ≤ n ∧ n < 0xdc00 then .high n
    else if 0xdc00 ≤ n ∧ n < 0xe000 then .lone
    else .char (Char.ofNat n)
  | some h, n =>
    if 0xdc00 ≤ n ∧ n < 0xe000 then .char (Char.ofNat (0x10000 + (h - 0xd800) * 1024 + (n - 0xdc00)))
    else .lone

/-- A character in front of what is read of the rest of a string. -/
def push (c : Char) : Option (Text × Text) → Option (Text × Text)
  | some (t, rest) => some (c :: t, rest)
  | none => none

/-- Reads a string behind its opening quote. A high surrogate may be waiting
for its other half. -/
def string : Option Nat → Mode → Text → Option (Text × Text)
  | _, _, [] => none
  | high, .plain, c :: rest =>
    if c = '\\' then string high .escape rest
    else if high.isSome then none
    else if c = '"' then some ([], rest)
    else if c.toNat < 32 then none
    else push c (string none .plain rest)
  | high, .escape, c :: rest =>
    if c = 'u' then string high (.hex 3 0) rest
    else if high.isSome then none
    else
      match escapes.lookup c with
      | some d => push d (string none .plain rest)
      | none => none
  | high, .hex more n, c :: rest =>
    match hexDigit c with
    | none => none
    | some d =>
      match more with
      | more + 1 => string high (.hex more (n * 16 + d)) rest
      | 0 =>
        match codeUnit high (n * 16 + d) with
        | .char d => push d (string none .plain rest)
        | .high h => string (some h) .plain rest
        | .lone => none

/-! ## Numbers -/

def natural : Text → Option (Text × Text)
  | [] => none
  | c :: rest =>
    if c = '0' then some (['0'], rest)
    else if c.isDigit then some (c :: rest.takeWhile Char.isDigit, rest.dropWhile Char.isDigit)
    else none

def integer : Text → Option (Text × Text)
  | '-' :: rest => (natural rest).map fun (t, rest) => ('-' :: t, rest)
  | s => natural s

/-- A run of digits behind an opening, or nothing at all. -/
def digitRun (opening s rest : Text) : Text × Text :=
  if rest.takeWhile Char.isDigit = [] then ([], s)
  else (opening ++ rest.takeWhile Char.isDigit, rest.dropWhile Char.isDigit)

def fraction : Text → Text × Text
  | '.' :: rest => digitRun ['.'] ('.' :: rest) rest
  | s => ([], s)

/-- The digits of an exponent, with a sign or without. -/
def exponentDigits (c : Char) : Text → Text × Text
  | '+' :: rest => digitRun [c, '+'] (c :: '+' :: rest) rest
  | '-' :: rest => digitRun [c, '-'] (c :: '-' :: rest) rest
  | rest => digitRun [c] (c :: rest) rest

def exponent : Text → Text × Text
  | [] => ([], [])
  | c :: rest => if c = 'e' ∨ c = 'E' then exponentDigits c rest else ([], c :: rest)

/-- A number: its text, whether it has a fraction or an exponent, and the rest. -/
def number (s : Text) : Option (Text × Bool × Text) :=
  (integer s).map fun (whole, rest) =>
    let (frac, rest) := fraction rest
    let (exp, rest) := exponent rest
    (whole ++ frac ++ exp, frac ≠ [] || exp ≠ [], rest)

section
variable {V : Type} (hooks : Hooks V)

/-! ## Values -/

def constants : List (Text × Option V) :=
  [("null".toList, some hooks.null), ("true".toList, some (hooks.bool true)),
    ("false".toList, some (hooks.bool false)), ("NaN".toList, hooks.constant "NaN".toList),
    ("Infinity".toList, hooks.constant "Infinity".toList),
    ("-Infinity".toList, hooks.constant "-Infinity".toList)]

def scalar (s : Text) : Option (V × Text) :=
  match (constants hooks).find? fun l => l.1.isPrefixOf s with
  | some (word, v) => v.map fun v => (v, s.drop word.length)
  | none =>
    match number s with
    | some (literal, isReal, rest) =>
      (if isReal then hooks.real literal else hooks.int literal).map fun v => (v, rest)
    | none => none

/- The number bounds how deep and how long it may still read; the length of the
text is always enough. -/
mutual

def value : Nat → Text → Option (V × Text)
  | 0, _ => none
  | _ + 1, [] => none
  | fuel + 1, c :: rest =>
    if c = '"' then (string none .plain rest).map fun (t, rest) => (hooks.str t, rest)
    else if c = '{' then
      match skip rest with
      | '}' :: rest => (hooks.obj []).map fun v => (v, rest)
      | rest => (members fuel rest).bind fun (ms, rest) => (hooks.obj ms).map fun v => (v, rest)
    else if c = '[' then
      match skip rest with
      | ']' :: rest => some (hooks.arr [], rest)
      | rest => (items fuel rest).map fun (vs, rest) => (hooks.arr vs, rest)
    else scalar hooks (c :: rest)

/-- From a key to the closing brace. -/
def members : Nat → Text → Option (List (Text × V) × Text)
  | 0, _ => none
  | _ + 1, [] => none
  | fuel + 1, c :: rest =>
    if c = '"' then
      (string none .plain rest).bind fun (key, rest) =>
        match skip rest with
        | ':' :: rest =>
          (value fuel (skip rest)).bind fun (v, rest) =>
            match skip rest with
            | '}' :: rest => some ([(key, v)], rest)
            | ',' :: rest => (members fuel (skip rest)).map fun (ms, rest) => ((key, v) :: ms, rest)
            | _ => none
        | _ => none
    else none

/-- From a value to the closing bracket. -/
def items : Nat → Text → Option (List V × Text)
  | 0, _ => none
  | fuel + 1, s =>
    (value fuel s).bind fun (v, rest) =>
      match skip rest with
      | ']' :: rest => some ([v], rest)
      | ',' :: rest => (items fuel (skip rest)).map fun (vs, rest) => (v :: vs, rest)
      | _ => none

end

/-- `json.loads`. -/
def loads (s : Text) : Option V :=
  if s.head? = some '\ufeff' then none
  else
    (value hooks (s.length + 1) (skip s)).bind fun (v, rest) =>
      if skip rest = [] then some v else none

end

/-! ## Bracket structure -/

def structural (c : Char) : Bool := c = '"' || c = '{' || c = '[' || c = '}' || c = ']'

/-- An opening and the closing that belongs to it. -/
def Pairs (o c : Char) : Prop := o = '{' ∧ c = '}' ∨ o = '[' ∧ c = ']'

/-- What may stand between two quotes. -/
inductive Quoted : Text → Prop
  | nil : Quoted []
  | plain {c : Char} {s : Text} : c ≠ '"' → c ≠ '\\' → Quoted s → Quoted (c :: s)
  | escape {c : Char} {s : Text} : Quoted s → Quoted ('\\' :: c :: s)

/-- Every opening is closed, every quote too. -/
inductive Inside : Text → Prop
  | nil : Inside []
  | plain {c : Char} {s : Text} : structural c = false → Inside s → Inside (c :: s)
  | quoted {q s : Text} : Quoted q → Inside s → Inside ('"' :: (q ++ '"' :: s))
  | nested {o c : Char} {body s : Text} :
      Pairs o c → Inside body → Inside s → Inside (o :: (body ++ c :: s))

/-- One opening, its closing, and what is between them. -/
def Container (s : Text) : Prop := ∃ o c body, Pairs o c ∧ Inside body ∧ s = o :: (body ++ [c])

theorem Inside.append {s t : Text} (hs : Inside s) (ht : Inside t) : Inside (s ++ t) := by
  induction hs with
  | nil => exact ht
  | plain hc _ ih => exact .plain hc ih
  | quoted hq _ ih =>
    have h := Inside.quoted hq ih
    simpa using h
  | nested hp hbody _ _ ih =>
    have h := Inside.nested hp hbody ih
    simpa using h

theorem Container.inside {s : Text} (h : Container s) : Inside s := by
  obtain ⟨o, c, body, hp, hbody, rfl⟩ := h
  exact .nested hp hbody .nil

theorem Inside.of_plain {s : Text} (h : ∀ c ∈ s, structural c = false) : Inside s := by
  induction s with
  | nil => exact .nil
  | cons c s ih =>
    exact .plain (h c List.mem_cons_self) (ih fun d hd => h d (List.mem_cons_of_mem _ hd))

/-! ## What the decoder has read -/

theorem skip_split (s : Text) : ∃ blank, s = blank ++ skip s ∧ Inside blank := by
  refine ⟨s.takeWhile isBlank, (List.takeWhile_append_dropWhile).symm, Inside.of_plain ?_⟩
  intro c hc
  have hblank : isBlank c = true := List.all_eq_true.1 List.all_takeWhile c hc
  simp only [isBlank, Bool.or_eq_true, decide_eq_true_eq] at hblank
  obtain ((rfl | rfl) | rfl) | rfl := hblank <;> decide

theorem push_eq_some {c : Char} {r : Option (Text × Text)} {t rest : Text}
    (h : push c r = some (t, rest)) : ∃ t', r = some (t', rest) := by
  cases r with
  | none => cases h
  | some r =>
    obtain ⟨t', rest'⟩ := r
    cases h
    exact ⟨t', rfl⟩

/-- Behind the first character of an escape nothing is special to a scanner but
quotes and backslashes, and a hex digit is neither. -/
def Reads : Mode → Text → Prop
  | .escape, s => ∃ c q, s = c :: q ∧ Quoted q
  | _, s => Quoted s

theorem hexDigit_plain {c : Char} {d : Nat} (h : hexDigit c = some d) : c ≠ '"' ∧ c ≠ '\\' := by
  constructor
  · rintro rfl
    cases h
  · rintro rfl
    cases h

theorem string_split {high : Option Nat} {mode : Mode} {s t rest : Text}
    (h : string high mode s = some (t, rest)) : ∃ q, s = q ++ '"' :: rest ∧ Reads mode q := by
  induction s generalizing high mode t with
  | nil => cases mode <;> cases h
  | cons c s ih =>
    cases mode with
    | plain =>
      rw [string] at h
      split_ifs at h with hescape hhigh hquote hcontrol
      · obtain ⟨q, rfl, d, q', rfl, hq⟩ := ih h
        subst hescape
        exact ⟨'\\' :: d :: q', rfl, .escape hq⟩
      · cases h
        subst hquote
        exact ⟨[], rfl, .nil⟩
      · obtain ⟨t', h⟩ := push_eq_some h
        obtain ⟨q, rfl, hq⟩ := ih h
        exact ⟨c :: q, rfl, .plain hquote hescape hq⟩
    | escape =>
      rw [string] at h
      split_ifs at h with hu hhigh
      · obtain ⟨q, rfl, hq⟩ := ih h
        exact ⟨c :: q, rfl, c, q, rfl, hq⟩
      · split at h
        · obtain ⟨t', h⟩ := push_eq_some h
          obtain ⟨q, rfl, hq⟩ := ih h
          exact ⟨c :: q, rfl, c, q, rfl, hq⟩
        · cases h
    | hex more n =>
      rw [string] at h
      split at h
      · cases h
      · rename_i d hd
        obtain ⟨hquote, hescape⟩ := hexDigit_plain hd
        have hnext : ∃ q, s = q ++ '"' :: rest ∧ Quoted q := by
          cases more with
          | succ more => exact ih h
          | zero =>
            simp only at h
            split at h
            · obtain ⟨t', h⟩ := push_eq_some h
              exact ih h
            · exact ih h
            · cases h
        obtain ⟨q, rfl, hq⟩ := hnext
        exact ⟨c :: q, rfl, .plain hquote hescape hq⟩

/-- A text with no quote and no bracket in it. -/
def Plain (s : Text) : Prop := ∀ c ∈ s, structural c = false

theorem Plain.append {s t : Text} (hs : Plain s) (ht : Plain t) : Plain (s ++ t) := fun c hc =>
  (List.mem_append.1 hc).elim (hs c) (ht c)

theorem digit_plain {c : Char} (hc : c.isDigit = true) : structural c = false := by
  have hne : ∀ d : Char, d.isDigit = false → c ≠ d := by
    rintro d hd rfl
    rw [hc] at hd
    cases hd
  simp [structural, hne '"' (by decide), hne '{' (by decide), hne '[' (by decide),
    hne '}' (by decide), hne ']' (by decide)]

theorem takeWhile_plain (s : Text) : Plain (s.takeWhile Char.isDigit) := fun c hc =>
  digit_plain (List.all_eq_true.1 List.all_takeWhile c hc)

theorem natural_split {s t rest : Text} (h : natural s = some (t, rest)) : s = t ++ rest ∧ Plain t := by
  cases s with
  | nil => cases h
  | cons c s =>
    rw [natural] at h
    split_ifs at h with hzero hdigit
    · cases h
      subst hzero
      exact ⟨rfl, by simp [Plain, structural]⟩
    · cases h
      refine ⟨by simp, fun d hd => ?_⟩
      obtain rfl | hd := List.mem_cons.1 hd
      · exact digit_plain hdigit
      · exact takeWhile_plain s d hd

theorem integer_split {s t rest : Text} (h : integer s = some (t, rest)) : s = t ++ rest ∧ Plain t := by
  unfold integer at h
  split at h
  · obtain ⟨⟨t', rest'⟩, hn, heq⟩ := Option.map_eq_some_iff.1 h
    cases heq
    obtain ⟨rfl, hplain⟩ := natural_split hn
    refine ⟨rfl, fun c hc => ?_⟩
    obtain rfl | hc := List.mem_cons.1 hc
    · decide
    · exact hplain c hc
  · exact natural_split h

theorem digitRun_split {opening s rest : Text} (hs : s = opening ++ rest) (ho : Plain opening) :
    s = (digitRun opening s rest).1 ++ (digitRun opening s rest).2 ∧
      Plain (digitRun opening s rest).1 := by
  unfold digitRun
  split_ifs with hempty
  · exact ⟨rfl, fun c hc => nomatch hc⟩
  · subst hs
    exact ⟨by simp, ho.append (takeWhile_plain rest)⟩

theorem fraction_split (s : Text) : s = (fraction s).1 ++ (fraction s).2 ∧ Plain (fraction s).1 := by
  unfold fraction
  split
  · exact digitRun_split rfl (by simp [Plain, structural])
  · exact ⟨rfl, fun c hc => nomatch hc⟩

theorem exponent_split (s : Text) : s = (exponent s).1 ++ (exponent s).2 ∧ Plain (exponent s).1 := by
  cases s with
  | nil => exact ⟨rfl, fun c hc => nomatch hc⟩
  | cons c rest =>
    rw [exponent]
    split_ifs with hc
    · have hletter : structural c = false := by obtain rfl | rfl := hc <;> decide
      unfold exponentDigits
      split
      · exact digitRun_split rfl (by simp [Plain, hletter]; decide)
      · exact digitRun_split rfl (by simp [Plain, hletter]; decide)
      · exact digitRun_split rfl (by simp [Plain, hletter])
    · exact ⟨rfl, fun c hc => nomatch hc⟩

theorem number_split {s t rest : Text} {b : Bool} (h : number s = some (t, b, rest)) :
    s = t ++ rest ∧ Plain t := by
  obtain ⟨⟨whole, tail⟩, hinteger, heq⟩ := Option.map_eq_some_iff.1 h
  obtain ⟨rfl, hwhole⟩ := integer_split hinteger
  obtain ⟨hfrac, hfracPlain⟩ := fraction_split tail
  obtain ⟨hexp, hexpPlain⟩ := exponent_split (fraction tail).2
  obtain ⟨rfl, -, rfl⟩ : whole ++ (fraction tail).1 ++ (exponent (fraction tail).2).1 = t ∧
      _ = b ∧ (exponent (fraction tail).2).2 = rest := by simpa using heq
  refine ⟨?_, (hwhole.append hfracPlain).append hexpPlain⟩
  rw [List.append_assoc, List.append_assoc, ← hexp, ← hfrac]

section
variable {V : Type} {hooks : Hooks V}

theorem constants_plain : ∀ word ∈ constants hooks, Plain word.1 := by
  intro word hword
  simp only [constants, List.mem_cons, List.not_mem_nil, or_false] at hword
  obtain rfl | rfl | rfl | rfl | rfl | rfl := hword <;> simp [Plain, structural]

theorem scalar_split {s rest : Text} {v : V} (h : scalar hooks s = some (v, rest)) :
    ∃ t, s = t ++ rest ∧ Plain t := by
  unfold scalar at h
  split at h
  · rename_i word w hfound
    obtain ⟨w, -, heq⟩ := Option.map_eq_some_iff.1 h
    cases heq
    refine ⟨word, ?_, constants_plain _ (List.mem_of_find?_eq_some hfound)⟩
    have hword := List.find?_some hfound
    exact (List.prefix_iff_eq_append.1 (List.isPrefixOf_iff_prefix.1 hword)).symm
  · split at h
    · rename_i literal isReal tail hnumber
      obtain ⟨w, -, heq⟩ := Option.map_eq_some_iff.1 h
      cases heq
      exact ⟨literal, number_split hnumber⟩
    · cases h

/-- Between the brackets of an object, of an array, and for a value as a whole. -/
def Closed (hooks : Hooks V) (fuel : Nat) : Prop :=
  (∀ s v rest, value hooks fuel s = some (v, rest) →
    ∃ t, s = t ++ rest ∧ Inside t ∧ ∀ o tail, s = o :: tail → o = '{' ∨ o = '[' → Container t) ∧
  (∀ s ms rest, members hooks fuel s = some (ms, rest) → ∃ body, s = body ++ '}' :: rest ∧ Inside body) ∧
  ∀ s vs rest, items hooks fuel s = some (vs, rest) → ∃ body, s = body ++ ']' :: rest ∧ Inside body

theorem closed_of_body {o c : Char} {s rest : Text} (hp : Pairs o c)
    (h : ∃ body, s = body ++ c :: rest ∧ Inside body) :
    ∃ t, o :: s = t ++ rest ∧ Container t := by
  obtain ⟨body, rfl, hbody⟩ := h
  exact ⟨o :: (body ++ [c]), by simp, o, c, body, hp, hbody, rfl⟩

/-- A blank run, then the text. -/
theorem inside_skip {s t tail : Text} (hskip : skip s = t ++ tail) (ht : Inside t) :
    ∃ t', s = t' ++ tail ∧ Inside t' := by
  obtain ⟨blank, hs, hblank⟩ := skip_split s
  refine ⟨blank ++ t, ?_, hblank.append ht⟩
  rw [List.append_assoc, ← hskip]
  exact hs

/-- A blank run, then one character. -/
theorem inside_mark {s tail : Text} {c : Char} (hskip : skip s = c :: tail) :
    ∃ t, s = t ++ c :: tail ∧ Inside t := by
  have hempty : skip s = [] ++ c :: tail := hskip
  exact inside_skip hempty .nil

theorem value_closed {fuel : Nat} (ih : Closed hooks fuel) {s rest : Text} {v : V}
    (h : value hooks (fuel + 1) s = some (v, rest)) :
    ∃ t, s = t ++ rest ∧ Inside t ∧ ∀ o tail, s = o :: tail → o = '{' ∨ o = '[' → Container t := by
  cases s with
  | nil => simp [value] at h
  | cons c s =>
    have hcontainer : (∃ t, c :: s = t ++ rest ∧ Container t) → ∃ t, c :: s = t ++ rest ∧ Inside t ∧
        ∀ o tail, c :: s = o :: tail → o = '{' ∨ o = '[' → Container t := by
      rintro ⟨t, heq, ht⟩
      exact ⟨t, heq, ht.inside, fun _ _ _ _ => ht⟩
    rw [value] at h
    split_ifs at h with hquote hbrace hbracket
    · obtain ⟨⟨t, tail⟩, hstring, heq⟩ := Option.map_eq_some_iff.1 h
      cases heq
      obtain ⟨q, rfl, hq⟩ := string_split hstring
      subst hquote
      refine ⟨'"' :: (q ++ ['"']), by simp, .quoted hq .nil, ?_⟩
      rintro o tail heq (rfl | rfl) <;> cases heq
    · apply hcontainer
      apply closed_of_body (c := '}') (.inl ⟨hbrace, rfl⟩)
      split at h
      · rename_i tail hskip
        obtain ⟨w, -, heq⟩ := Option.map_eq_some_iff.1 h
        cases heq
        exact inside_mark hskip
      · obtain ⟨⟨ms, tail⟩, hmembers, hobj⟩ := Option.bind_eq_some_iff.1 h
        obtain ⟨w, -, heq⟩ := Option.map_eq_some_iff.1 hobj
        cases heq
        obtain ⟨body, hskip, hbody⟩ := ih.2.1 _ _ _ hmembers
        exact inside_skip hskip hbody
    · apply hcontainer
      apply closed_of_body (c := ']') (.inr ⟨hbracket, rfl⟩)
      split at h
      · rename_i tail hskip
        cases h
        exact inside_mark hskip
      · obtain ⟨⟨vs, tail⟩, hitems, heq⟩ := Option.map_eq_some_iff.1 h
        cases heq
        obtain ⟨body, hskip, hbody⟩ := ih.2.2 _ _ _ hitems
        exact inside_skip hskip hbody
    · obtain ⟨t, heq, hplain⟩ := scalar_split h
      refine ⟨t, heq, .of_plain hplain, ?_⟩
      intro o tail hs hopen
      obtain ⟨rfl, -⟩ := List.cons.inj hs
      exact absurd hopen (by simp [hbrace, hbracket])

theorem members_closed {fuel : Nat} (ih : Closed hooks fuel) {s rest : Text} {ms : List (Text × V)}
    (h : members hooks (fuel + 1) s = some (ms, rest)) :
    ∃ body, s = body ++ '}' :: rest ∧ Inside body := by
  cases s with
  | nil => simp [members] at h
  | cons c s =>
    rw [members] at h
    split_ifs at h with hquote
    obtain ⟨⟨key, tail⟩, hstring, hnext⟩ := Option.bind_eq_some_iff.1 h
    obtain ⟨q, rfl, hq⟩ := string_split hstring
    subst hquote
    clear h
    simp only at hnext
    split at hnext
    · rename_i rest' hcolon
      obtain ⟨⟨v, after⟩, hvalue, h⟩ := Option.bind_eq_some_iff.1 hnext
      obtain ⟨t, heq, ht, -⟩ := ih.1 _ _ _ hvalue
      -- the member up to what stands behind its value
      obtain ⟨colon, rfl, hcolonInside⟩ := inside_mark hcolon
      obtain ⟨t', rfl, ht'⟩ := inside_skip heq ht
      have hmember : Inside ('"' :: (q ++ '"' :: (colon ++ ':' :: t'))) :=
        .quoted hq (hcolonInside.append (.plain (by decide) ht'))
      simp only at h
      split at h
      · rename_i last hbrace
        cases h
        obtain ⟨blank, rfl, hblank⟩ := inside_mark hbrace
        exact ⟨_, by simp, hmember.append hblank⟩
      · rename_i more hcomma
        obtain ⟨⟨ms', tail'⟩, hmembers, heq⟩ := Option.map_eq_some_iff.1 h
        cases heq
        obtain ⟨body, hskip, hbody⟩ := ih.2.1 _ _ _ hmembers
        obtain ⟨blank, rfl, hblank⟩ := inside_mark hcomma
        obtain ⟨body', rfl, hbody'⟩ := inside_skip hskip hbody
        have hmore : Inside (blank ++ ',' :: body') := hblank.append (.plain (by decide) hbody')
        exact ⟨_, by simp, hmember.append hmore⟩
      · cases h
    · cases hnext

theorem items_closed {fuel : Nat} (ih : Closed hooks fuel) {s rest : Text} {vs : List V}
    (h : items hooks (fuel + 1) s = some (vs, rest)) :
    ∃ body, s = body ++ ']' :: rest ∧ Inside body := by
  rw [items] at h
  obtain ⟨⟨v, after⟩, hvalue, hnext⟩ := Option.bind_eq_some_iff.1 h
  obtain ⟨t, rfl, ht, -⟩ := ih.1 _ _ _ hvalue
  clear h
  simp only at hnext
  split at hnext
  · rename_i last hbracket
    cases hnext
    obtain ⟨blank, rfl, hblank⟩ := inside_mark hbracket
    exact ⟨_, by simp, ht.append hblank⟩
  · rename_i more hcomma
    obtain ⟨⟨vs', tail'⟩, hitems, heq⟩ := Option.map_eq_some_iff.1 hnext
    cases heq
    obtain ⟨body, hskip, hbody⟩ := ih.2.2 _ _ _ hitems
    obtain ⟨blank, rfl, hblank⟩ := inside_mark hcomma
    obtain ⟨body', rfl, hbody'⟩ := inside_skip hskip hbody
    have hmore : Inside (blank ++ ',' :: body') := hblank.append (.plain (by decide) hbody')
    exact ⟨_, by simp, ht.append hmore⟩
  · cases hnext

theorem closed (hooks : Hooks V) (fuel : Nat) : Closed hooks fuel := by
  induction fuel with
  | zero =>
    refine ⟨?_, ?_, ?_⟩
    · intro s v rest h
      simp [value] at h
    · intro s ms rest h
      simp [members] at h
    · intro s vs rest h
      simp [items] at h
  | succ fuel ih =>
    exact ⟨fun s v rest h => value_closed ih h, fun s ms rest h => members_closed ih h,
      fun s vs rest h => items_closed ih h⟩

/-- A text that is read, and begins with an opening and ends with no blank, is
one container. -/
theorem loads_container {s : Text} {v : V} {o : Char} {tail : Text} (h : loads hooks s = some v)
    (hs : s = o :: tail) (ho : o = '{' ∨ o = '[') (hend : ∀ c, s.getLast? = some c → isBlank c = false) :
    Container s := by
  have hblank : isBlank o = false := by obtain rfl | rfl := ho <;> decide
  have hskip : skip s = s := by rw [hs, skip, List.dropWhile_cons_of_neg (by simp [hblank])]
  unfold loads at h
  split_ifs at h with hbom
  rw [hskip] at h
  obtain ⟨⟨w, rest⟩, hvalue, h⟩ := Option.bind_eq_some_iff.1 h
  obtain ⟨t, heq, -, ht⟩ := (closed hooks _).1 _ _ _ hvalue
  have hcontainer : Container t := ht o tail hs ho
  simp only at h
  split_ifs at h with hrest
  cases hr : rest.getLast? with
  | none =>
    rw [List.getLast?_eq_none_iff.1 hr, List.append_nil] at heq
    rwa [heq]
  | some c =>
    have hlast : s.getLast? = some c := by rw [heq, List.getLast?_append, hr]; rfl
    have hmem : c ∈ rest := List.mem_of_getLast? hr
    have hall : isBlank c = true := List.dropWhile_eq_nil_iff.1 hrest c hmem
    rw [hend c hlast] at hall
    cases hall

end

end RagPipeline.JsonText
