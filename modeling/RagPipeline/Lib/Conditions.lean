import Mathlib.Data.List.Basic
import Mathlib.Data.List.Infix

/-! # Truth with an unknown

Conditions over values that may be absent: comparing what is absent is unknown,
and a disjunction is true where one part is, whatever is unknown beside it. -/

set_option autoImplicit false

namespace RagPipeline.ThreeValued

abbrev Truth := Option Bool

def disj : Truth → Truth → Truth
  | some true, _ => some true
  | some false, y => y
  | none, some true => some true
  | none, _ => none

def conj : Truth → Truth → Truth
  | some false, _ => some false
  | some true, y => y
  | none, some false => some false
  | none, _ => none

def anyOf (l : List Truth) : Truth := l.foldr disj (some false)

variable {α : Type} {x y : Truth} {a : Option α} {p : α → Bool}

def isNull (a : Option α) : Truth := some a.isNone

def isNotNull (a : Option α) : Truth := some a.isSome

/-- A comparison with something that is not absent. -/
def test (p : α → Bool) (a : Option α) : Truth := a.map p

theorem disj_true : disj x y = some true ↔ x = some true ∨ y = some true := by
  cases x with
  | none => cases y with
    | none => simp [disj]
    | some b => cases b <;> simp [disj]
  | some b => cases b <;> simp [disj]

theorem conj_true : conj x y = some true ↔ x = some true ∧ y = some true := by
  cases x with
  | none => cases y with
    | none => simp [conj]
    | some b => cases b <;> simp [conj]
  | some b => cases b <;> simp [conj]

theorem anyOf_cons (l : List Truth) :
    anyOf (x :: l) = some true ↔ x = some true ∨ anyOf l = some true := disj_true

theorem anyOf_nil : anyOf [] ≠ some true := by
  intro h
  cases h

theorem isNull_true : isNull a = some true ↔ a = none := by
  cases a <;> simp [isNull]

theorem isNotNull_true : isNotNull a = some true ↔ a ≠ none := by
  cases a <;> simp [isNotNull]

theorem test_true : test p a = some true ↔ ∃ v, a = some v ∧ p v = true := by
  simp [test]

/-- What is neither absent nor true of the value. -/
theorem present_iff {q : α → Prop} (h : ∀ v, p v = true ↔ ¬ q v) :
    ¬ isNull a = some true ∧ ¬ test p a = some true ↔ ∃ v, a = some v ∧ q v := by
  rw [isNull_true, test_true]
  cases a with
  | none => simp
  | some v => simp [h]

end RagPipeline.ThreeValued

/-! # LIKE

Patterns with an escape character, as the SQL standard reads them. A pattern is
read into its parts first; an escape character that nothing follows makes it
malformed. -/

namespace RagPipeline.Like

inductive Part where
  | literal (c : Char)
  | anyOne
  | anyRun
deriving DecidableEq

/-- A character with no escape character in front of it. -/
def bare (c : Char) : Part := if c = '%' then .anyRun else if c = '_' then .anyOne else .literal c

def parts (escape : Char) : List Char → Option (List Part)
  | [] => some []
  | c :: rest =>
    if c = escape then
      match rest with
      | [] => none
      | d :: rest => (parts escape rest).map fun l => .literal d :: l
    else (parts escape rest).map fun l => bare c :: l

def accepts : List Part → List Char → Bool
  | [], s => s.isEmpty
  | .literal c :: p, s => match s with
    | [] => false
    | d :: s => c == d && accepts p s
  | .anyOne :: p, s => match s with
    | [] => false
    | _ :: s => accepts p s
  | .anyRun :: p, s => s.tails.any (accepts p)

/-- Whether the text matches; a malformed pattern has no answer. -/
def like (escape : Char) (pattern text : List Char) : Option Bool :=
  (parts escape pattern).map fun p => accepts p text

/-- A character of its own, whatever it means in a pattern. -/
def quoteChar (escape c : Char) : List Char :=
  if c = escape ∨ c = '%' ∨ c = '_' then [escape, c] else [c]

variable {escape : Char} {p : List Part} {q s : List Char}

theorem parts_escaped (c : Char) (rest : List Char) :
    parts escape (escape :: c :: rest) = (parts escape rest).map fun l => .literal c :: l := by
  rw [parts, if_pos rfl]

theorem parts_bare {c : Char} (h : c ≠ escape) (rest : List Char) :
    parts escape (c :: rest) = (parts escape rest).map fun l => bare c :: l := by
  rw [parts.eq_def]
  exact if_neg h

theorem parts_quoteChar (c : Char) (rest : List Char) :
    parts escape (quoteChar escape c ++ rest) =
      (parts escape rest).map fun l => .literal c :: l := by
  rw [quoteChar]
  split_ifs with h
  · exact parts_escaped c rest
  · simp only [not_or] at h
    obtain ⟨hescape, hrun, hone⟩ := h
    rw [List.singleton_append, parts_bare hescape, bare, if_neg hrun, if_neg hone]

/-- A quoted text is read back as itself, with any pattern behind it. -/
theorem parts_quoted (q rest : List Char) :
    parts escape (q.flatMap (quoteChar escape) ++ rest) =
      (parts escape rest).map fun l => q.map .literal ++ l := by
  induction q with
  | nil => simp
  | cons c q ih =>
    rw [List.flatMap_cons, List.append_assoc, parts_quoteChar, ih, Option.map_map]
    rfl

theorem accepts_literals (q : List Char) (p : List Part) (s : List Char) :
    accepts (q.map .literal ++ p) s = true ↔ ∃ t, s = q ++ t ∧ accepts p t = true := by
  induction q generalizing s with
  | nil => simp
  | cons c q ih =>
    rw [List.map_cons, List.cons_append]
    cases s with
    | nil => simp [accepts]
    | cons d s =>
      rw [accepts, Bool.and_eq_true, beq_iff_eq, ih]
      constructor
      · intro h
        obtain ⟨rfl, t, rfl, ht⟩ := h
        exact ⟨t, rfl, ht⟩
      · intro h
        obtain ⟨t, hs, ht⟩ := h
        obtain ⟨rfl, rfl⟩ := List.cons.inj hs
        exact ⟨rfl, t, rfl, ht⟩

theorem accepts_anyRun : accepts (.anyRun :: p) s = true ↔ ∃ t, t <:+ s ∧ accepts p t = true := by
  rw [accepts, List.any_eq_true]
  constructor
  · intro h
    obtain ⟨t, ht, haccepts⟩ := h
    exact ⟨t, (List.mem_tails t s).1 ht, haccepts⟩
  · intro h
    obtain ⟨t, ht, haccepts⟩ := h
    exact ⟨t, (List.mem_tails t s).2 ht, haccepts⟩

theorem accepts_end : accepts [.anyRun] s = true := by
  rw [accepts_anyRun]
  exact ⟨[], List.nil_suffix, rfl⟩

/-- A text between two runs is looked for anywhere. -/
theorem accepts_between :
    accepts (.anyRun :: (q.map .literal ++ [.anyRun])) s = true ↔ q <:+: s := by
  rw [accepts_anyRun]
  constructor
  · intro h
    obtain ⟨t, ⟨u, rfl⟩, haccepts⟩ := h
    obtain ⟨v, rfl, -⟩ := (accepts_literals q _ t).1 haccepts
    exact ⟨u, v, List.append_assoc u q v⟩
  · intro h
    obtain ⟨u, v, rfl⟩ := h
    apply Exists.intro (q ++ v)
    constructor
    · exact ⟨u, (List.append_assoc u q v).symm⟩
    · exact (accepts_literals q _ _).2 ⟨v, rfl, accepts_end⟩

end RagPipeline.Like
