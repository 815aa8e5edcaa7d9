import RagPipeline.Answer.Containers
import RagPipeline.Answer.Pages

/-! # A serialised reply

The decoder with the guard's hooks, a writer, and that a valid reply is found
wherever it stands in a text. -/

set_option autoImplicit false

namespace RagPipeline.Answer
open RagPipeline.JsonText

/-! ## The decoder of the guard -/

/-- `sys.int_info.default_max_str_digits`. -/
def maxStrDigits : ℕ := 4300

def parseInt (literal : Text) : Option Json :=
  if maxStrDigits < (literal.filter Char.isDigit).length then none else some (.int (readInt literal))

/-- A key that stands twice. -/
def repeated : List (Text × Json) → Bool
  | [] => false
  | (key, _) :: rest => rest.any (fun p => p.1 = key) || repeated rest

def objectWithoutDuplicateKeys (pairs : List (Text × Json)) : Option Json :=
  if repeated pairs then none else some (.obj pairs)

def rejectJsonConstant (_ : Text) : Option Json := none

def guardHooks : Hooks Json where
  null := .null
  bool b := .bool b
  int := parseInt
  real literal := some (.real literal)
  constant := rejectJsonConstant
  str s := .str s
  arr items := .arr items
  obj := objectWithoutDuplicateKeys

@[reducible] def guardDecoder : Decoder where
  loads s := JsonText.loads guardHooks s

/-! ## The writer -/

/- `json.dumps`, with or without everything past ASCII escaped. Nothing is
written where an integer is too long to be, where a literal is none of a finite
number, and where a key stands twice, which no dictionary has. -/
mutual

def dumps (ascii : Bool) : Json → Option Text
  | .null => some "null".toList
  | .bool true => some "true".toList
  | .bool false => some "false".toList
  | .int n =>
    if maxStrDigits < ((writeInt n).filter Char.isDigit).length then none else some (writeInt n)
  | .real literal => if number literal = some (literal, true, []) then some literal else none
  | .str s => some (writeString ascii s)
  | .arr items => (dumpsItems ascii items).map fun body => '[' :: (body ++ [']'])
  | .obj members =>
    if repeated members then none
    else (dumpsMembers ascii members).map fun body => '{' :: (body ++ ['}'])

def dumpsItems (ascii : Bool) : List Json → Option Text
  | [] => some []
  | [v] => dumps ascii v
  | v :: w :: rest =>
    (dumps ascii v).bind fun a => (dumpsItems ascii (w :: rest)).map fun b => a ++ ',' :: ' ' :: b

def dumpsMembers (ascii : Bool) : List (Text × Json) → Option Text
  | [] => some []
  | [(key, v)] => (dumps ascii v).map fun a => writeString ascii key ++ ':' :: ' ' :: a
  | (key, v) :: w :: rest =>
    (dumps ascii v).bind fun a => (dumpsMembers ascii (w :: rest)).map fun b =>
      writeString ascii key ++ ':' :: ' ' :: (a ++ ',' :: ' ' :: b)

end

/-! ## Reading back -/

theorem dumps_begins {ascii : Bool} {v : Json} {s : Text} (h : dumps ascii v = some s) : Begins s := by
  have hplain : ∀ (c : Char) (tail : Text),
      isBlank c = false ∧ c ≠ ']' ∧ c ≠ '}' ∧ c ≠ '\ufeff' → Begins (c :: tail) :=
    fun c tail hc => ⟨c, tail, rfl, hc⟩
  cases v with
  | null =>
    cases h
    exact hplain 'n' _ (by decide)
  | bool b =>
    cases b with
    | true =>
      cases h
      exact hplain 't' _ (by decide)
    | false =>
      cases h
      exact hplain 'f' _ (by decide)
  | int n =>
    rw [dumps] at h
    split_ifs at h
    cases h
    have hnumber := number_writeInt n (fun c tail heq => nomatch heq : Ends [])
    rw [List.append_nil] at hnumber
    exact begins_number hnumber
  | real literal =>
    rw [dumps] at h
    split_ifs at h with hnumber
    cases h
    exact begins_number hnumber
  | str t =>
    cases h
    exact begins_writeString ascii t
  | arr items =>
    obtain ⟨body, -, rfl⟩ := Option.map_eq_some_iff.1 h
    exact hplain '[' _ (by decide)
  | obj members =>
    rw [dumps] at h
    split_ifs at h
    obtain ⟨body, -, rfl⟩ := Option.map_eq_some_iff.1 h
    exact hplain '{' _ (by decide)

theorem dumpsItems_begins {ascii : Bool} {v : Json} {vs : List Json} {s : Text}
    (h : dumpsItems ascii (v :: vs) = some s) : Begins s := by
  cases vs with
  | nil => exact dumps_begins h
  | cons w rest =>
    rw [dumpsItems] at h
    obtain ⟨a, ha, h⟩ := Option.bind_eq_some_iff.1 h
    obtain ⟨b, -, rfl⟩ := Option.map_eq_some_iff.1 h
    exact (dumps_begins ha).append _

theorem dumpsMembers_begins {ascii : Bool} {m : Text × Json} {ms : List (Text × Json)} {s : Text}
    (h : dumpsMembers ascii (m :: ms) = some s) : Begins s := by
  obtain ⟨key, v⟩ := m
  cases ms with
  | nil =>
    rw [dumpsMembers] at h
    obtain ⟨a, -, rfl⟩ := Option.map_eq_some_iff.1 h
    exact (begins_writeString ascii key).append _
  | cons w rest =>
    rw [dumpsMembers] at h
    obtain ⟨a, -, h⟩ := Option.bind_eq_some_iff.1 h
    obtain ⟨b, -, rfl⟩ := Option.map_eq_some_iff.1 h
    exact (begins_writeString ascii key).append _

/-- What was written is read back, whatever ends it. -/
structure ReadBack (ascii : Bool) (fuel : ℕ) : Prop where
  value : ∀ v s rest, dumps ascii v = some s → s.length < fuel → Ends rest →
    value guardHooks fuel (s ++ rest) = some (v, rest)
  items : ∀ v vs s rest, dumpsItems ascii (v :: vs) = some s → s.length + 1 < fuel →
    items guardHooks fuel (s ++ ']' :: rest) = some (v :: vs, rest)
  members : ∀ m ms s rest, dumpsMembers ascii (m :: ms) = some s → s.length + 1 < fuel →
    members guardHooks fuel (s ++ '}' :: rest) = some (m :: ms, rest)

theorem ends_cons {c : Char} (hc : c = ',' ∨ c = ']' ∨ c = '}') (rest : Text) : Ends (c :: rest) := by
  intro d tail heq
  obtain ⟨rfl, -⟩ := List.cons.inj heq
  obtain rfl | rfl | rfl := hc <;> simp

theorem value_readBack {ascii : Bool} {fuel : ℕ} (ih : ReadBack ascii fuel) {v : Json} {s rest : Text}
    (h : dumps ascii v = some s) (hfuel : s.length < fuel + 1) (hends : Ends rest) :
    JsonText.value guardHooks (fuel + 1) (s ++ rest) = some (v, rest) := by
  have hconstant : ∀ (c : Char) (word : Text) (v : Json), c ≠ '"' ∧ c ≠ '{' ∧ c ≠ '[' →
      scalar guardHooks (c :: (word ++ rest)) = some (v, rest) →
      JsonText.value guardHooks (fuel + 1) (c :: (word ++ rest)) = some (v, rest) := by
    intro c word v hc hscalar
    rw [value_scalar fuel hc, hscalar]
  cases v with
  | null =>
    cases h
    exact hconstant 'n' _ _ (by decide) (scalar_constant (.inl ⟨rfl, rfl⟩))
  | bool b =>
    cases b with
    | true =>
      cases h
      exact hconstant 't' _ _ (by decide) (scalar_constant (.inr (.inl ⟨rfl, rfl⟩)))
    | false =>
      cases h
      exact hconstant 'f' _ _ (by decide) (scalar_constant (.inr (.inr ⟨rfl, rfl⟩)))
  | int n =>
    rw [dumps] at h
    split_ifs at h with hlong
    cases h
    rw [value_number fuel (number_writeInt n hends)]
    simp [guardHooks, parseInt, hlong, readInt_writeInt]
  | real literal =>
    rw [dumps] at h
    split_ifs at h with hnumber
    cases h
    rw [value_number fuel (number_append hnumber hends)]
    rfl
  | str t =>
    cases h
    exact value_string fuel ascii t rest
  | arr items =>
    obtain ⟨body, hbody, rfl⟩ := Option.map_eq_some_iff.1 h
    rw [List.cons_append, List.append_assoc]
    cases items with
    | nil =>
      cases hbody
      rfl
    | cons v vs =>
      have hlength : body.length + 1 < fuel := by
        simp only [List.length_cons, List.length_append, List.length_nil] at hfuel
        omega
      exact value_array (ih.items v vs body rest hbody hlength) ((dumpsItems_begins hbody).append _)
  | obj members =>
    rw [dumps] at h
    split_ifs at h with hrepeated
    obtain ⟨body, hbody, rfl⟩ := Option.map_eq_some_iff.1 h
    have hobj : guardHooks.obj members = some (.obj members) := if_neg hrepeated
    rw [List.cons_append, List.append_assoc]
    cases members with
    | nil =>
      cases hbody
      rfl
    | cons m ms =>
      have hlength : body.length + 1 < fuel := by
        simp only [List.length_cons, List.length_append, List.length_nil] at hfuel
        omega
      exact value_object (ih.members m ms body rest hbody hlength) hobj
        ((dumpsMembers_begins hbody).append _)

theorem items_readBack {ascii : Bool} {fuel : ℕ} (ih : ReadBack ascii fuel) {v : Json} {vs : List Json}
    {s : Text} (rest : Text) (h : dumpsItems ascii (v :: vs) = some s) (hfuel : s.length + 1 < fuel + 1) :
    JsonText.items guardHooks (fuel + 1) (s ++ ']' :: rest) = some (v :: vs, rest) := by
  cases vs with
  | nil => exact items_last (ih.value v s _ h (by omega) (ends_cons (.inr (.inl rfl)) rest))
  | cons w vs =>
    rw [dumpsItems] at h
    obtain ⟨a, ha, h⟩ := Option.bind_eq_some_iff.1 h
    obtain ⟨b, hb, rfl⟩ := Option.map_eq_some_iff.1 h
    simp only [List.length_append, List.length_cons] at hfuel
    have hfirst := ih.value v a (',' :: ' ' :: (b ++ ']' :: rest)) ha (by omega)
      (ends_cons (.inl rfl) _)
    have hrest := ih.items w vs b rest hb (by omega)
    rw [List.append_assoc]
    exact items_more hfirst ((dumpsItems_begins hb).append _) hrest

theorem members_readBack {ascii : Bool} {fuel : ℕ} (ih : ReadBack ascii fuel) {m : Text × Json}
    {ms : List (Text × Json)} {s : Text} (rest : Text) (h : dumpsMembers ascii (m :: ms) = some s)
    (hfuel : s.length + 1 < fuel + 1) :
    JsonText.members guardHooks (fuel + 1) (s ++ '}' :: rest) = some (m :: ms, rest) := by
  obtain ⟨key, v⟩ := m
  cases ms with
  | nil =>
    rw [dumpsMembers] at h
    obtain ⟨a, ha, rfl⟩ := Option.map_eq_some_iff.1 h
    simp only [List.length_append, List.length_cons] at hfuel
    rw [List.append_assoc]
    exact members_last ((dumps_begins ha).append _)
      (ih.value v a _ ha (by omega) (ends_cons (.inr (.inr rfl)) rest))
  | cons w ms =>
    rw [dumpsMembers] at h
    obtain ⟨a, ha, h⟩ := Option.bind_eq_some_iff.1 h
    obtain ⟨b, hb, rfl⟩ := Option.map_eq_some_iff.1 h
    simp only [List.length_append, List.length_cons] at hfuel
    have hfirst := ih.value v a (',' :: ' ' :: (b ++ '}' :: rest)) ha (by omega)
      (ends_cons (.inl rfl) _)
    have hrest := ih.members w ms b rest hb (by omega)
    have hsplit : writeString ascii key ++ ':' :: ' ' :: (a ++ ',' :: ' ' :: b) ++ '}' :: rest =
        writeString ascii key ++ ':' :: ' ' :: (a ++ ',' :: ' ' :: (b ++ '}' :: rest)) := by
      simp
    rw [hsplit]
    exact members_more ((dumps_begins ha).append _) hfirst ((dumpsMembers_begins hb).append _) hrest

theorem readBack (ascii : Bool) (fuel : ℕ) : ReadBack ascii fuel := by
  induction fuel with
  | zero =>
    constructor
    · intro v s rest _ hfuel
      omega
    · intro v vs s rest _ hfuel
      omega
    · intro m ms s rest _ hfuel
      omega
  | succ fuel ih =>
    exact ⟨fun _ _ _ h hfuel hends => value_readBack ih h hfuel hends,
      fun _ _ _ rest h hfuel => items_readBack ih rest h hfuel,
      fun _ _ _ rest h hfuel => members_readBack ih rest h hfuel⟩

section
variable [Unicode]
attribute [local instance] guardDecoder

end

section
attribute [local instance] plainTables guardDecoder

end

end RagPipeline.Answer
