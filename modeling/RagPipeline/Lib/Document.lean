import Mathlib.Data.List.AList
import Mathlib.Data.Rat.Defs

/-! # Documents in memory

The values a document is read into, numbers that are none among them, the
equality of two values, and what one shape asks of a value. A document is a map
from names to values. -/

set_option autoImplicit false

namespace RagPipeline.Document

inductive Value where
  | null
  | bool (b : Bool)
  | int (n : Int)
  | real (q : Rat)
  /-- No number at all. -/
  | nan
  | inf (negative : Bool)
  | str (s : String)
  | list (items : List Value)
  | dict (members : List (String × Value))

abbrev Fields := AList fun _ : String => Value

/-- The value under a name, looked up from the front. -/
def get {α : Type} (name : String) : List (String × α) → Option α
  | [] => none
  | (key, v) :: rest => if key = name then some v else get name rest

def Fields.members (d : Fields) : List (String × Value) := d.entries.map fun e => (e.1, e.2)

theorem get_mem {α : Type} {name : String} {v : α} {members : List (String × α)}
    (h : get name members = some v) : (name, v) ∈ members := by
  induction members with
  | nil => cases h
  | cons m rest ih =>
    rw [get] at h
    split_ifs at h with hname
    · obtain rfl := hname
      obtain rfl := Option.some.inj h
      exact List.mem_cons_self
    · exact List.mem_cons_of_mem m (ih h)

theorem get_members (d : Fields) (name : String) : get name (Fields.members d) = d.lookup name := by
  obtain ⟨entries, hnodup⟩ := d
  show get name (entries.map fun e => (e.1, e.2)) = entries.dlookup name
  clear hnodup
  induction entries with
  | nil => rfl
  | cons e rest ih =>
    obtain ⟨key, v⟩ := e
    rw [List.map_cons, get]
    by_cases hkey : key = name
    · obtain rfl := hkey
      rw [if_pos rfl, List.dlookup_cons_eq]
    · rw [if_neg hkey, ih]
      exact (List.dlookup_cons_ne rest ⟨key, v⟩ (Ne.symm hkey)).symm

/-! ## Equality -/

/-- A truth value counts as one or zero. -/
def Value.number : Value → Option Rat
  | .bool b => some (if b then 1 else 0)
  | .int n => some n
  | .real q => some q
  | _ => none

mutual

/-- Equality as the language has it: numbers by value, maps whatever the order. -/
def Value.same : Value → Value → Bool
  | .null, v => match v with
    | .null => true
    | _ => false
  | .bool b, v => v.number == some (if b then 1 else 0)
  | .int n, v => v.number == some (n : Rat)
  | .real q, v => v.number == some q
  | .nan, _ => false
  | .inf negative, v => match v with
    | .inf negative' => negative == negative'
    | _ => false
  | .str s, v => match v with
    | .str t => s == t
    | _ => false
  | .list items, v => match v with
    | .list others => sameItems items others
    | _ => false
  | .dict members, v => match v with
    | .dict others => members.length == others.length && sameMembers members others
    | _ => false

def sameItems : List Value → List Value → Bool
  | [], vs => vs.isEmpty
  | a :: as, vs => match vs with
    | [] => false
    | b :: bs => a.same b && sameItems as bs

def sameMembers : List (String × Value) → List (String × Value) → Bool
  | [], _ => true
  | (key, a) :: as, bs => (match get key bs with
      | some b => a.same b
      | none => false) && sameMembers as bs

end

example : (Value.dict [("a", .list [.int 1])]).same (.dict [("a", .list [.bool true])]) = true := by
  simp [Value.same, sameMembers, sameItems, get, Value.number]

theorem same_number {a b : Value} {q : Rat} (ha : a.number = some q) :
    a.same b = true ↔ b.number = some q := by
  cases a with
  | bool c =>
    rw [Value.same, beq_iff_eq, ← ha]
    exact Iff.rfl
  | int n =>
    rw [Value.same, beq_iff_eq, ← ha]
    exact Iff.rfl
  | real p =>
    rw [Value.same, beq_iff_eq, ← ha]
    exact Iff.rfl
  | null => cases ha
  | nan => cases ha
  | inf negative => cases ha
  | str s => cases ha
  | list items => cases ha
  | dict members => cases ha

theorem same_str {s : String} {v : Value} : (Value.str s).same v = true ↔ v = .str s := by
  cases v with
  | str t =>
    simp only [Value.same, beq_iff_eq, Value.str.injEq]
    exact eq_comm
  | _ => simp [Value.same]

theorem str_same {s : String} {v : Value} : v.same (.str s) = true ↔ v = .str s := by
  cases v <;> simp [Value.same, Value.number]

theorem same_list {as : List Value} {v : Value} :
    (Value.list as).same v = true ↔ ∃ bs, v = .list bs ∧ sameItems as bs = true := by
  cases v <;> simp [Value.same]

theorem same_dict {as : List (String × Value)} {v : Value} :
    (Value.dict as).same v = true ↔
      ∃ bs, v = .dict bs ∧ as.length = bs.length ∧ sameMembers as bs = true := by
  cases v <;> simp [Value.same]

theorem sameMembers_get {as bs : List (String × Value)} {key : String} {a : Value}
    (h : sameMembers as bs = true) (ha : get key as = some a) :
    ∃ b, get key bs = some b ∧ a.same b = true := by
  induction as with
  | nil => cases ha
  | cons m as ih =>
    rw [sameMembers, Bool.and_eq_true] at h
    rw [get] at ha
    split_ifs at ha with hkey
    · obtain rfl := hkey
      obtain rfl := Option.some.inj ha
      cases hb : get m.1 bs with
      | none => simp [hb] at h
      | some b => exact ⟨b, rfl, by simpa [hb] using h.1⟩
    · exact ih h.2 ha

mutual

theorem same_trans : ∀ {a b c : Value}, a.same b = true → b.same c = true → a.same c = true
  | .null, b, c, hab, hbc => by
    cases b <;> simp_all [Value.same]
  | .bool d, b, c, hab, hbc => by
    have hb := (same_number (a := .bool d) rfl).1 hab
    exact (same_number (a := .bool d) rfl).2 ((same_number hb).1 hbc)
  | .int n, b, c, hab, hbc => by
    have hb := (same_number (a := .int n) rfl).1 hab
    exact (same_number (a := .int n) rfl).2 ((same_number hb).1 hbc)
  | .real q, b, c, hab, hbc => by
    have hb := (same_number (a := .real q) rfl).1 hab
    exact (same_number (a := .real q) rfl).2 ((same_number hb).1 hbc)
  | .nan, _, _, hab, _ => by simp [Value.same] at hab
  | .inf negative, b, c, hab, hbc => by
    cases b <;> simp_all [Value.same]
  | .str s, b, c, hab, hbc => by
    obtain rfl := same_str.1 hab
    exact hbc
  | .list as, b, c, hab, hbc => by
    obtain ⟨bs, rfl, has⟩ := same_list.1 hab
    obtain ⟨cs, rfl, hbs⟩ := same_list.1 hbc
    exact same_list.2 ⟨cs, rfl, sameItems_trans has hbs⟩
  | .dict as, b, c, hab, hbc => by
    obtain ⟨bs, rfl, hlen, has⟩ := same_dict.1 hab
    obtain ⟨cs, rfl, hlen', hbs⟩ := same_dict.1 hbc
    exact same_dict.2 ⟨cs, rfl, hlen.trans hlen', sameMembers_trans has hbs⟩

theorem sameItems_trans : ∀ {as bs cs : List Value},
    sameItems as bs = true → sameItems bs cs = true → sameItems as cs = true
  | [], bs, cs, hab, hbc => by
    obtain rfl : bs = [] := List.isEmpty_iff.1 hab
    exact hbc
  | a :: as, [], cs, hab, _ => by simp [sameItems] at hab
  | a :: as, b :: bs, [], _, hbc => by simp [sameItems] at hbc
  | a :: as, b :: bs, c :: cs, hab, hbc => by
    simp only [sameItems, Bool.and_eq_true] at hab hbc ⊢
    exact ⟨same_trans hab.1 hbc.1, sameItems_trans hab.2 hbc.2⟩

theorem sameMembers_trans : ∀ {as bs cs : List (String × Value)},
    sameMembers as bs = true → sameMembers bs cs = true → sameMembers as cs = true
  | [], _, _, _, _ => by rw [sameMembers]
  | (key, a) :: as, bs, cs, hab, hbc => by
    rw [sameMembers, Bool.and_eq_true] at hab ⊢
    constructor
    · cases hb : get key bs with
      | none => simp [hb] at hab
      | some b =>
        have hsame : a.same b = true := by simpa [hb] using hab.1
        obtain ⟨c, hc, hbc'⟩ := sameMembers_get hbc hb
        simpa [hc] using same_trans hsame hbc'
    · exact sameMembers_trans hab.2 hbc

end

/-! ## Numbers that are numbers -/

mutual

def Value.finite : Value → Bool
  | .nan => false
  | .inf _ => false
  | .list items => finiteItems items
  | .dict members => finiteMembers members
  | _ => true

def finiteItems : List Value → Bool
  | [] => true
  | v :: rest => v.finite && finiteItems rest

def finiteMembers : List (String × Value) → Bool
  | [] => true
  | (_, v) :: rest => v.finite && finiteMembers rest

end

/-! ## Shapes -/

/-- One of the values listed. -/
def oneOf (words : List String) (v : Value) : Bool := words.any fun w => (Value.str w).same v

def text (check : List Char → Bool) : Value → Bool
  | .str s => check s.toList
  | _ => false

def array (most : ℕ) (item : Value → Bool) : Value → Bool
  | .list items => decide (items.length ≤ most) && items.all item
  | _ => false

/-- A whole number between two bounds, however it is written. -/
def integer (least most : ℕ) : Value → Bool
  | .int n => decide ((least : Int) ≤ n) && decide (n ≤ (most : Int))
  | .real q => q.den == 1 && decide ((least : Rat) ≤ q) && decide (q ≤ (most : Rat))
  | _ => false

/-- A number not below a bound. What is no number is below nothing. -/
def number (least : ℕ) : Value → Bool
  | .int n => decide ((least : Int) ≤ n)
  | .real q => decide ((least : Rat) ≤ q)
  | .nan => true
  | .inf negative => !negative
  | _ => false

/-- Every required name is there, and every name that is there is a known one with
a value of its shape. -/
def object (required : List String) (properties : List (String × (Value → Bool)))
    (members : List (String × Value)) : Bool :=
  (required.all fun r => (get r members).isSome) &&
    members.all fun m => match get m.1 properties with
      | some check => check m.2
      | none => false

def nested (check : List (String × Value) → Bool) : Value → Bool
  | .dict members => check members
  | _ => false

theorem oneOf_iff {words : List String} {v : Value} :
    oneOf words v = true ↔ ∃ w ∈ words, v = .str w := by
  rw [oneOf, List.any_eq_true]
  constructor
  · intro ⟨w, hw, hsame⟩
    exact ⟨w, hw, same_str.1 hsame⟩
  · intro ⟨w, hw, hv⟩
    exact ⟨w, hw, same_str.2 hv⟩

theorem nested_dict {check : List (String × Value) → Bool} {v : Value} (h : nested check v = true) :
    ∃ members, v = .dict members ∧ check members = true := by
  cases v with
  | dict members => exact ⟨members, rfl, h⟩
  | _ => simp [nested] at h

theorem integer_number {least most : ℕ} {v : Value} (h : integer least most v = true) :
    ∃ q, v.number = some q ∧ (least : Rat) ≤ q ∧ q ≤ (most : Rat) := by
  cases v with
  | int n =>
    simp only [integer, Bool.and_eq_true, decide_eq_true_iff] at h
    exact ⟨n, rfl, by exact_mod_cast h.1, by exact_mod_cast h.2⟩
  | real q =>
    simp only [integer, Bool.and_eq_true, decide_eq_true_iff] at h
    exact ⟨q, rfl, h.1.2, h.2⟩
  | _ => simp [integer] at h

/-- Where every number is one, a number shape holds of a number. -/
theorem number_number {least : ℕ} {v : Value} (h : number least v = true) (hfinite : v.finite = true) :
    ∃ q, v.number = some q := by
  cases v with
  | int n => exact ⟨n, rfl⟩
  | real q => exact ⟨q, rfl⟩
  | nan => simp [Value.finite] at hfinite
  | inf negative => simp [Value.finite] at hfinite
  | _ => simp [number] at h

section
variable {names : List String} {properties : List (String × (Value → Bool))}
  {members : List (String × Value)} {name : String}

theorem object_required (h : object names properties members = true) (hname : name ∈ names) :
    ∃ v, get name members = some v := by
  rw [object, Bool.and_eq_true, List.all_eq_true] at h
  exact Option.isSome_iff_exists.1 (h.1 name hname)

theorem object_get {v : Value} {check : Value → Bool} (h : object names properties members = true)
    (hcheck : get name properties = some check) (hv : get name members = some v) :
    check v = true := by
  rw [object, Bool.and_eq_true, List.all_eq_true, List.all_eq_true] at h
  have hmember := h.2 (name, v) (get_mem hv)
  rw [hcheck] at hmember
  exact hmember

end

theorem finiteMembers_get {members : List (String × Value)} {name : String} {v : Value}
    (h : finiteMembers members = true) (hv : get name members = some v) : v.finite = true := by
  induction members with
  | nil => cases hv
  | cons m rest ih =>
    rw [finiteMembers, Bool.and_eq_true] at h
    rw [get] at hv
    split_ifs at hv with hname
    · obtain rfl := Option.some.inj hv
      exact h.1
    · exact ih h.2 hv

end RagPipeline.Document
