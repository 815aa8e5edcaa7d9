import Mathlib.Data.Rat.Defs

/-! # JSON Schema

Documents, schemas keyword by keyword, and when a schema accepts a document.
Objects are lists of members, and a name is looked up from the front. What a
keyword means that is no structure of its own (a pattern, a bound) is left to
the instance of a class. -/

set_option autoImplicit false

namespace RagPipeline.JsonSchema

inductive Value where
  | null
  | bool (b : Bool)
  | int (n : Int)
  | real (q : Rat)
  | str (s : String)
  | arr (items : List Value)
  | obj (members : List (String × Value))

def Value.isNull : Value → Bool
  | .null => true
  | _ => false

/-- The value of a member. -/
def get (name : String) : List (String × Value) → Option Value
  | [] => none
  | (key, v) :: rest => if key = name then some v else get name rest

theorem get_isSome {name : String} {members : List (String × Value)} :
    (get name members).isSome = true ↔ name ∈ members.map Prod.fst := by
  induction members with
  | nil => simp [get]
  | cons m rest ih =>
    rw [get]
    split_ifs with hname
    · simp [hname]
    · rw [ih, List.map_cons, List.mem_cons]
      constructor
      · exact .inr
      · intro h
        exact h.resolve_left (Ne.symm hname)

/-! ## Equality -/

mutual

/-- Numbers are equal by value, and no number is a truth value. -/
def Value.same : Value → Value → Bool
  | .null, .null => true
  | .bool a, .bool b => a == b
  | .int m, .int n => m == n
  | .int m, .real q => (m : Rat) == q
  | .real q, .int n => q == (n : Rat)
  | .real p, .real q => p == q
  | .str a, .str b => a == b
  | .arr as, .arr bs => sameItems as bs
  | .obj as, .obj bs => as.length == bs.length && sameMembers as bs
  | _, _ => false

def sameItems : List Value → List Value → Bool
  | [], [] => true
  | a :: as, b :: bs => a.same b && sameItems as bs
  | _, _ => false

def sameMembers : List (String × Value) → List (String × Value) → Bool
  | [], _ => true
  | (key, a) :: as, bs =>
    (match get key bs with
      | some b => a.same b
      | none => false) && sameMembers as bs

end

/-! ## Types -/

/-- Whether a document is of the type of that name. A whole number is an
integer however it is written. -/
def Value.isType : Value → String → Bool
  | .null, t => t == "null"
  | .bool _, t => t == "boolean"
  | .int _, t => t == "integer" || t == "number"
  | .real q, t => t == "number" || (t == "integer" && q.den == 1)
  | .str _, t => t == "string"
  | .arr _, t => t == "array"
  | .obj _, t => t == "object"

inductive TypeSpec where
  | one (name : String)
  | many (names : List String)
deriving DecidableEq

def TypeSpec.names : TypeSpec → List String
  | .one name => [name]
  | .many names => names

/-! ## Schemas -/

inductive Condition where
  | on
  | yes
  | no
deriving DecidableEq

mutual

inductive Schema where
  | bool (b : Bool)
  | node (entries : List Entry)

/-- One keyword with its value. -/
inductive Entry where
  | type (spec : TypeSpec)
  | properties (props : List (String × Schema))
  | items (schema : Schema)
  | required (names : List String)
  | additionalProperties (schema : Schema)
  | enum (members : List Value)
  | const (v : Value)
  | allOf (branches : List Schema)
  | anyOf (branches : List Schema)
  /-- The keyword if, then or else. -/
  | conditional (which : Condition) (schema : Schema)
  | other (key : String) (v : Value)

end

def Entry.key : Entry → String
  | .type _ => "type"
  | .properties _ => "properties"
  | .items _ => "items"
  | .required _ => "required"
  | .additionalProperties _ => "additionalProperties"
  | .enum _ => "enum"
  | .const _ => "const"
  | .allOf _ => "allOf"
  | .anyOf _ => "anyOf"
  | .conditional .on _ => "if"
  | .conditional .yes _ => "then"
  | .conditional .no _ => "else"
  | .other key _ => key

/-- The names declared under `properties`. -/
def declared : List Entry → List String
  | [] => []
  | .properties props :: _ => props.map Prod.fst
  | _ :: rest => declared rest

/-- The names listed under `required`. -/
def required : List Entry → List String
  | [] => []
  | .required names :: _ => names
  | _ :: rest => required rest

/-! ## Acceptance -/

/-- What a keyword asks that is no structure of its own. -/
class Keywords where
  holds : (key : String) → Value → Value → Bool

section
variable [Keywords]

mutual

def Schema.accepts : Schema → Value → Bool
  | .bool b, _ => b
  | .node entries, v =>
    holdAll (declared entries) entries v &&
      match branch .on entries v with
      | some true => (branch .yes entries v).getD true
      | some false => (branch .no entries v).getD true
      | none => true

def holdAll (names : List String) : List Entry → Value → Bool
  | [], _ => true
  | e :: rest, v => e.holds names v && holdAll names rest v

/-- What one keyword asks of a document; the declared names are those of the
whole schema. -/
def Entry.holds (names : List String) : Entry → Value → Bool
  | .type spec, v => spec.names.any fun t => v.isType t
  | .properties props, .obj members => members.all fun (key, v) => propertyAccepts props key v
  | .items schema, .arr items => items.all fun v => schema.accepts v
  | .required rs, .obj members => rs.all fun r => (get r members).isSome
  | .additionalProperties schema, .obj members =>
    members.all fun (key, v) => names.contains key || schema.accepts v
  | .enum es, v => es.any fun e => e.same v
  | .const c, v => c.same v
  | .allOf branches, v => acceptAll branches v
  | .anyOf branches, v => acceptAny branches v
  | .other key value, v => Keywords.holds key value v
  | _, _ => true

def propertyAccepts : List (String × Schema) → String → Value → Bool
  | [], _, _ => true
  | (name, schema) :: rest, key, v => if name = key then schema.accepts v else propertyAccepts rest key v

def acceptAll : List Schema → Value → Bool
  | [], _ => true
  | s :: rest, v => s.accepts v && acceptAll rest v

def acceptAny : List Schema → Value → Bool
  | [], _ => false
  | s :: rest, v => s.accepts v || acceptAny rest v

def branch (which : Condition) : List Entry → Value → Option Bool
  | [], _ => none
  | .conditional w schema :: rest, v =>
    if w = which then some (schema.accepts v) else branch which rest v
  | _ :: rest, v => branch which rest v

end

theorem holdAll_iff {names : List String} {entries : List Entry} {v : Value} :
    holdAll names entries v = true ↔ ∀ e ∈ entries, e.holds names v = true := by
  induction entries with
  | nil => exact ⟨fun _ _ he => absurd he List.not_mem_nil, fun _ => rfl⟩
  | cons e rest ih =>
    rw [List.forall_mem_cons, ← ih, ← Bool.and_eq_true]
    exact Iff.rfl

/-- What is accepted meets every keyword. -/
theorem holds_of_accepts {entries : List Entry} {v : Value} (h : (Schema.node entries).accepts v = true) :
    ∀ e ∈ entries, e.holds (declared entries) v = true :=
  holdAll_iff.1 ((Bool.and_eq_true _ _).mp h).1

/-- Where there is no condition, the keywords are all that is asked. -/
theorem accepts_of_holds {entries : List Entry} {v : Value} (hon : branch .on entries v = none)
    (h : ∀ e ∈ entries, e.holds (declared entries) v = true) : (Schema.node entries).accepts v = true := by
  show (holdAll (declared entries) entries v && match branch .on entries v with
    | some true => (branch .yes entries v).getD true
    | some false => (branch .no entries v).getD true
    | none => true) = true
  rw [hon, holdAll_iff.2 h]
  rfl

end

end RagPipeline.JsonSchema
