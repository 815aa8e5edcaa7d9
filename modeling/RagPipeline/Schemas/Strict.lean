import RagPipeline.Lib.JsonSchema

/-! # The transport copy of a schema

`_transport_node` with the policies of the two providers: dropped keywords go,
unclassified ones are refused, and branches that have become empty are removed. -/

set_option autoImplicit false

namespace RagPipeline.Schemas
open RagPipeline.JsonSchema

/-! ## Policies -/

structure Policy where
  supported : List String
  dropped : List String

def claudeTransportKeywords : List String :=
  ["type", "properties", "items", "required", "additionalProperties", "enum", "const", "allOf", "anyOf"]

def claudeTransportDropped : List String :=
  ["pattern", "minLength", "maxLength", "minimum", "maximum", "minItems", "maxItems", "if", "then", "else"]

def claude : Policy := ⟨claudeTransportKeywords, claudeTransportDropped⟩

def codexTransportKeywords : List String := claudeTransportKeywords.filter fun k => k != "allOf"

def codexTransportDropped : List String := "allOf" :: claudeTransportDropped

def codex : Policy := ⟨codexTransportKeywords, codexTransportDropped⟩

def Policy.drops (p : Policy) (e : Entry) : Bool := p.dropped.contains e.key

/-- Keeps what a schema says of names, and drops conditionals altogether. -/
structure Policy.Sensible (p : Policy) : Prop where
  properties : ∀ props, p.drops (.properties props) = false
  conditional : ∀ which schema, p.drops (.conditional which schema) = true

theorem claude_sensible : claude.Sensible where
  properties _ := by
    show claude.dropped.contains "properties" = false
    decide
  conditional which _ := by
    have hall : claude.dropped.contains "if" = true ∧ claude.dropped.contains "then" = true ∧
        claude.dropped.contains "else" = true := by
      decide
    cases which with
    | on => exact hall.1
    | yes => exact hall.2.1
    | no => exact hall.2.2

theorem codex_sensible : codex.Sensible where
  properties _ := by
    show codex.dropped.contains "properties" = false
    decide
  conditional which _ := by
    have hall : codex.dropped.contains "if" = true ∧ codex.dropped.contains "then" = true ∧
        codex.dropped.contains "else" = true := by
      decide
    cases which with
    | on => exact hall.1
    | yes => exact hall.2.1
    | no => exact hall.2.2

/-! ## The reduction -/

/-- `if branch`. -/
def truthy : Schema → Bool
  | .node [] => false
  | _ => true

/-- A branch list without its empty branches, or nothing. -/
def keepBranches (make : List Schema → Entry) (branches : List Schema) : Option Entry :=
  if (branches.filter truthy).isEmpty then none else some (make (branches.filter truthy))

def composite : Value → Bool
  | .arr _ => true
  | .obj _ => true
  | _ => false

mutual

def transportNode (p : Policy) : Schema → Except String Schema
  | .bool _ => .error "sema dugumu bir nesne degil"
  | .node entries =>
    match transportEntries p entries with
    | .ok reduced => .ok (.node reduced)
    | .error refused => .error refused

def transportEntries (p : Policy) : List Entry → Except String (List Entry)
  | [] => .ok []
  | e :: rest =>
    if p.drops e then transportEntries p rest
    else if p.supported.contains e.key = false then .error ("siniflandirilmamis anahtar: " ++ e.key)
    else
      match transportEntry p e with
      | .error refused => .error refused
      | .ok kept =>
        match transportEntries p rest with
        | .error refused => .error refused
        | .ok reduced => .ok (kept.toList ++ reduced)

/-- A supported keyword; nothing is left of a combinator without branches. -/
def transportEntry (p : Policy) : Entry → Except String (Option Entry)
  | .properties props =>
    match transportProperties p props with
    | .ok reduced => .ok (some (.properties reduced))
    | .error refused => .error refused
  | .items schema =>
    match transportNode p schema with
    | .ok reduced => .ok (some (.items reduced))
    | .error refused => .error refused
  | .allOf branches =>
    match transportBranches p branches with
    | .ok reduced => .ok (keepBranches .allOf reduced)
    | .error refused => .error refused
  | .anyOf branches =>
    match transportBranches p branches with
    | .ok reduced => .ok (keepBranches .anyOf reduced)
    | .error refused => .error refused
  | .additionalProperties (.bool false) => .ok (some (.additionalProperties (.bool false)))
  | .additionalProperties _ => .error "additionalProperties yalnizca false olabilir"
  | .enum members =>
    if members.any composite then .error "enum karmasik tur tasiyor" else .ok (some (.enum members))
  | e => .ok (some e)

def transportProperties (p : Policy) : List (String × Schema) → Except String (List (String × Schema))
  | [] => .ok []
  | (name, sub) :: rest =>
    match transportNode p sub with
    | .error refused => .error refused
    | .ok reduced =>
      match transportProperties p rest with
      | .error refused => .error refused
      | .ok others => .ok ((name, reduced) :: others)

def transportBranches (p : Policy) : List Schema → Except String (List Schema)
  | [] => .ok []
  | sub :: rest =>
    match transportNode p sub with
    | .error refused => .error refused
    | .ok reduced =>
      match transportBranches p rest with
      | .error refused => .error refused
      | .ok others => .ok (reduced :: others)

end

def claudeTransportSchema (schema : Schema) : Except String Schema := transportNode claude schema

/-! ## Branches that vanish -/

mutual

/-- Every keyword is dropped, or combines only branches that vanish. -/
def vanishes (p : Policy) : Schema → Bool
  | .bool _ => false
  | .node entries => entriesVanish p entries

def entriesVanish (p : Policy) : List Entry → Bool
  | [] => true
  | e :: rest => (p.drops e || entryVanishes p e) && entriesVanish p rest

def entryVanishes (p : Policy) : Entry → Bool
  | .allOf branches => allVanish p branches
  | .anyOf branches => allVanish p branches
  | _ => false

def allVanish (p : Policy) : List Schema → Bool
  | [] => true
  | s :: rest => vanishes p s && allVanish p rest

end

def noneVanishes (p : Policy) (branches : List Schema) : Bool := branches.all fun s => !vanishes p s

mutual

/-- No anyOf that is kept loses some of its branches and not all of them. -/
def even (p : Policy) : Schema → Bool
  | .bool _ => true
  | .node entries => entriesEven p entries

def entriesEven (p : Policy) : List Entry → Bool
  | [] => true
  | e :: rest => (p.drops e || entryEven p e) && entriesEven p rest

def entryEven (p : Policy) : Entry → Bool
  | .properties props => propertiesEven p props
  | .items schema => even p schema
  | .allOf branches => branchesEven p branches
  | .anyOf branches => (allVanish p branches || noneVanishes p branches) && branchesEven p branches
  | _ => true

def propertiesEven (p : Policy) : List (String × Schema) → Bool
  | [] => true
  | (_, sub) :: rest => even p sub && propertiesEven p rest

def branchesEven (p : Policy) : List Schema → Bool
  | [] => true
  | s :: rest => even p s && branchesEven p rest

end

end RagPipeline.Schemas

/-! # The strict copy of a schema

`_strict_node` and `codex_transport_schema`: every node has a type, every
object requires all of its properties, and a property that was optional may be
null instead. -/

namespace RagPipeline.Schemas
open RagPipeline.JsonSchema

/-! ## Entries of a node -/

/-- `node[key] = value`: in place, or at the end. -/
def setEntry (e : Entry) : List Entry → List Entry
  | [] => [e]
  | x :: rest => if x.key = e.key then e :: rest else x :: setEntry e rest

/-- `node.get("const")`. -/
def constant : List Entry → Option Value
  | [] => none
  | .const v :: _ => some v
  | _ :: rest => constant rest

/-- `node.get("enum")`. -/
def enumeration : List Entry → Option (List Value)
  | [] => none
  | .enum members :: _ => some members
  | _ :: rest => enumeration rest

/-- `node.get("type")`. -/
def declaredType : List Entry → Option TypeSpec
  | [] => none
  | .type spec :: _ => some spec
  | _ :: rest => declaredType rest

def hasKey (key : String) (entries : List Entry) : Bool := entries.any fun e => e.key == key

/-! ## Types of literals -/

def primitiveType : Value → Except String String
  | .null => .ok "null"
  | .bool _ => .ok "boolean"
  | .int _ => .ok "integer"
  | .real _ => .ok "number"
  | .str _ => .ok "string"
  | _ => .error "ilkel olmayan sema degeri"

def primitiveTypes : List Value → Except String (List String)
  | [] => .ok []
  | v :: rest =>
    match primitiveType v with
    | .error refused => .error refused
    | .ok kind =>
      match primitiveTypes rest with
      | .error refused => .error refused
      | .ok kinds => .ok (kind :: kinds)

/-- The one kind there is, nulls apart. -/
def soleKind (kinds : List String) : Except String String :=
  match kinds.filter (fun kind => kind != "null") with
  | [] => .error "enum tek bir ilkel tip tasimiyor"
  | kind :: rest =>
    if rest.all (fun other => other == kind) then .ok kind
    else .error "enum tek bir ilkel tip tasimiyor"

def scalarType (node : List Entry) : Except String String :=
  match declaredType node with
  | some (.one name) => .ok name
  | some (.many _) => .error "tip gosterimi metin degil"
  | none =>
    match constant node with
    | some v => primitiveType v
    | none =>
      match enumeration node with
      | some members =>
        match primitiveTypes members with
        | .ok kinds => soleKind kinds
        | .error refused => .error refused
      | none => .error "alt sema icin tip cikarilamiyor"

/-! ## The strict node -/

def nullable (node : List Entry) (base : String) : List Entry :=
  let node := setEntry (.type (.many [base, "null"])) node
  match constant node with
  | some v => setEntry (.enum [v, .null]) (node.filter fun e => e.key != "const")
  | none =>
    match enumeration node with
    | some members =>
      if members.any Value.isNull then node else setEntry (.enum (members ++ [.null])) node
    | none => node

def typed (optional : Bool) (base : String) (node : List Entry) : Schema :=
  if optional then .node (nullable node base) else .node (setEntry (.type (.one base)) node)

mutual

def strictNode : Schema → Bool → Except String Schema
  | .bool _, _ => .error "sema dugumu bir nesne degil"
  | .node entries, optional =>
    if hasKey "properties" entries then
      match strictUnder (required entries) entries with
      | .error refused => .error refused
      | .ok strict =>
        .ok (typed optional "object"
          (setEntry (.additionalProperties (.bool false))
            (setEntry (.required (declared strict)) strict)))
    else if hasKey "items" entries then
      match strictItems entries with
      | .error refused => .error refused
      | .ok strict => .ok (typed optional "array" strict)
    else
      match scalarType entries with
      | .error refused => .error refused
      | .ok base => .ok (typed optional base entries)

/-- The properties of a node made strict in their place. -/
def strictUnder (zorunlu : List String) : List Entry → Except String (List Entry)
  | [] => .ok []
  | .properties props :: rest =>
    match strictProperties zorunlu props with
    | .error refused => .error refused
    | .ok strict => .ok (.properties strict :: rest)
  | e :: rest =>
    match strictUnder zorunlu rest with
    | .error refused => .error refused
    | .ok strict => .ok (e :: strict)

def strictProperties (zorunlu : List String) :
    List (String × Schema) → Except String (List (String × Schema))
  | [] => .ok []
  | (name, sub) :: rest =>
    match strictNode sub (!zorunlu.contains name) with
    | .error refused => .error refused
    | .ok strict =>
      match strictProperties zorunlu rest with
      | .error refused => .error refused
      | .ok others => .ok ((name, strict) :: others)

/-- The items of a node made strict in their place; they are never optional. -/
def strictItems : List Entry → Except String (List Entry)
  | [] => .ok []
  | .items schema :: rest =>
    match strictNode schema false with
    | .error refused => .error refused
    | .ok strict => .ok (.items strict :: rest)
  | e :: rest =>
    match strictItems rest with
    | .error refused => .error refused
    | .ok strict => .ok (e :: strict)

end

/-- `schema.get("type") != "object"`. -/
def isObjectSchema : Schema → Bool
  | .bool _ => false
  | .node entries => declaredType entries == some (.one "object")

def codexTransportSchema (schema : Schema) : Except String Schema :=
  match transportNode codex schema with
  | .error refused => .error refused
  | .ok reduced =>
    match strictNode reduced false with
    | .error refused => .error refused
    | .ok strict =>
      if isObjectSchema strict then .ok strict
      else .error "tasima semasinin koku nesne degil"

/-! ## Fields the adapter derives -/

/-- A property and its mention under `required` taken away. -/
def withoutField (name : String) : Entry → Entry
  | .properties props => .properties (props.filter fun prop => prop.1 != name)
  | .required names => .required (names.filter fun other => other != name)
  | e => e

def withoutFields : Schema → List String → Schema
  | .bool b, _ => .bool b
  | .node entries, names => .node (names.foldl (fun node name => node.map (withoutField name)) entries)

def derivedEvaluatorFields : List String := ["next_action"]

def withoutDerived (schema : Schema) : Schema := withoutFields schema derivedEvaluatorFields

def evaluatorTransportSchema (authoritative : Schema) : Except String Schema :=
  codexTransportSchema (withoutDerived authoritative)

end RagPipeline.Schemas
