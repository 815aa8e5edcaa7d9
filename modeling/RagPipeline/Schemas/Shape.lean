import RagPipeline.Schemas.Elide
import RagPipeline.Schemas.Strict

/-! # Shapes of audit schemas

What the audit schemas are built from: words of a closed vocabulary, fixed
texts, texts and whole numbers with bounds, lists and closed records. A shape
has an authority and a strict copy, and the copy is the one that
`codex_transport_schema` makes. -/

set_option autoImplicit false

namespace RagPipeline.Schemas
open RagPipeline.JsonSchema

inductive Kind where
  | text
  | whole
deriving DecidableEq

def Kind.name : Kind → String
  | .text => "string"
  | .whole => "integer"

inductive Bound where
  | pattern (text : String)
  | minLength (n : Int)
  | maxLength (n : Int)
  | minimum (n : Int)
  | maximum (n : Int)

def Bound.entry : Bound → Entry
  | .pattern text => .other "pattern" (.str text)
  | .minLength n => .other "minLength" (.int n)
  | .maxLength n => .other "maxLength" (.int n)
  | .minimum n => .other "minimum" (.int n)
  | .maximum n => .other "maximum" (.int n)

inductive Shape where
  | scalar (kind : Kind) (bounds : List Bound)
  | word (first : String) (others : List String)
  | fixed (text : String)
  | list (maxItems : Int) (item : Shape)
  | record (required : List String) (fields : List (String × Shape)) (rules : Option (List Schema))

def words (first : String) (others : List String) : List Value := (first :: others).map .str

def spec (optional : Bool) (base : String) : TypeSpec :=
  if optional then .many [base, "null"] else .one base

mutual

def Shape.authority : Shape → Schema
  | .scalar kind bounds => .node (.type (.one kind.name) :: bounds.map Bound.entry)
  | .word first others => .node [.enum (words first others)]
  | .fixed text => .node [.const (.str text)]
  | .list maxItems item =>
    .node [.type (.one "array"), .other "maxItems" (.int maxItems), .items item.authority]
  | .record required fields rules =>
    .node (.type (.one "object") :: .additionalProperties (.bool false) :: .required required ::
      .properties (authorities fields) :: rules.toList.map .allOf)

def authorities : List (String × Shape) → List (String × Schema)
  | [] => []
  | (name, s) :: rest => (name, s.authority) :: authorities rest

end

mutual

/-- The shape without the keywords that are dropped. -/
def Shape.reduced : Shape → Schema
  | .scalar kind _ => .node [.type (.one kind.name)]
  | .word first others => .node [.enum (words first others)]
  | .fixed text => .node [.const (.str text)]
  | .list _ item => .node [.type (.one "array"), .items item.reduced]
  | .record required fields _ =>
    .node [.type (.one "object"), .additionalProperties (.bool false), .required required,
      .properties (reductions fields)]

def reductions : List (String × Shape) → List (String × Schema)
  | [] => []
  | (name, s) :: rest => (name, s.reduced) :: reductions rest

end

mutual

def Shape.strict : Shape → Bool → Schema
  | .scalar kind _, optional => .node [.type (spec optional kind.name)]
  | .word first others, true =>
    .node [.enum (words first others ++ [.null]), .type (.many ["string", "null"])]
  | .word first others, false => .node [.enum (words first others), .type (.one "string")]
  | .fixed text, true => .node [.type (.many ["string", "null"]), .enum [.str text, .null]]
  | .fixed text, false => .node [.const (.str text), .type (.one "string")]
  | .list _ item, optional => .node [.type (spec optional "array"), .items (item.strict false)]
  | .record required fields _, optional =>
    .node [.type (spec optional "object"), .additionalProperties (.bool false),
      .required (fields.map Prod.fst), .properties (strictFields required fields)]

def strictFields (zorunlu : List String) : List (String × Shape) → List (String × Schema)
  | [] => []
  | (name, s) :: rest => (name, s.strict (!zorunlu.contains name)) :: strictFields zorunlu rest

end

theorem authorities_names (fields : List (String × Shape)) :
    (authorities fields).map Prod.fst = fields.map Prod.fst := by
  induction fields with
  | nil => rfl
  | cons field rest ih => rw [authorities, List.map_cons, List.map_cons, ih]

theorem strictFields_names (zorunlu : List String) (fields : List (String × Shape)) :
    (strictFields zorunlu fields).map Prod.fst = fields.map Prod.fst := by
  induction fields with
  | nil => rfl
  | cons field rest ih => rw [strictFields, List.map_cons, List.map_cons, ih]

/-! ## The reduction of a shape -/

theorem transportEntries_keep {e e' : Entry} {rest others : List Entry}
    (hdrops : codex.dropped.contains e.key = false) (hsupported : codex.supported.contains e.key = true)
    (hkept : transportEntry codex e = .ok (some e')) (hrest : transportEntries codex rest = .ok others) :
    transportEntries codex (e :: rest) = .ok (e' :: others) := by
  rw [transportEntries, Policy.drops, hdrops, hsupported, hkept, hrest]
  rfl

theorem transportEntries_drop {e : Entry} (rest : List Entry)
    (hdrops : codex.dropped.contains e.key = true) :
    transportEntries codex (e :: rest) = transportEntries codex rest := by
  rw [transportEntries, Policy.drops, hdrops, if_pos rfl]

theorem transportEntries_bounds (bounds : List Bound) :
    transportEntries codex (bounds.map Bound.entry) = .ok [] := by
  induction bounds with
  | nil => rfl
  | cons bound rest ih =>
    rw [List.map_cons, transportEntries_drop _ ?_]
    · exact ih
    · cases bound <;> rfl

theorem transportEntries_rules (rules : Option (List Schema)) :
    transportEntries codex (rules.toList.map .allOf) = .ok [] := by
  cases rules with
  | none => rfl
  | some branches => rfl

theorem composite_words (l : List String) : (l.map Value.str).any composite = false := by
  induction l with
  | nil => rfl
  | cons w rest ih => exact ih

mutual

theorem transport_authority (s : Shape) : transportNode codex s.authority = .ok s.reduced := by
  cases s with
  | scalar kind bounds =>
    have hentries : transportEntries codex (.type (.one kind.name) :: bounds.map Bound.entry) =
        .ok [.type (.one kind.name)] := by
      apply transportEntries_keep
      · rfl
      · rfl
      · rfl
      · exact transportEntries_bounds bounds
    rw [Shape.authority, transportNode, hentries]
    rfl
  | word first others =>
    have hentries : transportEntries codex [.enum (words first others)] = .ok [.enum (words first others)] := by
      apply transportEntries_keep
      · rfl
      · rfl
      · rw [transportEntry, words, composite_words]
        rfl
      · rfl
    rw [Shape.authority, transportNode, hentries]
    rfl
  | fixed text => rfl
  | list maxItems item =>
    have hitem : transportEntries codex [.items item.authority] = .ok [.items item.reduced] := by
      apply transportEntries_keep
      · rfl
      · rfl
      · rw [transportEntry, transport_authority item]
      · rfl
    have hentries : transportEntries codex
        [.type (.one "array"), .other "maxItems" (.int maxItems), .items item.authority] =
        .ok [.type (.one "array"), .items item.reduced] := by
      apply transportEntries_keep
      · rfl
      · rfl
      · rfl
      · exact hitem
    rw [Shape.authority, transportNode, hentries]
    rfl
  | record required fields rules =>
    have hfields : transportEntries codex (.properties (authorities fields) :: rules.toList.map .allOf) =
        .ok [.properties (reductions fields)] := by
      apply transportEntries_keep
      · rfl
      · rfl
      · rw [transportEntry, transport_authorities fields]
      · exact transportEntries_rules rules
    have hrequired := @transportEntries_keep (.required required) _ _ _ rfl rfl rfl hfields
    have hclosed := @transportEntries_keep (.additionalProperties (.bool false)) _ _ _ rfl rfl rfl hrequired
    have hentries := @transportEntries_keep (.type (.one "object")) _ _ _ rfl rfl rfl hclosed
    rw [Shape.authority, transportNode, hentries]
    rfl
termination_by structural s

theorem transport_authorities (fields : List (String × Shape)) :
    transportProperties codex (authorities fields) = .ok (reductions fields) := by
  cases fields with
  | nil => rfl
  | cons field rest =>
    obtain ⟨name, s⟩ := field
    rw [authorities, transportProperties, transport_authority s, transport_authorities rest]
    rfl
termination_by structural fields

end

/-! ## The strict copy of a shape -/

theorem strictNode_properties {entries strict : List Entry} {zorunlu : List String} (optional : Bool)
    (hproperties : hasKey "properties" entries = true)
    (hzorunlu : required entries = zorunlu) (h : strictUnder zorunlu entries = .ok strict) :
    strictNode (.node entries) optional =
      .ok (typed optional "object" (setEntry (.additionalProperties (.bool false))
        (setEntry (.required (declared strict)) strict))) := by
  rw [strictNode, if_pos hproperties, hzorunlu, h]

theorem strictNode_items {entries strict : List Entry} (optional : Bool)
    (hproperties : hasKey "properties" entries = false) (hitems : hasKey "items" entries = true)
    (h : strictItems entries = .ok strict) :
    strictNode (.node entries) optional = .ok (typed optional "array" strict) := by
  rw [strictNode, hproperties, if_neg Bool.false_ne_true, if_pos hitems, h]

theorem strictNode_scalar {entries : List Entry} {base : String} (optional : Bool)
    (hproperties : hasKey "properties" entries = false) (hitems : hasKey "items" entries = false)
    (h : scalarType entries = .ok base) :
    strictNode (.node entries) optional = .ok (typed optional base entries) := by
  rw [strictNode, hproperties, hitems, if_neg Bool.false_ne_true, if_neg Bool.false_ne_true, h]

theorem soleKind_words (first : String) (others : List String) :
    primitiveTypes (words first others) = .ok ("string" :: others.map fun _ => "string") := by
  have htypes : ∀ l : List String,
      primitiveTypes (l.map .str) = .ok (l.map fun _ => "string") := by
    intro l
    induction l with
    | nil => rfl
    | cons w rest ih =>
      rw [List.map_cons, primitiveTypes, ih]
      rfl
  exact htypes (first :: others)

theorem scalarType_words (first : String) (others : List String) :
    scalarType [.enum (words first others)] = .ok "string" := by
  have hsole : soleKind ("string" :: others.map fun _ => "string") = .ok "string" := by
    have hall : ("string" :: others.map fun _ => "string").filter (fun kind => kind != "null") =
        "string" :: others.map fun _ => "string" := by
      apply List.filter_eq_self.2
      intro kind hkind
      obtain rfl | hkind := List.mem_cons.1 hkind
      · rfl
      · obtain ⟨-, -, rfl⟩ := List.mem_map.1 hkind
        rfl
    unfold soleKind
    rw [hall]
    simp
  simp only [scalarType, declaredType, constant, enumeration, soleKind_words, hsole]

theorem nullable_enum {members : List Value} (base : String) (h : members.any Value.isNull = false) :
    nullable [.enum members] base = [.enum (members ++ [.null]), .type (.many [base, "null"])] := by
  have hopen : nullable [.enum members] base =
      if members.any Value.isNull then [.enum members, .type (.many [base, "null"])]
      else [.enum (members ++ [.null]), .type (.many [base, "null"])] := rfl
  rw [hopen, h, if_neg Bool.false_ne_true]

theorem isNull_words (l : List String) : (l.map Value.str).any Value.isNull = false := by
  induction l with
  | nil => rfl
  | cons w rest ih => exact ih

mutual

theorem strict_reduced (s : Shape) (optional : Bool) :
    strictNode s.reduced optional = .ok (s.strict optional) := by
  cases s with
  | scalar kind bounds => cases optional <;> rfl
  | word first others =>
    rw [Shape.reduced, strictNode_scalar optional rfl rfl (scalarType_words first others)]
    cases optional with
    | false => rfl
    | true =>
      show Except.ok (Schema.node (nullable [.enum (words first others)] "string")) = _
      have hnull : (words first others).any Value.isNull = false := isNull_words _
      rw [nullable_enum "string" hnull]
      rfl
  | fixed text => cases optional <;> rfl
  | list maxItems item =>
    have hitems : strictItems [.type (.one "array"), .items item.reduced] =
        .ok [.type (.one "array"), .items (item.strict false)] := by
      simp only [strictItems, strict_reduced item false]
    rw [Shape.reduced, strictNode_items optional rfl rfl hitems]
    cases optional <;> rfl
  | record required fields rules =>
    have hfields : strictUnder required [.type (.one "object"), .additionalProperties (.bool false),
        .required required, .properties (reductions fields)] =
        .ok [.type (.one "object"), .additionalProperties (.bool false), .required required,
          .properties (strictFields required fields)] := by
      simp only [strictUnder, strict_reductions required fields]
    rw [Shape.reduced, @strictNode_properties _ _ required optional rfl rfl hfields, Shape.strict,
      ← strictFields_names required fields]
    cases optional <;> rfl
termination_by structural s

theorem strict_reductions (zorunlu : List String) (fields : List (String × Shape)) :
    strictProperties zorunlu (reductions fields) = .ok (strictFields zorunlu fields) := by
  cases fields with
  | nil => rfl
  | cons field rest =>
    obtain ⟨name, s⟩ := field
    rw [reductions, strictProperties, strict_reduced s, strict_reductions zorunlu rest]
    rfl
termination_by structural fields

end

/-- The transport copy of a record is its strict copy. -/
theorem codexTransportSchema_record (zorunlu : List String) (fields : List (String × Shape))
    (rules : Option (List Schema)) :
    codexTransportSchema (Shape.record zorunlu fields rules).authority =
      .ok ((Shape.record zorunlu fields rules).strict false) := by
  have hobject : isObjectSchema ((Shape.record zorunlu fields rules).strict false) = true := rfl
  simp only [codexTransportSchema, transport_authority, strict_reduced, hobject, if_true]

end RagPipeline.Schemas
