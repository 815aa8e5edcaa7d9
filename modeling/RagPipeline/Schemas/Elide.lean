import RagPipeline.Lib.JsonSchema

/-! # Nulls for what is absent

`elide_optional_nulls` takes the nulls under optional names away; filling
writes one for every optional name that is absent. -/

set_option autoImplicit false

namespace RagPipeline.Schemas
open RagPipeline.JsonSchema

/-- A name in `properties` and not in `required`. -/
def optionalName (entries : List Entry) (key : String) : Bool :=
  (declared entries).contains key && !(required entries).contains key

mutual

def elideOptionalNulls : Schema → Value → Value
  | .node entries, .obj members =>
    .obj (members.filterMap fun (key, v) =>
      if optionalName entries key && v.isNull then none else some (key, elideUnder entries key v))
  | .node entries, .arr items => .arr (items.map fun v => elideItem entries v)
  | _, v => v

/-- What is under a name, by the schema that the node declares for it. -/
def elideUnder : List Entry → String → Value → Value
  | [], _, v => v
  | .properties props :: _, key, v => elideProperty props key v
  | _ :: rest, key, v => elideUnder rest key v

def elideProperty : List (String × Schema) → String → Value → Value
  | [], _, v => v
  | (name, sub) :: rest, key, v => if name = key then elideOptionalNulls sub v else elideProperty rest key v

def elideItem : List Entry → Value → Value
  | [], v => v
  | .items schema :: _, v => elideOptionalNulls schema v
  | _ :: rest, v => elideItem rest v

end

/-- The optional names that an object leaves out. -/
def absentNames (entries : List Entry) (members : List (String × Value)) : List String :=
  (declared entries).filter fun name => optionalName entries name && (get name members).isNone

mutual

/-- A null for every optional property that is absent, at every depth. -/
def fillOptional : Schema → Value → Value
  | .node entries, .obj members =>
    .obj ((members.map fun (key, v) => (key, fillUnder entries key v)) ++
      (absentNames entries members).map fun name => (name, .null))
  | .node entries, .arr items => .arr (items.map fun v => fillItem entries v)
  | _, v => v

def fillUnder : List Entry → String → Value → Value
  | [], _, v => v
  | .properties props :: _, key, v => fillProperty props key v
  | _ :: rest, key, v => fillUnder rest key v

def fillProperty : List (String × Schema) → String → Value → Value
  | [], _, v => v
  | (name, sub) :: rest, key, v => if name = key then fillOptional sub v else fillProperty rest key v

def fillItem : List Entry → Value → Value
  | [], v => v
  | .items schema :: _, v => fillOptional schema v
  | _ :: rest, v => fillItem rest v

end

/-! ## Nothing but a null is null -/

theorem elide_isNull (s : Schema) (v : Value) : (elideOptionalNulls s v).isNull = v.isNull := by
  cases s with
  | bool b => cases v <;> rfl
  | node entries => cases v <;> rfl

theorem fill_isNull (s : Schema) (v : Value) : (fillOptional s v).isNull = v.isNull := by
  cases s with
  | bool b => cases v <;> rfl
  | node entries => cases v <;> rfl

theorem elideProperty_isNull (props : List (String × Schema)) (key : String) (v : Value) :
    (elideProperty props key v).isNull = v.isNull := by
  induction props with
  | nil => rfl
  | cons prop rest ih =>
    rw [elideProperty]
    split_ifs
    · exact elide_isNull _ v
    · exact ih

theorem elideUnder_isNull (entries : List Entry) (key : String) (v : Value) :
    (elideUnder entries key v).isNull = v.isNull := by
  induction entries with
  | nil => rfl
  | cons e rest ih =>
    cases e with
    | properties props => exact elideProperty_isNull props key v
    | _ => exact ih

theorem fillProperty_isNull (props : List (String × Schema)) (key : String) (v : Value) :
    (fillProperty props key v).isNull = v.isNull := by
  induction props with
  | nil => rfl
  | cons prop rest ih =>
    rw [fillProperty]
    split_ifs
    · exact fill_isNull _ v
    · exact ih

theorem isNull_eq {v : Value} (h : v.isNull = true) : v = .null := by
  cases v with
  | null => rfl
  | _ => cases h

/-! ## Once is enough -/

/-- What becomes of one member. -/
def elideMember (entries : List Entry) (m : String × Value) : Option (String × Value) :=
  if optionalName entries m.1 && m.2.isNull then none else some (m.1, elideUnder entries m.1 m.2)

theorem elide_obj (entries : List Entry) (members : List (String × Value)) :
    elideOptionalNulls (.node entries) (.obj members) = .obj (members.filterMap (elideMember entries)) := by
  rw [elideOptionalNulls]
  rfl

mutual

theorem elide_elide (s : Schema) (v : Value) :
    elideOptionalNulls s (elideOptionalNulls s v) = elideOptionalNulls s v := by
  cases s with
  | bool b => cases v <;> rfl
  | node entries =>
    cases v with
    | obj members =>
      have hstable : ∀ m m', elideMember entries m = some m' → elideMember entries m' = some m' := by
        intro m m' h
        unfold elideMember at h
        split_ifs at h with hdrop
        obtain rfl := Option.some.inj h
        unfold elideMember
        rw [elideUnder_isNull, if_neg hdrop, elideUnder_elideUnder entries]
      rw [elide_obj, elide_obj, List.filterMap_filterMap]
      have hcomp : (fun m => (elideMember entries m).bind (elideMember entries)) = elideMember entries := by
        funext m
        cases hm : elideMember entries m with
        | none => rfl
        | some m' => exact hstable m m' hm
      rw [hcomp]
    | arr items =>
      rw [elideOptionalNulls, elideOptionalNulls, List.map_map]
      refine congrArg Value.arr (List.map_congr_left fun v _ => ?_)
      exact elideItem_elideItem entries v
    | _ => rfl
termination_by structural s

theorem elideUnder_elideUnder (entries : List Entry) (key : String) (v : Value) :
    elideUnder entries key (elideUnder entries key v) = elideUnder entries key v := by
  cases entries with
  | nil => rfl
  | cons e rest =>
    cases e with
    | properties props => exact elideProperty_elideProperty props key v
    | _ => exact elideUnder_elideUnder rest key v
termination_by structural entries

theorem elideProperty_elideProperty (props : List (String × Schema)) (key : String) (v : Value) :
    elideProperty props key (elideProperty props key v) = elideProperty props key v := by
  cases props with
  | nil => rfl
  | cons prop rest =>
    obtain ⟨name, sub⟩ := prop
    rw [elideProperty, elideProperty]
    split_ifs
    · exact elide_elide sub v
    · exact elideProperty_elideProperty rest key v
termination_by structural props

theorem elideItem_elideItem (entries : List Entry) (v : Value) :
    elideItem entries (elideItem entries v) = elideItem entries v := by
  cases entries with
  | nil => rfl
  | cons e rest =>
    cases e with
    | items schema => exact elide_elide schema v
    | _ => exact elideItem_elideItem rest v
termination_by structural entries

end

/-! ## Nulls that no schema has room for -/

/-- The schema of a declared name. -/
def propertySchema : List Entry → String → Option Schema
  | [], _ => none
  | .properties props :: _, key => props.lookup key
  | _ :: rest, key => propertySchema rest key

def itemSchema : List Entry → Option Schema
  | [] => none
  | .items schema :: _ => some schema
  | _ :: rest => itemSchema rest

/-- A null under a required name, or anything under a name that is not
declared, somewhere in a document. -/
inductive Forbidden : Schema → Value → Prop where
  | required {entries : List Entry} {members : List (String × Value)} {key : String}
    (hmember : (key, .null) ∈ members) (hrequired : key ∈ required entries) :
    Forbidden (.node entries) (.obj members)
  | undeclared {entries : List Entry} {members : List (String × Value)} {key : String} {v : Value}
    (hmember : (key, v) ∈ members) (hkey : key ∉ declared entries) :
    Forbidden (.node entries) (.obj members)
  | property {entries : List Entry} {members : List (String × Value)} {key : String} {v : Value}
    {s : Schema} (hmember : (key, v) ∈ members) (hschema : propertySchema entries key = some s)
    (h : Forbidden s v) : Forbidden (.node entries) (.obj members)
  | item {entries : List Entry} {items : List Value} {v : Value} {s : Schema}
    (hitem : v ∈ items) (hschema : itemSchema entries = some s) (h : Forbidden s v) :
    Forbidden (.node entries) (.arr items)

theorem forbidden_not_null {s : Schema} {v : Value} (h : Forbidden s v) : v.isNull = false := by
  cases h <;> rfl

theorem mem_elide {entries : List Entry} {members : List (String × Value)} {key : String} {v : Value}
    (hmember : (key, v) ∈ members) (hkept : (optionalName entries key && v.isNull) = false) :
    (key, elideUnder entries key v) ∈ members.filterMap (elideMember entries) := by
  apply List.mem_filterMap.2
  refine ⟨(key, v), hmember, ?_⟩
  unfold elideMember
  rw [hkept]
  rfl

theorem elideProperty_lookup {props : List (String × Schema)} {key : String} {s : Schema}
    (h : props.lookup key = some s) (v : Value) : elideProperty props key v = elideOptionalNulls s v := by
  induction props with
  | nil => cases h
  | cons prop rest ih =>
    obtain ⟨name, sub⟩ := prop
    rw [List.lookup_cons] at h
    rw [elideProperty]
    by_cases hname : name = key
    · subst hname
      rw [beq_self_eq_true] at h
      rw [if_pos rfl, Option.some.inj h]
    · rw [beq_eq_false_iff_ne.2 (Ne.symm hname)] at h
      rw [if_neg hname]
      exact ih h

theorem elideUnder_schema {entries : List Entry} {key : String} {s : Schema}
    (h : propertySchema entries key = some s) (v : Value) :
    elideUnder entries key v = elideOptionalNulls s v := by
  induction entries with
  | nil => cases h
  | cons e rest ih =>
    cases e with
    | properties props => exact elideProperty_lookup h v
    | _ => exact ih h

theorem elideItem_schema {entries : List Entry} {s : Schema} (h : itemSchema entries = some s)
    (v : Value) : elideItem entries v = elideOptionalNulls s v := by
  induction entries with
  | nil => cases h
  | cons e rest ih =>
    cases e with
    | items schema => rw [elideItem, Option.some.inj h]
    | _ => exact ih h

/-- Elision leaves everything that is forbidden in its place. -/
theorem forbidden_elide {s : Schema} {v : Value} (h : Forbidden s v) :
    Forbidden s (elideOptionalNulls s v) := by
  induction h with
  | @required entries members key hmember hrequired =>
    have hkept : optionalName entries key = false := by
      unfold optionalName
      rw [List.contains_iff_mem.2 hrequired, Bool.not_true, Bool.and_false]
    have hmem := mem_elide hmember (by rw [hkept, Bool.false_and])
    have hnull : elideUnder entries key .null = .null := by
      apply isNull_eq
      exact elideUnder_isNull entries key .null
    rw [hnull] at hmem
    rw [elide_obj]
    exact .required hmem hrequired
  | @undeclared entries members key v hmember hkey =>
    have hkept : optionalName entries key = false := by
      unfold optionalName
      have hcontains : (declared entries).contains key = false := by simpa using hkey
      rw [hcontains, Bool.false_and]
    rw [elide_obj]
    exact .undeclared (mem_elide hmember (by rw [hkept, Bool.false_and])) hkey
  | @property entries members key v s hmember hschema hforbidden ih =>
    have hkept : (optionalName entries key && v.isNull) = false := by
      rw [forbidden_not_null hforbidden, Bool.and_false]
    have hmem := mem_elide hmember hkept
    rw [elideUnder_schema hschema] at hmem
    rw [elide_obj]
    exact .property hmem hschema ih
  | @item entries items v s hitem hschema _ ih =>
    rw [elideOptionalNulls]
    refine .item ?_ hschema ih
    rw [← elideItem_schema hschema]
    exact List.mem_map_of_mem hitem

end RagPipeline.Schemas
