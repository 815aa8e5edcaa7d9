import Mathlib.Data.List.Basic
import RagPipeline.Schemas.Shape

/-! # There and back

What a shape's authority accepts is accepted by its strict copy once filled,
and elision gives it back; and the authority refuses whatever is forbidden. -/

set_option autoImplicit false

namespace RagPipeline.Schemas
open RagPipeline.JsonSchema

theorem same_str {text : String} {v : Value} (h : (Value.str text).same v = true) : v = .str text := by
  cases v with
  | str s =>
    rw [Value.same, beq_iff_eq] at h
    rw [h]
  | _ => cases h

theorem same_self (text : String) : (Value.str text).same (.str text) = true := by
  rw [Value.same, beq_self_eq_true]

theorem any_same_words {l : List String} {v : Value}
    (h : (l.map Value.str).any (fun e => e.same v) = true) : ∃ text, text ∈ l ∧ v = .str text := by
  rw [List.any_map, List.any_eq_true] at h
  obtain ⟨text, htext, hsame⟩ := h
  exact ⟨text, htext, same_str hsame⟩

theorem words_any_same {l : List String} {text : String} (h : text ∈ l) :
    (l.map Value.str).any (fun e => e.same (.str text)) = true := by
  rw [List.any_map, List.any_eq_true]
  exact ⟨text, h, same_self text⟩

/-! ## Documents that are no composite -/

theorem fill_plain (s : Schema) {v : Value} (h : composite v = false) : fillOptional s v = v := by
  cases v with
  | arr items => cases h
  | obj members => cases h
  | _ => cases s <;> rfl

theorem elide_plain (s : Schema) {v : Value} (h : composite v = false) : elideOptionalNulls s v = v := by
  cases v with
  | arr items => cases h
  | obj members => cases h
  | _ => cases s <;> rfl

theorem kind_composite {kind : Kind} {v : Value} (h : v.isType kind.name = true) :
    composite v = false ∧ v.isNull = false := by
  cases v with
  | null => cases kind <;> cases h
  | arr items => cases kind <;> cases h
  | obj members => cases kind <;> cases h
  | _ => exact ⟨rfl, rfl⟩

theorem isType_spec {optional : Bool} {base : String} {v : Value} (h : v.isType base = true) :
    ((spec optional base).names.any fun t => v.isType t) = true := by
  cases optional with
  | false => exact (Bool.or_false _).trans h
  | true =>
    show (v.isType base || (v.isType "null" || false)) = true
    rw [h, Bool.true_or]

/-! ## Names that are filled in -/

theorem optionalName_iff {entries : List Entry} {name : String} :
    optionalName entries name = true ↔ name ∈ declared entries ∧ name ∉ required entries := by
  unfold optionalName
  rw [Bool.and_eq_true, List.contains_iff_mem]
  simp

theorem mem_absentNames {entries : List Entry} {members : List (String × Value)} {name : String} :
    name ∈ absentNames entries members ↔
      name ∈ declared entries ∧ name ∉ required entries ∧ name ∉ members.map Prod.fst := by
  have habsent : (JsonSchema.get name members).isNone = true ↔ name ∉ members.map Prod.fst := by
    rw [← get_isSome]
    cases JsonSchema.get name members <;> simp
  unfold absentNames
  rw [List.mem_filter, Bool.and_eq_true, habsent, optionalName_iff]
  constructor
  · intro h
    exact ⟨h.1, h.2.1.2, h.2.2⟩
  · intro h
    exact ⟨h.1, ⟨h.1, h.2.1⟩, h.2.2⟩

/-- The filled names are null and optional, so elision takes them away. -/
theorem elide_absent (entries : List Entry) (members : List (String × Value)) :
    ((absentNames entries members).map fun name => (name, Value.null)).filterMap (elideMember entries) = [] := by
  apply List.filterMap_eq_nil_iff.2
  intro m hm
  obtain ⟨name, hname, rfl⟩ := List.mem_map.1 hm
  obtain ⟨hdeclared, hrequired, -⟩ := mem_absentNames.1 hname
  have hoptional : optionalName entries name = true := optionalName_iff.2 ⟨hdeclared, hrequired⟩
  unfold elideMember
  show (if (optionalName entries name && true) = true then _ else _) = _
  rw [hoptional]
  rfl

theorem elide_filled {entries : List Entry} {members : List (String × Value)}
    (hnull : ∀ m ∈ members, m.2.isNull = false)
    (hback : ∀ m ∈ members, elideUnder entries m.1 (fillUnder entries m.1 m.2) = m.2)
    (hfill : ∀ m ∈ members, (fillUnder entries m.1 m.2).isNull = m.2.isNull) :
    elideOptionalNulls (.node entries) (fillOptional (.node entries) (.obj members)) = .obj members := by
  have hmembers : (members.map fun m => (m.1, fillUnder entries m.1 m.2)).filterMap (elideMember entries) =
      members := by
    rw [List.filterMap_map]
    have hsome : ∀ m ∈ members, (elideMember entries ∘ fun m => (m.1, fillUnder entries m.1 m.2)) m = some m := by
      intro m hm
      show (if (optionalName entries m.1 && (fillUnder entries m.1 m.2).isNull) = true then none
        else some (m.1, elideUnder entries m.1 (fillUnder entries m.1 m.2))) = some m
      rw [hfill m hm, hnull m hm, hback m hm, Bool.and_false]
      rfl
    rw [List.filterMap_congr hsome, List.filterMap_some]
  rw [fillOptional, elide_obj, List.filterMap_append, elide_absent, List.append_nil]
  exact congrArg Value.obj hmembers

section
variable [Keywords]

/-! ## What each shape accepts -/

theorem scalar_accepts {kind : Kind} {bounds : List Bound} {v : Value}
    (h : (Shape.scalar kind bounds).authority.accepts v = true) : v.isType kind.name = true := by
  have htype := holds_of_accepts h _ List.mem_cons_self
  exact (Bool.or_false _).symm.trans htype

theorem word_accepts {first : String} {others : List String} {v : Value}
    (h : (Shape.word first others).authority.accepts v = true) : ∃ text, text ∈ first :: others ∧ v = .str text :=
  any_same_words (holds_of_accepts h _ List.mem_cons_self)

theorem fixed_accepts {text : String} {v : Value} (h : (Shape.fixed text).authority.accepts v = true) :
    v = .str text :=
  same_str (holds_of_accepts h _ List.mem_cons_self)

theorem list_accepts {maxItems : Int} {item : Shape} {v : Value}
    (h : (Shape.list maxItems item).authority.accepts v = true) :
    ∃ items, v = .arr items ∧ ∀ w ∈ items, item.authority.accepts w = true := by
  obtain ⟨htype, hkeywords⟩ := List.forall_mem_cons.1 (holds_of_accepts h)
  obtain ⟨-, hitems⟩ := List.forall_mem_cons.1 hkeywords
  cases v with
  | arr items => exact ⟨items, rfl, List.all_eq_true.1 (hitems _ List.mem_cons_self)⟩
  | _ => cases htype

theorem record_accepts {zorunlu : List String} {fields : List (String × Shape)}
    {rules : Option (List Schema)} {v : Value}
    (h : (Shape.record zorunlu fields rules).authority.accepts v = true) :
    ∃ members, v = .obj members ∧
      (∀ m ∈ members, m.1 ∈ fields.map Prod.fst ∧ propertyAccepts (authorities fields) m.1 m.2 = true) ∧
      ∀ name ∈ zorunlu, name ∈ members.map Prod.fst := by
  obtain ⟨htype, hkeywords⟩ := List.forall_mem_cons.1 (holds_of_accepts h)
  obtain ⟨hclosed, hkeywords⟩ := List.forall_mem_cons.1 hkeywords
  obtain ⟨hrequired, hkeywords⟩ := List.forall_mem_cons.1 hkeywords
  have hproperties := hkeywords _ List.mem_cons_self
  cases v with
  | obj members =>
    refine ⟨members, rfl, ?_, ?_⟩
    · intro m hm
      have hname := List.all_eq_true.1 hclosed m hm
      have hvalue := List.all_eq_true.1 hproperties m hm
      refine ⟨?_, hvalue⟩
      rw [← authorities_names]
      obtain hname | hnone := Bool.or_eq_true _ _ ▸ hname
      · exact List.contains_iff_mem.1 hname
      · cases hnone
    · intro name hname
      exact get_isSome.1 (List.all_eq_true.1 hrequired name hname)
  | _ => cases htype

theorem strict_list_accepts {maxItems : Int} {item : Shape} (optional : Bool) {items : List Value}
    (hitems : ∀ w ∈ items, (item.strict false).accepts w = true) :
    ((Shape.list maxItems item).strict optional).accepts (.arr items) = true := by
  have htype : ((spec optional "array").names.any fun t => (Value.arr items).isType t) = true :=
    isType_spec rfl
  have hall : (items.all fun w => (item.strict false).accepts w) = true := List.all_eq_true.2 hitems
  apply accepts_of_holds rfl
  exact List.forall_mem_cons.2 ⟨htype, List.forall_mem_singleton.2 hall⟩

/-- What a strict record asks of an object. -/
theorem strict_record_accepts {zorunlu : List String} {fields : List (String × Shape)}
    {rules : Option (List Schema)} (optional : Bool) {members : List (String × Value)}
    (hmembers : ∀ m ∈ members,
      m.1 ∈ fields.map Prod.fst ∧ propertyAccepts (strictFields zorunlu fields) m.1 m.2 = true)
    (hnames : ∀ name ∈ fields.map Prod.fst, name ∈ members.map Prod.fst) :
    ((Shape.record zorunlu fields rules).strict optional).accepts (.obj members) = true := by
  have htype : ((spec optional "object").names.any fun t => (Value.obj members).isType t) = true :=
    isType_spec rfl
  have hclosed : (Entry.additionalProperties (.bool false)).holds
      ((strictFields zorunlu fields).map Prod.fst) (.obj members) = true := by
    rw [Entry.holds, List.all_eq_true]
    intro m hm
    show (((strictFields zorunlu fields).map Prod.fst).contains m.1 || false) = true
    rw [strictFields_names, List.contains_iff_mem.2 (hmembers m hm).1, Bool.true_or]
  have hrequired : (Entry.required (fields.map Prod.fst)).holds
      ((strictFields zorunlu fields).map Prod.fst) (.obj members) = true := by
    rw [Entry.holds, List.all_eq_true]
    intro name hname
    exact get_isSome.2 (hnames name hname)
  have hproperties : (Entry.properties (strictFields zorunlu fields)).holds
      ((strictFields zorunlu fields).map Prod.fst) (.obj members) = true := by
    rw [Entry.holds, List.all_eq_true]
    intro m hm
    exact (hmembers m hm).2
  apply accepts_of_holds rfl
  exact List.forall_mem_cons.2 ⟨htype, List.forall_mem_cons.2 ⟨hclosed,
    List.forall_mem_cons.2 ⟨hrequired, List.forall_mem_singleton.2 hproperties⟩⟩⟩

/-! ## Null -/

theorem authority_not_null {s : Shape} {v : Value} (h : s.authority.accepts v = true) : v.isNull = false := by
  cases s with
  | scalar kind bounds => exact (kind_composite (scalar_accepts h)).2
  | word first others =>
    obtain ⟨text, -, rfl⟩ := word_accepts h
    rfl
  | fixed text =>
    rw [fixed_accepts h]
    rfl
  | list maxItems item =>
    obtain ⟨items, rfl, -⟩ := list_accepts h
    rfl
  | record zorunlu fields rules =>
    obtain ⟨members, rfl, -⟩ := record_accepts h
    rfl

theorem strict_null (s : Shape) : (s.strict true).accepts .null = true := by
  cases s with
  | scalar kind bounds => cases kind <;> rfl
  | word first others =>
    have hnull : (words first others ++ [Value.null]).any (fun e => e.same .null) = true := by
      rw [List.any_append]
      exact Bool.or_true _
    apply accepts_of_holds rfl
    exact List.forall_mem_cons.2 ⟨hnull, List.forall_mem_singleton.2 rfl⟩
  | _ => rfl

theorem property_not_null {fields : List (String × Shape)} {key : String} {v : Value}
    (hkey : key ∈ fields.map Prod.fst) (h : propertyAccepts (authorities fields) key v = true) :
    v.isNull = false := by
  induction fields with
  | nil => cases hkey
  | cons field rest ih =>
    obtain ⟨name, s⟩ := field
    rw [authorities, propertyAccepts] at h
    split_ifs at h with hname
    · exact authority_not_null h
    · exact ih ((List.mem_cons.1 hkey).resolve_left (Ne.symm hname)) h

theorem strictFields_null {zorunlu : List String} {fields : List (String × Shape)} {key : String}
    (hkey : key ∉ zorunlu) : propertyAccepts (strictFields zorunlu fields) key .null = true := by
  induction fields with
  | nil => rfl
  | cons field rest ih =>
    obtain ⟨name, s⟩ := field
    rw [strictFields, propertyAccepts]
    split_ifs with hname
    · have hoptional : (!zorunlu.contains name) = true := by
        rw [hname]
        simpa using hkey
      rw [hoptional]
      exact strict_null s
    · exact ih

/-! ## Filled and given back -/

mutual

theorem shape_round_trip (s : Shape) (optional : Bool) {v : Value} (h : s.authority.accepts v = true) :
    (s.strict optional).accepts (fillOptional s.authority v) = true ∧
      elideOptionalNulls s.authority (fillOptional s.authority v) = v := by
  cases s with
  | scalar kind bounds =>
    have htype := scalar_accepts h
    have hplain := (kind_composite htype).1
    rw [fill_plain _ hplain, elide_plain _ hplain]
    refine ⟨?_, rfl⟩
    apply accepts_of_holds rfl
    exact List.forall_mem_singleton.2 (isType_spec htype)
  | word first others =>
    obtain ⟨text, htext, rfl⟩ := word_accepts h
    refine ⟨?_, rfl⟩
    have hword : (words first others).any (fun e => e.same (.str text)) = true := words_any_same htext
    show ((Shape.word first others).strict optional).accepts (.str text) = true
    cases optional with
    | false =>
      apply accepts_of_holds rfl
      exact List.forall_mem_cons.2 ⟨hword, List.forall_mem_singleton.2 rfl⟩
    | true =>
      have hnullable : (words first others ++ [Value.null]).any (fun e => e.same (.str text)) = true := by
        rw [List.any_append, hword, Bool.true_or]
      apply accepts_of_holds rfl
      exact List.forall_mem_cons.2 ⟨hnullable, List.forall_mem_singleton.2 rfl⟩
  | fixed text =>
    obtain rfl := fixed_accepts h
    refine ⟨?_, rfl⟩
    show ((Shape.fixed text).strict optional).accepts (.str text) = true
    cases optional with
    | false =>
      apply accepts_of_holds rfl
      exact List.forall_mem_cons.2 ⟨same_self _, List.forall_mem_singleton.2 rfl⟩
    | true =>
      have hnullable : ([Value.str text, Value.null].any fun e => e.same (.str text)) = true := by
        rw [List.any_cons, same_self, Bool.true_or]
      apply accepts_of_holds rfl
      exact List.forall_mem_cons.2 ⟨rfl, List.forall_mem_singleton.2 hnullable⟩
  | list maxItems item =>
    obtain ⟨items, rfl, hitems⟩ := list_accepts h
    have hitem : ∀ w ∈ items, (item.strict false).accepts (fillOptional item.authority w) = true ∧
        elideOptionalNulls item.authority (fillOptional item.authority w) = w := by
      intro w hw
      exact shape_round_trip item false (hitems w hw)
    constructor
    · apply strict_list_accepts
      intro filled hfilled
      obtain ⟨w, hw, rfl⟩ := List.mem_map.1 hfilled
      exact (hitem w hw).1
    · show Value.arr ((items.map (fillOptional item.authority)).map (elideOptionalNulls item.authority)) = _
      rw [List.map_map]
      have hsame : ∀ w ∈ items,
          (elideOptionalNulls item.authority ∘ fillOptional item.authority) w = w := by
        intro w hw
        exact (hitem w hw).2
      rw [List.map_congr_left hsame, List.map_id']
  | record zorunlu fields rules =>
    obtain ⟨members, rfl, hmembers, hzorunlu⟩ := record_accepts h
    have hfield : ∀ m ∈ members,
        propertyAccepts (strictFields zorunlu fields) m.1 (fillProperty (authorities fields) m.1 m.2) = true ∧
          elideProperty (authorities fields) m.1 (fillProperty (authorities fields) m.1 m.2) = m.2 := by
      intro m hm
      exact field_round_trip fields zorunlu (hmembers m hm).1 (hmembers m hm).2
    constructor
    · apply strict_record_accepts
      · intro filled hfilled
        obtain hkept | habsent := List.mem_append.1 hfilled
        · obtain ⟨m, hm, rfl⟩ := List.mem_map.1 hkept
          exact ⟨(hmembers m hm).1, (hfield m hm).1⟩
        · obtain ⟨name, hname, rfl⟩ := List.mem_map.1 habsent
          obtain ⟨hdeclared, hoptional, -⟩ := mem_absentNames.1 hname
          refine ⟨?_, strictFields_null hoptional⟩
          rw [← authorities_names]
          exact hdeclared
      · intro name hname
        rw [List.map_append, List.mem_append, List.map_map, List.map_map]
        by_cases hpresent : name ∈ members.map Prod.fst
        · exact .inl hpresent
        · refine .inr (List.mem_map.2 ⟨name, mem_absentNames.2 ⟨?_, ?_, hpresent⟩, rfl⟩)
          · show name ∈ (authorities fields).map Prod.fst
            rw [authorities_names]
            exact hname
          · intro hrequired
            exact hpresent (hzorunlu name hrequired)
    · apply elide_filled
      · intro m hm
        exact property_not_null (hmembers m hm).1 (hmembers m hm).2
      · intro m hm
        exact (hfield m hm).2
      · intro m _
        exact fillProperty_isNull (authorities fields) m.1 m.2
termination_by structural s

theorem field_round_trip (fields : List (String × Shape)) (zorunlu : List String) {key : String} {v : Value}
    (hkey : key ∈ fields.map Prod.fst) (h : propertyAccepts (authorities fields) key v = true) :
    propertyAccepts (strictFields zorunlu fields) key (fillProperty (authorities fields) key v) = true ∧
      elideProperty (authorities fields) key (fillProperty (authorities fields) key v) = v := by
  cases fields with
  | nil => cases hkey
  | cons field rest =>
    obtain ⟨name, s⟩ := field
    rw [authorities, propertyAccepts] at h
    rw [authorities, strictFields, propertyAccepts, fillProperty, elideProperty]
    split_ifs at h ⊢ with hname
    · exact shape_round_trip s _ h
    · exact field_round_trip rest zorunlu ((List.mem_cons.1 hkey).resolve_left (Ne.symm hname)) h
termination_by structural fields

end

/-! ## What is forbidden is refused -/

theorem propertyAccepts_lookup {props : List (String × Schema)} {key : String} {s : Schema}
    (h : props.lookup key = some s) (v : Value) : propertyAccepts props key v = s.accepts v := by
  induction props with
  | nil => cases h
  | cons prop rest ih =>
    obtain ⟨name, sub⟩ := prop
    rw [List.lookup_cons] at h
    rw [propertyAccepts]
    by_cases hname : name = key
    · subst hname
      rw [beq_self_eq_true] at h
      rw [if_pos rfl, Option.some.inj h]
    · rw [beq_eq_false_iff_ne.2 (Ne.symm hname)] at h
      rw [if_neg hname]
      exact ih h

omit [Keywords] in
theorem authorities_lookup {fields : List (String × Shape)} {key : String} {s : Schema}
    (h : (authorities fields).lookup key = some s) : ∃ shape : Shape, s = shape.authority := by
  induction fields with
  | nil => cases h
  | cons field rest ih =>
    obtain ⟨name, shape⟩ := field
    rw [authorities, List.lookup_cons] at h
    split at h
    · exact ⟨shape, (Option.some.inj h).symm⟩
    · exact ih h

/-- Whatever shape has objects is a record. -/
theorem object_record {s : Shape} {members : List (String × Value)}
    (h : s.authority.accepts (.obj members) = true) :
    ∃ zorunlu fields rules, s = .record zorunlu fields rules ∧ ∀ m ∈ members,
      m.1 ∈ fields.map Prod.fst ∧ propertyAccepts (authorities fields) m.1 m.2 = true := by
  cases s with
  | scalar kind bounds => cases (kind_composite (scalar_accepts h)).1
  | word first others =>
    obtain ⟨text, -, heq⟩ := word_accepts h
    cases heq
  | fixed text => cases fixed_accepts h
  | list maxItems item =>
    obtain ⟨items, heq, -⟩ := list_accepts h
    cases heq
  | record zorunlu fields rules =>
    obtain ⟨_, heq, hmembers, -⟩ := record_accepts h
    cases heq
    exact ⟨zorunlu, fields, rules, rfl, hmembers⟩

theorem array_list {s : Shape} {items : List Value} (h : s.authority.accepts (.arr items) = true) :
    ∃ maxItems item, s = .list maxItems item ∧ ∀ w ∈ items, item.authority.accepts w = true := by
  cases s with
  | scalar kind bounds => cases (kind_composite (scalar_accepts h)).1
  | word first others =>
    obtain ⟨text, -, heq⟩ := word_accepts h
    cases heq
  | fixed text => cases fixed_accepts h
  | list maxItems item =>
    obtain ⟨_, heq, hitems⟩ := list_accepts h
    cases heq
    exact ⟨maxItems, item, rfl, hitems⟩
  | record zorunlu fields rules =>
    obtain ⟨members, heq, -⟩ := record_accepts h
    cases heq

theorem forbidden_refused {schema : Schema} {v : Value} (h : Forbidden schema v) :
    ∀ s : Shape, schema = s.authority → ¬ s.authority.accepts v = true := by
  induction h with
  | @required entries members key hmember hrequired =>
    intro s hs haccepts
    obtain ⟨zorunlu, fields, rules, rfl, hmembers⟩ := object_record haccepts
    cases property_not_null (hmembers _ hmember).1 (hmembers _ hmember).2
  | @undeclared entries members key v hmember hkey =>
    intro s hs haccepts
    obtain ⟨zorunlu, fields, rules, rfl, hmembers⟩ := object_record haccepts
    cases hs
    apply hkey
    show key ∈ (authorities fields).map Prod.fst
    rw [authorities_names]
    exact (hmembers _ hmember).1
  | @property entries members key v schema hmember hschema _ ih =>
    intro s hs haccepts
    obtain ⟨zorunlu, fields, rules, rfl, hmembers⟩ := object_record haccepts
    cases hs
    have hlookup : (authorities fields).lookup key = some schema := hschema
    obtain ⟨shape, rfl⟩ := authorities_lookup hlookup
    apply ih shape rfl
    rw [← propertyAccepts_lookup hlookup]
    exact (hmembers _ hmember).2
  | @item entries items v schema hitem hschema _ ih =>
    intro s hs haccepts
    obtain ⟨maxItems, item, rfl, hitems⟩ := array_list haccepts
    cases hs
    cases hschema
    exact ih item rfl (hitems v hitem)

end

end RagPipeline.Schemas
