import RagPipeline.Schemas.Strict

/-! # The copy asks less

What the authority accepts the transport copy accepts, unless an anyOf has lost
some of its branches: an empty branch of an anyOf accepts everything, and
removing it leaves the others to be met. -/

set_option autoImplicit false

namespace RagPipeline.Schemas
open RagPipeline.JsonSchema

variable {p : Policy}

/-! ## What is left of a list of branches -/

theorem transportEntries_cons {e : Entry} {rest reduced : List Entry}
    (h : transportEntries p (e :: rest) = .ok reduced) :
    p.drops e = true ∧ transportEntries p rest = .ok reduced ∨
      p.drops e = false ∧ ∃ kept others, transportEntry p e = .ok kept ∧
        transportEntries p rest = .ok others ∧ reduced = kept.toList ++ others := by
  rw [transportEntries] at h
  split_ifs at h with hdrops hsupported
  · exact .inl ⟨hdrops, h⟩
  · refine .inr ⟨by simpa using hdrops, ?_⟩
    split at h
    · cases h
    · rename_i kept hkept
      split at h
      · cases h
      · rename_i others hothers
        cases h
        exact ⟨kept, others, hkept, hothers, rfl⟩

theorem transportBranches_cons {s : Schema} {rest reduced : List Schema}
    (h : transportBranches p (s :: rest) = .ok reduced) :
    ∃ r others, transportNode p s = .ok r ∧ transportBranches p rest = .ok others ∧
      reduced = r :: others := by
  rw [transportBranches] at h
  split at h
  · cases h
  · rename_i r hr
    split at h
    · cases h
    · rename_i others hothers
      cases h
      exact ⟨r, others, hr, hothers, rfl⟩

theorem transportProperties_cons {name : String} {sub : Schema} {rest reduced : List (String × Schema)}
    (h : transportProperties p ((name, sub) :: rest) = .ok reduced) :
    ∃ r others, transportNode p sub = .ok r ∧ transportProperties p rest = .ok others ∧
      reduced = (name, r) :: others := by
  rw [transportProperties] at h
  split at h
  · cases h
  · rename_i r hr
    split at h
    · cases h
    · rename_i others hothers
      cases h
      exact ⟨r, others, hr, hothers, rfl⟩

theorem transportNode_node {entries : List Entry} {r : Schema}
    (h : transportNode p (.node entries) = .ok r) :
    ∃ reduced, transportEntries p entries = .ok reduced ∧ r = .node reduced := by
  rw [transportNode] at h
  split at h
  · rename_i reduced hreduced
    cases h
    exact ⟨reduced, hreduced, rfl⟩
  · cases h

theorem keepBranches_eq_none {make : List Schema → Entry} {branches : List Schema} :
    keepBranches make branches = none ↔ branches.filter truthy = [] := by
  unfold keepBranches
  split_ifs with h
  · exact ⟨fun _ => List.isEmpty_iff.1 h, fun _ => rfl⟩
  · exact ⟨fun hnone => (nomatch hnone), fun hnil => absurd (List.isEmpty_iff.2 hnil) h⟩

theorem keepBranches_eq_some {make : List Schema → Entry} {branches : List Schema} {e : Entry}
    (h : some e = keepBranches make branches) :
    branches.filter truthy ≠ [] ∧ e = make (branches.filter truthy) := by
  unfold keepBranches at h
  split_ifs at h with hempty
  exact ⟨fun hnil => hempty (List.isEmpty_iff.2 hnil), Option.some.inj h⟩

theorem transportEntry_properties {props : List (String × Schema)} {kept : Option Entry}
    (h : transportEntry p (.properties props) = .ok kept) :
    ∃ reduced, transportProperties p props = .ok reduced ∧ kept = some (.properties reduced) := by
  rw [transportEntry] at h
  split at h
  · rename_i reduced hreduced
    cases h
    exact ⟨reduced, hreduced, rfl⟩
  · cases h

theorem transportEntry_items {s : Schema} {kept : Option Entry}
    (h : transportEntry p (.items s) = .ok kept) :
    ∃ r, transportNode p s = .ok r ∧ kept = some (.items r) := by
  rw [transportEntry] at h
  split at h
  · rename_i r hr
    cases h
    exact ⟨r, hr, rfl⟩
  · cases h

theorem transportEntry_allOf {branches : List Schema} {kept : Option Entry}
    (h : transportEntry p (.allOf branches) = .ok kept) :
    ∃ reduced, transportBranches p branches = .ok reduced ∧ kept = keepBranches .allOf reduced := by
  rw [transportEntry] at h
  split at h
  · rename_i reduced hreduced
    cases h
    exact ⟨reduced, hreduced, rfl⟩
  · cases h

theorem transportEntry_anyOf {branches : List Schema} {kept : Option Entry}
    (h : transportEntry p (.anyOf branches) = .ok kept) :
    ∃ reduced, transportBranches p branches = .ok reduced ∧ kept = keepBranches .anyOf reduced := by
  rw [transportEntry] at h
  split at h
  · rename_i reduced hreduced
    cases h
    exact ⟨reduced, hreduced, rfl⟩
  · cases h

/-- Keywords that are taken over as they are. -/
def leaf : Entry → Bool
  | .properties _ => false
  | .items _ => false
  | .allOf _ => false
  | .anyOf _ => false
  | _ => true

theorem transportEntry_leaf {e : Entry} {kept : Option Entry} (he : leaf e = true)
    (h : transportEntry p e = .ok kept) : kept = some e := by
  cases e with
  | properties props => cases he
  | items s => cases he
  | allOf branches => cases he
  | anyOf branches => cases he
  | additionalProperties s =>
    cases s with
    | node entries => cases h
    | bool b =>
      cases b with
      | true => cases h
      | false =>
        cases h
        rfl
  | enum members =>
    rw [transportEntry] at h
    split_ifs at h
    cases h
    rfl
  | type spec =>
    cases h
    rfl
  | required names =>
    cases h
    rfl
  | const v =>
    cases h
    rfl
  | conditional which s =>
    cases h
    rfl
  | other key v =>
    cases h
    rfl

/-! ## What vanishes -/

mutual

theorem truthy_node {s r : Schema} (h : transportNode p s = .ok r) : truthy r = !vanishes p s := by
  cases s with
  | bool b => cases h
  | node entries =>
    obtain ⟨reduced, hreduced, rfl⟩ := transportNode_node h
    have hnil : reduced = [] ↔ entriesVanish p entries = true := entries_nil hreduced
    rw [vanishes]
    cases reduced with
    | nil => rw [hnil.1 rfl]; rfl
    | cons e reduced =>
      have hfalse : entriesVanish p entries = false := by
        cases hv : entriesVanish p entries with
        | false => rfl
        | true => cases hnil.2 hv
      rw [hfalse]
      rfl

theorem entries_nil {es reduced : List Entry} (h : transportEntries p es = .ok reduced) :
    reduced = [] ↔ entriesVanish p es = true := by
  cases es with
  | nil =>
    cases h
    exact ⟨fun _ => rfl, fun _ => rfl⟩
  | cons e rest =>
    rw [entriesVanish]
    obtain ⟨hdrops, hrest⟩ | ⟨hdrops, kept, others, hkept, hothers, rfl⟩ := transportEntries_cons h
    · rw [hdrops, Bool.true_or, Bool.true_and]
      exact entries_nil hrest
    · rw [hdrops, Bool.false_or, Bool.and_eq_true, List.append_eq_nil_iff, entries_nil hothers,
        ← entry_none hkept]
      cases kept <;> simp

theorem entry_none {e : Entry} {kept : Option Entry} (h : transportEntry p e = .ok kept) :
    kept = none ↔ entryVanishes p e = true := by
  have hleaf : leaf e = true → entryVanishes p e = false → (kept = none ↔ entryVanishes p e = true) := by
    intro he hv
    rw [transportEntry_leaf he h, hv]
    exact ⟨fun hnone => (nomatch hnone), fun htrue => nomatch htrue⟩
  cases e with
  | properties props =>
    obtain ⟨reduced, -, rfl⟩ := transportEntry_properties h
    exact ⟨fun hnone => (nomatch hnone), fun htrue => nomatch htrue⟩
  | items s =>
    obtain ⟨r, -, rfl⟩ := transportEntry_items h
    exact ⟨fun hnone => (nomatch hnone), fun htrue => nomatch htrue⟩
  | allOf branches =>
    obtain ⟨reduced, hreduced, rfl⟩ := transportEntry_allOf h
    rw [keepBranches_eq_none, entryVanishes]
    exact branches_nil hreduced
  | anyOf branches =>
    obtain ⟨reduced, hreduced, rfl⟩ := transportEntry_anyOf h
    rw [keepBranches_eq_none, entryVanishes]
    exact branches_nil hreduced
  | _ => exact hleaf rfl rfl

theorem branches_nil {bs reduced : List Schema} (h : transportBranches p bs = .ok reduced) :
    reduced.filter truthy = [] ↔ allVanish p bs = true := by
  cases bs with
  | nil =>
    cases h
    exact ⟨fun _ => rfl, fun _ => rfl⟩
  | cons s rest =>
    obtain ⟨r, others, hr, hothers, rfl⟩ := transportBranches_cons h
    rw [allVanish, Bool.and_eq_true, List.filter_cons, truthy_node hr, ← branches_nil hothers]
    cases vanishes p s <;> simp

end

/-! ## What the copy says of names and conditions -/

theorem transportProperties_names {props reduced : List (String × Schema)}
    (h : transportProperties p props = .ok reduced) : reduced.map Prod.fst = props.map Prod.fst := by
  induction props generalizing reduced with
  | nil =>
    cases h
    rfl
  | cons prop rest ih =>
    obtain ⟨r, others, -, hothers, rfl⟩ := transportProperties_cons h
    rw [List.map_cons, List.map_cons, ih hothers]

def declares : Entry → Bool
  | .properties _ => true
  | _ => false

def conditions : Entry → Bool
  | .conditional _ _ => true
  | _ => false

/-- What a keyword becomes is no other keyword. -/
theorem transportEntry_same {e e' : Entry} (h : transportEntry p e = .ok (some e')) :
    declares e' = declares e ∧ conditions e' = conditions e := by
  cases e with
  | properties props =>
    obtain ⟨reduced, -, heq⟩ := transportEntry_properties h
    rw [Option.some.inj heq]
    exact ⟨rfl, rfl⟩
  | items s =>
    obtain ⟨r, -, heq⟩ := transportEntry_items h
    rw [Option.some.inj heq]
    exact ⟨rfl, rfl⟩
  | allOf branches =>
    obtain ⟨reduced, -, heq⟩ := transportEntry_allOf h
    rw [(keepBranches_eq_some heq).2]
    exact ⟨rfl, rfl⟩
  | anyOf branches =>
    obtain ⟨reduced, -, heq⟩ := transportEntry_anyOf h
    rw [(keepBranches_eq_some heq).2]
    exact ⟨rfl, rfl⟩
  | _ =>
    rw [Option.some.inj (transportEntry_leaf rfl h)]
    exact ⟨rfl, rfl⟩

theorem declared_cons {e : Entry} (he : declares e = false) (rest : List Entry) :
    declared (e :: rest) = declared rest := by
  cases e with
  | properties props => cases he
  | _ => rfl

theorem declared_transport (hp : p.Sensible) {es reduced : List Entry}
    (h : transportEntries p es = .ok reduced) : declared reduced = declared es := by
  induction es generalizing reduced with
  | nil =>
    cases h
    rfl
  | cons e rest ih =>
    obtain ⟨hdrops, hrest⟩ | ⟨hdrops, kept, others, hkept, hothers, rfl⟩ := transportEntries_cons h
    · have he : declares e = false := by
        cases e with
        | properties props =>
          rw [hp.properties] at hdrops
          cases hdrops
        | _ => rfl
      rw [declared_cons he, ih hrest]
    · by_cases he : declares e = true
      · cases e with
        | properties props =>
          obtain ⟨names, hnames, rfl⟩ := transportEntry_properties hkept
          exact transportProperties_names hnames
        | _ => cases he
      · have hfalse : declares e = false := by simpa using he
        rw [declared_cons hfalse, ← ih hothers]
        cases kept with
        | none => rfl
        | some e' => exact declared_cons ((transportEntry_same hkept).1.trans hfalse) others

section
variable [Keywords]

theorem branch_cons {e : Entry} (he : conditions e = false) (which : Condition) (rest : List Entry)
    (v : Value) : branch which (e :: rest) v = branch which rest v := by
  cases e with
  | conditional w s => cases he
  | _ => rfl

/-- The copy has no conditions. -/
theorem branch_transport (hp : p.Sensible) {es reduced : List Entry}
    (h : transportEntries p es = .ok reduced) (which : Condition) (v : Value) :
    branch which reduced v = none := by
  induction es generalizing reduced with
  | nil =>
    cases h
    rfl
  | cons e rest ih =>
    obtain ⟨hdrops, hrest⟩ | ⟨hdrops, kept, others, hkept, hothers, rfl⟩ := transportEntries_cons h
    · exact ih hrest
    · have he : conditions e = false := by
        cases e with
        | conditional w s =>
          rw [hp.conditional] at hdrops
          cases hdrops
        | _ => rfl
      cases kept with
      | none => exact ih hothers
      | some e' =>
        have he' : conditions e' = false := (transportEntry_same hkept).2.trans he
        exact (branch_cons he' which others v).trans (ih hothers)

/-! ## The copy accepts what the authority accepts -/

theorem acceptAll_filter {bs : List Schema} {v : Value} (h : acceptAll bs v = true) :
    acceptAll (bs.filter truthy) v = true := by
  induction bs with
  | nil => rfl
  | cons s rest ih =>
    rw [acceptAll, Bool.and_eq_true] at h
    rw [List.filter_cons]
    split_ifs
    · rw [acceptAll, h.1, ih h.2]
      rfl
    · exact ih h.2

omit [Keywords] in
/-- Where no branch vanishes, none is lost. -/
theorem filter_none {bs reduced : List Schema} (h : transportBranches p bs = .ok reduced)
    (hnone : noneVanishes p bs = true) : reduced.filter truthy = reduced := by
  induction bs generalizing reduced with
  | nil =>
    cases h
    rfl
  | cons s rest ih =>
    obtain ⟨r, others, hr, hothers, rfl⟩ := transportBranches_cons h
    rw [noneVanishes, List.all_cons, Bool.and_eq_true] at hnone
    rw [List.filter_cons, truthy_node hr, if_pos hnone.1, ih hothers hnone.2]

mutual

theorem node_weaker (hp : p.Sensible) (s : Schema) {r : Schema} {v : Value} (h : transportNode p s = .ok r)
    (heven : even p s = true) (hv : s.accepts v = true) : r.accepts v = true := by
  cases s with
  | bool b => cases h
  | node es =>
    obtain ⟨reduced, hreduced, rfl⟩ := transportNode_node h
    rw [Schema.accepts, Bool.and_eq_true] at hv
    have hall : holdAll (declared es) reduced v = true := entries_weaker hp _ hreduced heven hv.1
    rw [Schema.accepts, declared_transport hp hreduced, branch_transport hp hreduced, hall]
    rfl
termination_by structural s

theorem entries_weaker (hp : p.Sensible) {names : List String} (es : List Entry) {reduced : List Entry} {v : Value}
    (h : transportEntries p es = .ok reduced) (heven : entriesEven p es = true)
    (hv : holdAll names es v = true) : holdAll names reduced v = true := by
  cases es with
  | nil =>
    cases h
    rfl
  | cons e rest =>
    rw [holdAll, Bool.and_eq_true] at hv
    rw [entriesEven, Bool.and_eq_true] at heven
    obtain ⟨hdrops, hrest⟩ | ⟨hdrops, kept, others, hkept, hothers, rfl⟩ := transportEntries_cons h
    · exact entries_weaker hp _ hrest heven.2 hv.2
    · have hrest : holdAll names others v = true := entries_weaker hp _ hothers heven.2 hv.2
      have he : entryEven p e = true := by simpa [hdrops] using heven.1
      cases kept with
      | none => exact hrest
      | some e' =>
        have hholds : e'.holds names v = true := entry_weaker hp _ hkept he hv.1
        show holdAll names (e' :: others) v = true
        rw [holdAll, hholds, hrest]
        rfl
termination_by structural es

theorem entry_weaker (hp : p.Sensible) {names : List String} (e : Entry) {e' : Entry} {v : Value}
    (h : transportEntry p e = .ok (some e')) (heven : entryEven p e = true)
    (hv : e.holds names v = true) : e'.holds names v = true := by
  cases e with
  | properties props =>
    obtain ⟨reduced, hreduced, heq⟩ := transportEntry_properties h
    cases heq
    cases v with
    | obj members =>
      rw [Entry.holds, List.all_eq_true] at hv ⊢
      intro m hm
      exact properties_weaker hp _ hreduced heven (hv m hm)
    | _ => rfl
  | items s =>
    obtain ⟨r, hr, heq⟩ := transportEntry_items h
    cases heq
    cases v with
    | arr items =>
      rw [Entry.holds, List.all_eq_true] at hv ⊢
      intro item hitem
      exact node_weaker hp _ hr heven (hv item hitem)
    | _ => rfl
  | allOf branches =>
    obtain ⟨reduced, hreduced, heq⟩ := transportEntry_allOf h
    rw [(keepBranches_eq_some heq).2, Entry.holds]
    apply acceptAll_filter
    exact all_weaker hp _ hreduced heven hv
  | anyOf branches =>
    obtain ⟨reduced, hreduced, heq⟩ := transportEntry_anyOf h
    obtain ⟨hkept, rfl⟩ := keepBranches_eq_some heq
    rw [entryEven, Bool.and_eq_true, Bool.or_eq_true] at heven
    have hnone : noneVanishes p branches = true := by
      apply heven.1.resolve_left
      intro hall
      exact hkept ((branches_nil hreduced).2 hall)
    rw [Entry.holds, filter_none hreduced hnone]
    exact any_weaker hp _ hreduced heven.2 hv
  | _ =>
    rw [Option.some.inj (transportEntry_leaf rfl h)]
    exact hv
termination_by structural e

theorem properties_weaker (hp : p.Sensible) (props : List (String × Schema)) {reduced : List (String × Schema)} {key : String}
    {v : Value} (h : transportProperties p props = .ok reduced) (heven : propertiesEven p props = true)
    (hv : propertyAccepts props key v = true) : propertyAccepts reduced key v = true := by
  cases props with
  | nil =>
    cases h
    rfl
  | cons prop rest =>
    obtain ⟨name, sub⟩ := prop
    obtain ⟨r, others, hr, hothers, rfl⟩ := transportProperties_cons h
    rw [propertiesEven, Bool.and_eq_true] at heven
    rw [propertyAccepts] at hv ⊢
    split_ifs at hv ⊢
    · exact node_weaker hp _ hr heven.1 hv
    · exact properties_weaker hp _ hothers heven.2 hv
termination_by structural props

theorem all_weaker (hp : p.Sensible) (bs : List Schema) {reduced : List Schema} {v : Value}
    (h : transportBranches p bs = .ok reduced) (heven : branchesEven p bs = true)
    (hv : acceptAll bs v = true) : acceptAll reduced v = true := by
  cases bs with
  | nil =>
    cases h
    rfl
  | cons s rest =>
    obtain ⟨r, others, hr, hothers, rfl⟩ := transportBranches_cons h
    rw [branchesEven, Bool.and_eq_true] at heven
    rw [acceptAll, Bool.and_eq_true] at hv ⊢
    exact ⟨node_weaker hp _ hr heven.1 hv.1, all_weaker hp _ hothers heven.2 hv.2⟩
termination_by structural bs

theorem any_weaker (hp : p.Sensible) (bs : List Schema) {reduced : List Schema} {v : Value}
    (h : transportBranches p bs = .ok reduced) (heven : branchesEven p bs = true)
    (hv : acceptAny bs v = true) : acceptAny reduced v = true := by
  cases bs with
  | nil => cases hv
  | cons s rest =>
    obtain ⟨r, others, hr, hothers, rfl⟩ := transportBranches_cons h
    rw [branchesEven, Bool.and_eq_true] at heven
    rw [acceptAny, Bool.or_eq_true] at hv ⊢
    obtain hv | hv := hv
    · exact .inl (node_weaker hp _ hr heven.1 hv)
    · exact .inr (any_weaker hp _ hothers heven.2 hv)
termination_by structural bs

end

/-- A copy that is made without refusing accepts what the authority accepts,
where no anyOf on the way loses some of its branches and keeps others. -/
theorem copy_weaker (policy : Policy) (hpolicy : policy = claude ∨ policy = codex)
    (schema reduced : Schema) (hcopy : transportNode policy schema = .ok reduced)
    (heven : even policy schema = true) (document : Value)
    (haccepts : schema.accepts document = true) : reduced.accepts document = true := by
  have hp : policy.Sensible := by
    obtain rfl | rfl := hpolicy
    · exact claude_sensible
    · exact codex_sensible
  exact node_weaker hp schema hcopy heven haccepts

end

/-! ## A branch that is lost -/

/-- The keyword minLength, and nothing else. -/
@[reducible] def lengths : Keywords where
  holds
    | "minLength", .int n, .str s => n ≤ s.length
    | _, _, _ => true

def twoLetters : Schema := .node [.other "minLength" (.int 2)]

def integers : Schema := .node [.type (.one "integer")]

/-- An integer, with a choice of which both branches are dropped. -/
def bounded : Schema := .node [.type (.one "integer"), .anyOf [twoLetters, twoLetters]]

theorem bounded_copy_weaker :
    @Schema.accepts lengths bounded (.int 3) = true ∧ @Schema.accepts lengths integers (.int 3) = true := by
  have haccepts : @Schema.accepts lengths bounded (.int 3) = true := by decide
  constructor
  · exact haccepts
  · apply @copy_weaker lengths claude (.inl rfl) bounded integers
    · rfl
    · decide
    · exact haccepts

/-- Two letters or an integer: the copy asks for an integer. -/
theorem lost_branch_copy_stronger :
    claudeTransportSchema (.node [.anyOf [twoLetters, integers]]) = .ok (.node [.anyOf [integers]]) ∧
      @Schema.accepts lengths (.node [.anyOf [twoLetters, integers]]) (.str "abc") = true ∧
      @Schema.accepts lengths (.node [.anyOf [integers]]) (.str "abc") = false := by
  refine ⟨rfl, ?_, ?_⟩
  · decide
  · decide

end RagPipeline.Schemas
