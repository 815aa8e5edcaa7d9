import RagPipeline.Adversarial.Folded

/-! # Only counts

An accepted report says of its cases what its counts determine, and nothing of their texts and set
names. What it may name is the source of a passage: the check reads a field that no passage has. -/

set_option autoImplicit false

namespace RagPipeline.Locked
open Guard
open RagPipeline.JsonText (writeString writeInt writeChar)
open RagPipeline.Text (isSpace)
open RagPipeline.Words (words)

variable {F : Type}

/-! ## What the schema lets be said -/

/-- Every key and string value is tame. -/
def TameValue (v : Py F) : Prop := ∀ s ∈ strings v, Tame s.toList

theorem tame_of_all {s : String} (h : s.toList.all isNameChar = true) : Tame s.toList := ⟨s.toList, h, .inl rfl⟩

theorem tame_names (names : List String) (h : (names.all fun k => k.toList.all isNameChar) = true) {k : String}
    (hk : k ∈ names) : Tame k.toList :=
  tame_of_all (List.all_eq_true.mp h k hk)

theorem tame_dict {ms : Members F} (h : ∀ p ∈ ms, Tame p.1.toList ∧ TameValue p.2) : TameValue (.dict ms) := by
  intro s hs
  rw [strings, mem_stringsMembers] at hs
  obtain ⟨p, hp, rfl | hs⟩ := hs
  · exact (h p hp).1
  · exact (h p hp).2 s hs

theorem tame_str {s : String} (h : Tame s.toList) : TameValue (.str s : Py F) := by
  intro t ht
  rw [strings, List.mem_singleton] at ht
  rwa [ht]

theorem tame_int (n : ℤ) : TameValue (.int n : Py F) := by
  intro s hs
  cases hs

theorem tame_bool (b : Bool) : TameValue (.bool b : Py F) := by
  intro s hs
  cases hs

theorem tame_none : TameValue (.none : Py F) := by
  intro s hs
  cases hs

section
variable [Platform F]

theorem tame_flag {t : Text} (h : isFlagCode t = true) : Tame t := by
  apply anchored_tame _ h
  intro t ht
  rw [Bool.and_eq_true] at ht
  apply List.all_eq_true.mpr
  intro c hc
  have hv := List.all_eq_true.mp ht.2 c hc
  simp only [isNameChar, Char.isAlphanum, Char.isAlpha, Bool.or_eq_true] at hv ⊢
  tauto

/-- What an accepted cell of the summary is. -/
structure Cell (eligible : Bool) (expectedBasis : String) (cell : Members F) (n caught anyFlag : ℕ) : Prop where
  known : ∀ k ∈ keys cell, k ∈ cellKeys
  tame : ∀ p ∈ cell, TameValue p.2
  hasClusters : cell.lookup "clusters" = some (.int n)
  hasCaught : cell.lookup "caught" = some (.int caught)
  hasAny : cell.lookup "caught_any_flag" = some (.int anyFlag)
  hasMissed : cell.lookup "missed" = some (.int (n - caught : ℕ))
  enough : caught ≤ n
  basis : cell.lookup "recall_basis" = some (.str expectedBasis)
  floor : cell.lookup "meets_cluster_floor" = some (.bool (targetLockedClusters ≤ n))
  owed : (eligible = true ∧ targetLockedClusters ≤ n) ↔ "miss_rate_upper_95" ∈ keys cell
  bound : boundIs cell (n - caught) n = true
  exact : ∀ v, cell.lookup "miss_rate_upper_95" = some v → ∃ x, v = .float x

/-- What an accepted class of the summary is. -/
structure SummaryBody (name : String) (body cells : Members F) : Prop where
  same : SameKeys body ["population_role", "structural_recall_eligible", "policies"]
  role : body.lookup "population_role" = some (.str (populationRole name))
  flag : body.lookup "structural_recall_eligible" = some (.bool (eligible name))
  policies : body.lookup "policies" = some (.dict cells)
  frozen : SameKeys cells frozenPolicyMatrix
  cell : ∀ p ∈ cells, ∃ cell n caught anyFlag, p.2 = .dict cell ∧
    Cell (eligible name) (recallBasis name) cell n caught anyFlag

/-- What an accepted policy of a class is. -/
structure ClassPolicy (result counts flags : Members F) : Prop where
  same : SameKeys result ["counts", "flags"]
  hasCounts : result.lookup "counts" = some (.dict counts)
  hasFlags : result.lookup "flags" = some (.dict flags)
  counter : ∀ c ∈ counts, c.1 ∈ countKeys ∧ ∃ n : ℕ, c.2 = .int n
  flag : ∀ f ∈ flags, isFlagCode f.1.toList = true ∧ ∃ n : ℕ, f.2 = .int n

/-- What an accepted class of the measurement is. -/
structure ClassBody (name : String) (body policies : Members F) : Prop where
  known : ∀ k ∈ keys body, k ∈ "excluded_by_reason" :: classRequired
  mutants : ∃ n : ℕ, body.lookup "mutants" = some (.int n)
  basis : body.lookup "basis" = some (.str (basis name))
  role : body.lookup "population_role" = some (.str (populationRole name))
  flag : body.lookup "structural_recall_eligible" = some (.bool (eligible name))
  diagnostic : ∃ v, body.lookup "expected_diagnostic" = some v ∧ isOptional v (expectedDiagnostic name) = true
  hasPolicies : body.lookup "policies" = some (.dict policies)
  frozen : SameKeys policies frozenPolicyMatrix
  policy : ∀ p ∈ policies, ∃ result counts flags, p.2 = .dict result ∧ ClassPolicy result counts flags
  reasons : ∀ v, body.lookup "excluded_by_reason" = some v → TameValue v

theorem Cell.tameValue {eligible : Bool} {expectedBasis : String} {cell : Members F} {n caught anyFlag : ℕ}
    (h : Cell eligible expectedBasis cell n caught anyFlag) : TameValue (.dict cell) := by
  apply tame_dict
  intro p hp
  exact ⟨tame_names cellKeys rfl (h.known p.1 (List.mem_map_of_mem hp)), h.tame p hp⟩

theorem tame_role (name : String) : Tame (populationRole name).toList := by
  apply tame_names [candidateRole, confirmedRole] rfl
  unfold populationRole
  split <;> simp

theorem tame_basis (name : String) : Tame (basis name).toList := by
  apply tame_names ["manual_upper_bound", "deterministic_lower_bound"] rfl
  unfold basis
  split <;> simp

omit [Platform F] in
theorem tame_diagnostic {name : String} {v : Py F} (h : isOptional v (expectedDiagnostic name) = true) :
    TameValue v := by
  cases hd : expectedDiagnostic name with
  | none =>
    rw [hd] at h
    rw [isNone_iff.mp h]
    exact tame_none
  | some s =>
    rw [hd] at h
    rw [isStr_iff.mp h]
    apply tame_str
    apply tame_names ["kaynaksiz_sayi", "uydurma_alinti", "uydurma_pasaj"] rfl
    unfold expectedDiagnostic at hd
    split at hd
    · simp [← Option.some.inj hd]
    · split at hd
      · simp [← Option.some.inj hd]
      · split at hd
        · simp [← Option.some.inj hd]
        · cases hd

omit [Platform F] in
/-- The value of a member is what is looked up under its key. -/
theorem value_of {ms : Members F} (hnodup : (ms.map Prod.fst).Nodup) {p : String × Py F} (hp : p ∈ ms) {k : String}
    (hk : p.1 = k) {v : Py F} (hv : ms.lookup k = some v) : p.2 = v := by
  have h := lookup_of_mem hnodup hp
  rw [hk, hv] at h
  exact (Option.some.inj h).symm

theorem SummaryBody.tameValue {name : String} {body cells : Members F} (h : SummaryBody name body cells)
    (hproper : (Py.dict body).Proper) : TameValue (.dict body) := by
  rw [Py.Proper] at hproper
  apply tame_dict
  intro p hp
  have hkey := h.same.1 p.1 (List.mem_map_of_mem hp)
  constructor
  · exact tame_names _ rfl hkey
  · simp only [List.mem_cons, List.not_mem_nil, or_false] at hkey
    rcases hkey with hk | hk | hk
    · rw [value_of hproper.1 hp hk h.role]
      exact tame_str (tame_role name)
    · rw [value_of hproper.1 hp hk h.flag]
      exact tame_bool _
    · rw [value_of hproper.1 hp hk h.policies]
      apply tame_dict
      intro q hq
      obtain ⟨cell, n, caught, anyFlag, hcell, hfacts⟩ := h.cell q hq
      rw [hcell]
      exact ⟨tame_names _ rfl (h.frozen.1 q.1 (List.mem_map_of_mem hq)), hfacts.tameValue⟩

omit [Platform F] in
theorem ClassPolicy.tameValue {result counts flags : Members F} (h : ClassPolicy result counts flags)
    (hproper : (Py.dict result).Proper) : TameValue (.dict result) := by
  rw [Py.Proper] at hproper
  apply tame_dict
  intro p hp
  have hkey := h.same.1 p.1 (List.mem_map_of_mem hp)
  constructor
  · exact tame_names _ rfl hkey
  · simp only [List.mem_cons, List.not_mem_nil, or_false] at hkey
    rcases hkey with hk | hk
    · rw [value_of hproper.1 hp hk h.hasCounts]
      apply tame_dict
      intro c hc
      obtain ⟨hkey, n, hn⟩ := h.counter c hc
      rw [hn]
      exact ⟨tame_names _ rfl hkey, tame_int n⟩
    · rw [value_of hproper.1 hp hk h.hasFlags]
      apply tame_dict
      intro f hf
      obtain ⟨hkey, n, hn⟩ := h.flag f hf
      rw [hn]
      exact ⟨tame_flag hkey, tame_int n⟩

omit [Platform F] in
theorem ClassBody.tameValue {name : String} {body policies : Members F} (h : ClassBody name body policies)
    (hproper : (Py.dict body).Proper) : TameValue (.dict body) := by
  rw [Py.Proper] at hproper
  apply tame_dict
  intro p hp
  have hkey := h.known p.1 (List.mem_map_of_mem hp)
  constructor
  · exact tame_names _ rfl hkey
  · simp only [classRequired, List.mem_cons, List.not_mem_nil, or_false] at hkey
    rcases hkey with hk | hk | hk | hk | hk | hk | hk
    · exact h.reasons p.2 (hk ▸ lookup_of_mem hproper.1 hp)
    · obtain ⟨n, hn⟩ := h.mutants
      rw [value_of hproper.1 hp hk hn]
      exact tame_int n
    · rw [value_of hproper.1 hp hk h.basis]
      exact tame_str (tame_basis name)
    · rw [value_of hproper.1 hp hk h.role]
      exact tame_str (tame_role name)
    · rw [value_of hproper.1 hp hk h.flag]
      exact tame_bool _
    · obtain ⟨v, hv, hopt⟩ := h.diagnostic
      rw [value_of hproper.1 hp hk hv]
      exact tame_diagnostic hopt
    · have hvalue := value_of hproper.1 hp hk h.hasPolicies
      have hpolicies := properMembers_mem hproper.2 p hp
      rw [hvalue] at hpolicies ⊢
      rw [Py.Proper] at hpolicies
      apply tame_dict
      intro q hq
      obtain ⟨result, counts, flags, hresult, hfacts⟩ := h.policy q hq
      have hq' := properMembers_mem hpolicies.2 q hq
      rw [hresult] at hq' ⊢
      exact ⟨tame_names _ rfl (h.frozen.1 q.1 (List.mem_map_of_mem hq)), hfacts.tameValue hq'⟩

/-- The two sections of an accepted report. -/
structure Accepted (report summary classes : Members F) : Prop where
  hasSummary : report.lookup "gate_summary" = some (.dict summary)
  summaryKeys : SameKeys summary classOrder
  hasClasses : report.lookup "classes" = some (.dict classes)
  classKeys : SameKeys classes classOrder
  summaryBody : ∀ p ∈ summary, ∃ body cells, p.2 = .dict body ∧ SummaryBody p.1 body cells
  classBody : ∀ p ∈ classes, ∃ body policies, p.2 = .dict body ∧ ClassBody p.1 body policies
  sections : ∀ name ∈ classOrder, checkSections summary classes name = .ok ()

end

/-! ## A report that names a source -/

/-- Tables that are right about ASCII; the bound is not owed in the sample. -/
instance samplePlatform : Platform ℕ where
  inUnit _ := true
  same x y := x = y
  repr _ := []
  written _ := []
  inner _ := []
  lower t := t.map Char.toLower
  nfkd t := t
  combining _ := false
  isDigit := Char.isDigit
  upperBound misses _ := misses

def sampleSha : Py ℕ := .str "0000000000000000000000000000000000000000000000000000000000000000"

def samplePassage : Passage :=
  ⟨1, none, ['5'], ['k', 'u', 'r', 'g', 'u', '-', 'b', 'e', 'l', 'g', 'e'], none, none⟩

def sampleCase : Case := ⟨['k'], ['k', 'a', 'c', '?'], ['5'], ['5'], [samplePassage], [['5']]⟩

end RagPipeline.Locked
