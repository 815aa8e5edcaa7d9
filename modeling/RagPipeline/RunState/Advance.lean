import RagPipeline.Lib.Document
import RagPipeline.Finalization.Gates

/-! # The state document

`STATE_SCHEMA`, the relations it cannot express, and what a document that passes
both says about the run. -/

set_option autoImplicit false

namespace RagPipeline.RunState
open Document Guard Runner
open Finalization (hexDigits stateWord)

def stopReasonWord : StopReason → String
  | .completed => "completed"
  | .preflightFailed => "preflight_failed"
  | .modelProcessFailed => "model_process_failed"
  | .dirtyWorktree => "dirty_worktree"
  | .stagedChanges => "staged_changes"
  | .baselineMismatch => "baseline_mismatch"
  | .pathNotAllowed => "path_not_allowed"
  | .evaluatorModifiedWorkspace => "evaluator_modified_workspace"
  | .schemaViolation => "schema_violation"
  | .repeatedMechanismFailure => "repeated_mechanism_failure"
  | .repairRoundsExhausted => "repair_rounds_exhausted"
  | .outOfScopeFinding => "out_of_scope_finding"
  | .budgetExhausted => "budget_exhausted"
  | .wallClockExceeded => "wall_clock_exceeded"
  | .timeout => "timeout"
  | .userApprovalRequired => "user_approval_required"
  | .leakScanHardFinding => "leak_scan_hard_finding"
  | .acceptanceFailed => "acceptance_failed"
  | .lockHeld => "lock_held"
  | .interrupted => "interrupted"
  | .controlPlaneModified => "control_plane_modified"

def allStates : List State :=
  [.preflight, .implementing, .acceptance, .auditing, .repairing, .acceptance2, .finalAuditing,
    .approved, .blocked, .failed]

def allStopReasons : List StopReason :=
  [.completed, .preflightFailed, .modelProcessFailed, .dirtyWorktree, .stagedChanges,
    .baselineMismatch, .pathNotAllowed, .evaluatorModifiedWorkspace, .schemaViolation,
    .repeatedMechanismFailure, .repairRoundsExhausted, .outOfScopeFinding, .budgetExhausted,
    .wallClockExceeded, .timeout, .userApprovalRequired, .leakScanHardFinding, .acceptanceFailed,
    .lockHeld, .interrupted, .controlPlaneModified]

def protocolVersion : String := "1.0"

/-- `DEFAULTS`, the three that bound a counter of rounds. -/
def maximumRounds : List (String × ℕ) := [("implementation", 1), ("repair", 1), ("evaluator", 2)]

/-! ## Patterns -/

/-- One character of the first kind, then some of the second. -/
def word (first rest : Char → Bool) (least most : ℕ) : List Char → Bool
  | [] => false
  | c :: cs => first c && cs.all rest && decide (least ≤ cs.length) && decide (cs.length ≤ most)

/-- A dollar sign also stands before a line end that is the last character. -/
def anchored (pattern : List Char → Bool) (s : List Char) : Bool :=
  pattern s || (s.getLast? == some '\n' && pattern s.dropLast)

def lowerOrDigit (c : Char) : Bool := c.isLower || c.isDigit

/-- `IDENTIFIER_PATTERN`. -/
def identifier : Value → Bool :=
  text (anchored (word lowerOrDigit (fun c => lowerOrDigit c || c == '_' || c == '-') 2 63))

def commit : Value → Bool :=
  text (anchored fun s => s.length == 40 && s.all fun c => hexDigits.contains c)

def modelName : Value → Bool :=
  text fun s => decide (s.length ≤ 60) &&
    anchored (word lowerOrDigit
      (fun c => lowerOrDigit c || c == '.' || c == '_' || c == '-') 1 59) s

def stamp : Value → Bool := text fun s => decide (s.length ≤ 40)

/-! ## The schema -/

def requestedModels : Value → Bool :=
  nested fun members => decide (1 ≤ members.length) &&
    object [] [("implementer", modelName), ("evaluator", modelName)] members

def rounds : Value → Bool :=
  nested (object ["implementation", "repair", "evaluator"]
    (maximumRounds.map fun m => (m.1, integer 0 m.2)))

def budget : Value → Bool :=
  nested (object ["max_usd", "spent_usd"] [("max_usd", number 0), ("spent_usd", number 0)])

def stateProperties : List (String × (Value → Bool)) :=
  [("protocol_version", oneOf [protocolVersion]),
    ("run_id", identifier),
    ("state", oneOf (allStates.map stateWord)),
    ("started_at", stamp),
    ("updated_at", stamp),
    ("heartbeat_at", stamp),
    ("baseline_sha", commit),
    ("requested_models", requestedModels),
    ("rounds", rounds),
    ("budget", budget),
    ("mechanisms_seen", array 100 (array 50 identifier)),
    ("stop_reason", oneOf (allStopReasons.map stopReasonWord))]

def stateRequired : List String :=
  ["protocol_version", "run_id", "state", "started_at", "updated_at", "rounds", "budget"]

/-- The state is one of these. -/
def inStates (states : List State) (d : Fields) : Bool :=
  match d.lookup "state" with
  | some v => oneOf (states.map stateWord) v
  | none => false

def hasReason (d : Fields) : Bool := (d.lookup "stop_reason").isSome

/-- The three conditions under `allOf`. -/
def ends (d : Fields) : Bool :=
  (!inStates [.approved] d ||
      hasReason d && ((d.lookup "stop_reason").all fun v => oneOf [stopReasonWord .completed] v)) &&
    (!inStates [.blocked, .failed] d || hasReason d) &&
    (!inStates (allStates.filter fun s => !terminalStates.contains s) d || !hasReason d)

def stateSchema (d : Fields) : Bool :=
  object stateRequired stateProperties (Fields.members d) && ends d

/-! ## What the schema cannot express -/

def Value.entry (v : Value) (name : String) : Option Value :=
  match v with
  | .dict members => get name members
  | _ => none

def amount (d : Fields) (table name : String) : Option Rat := do
  let v ← d.lookup table
  let entry ← Value.entry v name
  entry.number

/-- `BUDGET_INVARIANT`. -/
def withinBudget (d : Fields) : Bool :=
  match amount d "budget" "spent_usd", amount d "budget" "max_usd" with
  | some spent, some ceiling => decide (spent ≤ ceiling)
  | _, _ => true

inductive Refusal where
  | absent
  | unreadable
  | schema (place : String)
  | notFinite
  | budget
  | unknownState
  | leavesTerminal (current : State) (target : String)
  | notAllowed (current : State) (target : String)
  | immutable (field : String)
deriving DecidableEq

def Refusal.message : Refusal → String
  | .absent => "durum yok"
  | .unreadable => "durum okunamadi ya da bozuk"
  | .schema place => "durum sema disi (alan: " ++ place ++ ")"
  | .notFinite => "durum sonlu olmayan sayi tasiyor"
  | .budget => "durum: butce degismezi ihlal edildi (spent_usd <= max_usd)"
  | .unknownState => "bilinmeyen durum"
  | .leavesTerminal current target =>
    "terminal durumdan cikis yok: " ++ stateWord current ++ " -> " ++ target
  | .notAllowed current target => "izinsiz gecis: " ++ stateWord current ++ " -> " ++ target
  | .immutable field => "degismez alan gecis sirasinda degistirilemez: " ++ field

def assertFinite (d : Fields) : Except Refusal Unit :=
  require (finiteMembers (Fields.members d) = true) .notFinite

/-- `_validate`. Which place the validator names is its own affair. -/
def validate (place : Fields → String) (d : Fields) : Except Refusal Unit := do
  require (stateSchema d = true) (.schema (place d))
  assertFinite d

/-- `_assert_state_invariants`. -/
def assertStateInvariants (d : Fields) : Except Refusal Unit := do
  assertFinite d
  require (withinBudget d = true) .budget

/-! ## What a document that passes says -/

/-- The document passes everything that is asked on the way in and on the way out. -/
def Accepted (d : Fields) : Prop :=
  stateSchema d = true ∧ finiteMembers (Fields.members d) = true ∧ withinBudget d = true

structure Sound (d : Fields) (s : State) : Prop where
  state : d.lookup "state" = some (.str (stateWord s))
  /-- A terminal state has one reason. -/
  reason : s ∈ terminalStates → ∃! r : StopReason, d.lookup "stop_reason" = some (.str (stopReasonWord r))
  completed : s = .approved → d.lookup "stop_reason" = some (.str (stopReasonWord .completed))
  running : s ∉ terminalStates → d.lookup "stop_reason" = none
  rounds : ∀ m ∈ maximumRounds, ∃ q, amount d "rounds" m.1 = some q ∧ 0 ≤ q ∧ q ≤ (m.2 : Rat)
  budget : ∃ spent ceiling, amount d "budget" "spent_usd" = some spent ∧
    amount d "budget" "max_usd" = some ceiling ∧ spent ≤ ceiling

theorem mem_allStates (s : State) : s ∈ allStates := by cases s <;> decide

theorem stateWord_inj {s t : State} (h : stateWord s = stateWord t) : s = t := by
  cases s <;> cases t <;> first | rfl | exact absurd h (by decide)

theorem stopReasonWord_inj {r t : StopReason} (h : stopReasonWord r = stopReasonWord t) : r = t := by
  cases r <;> cases t <;> first | rfl | exact absurd h (by decide)

theorem inStates_iff {d : Fields} {s : State} {states : List State}
    (hstate : d.lookup "state" = some (.str (stateWord s))) :
    inStates states d = true ↔ s ∈ states := by
  rw [inStates, hstate]
  show oneOf (states.map stateWord) (.str (stateWord s)) = true ↔ _
  rw [oneOf_iff]
  constructor
  · intro ⟨w, hw, heq⟩
    obtain ⟨t, ht, rfl⟩ := List.mem_map.1 hw
    rw [stateWord_inj (Value.str.inj heq)]
    exact ht
  · intro hs
    exact ⟨stateWord s, List.mem_map_of_mem hs, rfl⟩

section
variable {d : Fields}

theorem accepted_property {name : String} {check : Value → Bool} {v : Value} (h : stateSchema d = true)
    (hcheck : get name stateProperties = some check) (hv : d.lookup name = some v) :
    check v = true := by
  rw [stateSchema, Bool.and_eq_true] at h
  exact object_get h.1 hcheck (by rw [get_members]; exact hv)

theorem accepted_required {name : String} (h : stateSchema d = true) (hname : name ∈ stateRequired) :
    ∃ v, d.lookup name = some v := by
  rw [stateSchema, Bool.and_eq_true] at h
  obtain ⟨v, hv⟩ := object_required h.1 hname
  rw [get_members] at hv
  exact ⟨v, hv⟩

theorem accepted_state (h : stateSchema d = true) :
    ∃ s, d.lookup "state" = some (.str (stateWord s)) := by
  have hrequired : "state" ∈ stateRequired := by decide
  obtain ⟨v, hv⟩ := accepted_required h hrequired
  obtain ⟨w, hw, rfl⟩ := oneOf_iff.1 (accepted_property h rfl hv)
  obtain ⟨s, -, rfl⟩ := List.mem_map.1 hw
  exact ⟨s, hv⟩

/-- The table of counters or amounts is a map with its required entries in shape. -/
theorem accepted_entry {table name : String} {names : List String}
    {properties : List (String × (Value → Bool))} {check : Value → Bool} (h : Accepted d)
    (htable : table ∈ stateRequired)
    (hshape : get table stateProperties = some (nested (object names properties)))
    (hname : name ∈ names) (hcheck : get name properties = some check) :
    ∃ v, check v = true ∧ v.finite = true ∧ amount d table name = v.number := by
  obtain ⟨t, ht⟩ := accepted_required h.1 htable
  obtain ⟨members, rfl, hobject⟩ := nested_dict (accepted_property h.1 hshape ht)
  obtain ⟨v, hv⟩ := object_required hobject hname
  have hfinite : finiteMembers members = true := by
    have := finiteMembers_get h.2.1 (by rw [get_members]; exact ht)
    rwa [Value.finite] at this
  apply Exists.intro v
  constructor
  · exact object_get hobject hcheck hv
  constructor
  · exact finiteMembers_get hfinite hv
  · simp [amount, ht, Value.entry, hv]

theorem accepted_rounds {m : String × ℕ} (h : Accepted d) (hm : m ∈ maximumRounds) :
    ∃ q, amount d "rounds" m.1 = some q ∧ 0 ≤ q ∧ q ≤ (m.2 : Rat) := by
  have hname : m.1 ∈ ["implementation", "repair", "evaluator"] := List.mem_map_of_mem hm
  have hcheck : get m.1 (maximumRounds.map fun m => (m.1, integer 0 m.2)) = some (integer 0 m.2) := by
    simp only [maximumRounds, List.mem_cons, List.not_mem_nil, or_false] at hm
    obtain rfl | rfl | rfl := hm <;> rfl
  have htable : "rounds" ∈ stateRequired := by decide
  obtain ⟨v, hv, -, hamount⟩ := accepted_entry h htable rfl hname hcheck
  obtain ⟨q, hq, hleast, hmost⟩ := integer_number hv
  exact ⟨q, hamount.trans hq, by exact_mod_cast hleast, hmost⟩

theorem accepted_budget (h : Accepted d) :
    ∃ spent ceiling, amount d "budget" "spent_usd" = some spent ∧
      amount d "budget" "max_usd" = some ceiling ∧ spent ≤ ceiling := by
  have hentry : ∀ name ∈ ["max_usd", "spent_usd"], ∃ q, amount d "budget" name = some q := by
    intro name hname
    have hcheck : get name [("max_usd", number 0), ("spent_usd", number 0)] = some (number 0) := by
      simp only [List.mem_cons, List.not_mem_nil, or_false] at hname
      obtain rfl | rfl := hname <;> rfl
    have htable : "budget" ∈ stateRequired := by decide
    obtain ⟨v, hv, hfinite, hamount⟩ := accepted_entry h htable rfl hname hcheck
    obtain ⟨q, hq⟩ := number_number hv hfinite
    exact ⟨q, hamount.trans hq⟩
  obtain ⟨spent, hspent⟩ := hentry "spent_usd" (by decide)
  obtain ⟨ceiling, hceiling⟩ := hentry "max_usd" (by decide)
  apply Exists.intro spent
  apply Exists.intro ceiling
  have hbudget := h.2.2
  rw [withinBudget, hspent, hceiling] at hbudget
  exact ⟨hspent, hceiling, of_decide_eq_true hbudget⟩

/-- What `allOf` says of the reason, state by state. -/
theorem accepted_reason {s : State} (h : stateSchema d = true)
    (hstate : d.lookup "state" = some (.str (stateWord s))) :
    (s ∈ terminalStates → ∃ r, d.lookup "stop_reason" = some (.str (stopReasonWord r))) ∧
      (s = .approved → d.lookup "stop_reason" = some (.str (stopReasonWord .completed))) ∧
      (s ∉ terminalStates → d.lookup "stop_reason" = none) := by
  have hends : ends d = true := by
    rw [stateSchema, Bool.and_eq_true] at h
    exact h.2
  have hword : ∀ v, d.lookup "stop_reason" = some v → ∃ r, v = .str (stopReasonWord r) := by
    intro v hv
    obtain ⟨w, hw, rfl⟩ := oneOf_iff.1 (accepted_property h rfl hv)
    obtain ⟨r, -, rfl⟩ := List.mem_map.1 hw
    exact ⟨r, rfl⟩
  simp only [ends, Bool.and_eq_true, Bool.or_eq_true, Bool.not_eq_true', hasReason] at hends
  obtain ⟨⟨happroved, hstopped⟩, hrunning⟩ := hends
  have hcompleted : s = .approved →
      d.lookup "stop_reason" = some (.str (stopReasonWord .completed)) := by
    intro hs
    have hin : inStates [.approved] d = true := (inStates_iff hstate).2 (by simp [hs])
    rw [hin] at happroved
    obtain ⟨hsome, hall⟩ := happroved.resolve_left (by decide)
    obtain ⟨v, hv⟩ := Option.isSome_iff_exists.1 hsome
    rw [hv] at hall ⊢
    obtain ⟨w, hw, rfl⟩ := oneOf_iff.1 hall
    rw [List.mem_singleton.1 hw]
  constructor
  · intro hs
    have hcases : s = .approved ∨ s ∈ [State.blocked, State.failed] := by
      simpa [terminalStates] using hs
    obtain hs' | hs' := hcases
    · exact ⟨.completed, hcompleted hs'⟩
    · have hin : inStates [.blocked, .failed] d = true := (inStates_iff hstate).2 hs'
      rw [hin] at hstopped
      obtain ⟨v, hv⟩ := Option.isSome_iff_exists.1 (hstopped.resolve_left (by decide))
      obtain ⟨r, rfl⟩ := hword v hv
      exact ⟨r, hv⟩
  constructor
  · exact hcompleted
  · intro hs
    have hin : inStates (allStates.filter fun s => !terminalStates.contains s) d = true := by
      apply (inStates_iff hstate).2
      rw [List.mem_filter]
      exact ⟨mem_allStates s, by simpa using hs⟩
    rw [hin] at hrunning
    exact Option.not_isSome_iff_eq_none.1 (by simpa using hrunning.resolve_left (by decide))

theorem sound_of_accepted (h : Accepted d) : ∃ s, Sound d s := by
  obtain ⟨s, hs⟩ := accepted_state h.1
  obtain ⟨hreason, hcompleted, hrunning⟩ := accepted_reason h.1 hs
  apply Exists.intro s
  constructor
  · exact hs
  · intro hterminal
    obtain ⟨r, hr⟩ := hreason hterminal
    apply ExistsUnique.intro r hr
    intro t ht
    exact stopReasonWord_inj (Value.str.inj (Option.some.inj (ht.symm.trans hr)))
  · exact hcompleted
  · exact hrunning
  · intro m hm
    exact accepted_rounds h hm
  · exact accepted_budget h

end

end RagPipeline.RunState

/-! # Moves of a run

`advance` reads the document, asks the table and the identity, merges the changes
and writes the result in one replacement. Whatever is asked of it, and in whatever
order, the document stays one of the same run. -/

set_option autoImplicit false

namespace RagPipeline.RunState
open Document Guard Runner
open Finalization (stateWord)

def immutableStateFields : List String :=
  ["protocol_version", "run_id", "started_at", "baseline_sha", "requested_models"]

/-- What stands under the name of the state document. A text that reads is kept as
what it reads to. -/
inductive File where
  | absent
  | unreadable
  /-- A text that reads to something other than a map. -/
  | other
  | text (d : Fields)

/-- Where the system fails a write: up to the replacement, or on the directory after it. -/
inductive Fault where
  | beforeReplace
  | afterReplace
deriving DecidableEq

inductive Raised where
  | refused (r : Refusal)
  | system
deriving DecidableEq

structure Call where
  target : String
  changes : Fields
  fault : Option Fault

section
variable (place : Fields → String)

def readState : File → Except Refusal Fields
  | .absent => .error .absent
  | .unreadable => .error .unreadable
  | .other => .error (.schema "kok")
  | .text d => do
    validate place d
    assertStateInvariants d
    return d

def stateOf (v : Value) : Option State := allStates.find? fun s => v.same (.str (stateWord s))

def assertTransition (current : Value) (target : String) : Except Refusal Unit := do
  let s ← demand (stateOf current) .unknownState
  require (s ∉ terminalStates) (.leavesTerminal s target)
  require (target ∈ (allowedTransitions s).map stateWord) (.notAllowed s target)

def keepsField (current changes : Fields) (field : String) : Bool :=
  match changes.lookup field with
  | none => true
  | some v => v.same ((current.lookup field).getD .null)

/-- The current document, the changes over it, the target over both; a state that is
still running carries no reason. -/
def merged (current changes : Fields) (target : String) : Fields :=
  if target ∈ terminalStates.map stateWord then
    (changes ∪ current).insert "state" (.str target)
  else ((changes ∪ current).insert "state" (.str target)).erase "stop_reason"

/-- What `advance` asks before it writes. -/
def plan (file : File) (call : Call) : Except Refusal Fields := do
  let current ← readState place file
  assertTransition ((current.lookup "state").getD .null) call.target
  immutableStateFields.forM fun field =>
    require (keepsField current call.changes field = true) (.immutable field)
  return merged current call.changes call.target

def checked (payload : Fields) : Except Refusal Unit := do
  assertStateInvariants payload
  validate place payload

/-- `write_state`. The replacement is the only step seen under the real name. -/
def writeState (fault : Option Fault) (file : File) (payload : Fields) :
    Except Raised Unit × File :=
  match checked place payload with
  | .error r => (.error (.refused r), file)
  | .ok _ =>
    match fault with
    | some .beforeReplace => (.error .system, file)
    | some .afterReplace => (.error .system, .text payload)
    | none => (.ok (), .text payload)

def advance (file : File) (call : Call) : Except Raised Unit × File :=
  match plan place file call with
  | .error r => (.error (.refused r), file)
  | .ok updated => writeState place call.fault file updated

def run (file : File) : List Call → File
  | [] => file
  | call :: rest => run (advance place file call).2 rest

variable {place}

/-! ## One call -/

theorem checked_ok {d : Fields} : checked place d = .ok () ↔ Accepted d := by
  rw [checked, assertStateInvariants, validate, assertFinite]
  simp only [bind_ok, require_ok, exists_unit, Accepted]
  tauto

theorem readState_ok {file : File} {d : Fields} :
    readState place file = .ok d ↔ file = .text d ∧ Accepted d := by
  cases file with
  | absent => exact ⟨fun h => (by cases h), fun h => (by cases h.1)⟩
  | unreadable => exact ⟨fun h => (by cases h), fun h => (by cases h.1)⟩
  | other => exact ⟨fun h => (by cases h), fun h => (by cases h.1)⟩
  | text d' =>
    simp only [readState, validate, assertStateInvariants, assertFinite, bind_ok, require_ok,
      exists_unit, pure_ok, Accepted, File.text.injEq]
    constructor
    · intro ⟨⟨hschema, hfinite⟩, ⟨_, hbudget⟩, heq⟩
      obtain rfl := heq
      exact ⟨rfl, hschema, hfinite, hbudget⟩
    · intro ⟨heq, hschema, hfinite, hbudget⟩
      obtain rfl := heq
      exact ⟨⟨hschema, hfinite⟩, ⟨hfinite, hbudget⟩, rfl⟩

theorem plan_ok {file : File} {call : Call} {d' : Fields} (h : plan place file call = .ok d') :
    ∃ d, readState place file = .ok d ∧
      assertTransition ((d.lookup "state").getD .null) call.target = .ok () ∧
      (∀ field ∈ immutableStateFields, keepsField d call.changes field = true) ∧
      d' = merged d call.changes call.target := by
  simp only [plan, bind_ok, exists_unit, pure_ok] at h
  obtain ⟨d, hread, htransition, hkeeps, hmerged⟩ := h
  refine ⟨d, hread, htransition, ?_, hmerged.symm⟩
  intro field hfield
  exact require_ok.1 (forM_ok.1 hkeeps field hfield)

variable (place)

theorem writeState_cases (fault : Option Fault) (file : File) (payload : Fields) :
    (writeState place fault file payload).2 = file ∨
      Accepted payload ∧ (writeState place fault file payload).2 = .text payload ∧
        ∀ r, (writeState place fault file payload).1 ≠ .error (.refused r) := by
  cases hchecked : checked place payload with
  | error r =>
    left
    simp only [writeState, hchecked]
  | ok u =>
    have haccepted := checked_ok.1 hchecked
    cases fault with
    | none =>
      right
      simp [writeState, hchecked, haccepted]
    | some fault =>
      cases fault with
      | beforeReplace =>
        left
        simp only [writeState, hchecked]
      | afterReplace =>
        right
        simp [writeState, hchecked, haccepted]

/-- What a call can leave: the document as it was, or the merged one behind every
check. -/
theorem advance_cases (file : File) (call : Call) :
    (advance place file call).2 = file ∨
      ∃ d', plan place file call = .ok d' ∧ Accepted d' ∧ (advance place file call).2 = .text d' ∧
        ∀ r, (advance place file call).1 ≠ .error (.refused r) := by
  cases hplan : plan place file call with
  | error r =>
    left
    simp only [advance, hplan]
  | ok d' =>
    simp only [advance, hplan]
    obtain hfile | ⟨haccepted, hfile, hraised⟩ :=
      writeState_cases place call.fault file d'
    · exact .inl hfile
    · exact .inr ⟨d', rfl, haccepted, hfile, hraised⟩

theorem stateOf_word {v : Value} {s : State} (h : stateOf v = some s) : v = .str (stateWord s) :=
  str_same.1 (List.find?_some (p := fun s => v.same (.str (stateWord s))) h)

theorem assertTransition_ok {v : Value} {target : String} (h : assertTransition v target = .ok ()) :
    ∃ s s', v = .str (stateWord s) ∧ target = stateWord s' ∧ s ∉ terminalStates ∧
      s' ∈ allowedTransitions s := by
  simp only [assertTransition, bind_ok, exists_unit, require_ok, demand_ok] at h
  obtain ⟨s, hs, hrunning, htarget⟩ := h
  obtain ⟨s', hs', rfl⟩ := List.mem_map.1 htarget
  exact ⟨s, s', stateOf_word hs, rfl, hrunning, hs'⟩

/-! ## What is merged -/

theorem merged_state (current changes : Fields) (target : String) :
    (merged current changes target).lookup "state" = some (.str target) := by
  rw [merged]
  split_ifs
  · exact AList.lookup_insert _
  · rw [AList.lookup_erase_ne (by decide)]
    exact AList.lookup_insert _

theorem merged_lookup {current changes : Fields} {target field : String} (hstate : field ≠ "state")
    (hreason : field ≠ "stop_reason") :
    (merged current changes target).lookup field = (changes ∪ current).lookup field := by
  rw [merged]
  split_ifs
  · exact AList.lookup_insert_ne hstate
  · rw [AList.lookup_erase_ne hreason]
    exact AList.lookup_insert_ne hstate

/-- The same entry, or one equal to it. -/
def Keeps (before after : Option Value) : Prop :=
  after = before ∨ ∃ v w, before = some v ∧ after = some w ∧ w.same v = true

theorem Keeps.trans {a b c : Option Value} (hab : Keeps a b) (hbc : Keeps b c) : Keeps a c := by
  obtain rfl | ⟨v, w, hv, hw, hsame⟩ := hab
  · exact hbc
  obtain rfl | ⟨w', x, hw', hx, hsame'⟩ := hbc
  · exact .inr ⟨v, w, hv, hw, hsame⟩
  · obtain rfl := Option.some.inj (hw.symm.trans hw')
    exact .inr ⟨v, x, hv, hx, same_trans hsame' hsame⟩

/-- The document is of the same run. -/
def SameIdentity (d₀ d : Fields) : Prop :=
  ∀ field ∈ immutableStateFields, Keeps (d₀.lookup field) (d.lookup field)

/-- No field of the identity may be null, so none that is missing can appear. -/
theorem identity_not_null {d : Fields} {field : String} (h : Accepted d)
    (hfield : field ∈ immutableStateFields) : d.lookup field ≠ some .null := by
  have hshape : ∃ check, get field stateProperties = some check ∧ check .null = false := by
    simp only [immutableStateFields, List.mem_cons, List.not_mem_nil, or_false] at hfield
    obtain rfl | rfl | rfl | rfl | rfl := hfield <;> exact ⟨_, rfl, rfl⟩
  obtain ⟨check, hcheck, hnull⟩ := hshape
  intro hlookup
  have htrue := accepted_property h.1 hcheck hlookup
  rw [hnull] at htrue
  cases htrue

theorem merged_identity {d changes : Fields} {target : String}
    (hkeeps : ∀ field ∈ immutableStateFields, keepsField d changes field = true)
    (haccepted : Accepted (merged d changes target)) : SameIdentity d (merged d changes target) := by
  intro field hfield
  have hstate : field ≠ "state" := by
    intro h
    subst h
    exact absurd hfield (by decide)
  have hreason : field ≠ "stop_reason" := by
    intro h
    subst h
    exact absurd hfield (by decide)
  have hnull := identity_not_null haccepted hfield
  have hkeep := hkeeps field hfield
  rw [merged_lookup hstate hreason] at hnull ⊢
  rw [keepsField] at hkeep
  cases hchange : changes.lookup field with
  | none =>
    left
    exact AList.lookup_union_right (AList.lookup_eq_none.1 hchange)
  | some v =>
    have hmem : field ∈ changes := AList.lookup_isSome.1 (by simp [hchange])
    rw [AList.lookup_union_left hmem, hchange] at hnull ⊢
    rw [hchange] at hkeep
    cases hcurrent : d.lookup field with
    | some w =>
      rw [hcurrent] at hkeep
      exact .inr ⟨w, v, rfl, rfl, hkeep⟩
    | none =>
      rw [hcurrent] at hkeep
      have hv : v = .null := by
        cases v <;> simp_all [Value.same, Value.number]
      exact absurd (congrArg some hv) hnull

/-! ## Every run -/

/-- What one more call does to the document of a run in a state: a refusal leaves it,
a terminal state is not left, and a new document is one of the same run in a state
that the table allows. -/
structure Step (file : File) (d : Fields) (s : State) (call : Call) : Prop where
  refused : ∀ r, (advance place file call).1 = .error (.refused r) → (advance place file call).2 = file
  terminal : s ∈ terminalStates → (advance place file call).2 = file
  moves : (advance place file call).2 = file ∨
    ∃ d' s', (advance place file call).2 = .text d' ∧ Accepted d' ∧ Sound d' s' ∧
      s' ∈ allowedTransitions s ∧ SameIdentity d d'

theorem state_unique {d : Fields} {s t : State} (hs : d.lookup "state" = some (.str (stateWord s)))
    (ht : d.lookup "state" = some (.str (stateWord t))) : s = t :=
  stateWord_inj (Value.str.inj (Option.some.inj (hs.symm.trans ht)))

theorem advance_step {d : Fields} {s : State} (hsound : Sound d s) (call : Call) :
    Step place (.text d) d s call := by
  obtain hfile | ⟨d', hplan, haccepted', hfile, hraised⟩ :=
    advance_cases place (.text d) call
  · exact ⟨fun r _ => hfile, fun _ => hfile, .inl hfile⟩
  obtain ⟨c, hread, htransition, hkeeps, rfl⟩ := plan_ok hplan
  obtain rfl : d = c := File.text.inj (readState_ok.1 hread).1
  rw [hsound.state] at htransition
  obtain ⟨t, s', ht, htarget, hrunning, hallowed⟩ := assertTransition_ok htransition
  obtain rfl : s = t := stateWord_inj (Value.str.inj ht)
  constructor
  · intro r hr
    exact absurd hr (hraised r)
  · intro hterminal
    exact absurd hterminal hrunning
  · obtain ⟨t', ht'⟩ := sound_of_accepted haccepted'
    have hstate := merged_state d call.changes call.target
    rw [htarget] at hstate ht' haccepted' hfile
    obtain rfl := state_unique ht'.state hstate
    exact .inr ⟨_, _, hfile, haccepted', ht', hallowed, merged_identity hkeeps haccepted'⟩

/-- A document of the run that began with another one. -/
structure Continues (d₀ d : Fields) (s : State) : Prop where
  accepted : Accepted d
  sound : Sound d s
  identity : SameIdentity d₀ d

theorem continues_advance {d₀ d : Fields} {s : State} (h : Continues d₀ d s) (call : Call) :
    ∃ d' s', (advance place (.text d) call).2 = .text d' ∧ Continues d₀ d' s' := by
  obtain hfile | ⟨d', s', hfile, haccepted, hsound, -, hidentity⟩ :=
    (advance_step place h.sound call).moves
  · exact ⟨d, s, hfile, h⟩
  · apply Exists.intro d'
    apply Exists.intro s'
    constructor
    · exact hfile
    constructor
    · exact haccepted
    · exact hsound
    · intro field hfield
      exact (h.identity field hfield).trans (hidentity field hfield)

theorem continues_run {d₀ d : Fields} {s : State} (h : Continues d₀ d s) (calls : List Call) :
    ∃ d' s', run place (.text d) calls = .text d' ∧ Continues d₀ d' s' := by
  induction calls generalizing d s with
  | nil => exact ⟨d, s, rfl, h⟩
  | cons call rest ih =>
    obtain ⟨d', s', hfile, h'⟩ := continues_advance place h call
    rw [run, hfile]
    exact ih h'

/-- The record of a run after any calls is one of the run that began, sound in its
state, and whatever is called next is one step of the table or nothing. -/
theorem record_of_run {file : File} {d₀ : Fields}
    (h : readState place file = .ok d₀) (calls : List Call) :
    ∃ d s, run place file calls = .text d ∧ readState place (.text d) = .ok d ∧ Sound d s ∧
      SameIdentity d₀ d ∧ ∀ call, Step place (.text d) d s call := by
  obtain ⟨rfl, haccepted⟩ := readState_ok.1 h
  obtain ⟨s₀, hs₀⟩ := sound_of_accepted haccepted
  have hstart : Continues d₀ d₀ s₀ := ⟨haccepted, hs₀, fun field _ => .inl rfl⟩
  obtain ⟨d, s, hrun, hd⟩ := continues_run place hstart calls
  refine ⟨d, s, hrun, readState_ok.2 ⟨rfl, hd.accepted⟩, hd.sound, hd.identity, ?_⟩
  intro call
  exact advance_step place hd.sound call

/-- The first document of a run, as it is written. -/
def firstDocument : Fields :=
  List.toAList [⟨"protocol_version", .str "1.0"⟩, ⟨"run_id", .str "kosu-1"⟩,
    ⟨"state", .str "preflight"⟩, ⟨"started_at", .str "t0"⟩, ⟨"updated_at", .str "t0"⟩,
    ⟨"rounds", .dict [("implementation", .int 0), ("repair", .int 0), ("evaluator", .int 0)]⟩,
    ⟨"budget", .dict [("max_usd", .int 5), ("spent_usd", .int 0)]⟩]

theorem record_of_run_begun :
    readState (fun _ => "kok") (.text firstDocument) = .ok firstDocument ∧
      ∃ d s, run (fun _ => "kok") (.text firstDocument)
          [⟨"implementing", ∅, none⟩, ⟨"approved", ∅, none⟩,
            ⟨"blocked", List.toAList [⟨"stop_reason", .str "timeout"⟩], none⟩] = .text d ∧
        readState (fun _ => "kok") (.text d) = .ok d ∧ Sound d s ∧ SameIdentity firstDocument d ∧
        ∀ call, Step (fun _ => "kok") (.text d) d s call := by
  have hread : readState (fun _ => "kok") (.text firstDocument) = .ok firstDocument := by
    apply readState_ok.2
    constructor
    · rfl
    · exact ⟨by decide, by decide, by decide⟩
  exact ⟨hread, record_of_run _ hread _⟩

end

end RagPipeline.RunState
