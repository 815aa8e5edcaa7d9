import RagPipeline.Schemas.RoundTrip
import RagPipeline.Schemas.Weaker

/-! # The audit schemas

`_result_schema` for the two kinds of audit, the locked schema bound to the
identifiers that were issued, and the transport copy of each. -/

set_option autoImplicit false

namespace RagPipeline.Schemas
open RagPipeline.JsonSchema

/-! ## Findings and tests -/

def opaqueIdPattern : String := "^[0-9a-f]\x7b32\x7d$"

def identifierPattern : String := "^[a-z0-9][a-z0-9_-]\x7b2,63\x7d$"

def relativePathPattern : String := "^(?![/\\\\])(?![A-Za-z]:)(?!.*(^|/)\\.\\.(/|$))[^\\x00-\\x1f\\\\]+$"

def opaqueId : Schema := .node [.type (.one "string"), .other "pattern" (.str opaqueIdPattern)]

def identifier : Schema := .node [.type (.one "string"), .other "pattern" (.str identifierPattern)]

def relativePath : Schema :=
  .node [.type (.one "string"), .other "minLength" (.int 1), .other "maxLength" (.int 400),
    .other "pattern" (.str relativePathPattern)]

def vocabulary (words : List String) : Schema := .node [.enum (words.map .str)]

def counter : Schema := .node [.type (.one "integer"), .other "minimum" (.int 0)]

def commandId : Schema := vocabulary ["leak_scan", "p0_gate", "pytest_full", "pytest_selected"]

def testResult : Schema :=
  .node [.type (.one "object"), .additionalProperties (.bool false),
    .required ["command_id", "exit_code", "passed", "failed", "skipped", "duration_ms"],
    .properties [("command_id", commandId),
      ("exit_code", .node [.type (.one "integer"), .other "minimum" (.int (-255)), .other "maximum" (.int 255)]),
      ("passed", counter), ("failed", counter), ("skipped", counter), ("duration_ms", counter)]]

def severities : List String := ["critical", "high", "medium", "low"]

def prose : Schema :=
  .node [.type (.one "string"), .other "minLength" (.int 1), .other "maxLength" (.int 500)]

def codeFinding : Schema :=
  .node [.type (.one "object"), .additionalProperties (.bool false),
    .required ["finding_id", "mechanism_id", "severity", "claim", "reproduction_result", "required_action"],
    .properties [("finding_id", identifier), ("mechanism_id", identifier), ("severity", vocabulary severities),
      ("file", relativePath), ("line", .node [.type (.one "integer"), .other "minimum" (.int 1)]),
      ("claim", prose), ("reproduction_result", vocabulary ["reproduced", "not_reproduced", "not_attempted"]),
      ("required_action", prose)]]

def allLockedFindingClasses : List String :=
  ["wrong_row", "ungrounded", "abstained_when_answerable", "answered_when_unanswerable", "format_violation",
    "regression_vs_baseline"]

def lockedFinding : Schema :=
  .node [.type (.one "object"), .additionalProperties (.bool false),
    .required ["finding_id", "mechanism_id", "severity", "error_class", "case_count"],
    .properties [("finding_id", opaqueId), ("mechanism_id", opaqueId), ("severity", vocabulary severities),
      ("error_class", vocabulary allLockedFindingClasses),
      ("case_count", .node [.type (.one "integer"), .other "minimum" (.int 1), .other "maximum" (.int 100000)])]]

/-! ## Results -/

inductive Role where
  | implementer
  | evaluator
deriving DecidableEq

def Role.name : Role → String
  | .implementer => "implementer"
  | .evaluator => "evaluator"

def Role.statuses : Role → List String
  | .implementer => ["implemented", "blocked", "failed"]
  | .evaluator => ["approved", "changes_requested", "blocked", "failed"]

def literally (text : String) : Schema := .node [.const (.str text)]

/-- A rule for one status: what must be there, and what it must be. -/
def statusRule (status : String) (consequence : List Entry) : Schema :=
  .node [.conditional .on (.node [.properties [("status", literally status)], .required ["status"]]),
    .conditional .yes (.node consequence)]

def conditionalRules (statuses : List String) : List Schema :=
  (if statuses.contains "changes_requested" then
    [statusRule "changes_requested" [.required ["findings", "next_action"],
      .properties [("findings", .node [.other "minItems" (.int 1)]), ("next_action", literally "await_repair")]]]
  else []) ++
  (if statuses.contains "approved" then
    [statusRule "approved"
      [.properties [("findings", .node [.other "maxItems" (.int 0)]), ("next_action", literally "stop")]]]
  else []) ++
  (if statuses.contains "implemented" then
    [statusRule "implemented" [.properties [("next_action", literally "await_acceptance")]]]
  else []) ++
  ["blocked", "failed"].map fun terminal =>
    statusRule terminal [.required ["stop_reason"], .properties [("next_action", literally "stop")]]

def nextActions : List String := ["await_acceptance", "await_audit", "await_repair", "await_final_audit", "stop"]

def allStopReasons : List String :=
  ["completed", "preflight_failed", "model_process_failed", "dirty_worktree", "staged_changes",
    "baseline_mismatch", "path_not_allowed", "evaluator_modified_workspace", "schema_violation",
    "repeated_mechanism_failure", "repair_rounds_exhausted", "out_of_scope_finding", "budget_exhausted",
    "wall_clock_exceeded", "timeout", "user_approval_required", "leak_scan_hard_finding", "acceptance_failed",
    "lock_held", "interrupted", "control_plane_modified"]

def allSummaryCodes : List String :=
  ["criteria_met", "criteria_unmet", "regression_detected", "no_regression", "insufficient_signal"]

def protocolVersion : String := "1.0"

def listOf (maxItems : Int) (items : Schema) : Schema :=
  .node [.type (.one "array"), .other "maxItems" (.int maxItems), .items items]

def resultSchema (role : Role) (finding : Schema) (auditKind : Option String) (textless : Bool) : Schema :=
  let runId := if textless then opaqueId else identifier
  let properties : List (String × Schema) :=
    [("protocol_version", literally protocolVersion), ("run_id", runId), ("role", literally role.name),
      ("status", vocabulary role.statuses), ("changed_files", listOf 200 relativePath),
      ("tests", listOf 50 testResult), ("findings", listOf 50 finding), ("next_action", vocabulary nextActions),
      ("stop_reason", vocabulary allStopReasons)]
  let summary : String × Schema :=
    if textless then ("summary_code", vocabulary allSummaryCodes)
    else ("summary", .node [.type (.one "string"), .other "minLength" (.int 1), .other "maxLength" (.int 2000)])
  let kinds : List (String × Schema) := auditKind.toList.map fun kind => ("audit_kind", literally kind)
  let properties := properties ++ summary :: kinds
  .node [.type (.one "object"), .additionalProperties (.bool false),
    .required (["protocol_version", "run_id", "role", "status", summary.1, "next_action"] ++ kinds.map Prod.fst),
    .properties (if role = .evaluator then properties.filter fun prop => prop.1 != "changed_files" else properties),
    .allOf (conditionalRules role.statuses)]

inductive AuditKind where
  | code
  | locked
deriving DecidableEq

def AuditKind.name : AuditKind → String
  | .code => "code_audit"
  | .locked => "locked_audit"

def codeAuditResultSchema : Schema := resultSchema .evaluator codeFinding (some AuditKind.code.name) false

def lockedAuditResultSchema : Schema := resultSchema .evaluator lockedFinding (some AuditKind.locked.name) true

/-! ## The schema bound to a call -/

def setProperty (name : String) (sub : Schema) : List (String × Schema) → List (String × Schema)
  | [] => [(name, sub)]
  | (key, old) :: rest => if key = name then (key, sub) :: rest else (key, old) :: setProperty name sub rest

def atProperties (f : List (String × Schema) → List (String × Schema)) : Schema → Schema
  | .bool b => .bool b
  | .node entries => .node (entries.map fun
    | .properties props => .properties (f props)
    | e => e)

def atItems (f : Schema → Schema) : Schema → Schema
  | .bool b => .bool b
  | .node entries => .node (entries.map fun
    | .items schema => .items (f schema)
    | e => e)

def sorted (ids : List String) : List String := ids.mergeSort fun a b => decide (a ≤ b)

def lockedAuditSchema (runId : String) (issuedFindingIds issuedMechanismIds : List String) : Schema :=
  let bindFinding := fun props =>
    setProperty "mechanism_id" (vocabulary (sorted issuedMechanismIds))
      (setProperty "finding_id" (vocabulary (sorted issuedFindingIds)) props)
  atProperties (fun props => (setProperty "run_id" (literally runId) props).map fun (key, sub) =>
    (key, if key = "findings" then atItems (atProperties bindFinding) sub else sub)) lockedAuditResultSchema

/-- An authority with its transport copy. -/
def withTransport (authoritative : Schema) : Except String (Schema × Schema) :=
  match evaluatorTransportSchema authoritative with
  | .ok transport => .ok (authoritative, transport)
  | .error refused => .error refused

/-- The two schemas that a call needs. -/
def schemaFor (kind : AuditKind) (issuedRunId : Option String)
    (issuedFindingIds issuedMechanismIds : List String) : Except String (Schema × Schema) :=
  match kind, issuedRunId with
  | .code, some _ => .error "kod denetimi verilmis kimlik almaz"
  | .code, none =>
    if issuedFindingIds.isEmpty && issuedMechanismIds.isEmpty then withTransport codeAuditResultSchema
    else .error "kod denetimi verilmis kimlik almaz"
  | .locked, none => .error "kilitli denetim icin kimlik verilmedi"
  | .locked, some runId =>
    if issuedFindingIds.isEmpty || issuedMechanismIds.isEmpty then
      .error "kilitli denetim icin kimlik verilmedi"
    else withTransport (lockedAuditSchema runId issuedFindingIds issuedMechanismIds)

/-- The schemas that an audit can be judged by, and those without the fields
that the adapter derives. -/
inductive AuditSchema : Schema → Prop where
  | code : AuditSchema codeAuditResultSchema
  | locked : AuditSchema lockedAuditResultSchema
  | bound (runId : String) {issuedFindingIds issuedMechanismIds : List String}
    (hfindings : issuedFindingIds ≠ []) (hmechanisms : issuedMechanismIds ≠ []) :
    AuditSchema (lockedAuditSchema runId issuedFindingIds issuedMechanismIds)
  | derived {schema : Schema} (h : AuditSchema schema) : AuditSchema (withoutDerived schema)

theorem withTransport_eq {schema authoritative transport : Schema}
    (h : withTransport schema = .ok (authoritative, transport)) :
    schema = authoritative ∧ evaluatorTransportSchema schema = .ok transport := by
  unfold withTransport at h
  split at h
  · rename_i hcopy
    obtain ⟨rfl, rfl⟩ := Prod.mk.inj (Except.ok.inj h)
    exact ⟨rfl, hcopy⟩
  · cases h

theorem schemaFor_audit {kind : AuditKind} {runId : Option String} {findings mechanisms : List String}
    {authoritative transport : Schema}
    (h : schemaFor kind runId findings mechanisms = .ok (authoritative, transport)) :
    AuditSchema authoritative ∧ evaluatorTransportSchema authoritative = .ok transport := by
  cases kind with
  | code =>
    cases runId with
    | some run => cases h
    | none =>
      unfold schemaFor at h
      dsimp only at h
      split_ifs at h
      obtain ⟨rfl, hcopy⟩ := withTransport_eq h
      exact ⟨.code, hcopy⟩
  | locked =>
    cases runId with
    | none => cases h
    | some run =>
      unfold schemaFor at h
      dsimp only at h
      split_ifs at h with hempty
      obtain ⟨rfl, hcopy⟩ := withTransport_eq h
      rw [Bool.or_eq_true, List.isEmpty_iff, List.isEmpty_iff, not_or] at hempty
      exact ⟨.bound run hempty.1 hempty.2, hcopy⟩

/-! ## Their shapes -/

def counterShape : Shape := .scalar .whole [.minimum 0]

def testShape : Shape :=
  .record ["command_id", "exit_code", "passed", "failed", "skipped", "duration_ms"]
    [("command_id", .word "leak_scan" ["p0_gate", "pytest_full", "pytest_selected"]),
      ("exit_code", .scalar .whole [.minimum (-255), .maximum 255]), ("passed", counterShape),
      ("failed", counterShape), ("skipped", counterShape), ("duration_ms", counterShape)] none

def severityShape : Shape := .word "critical" ["high", "medium", "low"]

def proseShape : Shape := .scalar .text [.minLength 1, .maxLength 500]

def codeFindingShape : Shape :=
  .record ["finding_id", "mechanism_id", "severity", "claim", "reproduction_result", "required_action"]
    [("finding_id", .scalar .text [.pattern identifierPattern]),
      ("mechanism_id", .scalar .text [.pattern identifierPattern]), ("severity", severityShape),
      ("file", .scalar .text [.minLength 1, .maxLength 400, .pattern relativePathPattern]),
      ("line", .scalar .whole [.minimum 1]), ("claim", proseShape),
      ("reproduction_result", .word "reproduced" ["not_reproduced", "not_attempted"]),
      ("required_action", proseShape)] none

def lockedFindingShape (finding mechanism : Shape) : Shape :=
  .record ["finding_id", "mechanism_id", "severity", "error_class", "case_count"]
    [("finding_id", finding), ("mechanism_id", mechanism), ("severity", severityShape),
      ("error_class", .word "wrong_row" allLockedFindingClasses.tail),
      ("case_count", .scalar .whole [.minimum 1, .maximum 100000])] none

def opaqueShape : Shape := .scalar .text [.pattern opaqueIdPattern]

/-- The required names and the fields of an audit's envelope. -/
def envelopeNames (summary : String) : List String :=
  ["protocol_version", "run_id", "role", "status", summary, "next_action", "audit_kind"]

def envelopeFields (runId finding : Shape) (summary : String × Shape) (kind : String) : List (String × Shape) :=
  [("protocol_version", .fixed protocolVersion), ("run_id", runId), ("role", .fixed "evaluator"),
    ("status", .word "approved" ["changes_requested", "blocked", "failed"]), ("tests", .list 50 testShape),
    ("findings", .list 50 finding), ("next_action", .word "await_acceptance" nextActions.tail),
    ("stop_reason", .word "completed" allStopReasons.tail), summary, ("audit_kind", .fixed kind)]

def envelope (runId finding : Shape) (summary : String × Shape) (kind : String) : Shape :=
  .record (envelopeNames summary.1) (envelopeFields runId finding summary kind)
    (some (conditionalRules Role.evaluator.statuses))

def codeShape : Shape :=
  envelope (.scalar .text [.pattern identifierPattern]) codeFindingShape
    ("summary", .scalar .text [.minLength 1, .maxLength 2000]) "code_audit"

def lockedShape (runId finding mechanism : Shape) : Shape :=
  envelope runId (lockedFindingShape finding mechanism)
    ("summary_code", .word "criteria_met" allSummaryCodes.tail) "locked_audit"

theorem codeAuditResultSchema_shape : codeAuditResultSchema = codeShape.authority := by
  rfl

theorem lockedAuditResultSchema_shape :
    lockedAuditResultSchema = (lockedShape opaqueShape opaqueShape opaqueShape).authority := by
  rfl

theorem sorted_cons {ids : List String} (h : ids ≠ []) : ∃ first others, sorted ids = first :: others := by
  have hlength : (sorted ids).length = ids.length := List.length_mergeSort ids
  cases hsorted : sorted ids with
  | nil =>
    rw [hsorted] at hlength
    cases h (List.eq_nil_of_length_eq_zero hlength.symm)
  | cons first others => exact ⟨first, others, rfl⟩

theorem lockedAuditSchema_shape (runId : String) {findings mechanisms : List String}
    (hfindings : findings ≠ []) (hmechanisms : mechanisms ≠ []) :
    ∃ finding mechanism : Shape, lockedAuditSchema runId findings mechanisms =
      (lockedShape (.fixed runId) finding mechanism).authority := by
  obtain ⟨first, others, hsorted⟩ := sorted_cons hfindings
  obtain ⟨first', others', hsorted'⟩ := sorted_cons hmechanisms
  refine ⟨.word first others, .word first' others', ?_⟩
  unfold lockedAuditSchema
  rw [hsorted, hsorted']
  rfl

/-! ## The fields that are derived -/

theorem authorities_filter (keep : String → Bool) (fields : List (String × Shape)) :
    (authorities fields).filter (fun prop => keep prop.1) =
      authorities (fields.filter fun field => keep field.1) := by
  induction fields with
  | nil => rfl
  | cons field rest ih =>
    obtain ⟨name, s⟩ := field
    rw [authorities, List.filter_cons, List.filter_cons, ih]
    split_ifs <;> rfl

theorem withoutDerived_record (zorunlu : List String) (fields : List (String × Shape))
    (rules : Option (List Schema)) :
    withoutDerived (Shape.record zorunlu fields rules).authority =
      (Shape.record (zorunlu.filter fun name => name != "next_action")
        (fields.filter fun field => field.1 != "next_action") rules).authority := by
  rw [Shape.authority, Shape.authority, ← authorities_filter fun name => name != "next_action"]
  cases rules <;> rfl

/-- Every audit schema is the authority of a record. -/
theorem AuditSchema.record {schema : Schema} (h : AuditSchema schema) :
    ∃ zorunlu fields rules, schema = (Shape.record zorunlu fields rules).authority := by
  induction h with
  | code => exact ⟨_, _, _, codeAuditResultSchema_shape⟩
  | locked => exact ⟨_, _, _, lockedAuditResultSchema_shape⟩
  | bound runId hfindings hmechanisms =>
    obtain ⟨finding, mechanism, hshape⟩ := lockedAuditSchema_shape runId hfindings hmechanisms
    exact ⟨_, _, _, hshape⟩
  | derived _ ih =>
    obtain ⟨zorunlu, fields, rules, rfl⟩ := ih
    exact ⟨_, _, _, withoutDerived_record zorunlu fields rules⟩

/-! ## The round trip -/

/-- For every schema an audit can have: what it accepts, filled with nulls, is
accepted by the strict copy, and elision gives it back. Eliding once is
enough, and no null that is not optional ever becomes valid by it. -/
theorem codex_round_trip [Keywords] (schema : Schema) (haudit : AuditSchema schema) :
    (∃ transport, codexTransportSchema schema = .ok transport ∧
      ∀ payload, schema.accepts payload = true →
        transport.accepts (fillOptional schema payload) = true ∧
          elideOptionalNulls schema (fillOptional schema payload) = payload) ∧
    (∀ document, elideOptionalNulls schema (elideOptionalNulls schema document) =
      elideOptionalNulls schema document) ∧
    ∀ document, Forbidden schema document →
      schema.accepts (elideOptionalNulls schema document) = false := by
  obtain ⟨zorunlu, fields, rules, rfl⟩ := haudit.record
  refine ⟨⟨_, codexTransportSchema_record zorunlu fields rules, ?_⟩, ?_, ?_⟩
  · intro payload haccepts
    exact shape_round_trip _ false haccepts
  · intro document
    exact elide_elide _ document
  · intro document hforbidden
    rw [← Bool.not_eq_true]
    exact forbidden_refused (forbidden_elide hforbidden) _ rfl

/-- A blocked audit that leaves tests and findings out. -/
def blocked : Value :=
  .obj [("protocol_version", .str "1.0"), ("run_id", .str "run-1"), ("role", .str "evaluator"),
    ("status", .str "blocked"), ("summary", .str "no access"), ("next_action", .str "stop"),
    ("stop_reason", .str "timeout"), ("audit_kind", .str "code_audit")]

theorem blocked_round_trip :
    ∃ transport, codexTransportSchema codeAuditResultSchema = .ok transport ∧
      @Schema.accepts lengths transport (fillOptional codeAuditResultSchema blocked) = true ∧
      elideOptionalNulls codeAuditResultSchema (fillOptional codeAuditResultSchema blocked) = blocked := by
  obtain ⟨⟨transport, hcopy, hround⟩, -, -⟩ := @codex_round_trip lengths codeAuditResultSchema .code
  have haccepts : @Schema.accepts lengths codeAuditResultSchema blocked = true := by
    decide +kernel
  exact ⟨transport, hcopy, hround blocked haccepts⟩

end RagPipeline.Schemas
