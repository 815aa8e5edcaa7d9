import RagPipeline.Lib.Effects
import RagPipeline.Lib.Guard
import Mathlib.Data.Int.Notation
import RagPipeline.Lib.Transition
import Mathlib.Data.List.Infix
import Mathlib.Data.List.Nodup

/-! # The acceptance run and its receipt

One file in the state directory says what an acceptance run has come to. A call
writes it when its commands are about to start, and again at each of its ends.
What a call meets on its way is given with the call: what the change authority
derives, whether each write and each reading of the receipt succeeds, how each
command ends. -/

set_option autoImplicit false

namespace RagPipeline.Acceptance
open Guard Effects

/-- A command of the plan, with the paths the task attached to it. -/
structure Command where
  id : String
  paths : List String
deriving DecidableEq

/-- What a run is named by. -/
structure Identity where
  repoId : String
  runId : String
  workspaceId : String
  baselineSha : String
  manifestDigest : String
deriving DecidableEq

structure ChangeSet where
  changedFiles : List String
  added : ℕ
  modified : ℕ
  deleted : ℕ
  fingerprint : String
deriving DecidableEq

/-- A fresh derivation of the candidate, with the task it was derived from. -/
structure Candidate where
  changeSet : ChangeSet
  taskDigest : String
  acceptanceCommands : List Command
deriving DecidableEq

structure Verified where
  runId : String
  workspaceId : String
  baselineSha : String
  implemented : Bool
  changeSet : ChangeSet
deriving DecidableEq

inductive Status where
  | pending
  | failed
  | passed
deriving DecidableEq

structure Receipt where
  receiptId : String
  identity : Identity
  candidateFingerprint : String
  commandPlanDigest : String
  status : Status
  commandCount : ℕ
deriving DecidableEq

inductive Outcome where
  | completed
  | overflowed
  | timedOut
  | readFailed
deriving DecidableEq

structure CommandResult where
  commandId : String
  outcome : Outcome
  exitCode : ℤ
deriving DecidableEq

def CommandResult.passed (r : CommandResult) : Bool := r.outcome = .completed ∧ r.exitCode = 0

structure Report where
  runId : String
  workspaceId : String
  baselineSha : String
  passed : Bool
  commandResults : List CommandResult
  manifestDigest : String
  candidateFingerprint : String
  commandPlanDigest : String
  receiptId : String
deriving DecidableEq

inductive Refusal where
  | refused (message : String)
  | mismatch (message : String)
  | notAccepted (message : String)
  /-- Not an error of the loop: an interrupt, or the exit of the process. -/
  | interrupted
deriving DecidableEq

structure Host where
  sha256 : String → String
  canonicalPath : String → String

/-- The digest of a plan: the ids and the canonical paths, in their order. -/
def commandPlanDigest (h : Host) (references : List Command) : String :=
  h.sha256 (String.join (references.map fun c =>
    "\x00".intercalate (c.id :: c.paths.map h.canonicalPath) ++ "\n"))

/-- What one call is given and what it meets. The numbers count the askings and
the writings of the call from zero. -/
structure Attempt where
  identity : Identity
  verified : Verified
  limits : Except Refusal Unit
  derive : Except Refusal Candidate
  manifest : ℕ → Except Refusal String
  registered : Command → Bool
  binding : Except Refusal Unit
  token : String
  writes : ℕ → Except Refusal Unit
  reads : ℕ → Except Refusal Unit
  prepare : Except Refusal Unit
  run : ℕ → Except Refusal (Outcome × ℤ)
  remove : Except Refusal Unit

/-- What a call has done so far. -/
structure Call where
  token : String
  plan : List Command
  pending : Option Receipt
  results : Option (List CommandResult)
deriving DecidableEq

def Call.withPending (plan : List Command) (r : Receipt) (c : Call) : Call :=
  { c with plan := plan, pending := some r }

def Call.withResults (results : List CommandResult) (c : Call) : Call :=
  { c with results := some results }

/-- The receipt in the state directory, and the calls there have been, the last
first. -/
structure World where
  receipt : Option Receipt
  calls : List Call
deriving DecidableEq

def World.note (f : Call → Call) (w : World) : World :=
  { w with calls := w.calls.modifyHead f }

def assertCandidate (i : Identity) (v : Verified) (c : Candidate) : Except Refusal Unit := do
  require (v.runId = i.runId ∧ v.workspaceId = i.workspaceId ∧ v.baselineSha = i.baselineSha)
    (.refused "dogrulanmis degisiklik kumesi bu cagriya ait degil")
  require v.implemented
    (.refused "dogrulanmis degisiklik kumesi uygulanabilir bir sonuc degil")
  require (v.changeSet = c.changeSet) (.mismatch "aday degisiklikler taze kanitla ayni degil")

def assertManifest (a : Attempt) (k : ℕ) (expected : String) : Except Refusal Unit := do
  let digest ← a.manifest k
  require (digest = expected) (.refused "gorev dosyasi degistirildi")

/-- Everything before the first receipt. -/
def gates (a : Attempt) : Except Refusal Candidate := do
  a.limits
  let candidate ← a.derive
  assertCandidate a.identity a.verified candidate
  assertManifest a 0 candidate.taskDigest
  require (candidate.taskDigest = a.identity.manifestDigest)
    (.refused "gorev ozeti bu kosuya ait degil")
  require (∀ c ∈ candidate.acceptanceCommands, a.registered c)
    (.refused "kabul komutu cozumlenemedi")
  a.binding
  return candidate

/-- The commands in the order of the task, up to the first that does not pass. -/
def walk (a : Attempt) (digest : String) : List Command → ℕ → Except Refusal (List CommandResult)
  | [], _ => .ok []
  | c :: rest, k => do
    assertManifest a (k + 1) digest
    let (outcome, exitCode) ← a.run k
    let result : CommandResult := ⟨c.id, outcome, exitCode⟩
    if result.passed then
      let results ← walk a digest rest (k + 1)
      return result :: results
    else return [result]

/-- The disposable mirror around the commands. A mirror that cannot be removed
outranks what the commands came to. -/
def measure (a : Attempt) (candidate : Candidate) : Except Refusal (List CommandResult) := do
  a.prepare
  let results := walk a a.identity.manifestDigest candidate.acceptanceCommands 0
  a.remove
  results

/-- `_persist_receipt`: the file replaced in one step, then read back. -/
def persistReceipt (a : Attempt) (k : ℕ) (r : Receipt) (note : Call → Call) :
    Program World Refusal Unit := do
  Program.commit fun w => do
    a.writes k
    return { World.note note w with receipt := some r }
  Program.ask fun w => do
    a.reads k
    require (w.receipt = some r) (.refused "kabul makbuzu geri okunamadi")

def pendingReceipt (h : Host) (a : Attempt) (c : Candidate) : Receipt where
  receiptId := a.token
  identity := a.identity
  candidateFingerprint := c.changeSet.fingerprint
  commandPlanDigest := commandPlanDigest h c.acceptanceCommands
  status := .pending
  commandCount := c.acceptanceCommands.length

/-- The commands under the pending receipt. What they raise goes on after the
receipt has been marked failed, if it could be. -/
def underReceipt (a : Attempt) (candidate : Candidate) (receipt : Receipt) :
    Program World Refusal (List CommandResult) :=
  Program.rescue (Program.ask fun _ => measure a candidate) fun e => do
    Program.rescue (persistReceipt a 1 { receipt with status := .failed } id) fun e' =>
      if e' = .interrupted then Program.raise e' else pure ()
    Program.raise e

def allPassed (candidate : Candidate) (results : List CommandResult) : Bool :=
  results.all CommandResult.passed && results.length == candidate.acceptanceCommands.length

def runAcceptance (h : Host) (a : Attempt) : Program World Refusal Report := do
  let candidate ← Program.ask fun _ => gates a
  let receipt := pendingReceipt h a candidate
  persistReceipt a 0 receipt (Call.withPending candidate.acceptanceCommands receipt)
  let results ← underReceipt a candidate receipt
  Program.assign (World.note (Call.withResults results))
  let passed := allPassed candidate results
  persistReceipt a 2 { receipt with status := if passed then .passed else .failed } id
  return {
    runId := a.identity.runId
    workspaceId := a.identity.workspaceId
    baselineSha := a.identity.baselineSha
    passed := passed
    commandResults := results
    manifestDigest := candidate.taskDigest
    candidateFingerprint := candidate.changeSet.fingerprint
    commandPlanDigest := commandPlanDigest h candidate.acceptanceCommands
    receiptId := a.token }

theorem gates_ok {a : Attempt} {c : Candidate} (h : gates a = .ok c) :
    a.derive = .ok c ∧ a.verified.changeSet = c.changeSet := by
  simp only [gates, assertCandidate, bind_ok, exists_unit, require_ok, pure_ok] at h
  obtain ⟨-, c', hderive, ⟨-, -, hsame⟩, -, -, -, -, rfl⟩ := h
  exact ⟨hderive, hsame⟩

/-- A report speaks of the candidate that was derived for it. -/
theorem report_of_result {h : Host} {a : Attempt} {w : World} {report : Report}
    (hr : (runAcceptance h a w).result = .ok report) : ∃ c, gates a = .ok c ∧
      report.candidateFingerprint = c.changeSet.fingerprint := by
  have hlands := Program.lands_of_result hr
  simp only [runAcceptance, Program.lands_bind, Program.lands_ask, Program.lands_pure] at hlands
  obtain ⟨c, _, ⟨hc, -⟩, -, _, -, _, _, -, -, _, -, -, _, -, rfl, -⟩ := hlands
  exact ⟨c, hc, rfl⟩

/-- `_assert_report` of the application: the report against the fresh derivation. -/
def assertReport (h : Host) (i : Identity) (report : Report) (c : Candidate) :
    Except Refusal Unit := do
  require report.passed (.notAccepted "kabul raporu gecmis bir kosuyu adlamiyor")
  require (report.runId = i.runId ∧ report.workspaceId = i.workspaceId ∧
      report.baselineSha = i.baselineSha) (.notAccepted "kabul raporu bu cagriya ait degil")
  require (report.manifestDigest = i.manifestDigest ∧ report.manifestDigest = c.taskDigest)
    (.notAccepted "kabul raporu baska bir gorevi adliyor")
  require (report.candidateFingerprint = c.changeSet.fingerprint)
    (.notAccepted "kabul raporu baska bir adayi adliyor")
  require (report.commandPlanDigest = commandPlanDigest h c.acceptanceCommands)
    (.notAccepted "kabul raporu baska bir komut planini adliyor")
  require (report.commandResults.length = c.acceptanceCommands.length)
    (.notAccepted "kabul raporu eksik komut sonucu tasiyor")
  require (∀ p ∈ report.commandResults.zip c.acceptanceCommands,
      p.1.commandId = p.2.id ∧ p.1.passed)
    (.notAccepted "kabul komut sonuclari plani karsilamiyor")

/-- `_assert_receipt` of the application: the receipt on the disk. -/
def assertReceipt (h : Host) (i : Identity) (report : Report) (c : Candidate) (w : World) :
    Except Refusal Unit := do
  let receipt ← demand w.receipt (.notAccepted "kabul makbuzu yok")
  require (receipt.status = .passed) (.notAccepted "kabul makbuzu gecmis bir kosuyu adlamiyor")
  require (receipt.identity = i ∧ receipt.candidateFingerprint = c.changeSet.fingerprint ∧
      receipt.commandPlanDigest = commandPlanDigest h c.acceptanceCommands ∧
      receipt.commandCount = c.acceptanceCommands.length)
    (.notAccepted "kabul makbuzu bu adayi adlamiyor")
  require (receipt.receiptId = report.receiptId) (.notAccepted "kabul raporu makbuzla eslesmiyor")

/-- The receipt check of an application: what `apply_accepted_candidate` asks of
a fresh derivation, the report and the receipt. -/
def receiptCheck (h : Host) (i : Identity) (v : Verified) (report : Report) (c : Candidate)
    (w : World) : Except Refusal Unit := do
  assertCandidate i v c
  assertReport h i report c
  assertReceipt h i report c w

/-- What an application goes by is a passed receipt of this candidate. -/
theorem receiptCheck_ok {h : Host} {i : Identity} {v : Verified} {report : Report} {c : Candidate}
    {w : World} (hc : receiptCheck h i v report c w = .ok ()) :
    v.changeSet = c.changeSet ∧ ∃ r, w.receipt = some r ∧ r.status = .passed ∧
      r.candidateFingerprint = c.changeSet.fingerprint := by
  simp only [receiptCheck, assertCandidate, assertReceipt, bind_ok, exists_unit, demand_ok,
    require_ok] at hc
  obtain ⟨⟨-, -, hsame⟩, -, r, hr, hstatus, ⟨-, hfingerprint, -⟩, -⟩ := hc
  exact ⟨hsame, r, hr, hstatus, hfingerprint⟩

end RagPipeline.Acceptance

/-! # The receipt speaks of the last call that wrote one

Calls follow each other under the lock of the repository, each ended or dead at
any point. The receipt on the disk always belongs to the last call that came to
write its pending receipt, and it says `passed` only when every command of that
call's plan had exited zero. -/

set_option autoImplicit false

namespace RagPipeline.Acceptance
open Guard Effects Program Transition

variable {h : Host} {a : Attempt} {candidate : Candidate} {w t : World}

def World.started (w : World) (a : Attempt) : World :=
  { w with calls := ⟨a.token, [], none, none⟩ :: w.calls }

/-- One call after another. `token_hex` never comes twice. -/
def receipts (h : Host) : System World Attempt where
  initial w := w = ⟨none, []⟩
  step w a w' := (∀ c ∈ w.calls, c.token ≠ a.token) ∧
    (w' ∈ (runAcceptance h a).crashes (w.started a) ∨
      w' = (runAcceptance h a (w.started a)).state)

/-- The last call that wrote its pending receipt. -/
def World.latest (w : World) : Option Call := w.calls.find? fun c => c.pending.isSome

/-- Every command of the plan ran, in order, and exited zero. -/
def Call.passed (c : Call) : Prop :=
  ∃ results, c.results = some results ∧
    results.map CommandResult.commandId = c.plan.map Command.id ∧
    ∀ r ∈ results, r.outcome = .completed ∧ r.exitCode = 0

theorem walk_ids {digest : String} {commands : List Command} {k : ℕ}
    {results : List CommandResult} (hw : walk a digest commands k = .ok results) :
    results.map CommandResult.commandId <+: commands.map Command.id := by
  induction commands generalizing k results with
  | nil =>
    obtain rfl := Except.ok.inj hw
    exact List.nil_prefix
  | cons c rest ih =>
    simp only [walk, bind_ok, exists_unit] at hw
    obtain ⟨-, ⟨outcome, exitCode⟩, -, hw⟩ := hw
    split at hw
    · simp only [bind_ok, pure_ok] at hw
      obtain ⟨tail, htail, rfl⟩ := hw
      exact List.cons_prefix_cons.2 ⟨rfl, ih htail⟩
    · obtain rfl := pure_ok.1 hw
      exact List.cons_prefix_cons.2 ⟨rfl, List.nil_prefix⟩

/-- What `run_acceptance` calls passed is that every command of the plan exited
zero. -/
theorem allPassed_results {results : List CommandResult}
    (hm : measure a candidate = .ok results) (hp : allPassed candidate results = true) :
    results.map CommandResult.commandId = candidate.acceptanceCommands.map Command.id ∧
      ∀ r ∈ results, r.outcome = .completed ∧ r.exitCode = 0 := by
  simp only [measure, bind_ok, exists_unit] at hm
  simp only [allPassed, Bool.and_eq_true, List.all_eq_true, beq_iff_eq] at hp
  refine ⟨(walk_ids hm.2.2).eq_of_length (by simpa using hp.2), fun r hr => ?_⟩
  simpa [CommandResult.passed] using hp.1 r hr

/-- The receipt and the calls agree. -/
def Agree (h : Host) (w : World) : Prop :=
  match w.latest with
  | none => w.receipt = none
  | some c => ∃ r s, c.pending = some r ∧ w.receipt = some { r with status := s } ∧
      r.receiptId = c.token ∧ r.commandPlanDigest = commandPlanDigest h c.plan ∧
      (s = .passed → c.passed)

/-- Past its pending receipt a call changes the status of that receipt only. -/
def Underway (h : Host) (a : Attempt) (candidate : Candidate) (old : List Call) (w : World) :
    Prop :=
  ∃ s results, w.receipt = some { pendingReceipt h a candidate with status := s } ∧
    w.calls = ⟨a.token, candidate.acceptanceCommands, some (pendingReceipt h a candidate),
      results⟩ :: old ∧
    (s = .passed → ∃ rs, results = some rs ∧ measure a candidate = .ok rs ∧
      allPassed candidate rs = true)

/-- The agreement after a step of a call, the calls being known by their tokens. -/
def Kept (h : Host) (a : Attempt) (w t : World) : Prop :=
  Agree h t ∧ t.calls.map Call.token = a.token :: w.calls.map Call.token

theorem Underway.agree {old : List Call} (hu : Underway h a candidate old w) : Agree h w := by
  obtain ⟨s, results, hreceipt, hcalls, hpassed⟩ := hu
  unfold Agree World.latest
  rw [hcalls]
  refine ⟨_, s, rfl, hreceipt, rfl, rfl, fun hs => ?_⟩
  obtain ⟨rs, rfl, hm, hp⟩ := hpassed hs
  exact ⟨rs, rfl, allPassed_results hm hp⟩

theorem Underway.kept (hu : Underway h a candidate w.calls t) : Kept h a w t := by
  refine ⟨hu.agree, ?_⟩
  obtain ⟨s, results, -, hcalls, -⟩ := hu
  rw [hcalls]
  rfl

theorem kept_started (hw : Agree h w) : Kept h a w (w.started a) := ⟨hw, rfl⟩

theorem ensures_persist {C : World → Prop} {k : ℕ} {r : Receipt} {note : Call → Call}
    (hstay : C w) (hwritten : C { World.note note w with receipt := some r }) :
    (persistReceipt a k r note).Ensures w C (fun _ => C) (fun _ => C) := by
  refine ensures_bind (R := fun _ => C) (ensures_commit _ ?_ fun _ _ => hstay) ?_
  · intro s' hs'
    simp only [bind_ok, exists_unit, pure_ok] at hs'
    exact hs'.2 ▸ ⟨hwritten, hwritten⟩
  · exact fun _ u hu => ensures_ask _ (fun _ _ => hu) fun _ _ => hu

theorem note_id (w : World) : World.note id w = w := by
  cases w with
  | mk receipt calls => cases calls <;> rfl

theorem Underway.restamp {old : List Call} {s : Status} (hu : Underway h a candidate old w)
    (hs : s ≠ .passed) : Underway h a candidate old
      { World.note id w with receipt := some { pendingReceipt h a candidate with status := s } } := by
  obtain ⟨_, results, -, hcalls, -⟩ := hu
  refine ⟨s, results, rfl, ?_, fun he => absurd he hs⟩
  rw [note_id]
  exact hcalls

theorem ensures_underReceipt {old : List Call} (hw : Underway h a candidate old w) :
    (underReceipt a candidate (pendingReceipt h a candidate)).Ensures w
      (Underway h a candidate old)
      (fun rs t => Underway h a candidate old t ∧ measure a candidate = .ok rs)
      (fun _ => Underway h a candidate old) := by
  refine ensures_rescue (F := fun _ t => t = w)
    (ensures_ask _ (fun rs hrs => ⟨hw, hrs⟩) fun _ _ => rfl) ?_
  intro e t ht
  rw [ht]
  refine ensures_bind (R := fun _ => Underway h a candidate old) ?_
    fun _ u hu => ensures_raise _ hu
  refine ensures_rescue (F := fun _ => Underway h a candidate old)
    (ensures_persist hw (hw.restamp (by decide))) ?_
  intro e' u hu
  split
  · exact ensures_raise _ hu
  · exact ensures_return _ hu

/-- Wherever a call is cut, and however it ends. -/
theorem ensures_runAcceptance (hw : Agree h w) :
    (runAcceptance h a).Ensures (w.started a) (Kept h a w) (fun _ => Kept h a w)
      (fun _ => Kept h a w) := by
  have hstarted : Kept h a w (w.started a) := kept_started hw
  refine ensures_bind (ensures_ask (Q := fun _ t => t = w.started a) _ (fun _ _ => rfl)
    fun _ _ => hstarted) ?_
  intro candidate t ht
  rw [ht]
  have hpending : Underway h a candidate w.calls
      { World.note (Call.withPending candidate.acceptanceCommands
          (pendingReceipt h a candidate)) (w.started a) with
        receipt := some (pendingReceipt h a candidate) } :=
    ⟨.pending, none, rfl, rfl, fun hs => nomatch hs⟩
  refine ensures_bind (R := fun _ => Underway h a candidate w.calls) ?_ ?_
  · refine ensures_bind (R := fun _ => Underway h a candidate w.calls)
      (ensures_commit _ ?_ fun _ _ => hstarted) ?_
    · intro s' hs'
      simp only [bind_ok, exists_unit, pure_ok] at hs'
      exact hs'.2 ▸ ⟨hpending.kept, hpending⟩
    · exact fun _ u hu => ensures_ask _ (fun _ _ => hu) fun _ _ => hu.kept
  intro _ u hu
  refine ensures_bind (ensures_mono (ensures_underReceipt hu) (fun _ hv => hv.kept)
    (fun _ _ hv => hv) fun _ _ hv => hv.kept) ?_
  rintro results v ⟨hv, hm⟩
  have hnoted : Underway h a candidate w.calls
      (World.note (Call.withResults results) v) ∧
      (World.note (Call.withResults results) v).calls.head? =
        some ⟨a.token, candidate.acceptanceCommands, some (pendingReceipt h a candidate),
          some results⟩ := by
    obtain ⟨s, old, hreceipt, hcalls, hpassed⟩ := hv
    refine ⟨⟨s, some results, hreceipt, ?_, fun hs => ?_⟩, ?_⟩
    · simp [World.note, Call.withResults, hcalls]
    · obtain ⟨rs, -, hrs, hall⟩ := hpassed hs
      obtain rfl : results = rs := Except.ok.inj (hm.symm.trans hrs)
      exact ⟨results, rfl, hm, hall⟩
    · simp [World.note, Call.withResults, hcalls]
  refine ensures_bind (R := fun _ t => Underway h a candidate w.calls t ∧ t.calls.head? =
    some ⟨a.token, candidate.acceptanceCommands, some (pendingReceipt h a candidate),
      some results⟩) (ensures_assign _ hnoted) ?_
  rintro _ x ⟨hx, hhead⟩
  refine ensures_bind (R := fun _ => Kept h a w) (ensures_persist hx.kept ?_)
    fun _ y hy => ensures_return _ hy
  cases hall : allPassed candidate results with
  | false => exact (hx.restamp (s := .failed) (by decide)).kept
  | true =>
    obtain ⟨_, old, -, hcalls, -⟩ := hx
    rw [hcalls] at hhead
    obtain rfl : old = some results := by simpa using hhead
    have hdone : Underway h a candidate w.calls { World.note id x with
        receipt := some { pendingReceipt h a candidate with status := .passed } } :=
      ⟨.passed, some results, rfl, by rw [note_id]; exact hcalls,
        fun _ => ⟨results, rfl, hm, hall⟩⟩
    exact hdone.kept

/-- The agreement, and that a token names one call. -/
def Sound (h : Host) (w : World) : Prop := Agree h w ∧ (w.calls.map Call.token).Nodup

theorem reachable_sound (hw : (receipts h).Reachable w) : Sound h w := by
  refine System.invariant ?_ ?_ hw
  · rintro _ rfl
    exact ⟨rfl, List.nodup_nil⟩
  · rintro w a w' - ⟨hagree, hnodup⟩ ⟨hfresh, hw'⟩
    have hensures := ensures_runAcceptance (a := a) hagree
    have hkept : Kept h a w w' := by
      rcases hw' with hcrash | rfl
      · exact ensures_crashes hensures (kept_started hagree) _ hcrash
      · have hend := hensures.2
        cases hr : (runAcceptance h a (w.started a)).result with
        | ok report =>
          rw [hr] at hend
          exact hend
        | error e =>
          rw [hr] at hend
          exact hend
    refine ⟨hkept.1, ?_⟩
    rw [hkept.2]
    refine List.nodup_cons.2 ⟨fun hmem => ?_, hnodup⟩
    obtain ⟨c, hc, htoken⟩ := List.mem_map.1 hmem
    exact hfresh c hc htoken

/-- Whatever calls came and wherever they died: an application's receipt check
accepts only the report of the last call that wrote a pending receipt, and only
if every command of its plan exited zero on this candidate and this plan. -/
theorem accepted_latest (hw : (receipts h).Reachable w) {i : Identity} {v : Verified}
    {report : Report} {c : Candidate} (hc : receiptCheck h i v report c w = .ok ()) :
    ∃ call r, w.latest = some call ∧ call.pending = some r ∧ call.passed ∧
      r.candidateFingerprint = c.changeSet.fingerprint ∧
      commandPlanDigest h call.plan = commandPlanDigest h c.acceptanceCommands ∧
      w.receipt = some { r with status := .passed } ∧
      report.receiptId = call.token ∧
      ∀ other ∈ w.calls, other.token = report.receiptId → other = call := by
  obtain ⟨hagree, hnodup⟩ := reachable_sound hw
  simp only [receiptCheck, assertReceipt, bind_ok, exists_unit, demand_ok, require_ok] at hc
  obtain ⟨-, -, receipt, hreceipt, hstatus, ⟨-, hfingerprint, hplan, -⟩, hid⟩ := hc
  unfold Agree at hagree
  cases hlatest : w.latest with
  | none =>
    rw [hlatest] at hagree
    rw [hagree] at hreceipt
    cases hreceipt
  | some call =>
    rw [hlatest] at hagree
    obtain ⟨r, s, hpending, hstored, htoken, hdigest, hpassed⟩ := hagree
    obtain rfl := Option.some.inj (hstored.symm.trans hreceipt)
    obtain rfl : s = .passed := hstatus
    have hsame : report.receiptId = call.token := hid.symm.trans htoken
    refine ⟨call, r, rfl, hpending, hpassed rfl, hfingerprint, hdigest.symm.trans hplan, hstored,
      hsame, fun other hother hid' => ?_⟩
    exact List.inj_on_of_nodup_map hnodup hother (List.mem_of_find?_eq_some hlatest)
      (hid'.trans hsame)

def sampleIdentity : Identity where
  repoId := "depo"
  runId := "kosu-1"
  workspaceId := "alan-1"
  baselineSha := "taban"
  manifestDigest := "gorev"

def sampleChanges : ChangeSet := ⟨["pipeline/a.py"], 0, 1, 0, "aday"⟩

def sampleCandidate : Candidate := ⟨sampleChanges, "gorev", [⟨"pytest_full", []⟩]⟩

def sampleVerified : Verified := ⟨"kosu-1", "alan-1", "taban", true, sampleChanges⟩

def sampleHost : Host where
  sha256 _ := "4460edc9059a4e200959ea4d05e1d7e225f51755dfdd9699cad8f580f1d074f8"
  canonicalPath := id

/-- A call in which nothing goes wrong. -/
def greenAttempt : Attempt where
  identity := sampleIdentity
  verified := sampleVerified
  limits := .ok ()
  derive := .ok sampleCandidate
  manifest _ := .ok "gorev"
  registered _ := true
  binding := .ok ()
  token := "bir"
  writes _ := .ok ()
  reads _ := .ok ()
  prepare := .ok ()
  run _ := .ok (.completed, 0)
  remove := .ok ()

/-- A second call that is cut down in the derivation of its candidate. -/
def cutAttempt : Attempt := { greenAttempt with token := "iki", derive := .error .interrupted }

def greenWorld : World :=
  (runAcceptance sampleHost greenAttempt (World.started ⟨none, []⟩ greenAttempt)).state

def cutWorld : World := greenWorld.started cutAttempt

def greenReport : Report where
  runId := "kosu-1"
  workspaceId := "alan-1"
  baselineSha := "taban"
  passed := true
  commandResults := [⟨"pytest_full", .completed, 0⟩]
  manifestDigest := "gorev"
  candidateFingerprint := "aday"
  commandPlanDigest := sampleHost.sha256 "pytest_full\n"
  receiptId := "bir"

theorem greenWorld_reachable : (receipts sampleHost).Reachable greenWorld :=
  .next (.start rfl) (a := greenAttempt) ⟨fun _ hc => (nomatch hc), .inr rfl⟩

theorem cutWorld_reachable : (receipts sampleHost).Reachable cutWorld :=
  .next greenWorld_reachable (a := cutAttempt)
    ⟨by decide, .inl List.mem_cons_self⟩

theorem accepted_latest_green : ∃ call r, greenWorld.latest = some call ∧
    call.pending = some r ∧ call.passed ∧
    r.candidateFingerprint = sampleCandidate.changeSet.fingerprint ∧
    commandPlanDigest sampleHost call.plan =
      commandPlanDigest sampleHost sampleCandidate.acceptanceCommands ∧
    greenWorld.receipt = some { r with status := .passed } ∧
    greenReport.receiptId = call.token ∧
    ∀ other ∈ greenWorld.calls, other.token = greenReport.receiptId → other = call :=
  accepted_latest (i := sampleIdentity) (v := sampleVerified) (c := sampleCandidate)
    greenWorld_reachable (by decide)

/-- A call that has started and died before its pending receipt leaves the pass
of the call before it standing. -/
theorem earlier_pass_accepted : (receipts sampleHost).Reachable cutWorld ∧
    cutWorld.calls.head? = some ⟨"iki", [], none, none⟩ ∧
    receiptCheck sampleHost sampleIdentity sampleVerified greenReport sampleCandidate cutWorld =
      .ok () :=
  ⟨cutWorld_reachable, by decide, by decide⟩

end RagPipeline.Acceptance
