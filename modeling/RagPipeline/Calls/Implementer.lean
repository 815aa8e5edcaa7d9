import RagPipeline.Lib.Transition
import Mathlib.Data.List.Basic

/-! # The threads of a call

A reader for each output pipe and a writer for the prompt. Each event is what
the pipe answers next; a thread takes no event that is not its turn. -/

set_option autoImplicit false

namespace RagPipeline.Calls

abbrev Bytes := List UInt8

inductive Label where
  | stdout
  | stderr
deriving DecidableEq, Repr

/-- How a reader ended. -/
inductive Outcome where
  | pending
  | completed
  | overflowed
  | readFailed
deriving DecidableEq, Repr

/-- Where a reader is. The outcome is assigned last, and the thread is over a
moment later. -/
inductive ReaderPhase where
  | unstarted
  | reading
  | closing (sonuc : Outcome)
  | assigned
  | ended
deriving DecidableEq, Repr

/-- `BoundedStream`. -/
structure Reader where
  total : ℕ
  outcome : Outcome
  buffer : Bytes
  phase : ReaderPhase
deriving DecidableEq, Repr

def Reader.new : Reader := ⟨0, .pending, [], .unstarted⟩

def Reader.overflowed (r : Reader) : Bool := r.outcome = .overflowed

def readChunkBytes : ℕ := 65536

inductive ReaderEvent where
  | chunk (bytes : Bytes)
  | eof
  | readRaises
  | closes
  | closeRaises
  | ends
deriving DecidableEq, Repr

/-- One event in `BoundedStream.run`, and whether it trips the call. -/
def Reader.step (limit : ℕ) (r : Reader) : ReaderEvent → Option (Reader × Bool)
  | .chunk bytes =>
    if r.phase = .reading ∧ bytes ≠ [] ∧ bytes.length ≤ readChunkBytes then
      let total := r.total + bytes.length
      if limit < total then some ({ r with total := total, phase := .closing .overflowed }, true)
      else some ({ r with total := total, buffer := r.buffer ++ bytes }, false)
    else none
  | .eof => if r.phase = .reading then some ({ r with phase := .closing .completed }, false) else none
  | .readRaises =>
    if r.phase = .reading then some ({ r with phase := .closing .readFailed }, false) else none
  | .closes =>
    match r.phase with
    | .closing sonuc => some ({ r with outcome := sonuc, phase := .assigned }, false)
    | _ => none
  | .closeRaises =>
    match r.phase with
    | .closing _ => some ({ r with outcome := .readFailed, phase := .assigned }, false)
    | _ => none
  | .ends => if r.phase = .assigned then some ({ r with phase := .ended }, false) else none

inductive WriterPhase where
  | unstarted
  | writing (remaining : Bytes)
  | closing
  | ended
deriving DecidableEq, Repr

/-- `PromptWriter`. -/
structure Writer where
  completed : Bool
  phase : WriterPhase
deriving DecidableEq, Repr

def Writer.new : Writer := ⟨false, .unstarted⟩

inductive WriterEvent where
  | wrote (count : ℕ)
  | flushed
  | raises
  | ends
deriving DecidableEq, Repr

/-- One event in `PromptWriter.run`. A write that moves nothing gives up. -/
def Writer.step (w : Writer) : WriterEvent → Option Writer
  | .wrote count =>
    match w.phase with
    | .writing remaining =>
      if remaining = [] ∨ remaining.length < count then none
      else if count = 0 then some { w with phase := .closing }
      else some { w with phase := .writing (remaining.drop count) }
    | _ => none
  | .flushed =>
    if w.phase = .writing [] then some { completed := true, phase := .closing } else none
  | .raises =>
    match w.phase with
    | .writing _ => some { w with phase := .closing }
    | _ => none
  | .ends => if w.phase = .closing then some { w with phase := .ended } else none

/-! ## What a reader's events come to -/

/-- A thread that is over takes no event. -/
theorem Reader.step_ended {limit : ℕ} {r r' : Reader} {e : ReaderEvent} {b : Bool}
    (h : r.step limit e = some (r', b)) : r.phase ≠ .ended := by
  intro hended
  cases e <;> simp [Reader.step, hended] at h

/-- No read and no close has raised, and a reader that is through says how. -/
structure Reader.Sound (r : Reader) : Prop where
  outcome : r.outcome ≠ .readFailed
  closing : r.phase ≠ .closing .readFailed ∧ r.phase ≠ .closing .pending
  assigned : r.phase = .assigned ∨ r.phase = .ended → r.outcome ≠ .pending

theorem Reader.new_sound : Reader.new.Sound := by
  constructor <;> simp [Reader.new]

theorem Reader.step_sound {limit : ℕ} {r r' : Reader} {e : ReaderEvent} {b : Bool} (hr : r.Sound)
    (he : e ≠ .readRaises ∧ e ≠ .closeRaises) (h : r.step limit e = some (r', b)) : r'.Sound := by
  obtain ⟨houtcome, hclosing, hassigned⟩ := hr
  cases e with
  | chunk bytes =>
    simp only [Reader.step] at h
    split_ifs at h with hreading hover
    · cases h
      constructor <;> simp [houtcome]
    · cases h
      constructor <;> simp [houtcome, hreading.1]
  | eof =>
    rw [Reader.step] at h
    split_ifs at h with hreading
    cases h
    constructor <;> simp [houtcome]
  | readRaises => exact absurd rfl he.1
  | closes =>
    rw [Reader.step] at h
    split at h
    · rename_i sonuc hphase
      cases h
      rw [hphase] at hclosing
      have hsonuc : sonuc ≠ .readFailed ∧ sonuc ≠ .pending := by
        constructor
        · rintro rfl
          exact hclosing.1 rfl
        · rintro rfl
          exact hclosing.2 rfl
      constructor <;> simp [hsonuc]
    · cases h
  | closeRaises => exact absurd rfl he.2
  | ends =>
    rw [Reader.step] at h
    split_ifs at h with hphase
    cases h
    constructor <;> simp [houtcome, hassigned (.inl hphase)]

/-- A sound reader that is over and did not overflow has read to the end. -/
theorem Reader.Sound.completed {r : Reader} (h : r.Sound) (hended : r.phase = .ended)
    (hover : r.outcome ≠ .overflowed) : r.outcome = .completed := by
  have hpending := h.assigned (.inr hended)
  have hfailed := h.outcome
  cases hr : r.outcome <;> simp_all

end RagPipeline.Calls

/-! # The implementer's call

`run_implementer` from the launch on: the main thread, the three threads it
starts, the child and the clock, one step at a time and in any order. -/

namespace RagPipeline.Calls
open Transition

/-! ## What the call ends with -/

structure Measurements where
  durationMs : ℕ
  stdoutBytes : ℕ
  stderrBytes : ℕ
  cleanupComplete : Bool
deriving DecidableEq, Repr

/-- `ProcessFailed` and the classes below it. -/
inductive ProcessFailure where
  | generic
  | maxBudgetReached
  | maxTurnsReached
  | structuredOutputRetriesExhausted
  | providerExecutionFailed
deriving DecidableEq, Repr

inductive AdapterError where
  | timeout (timeoutSeconds : ℕ) (exitCode : Option Int) (measured : Measurements)
  | outputLimitExceeded (stream : Label) (exitCode : Option Int) (measured : Measurements)
  | processFailed (failure : ProcessFailure) (exitCode : Int) (measured : Measurements)
  | promptNotDelivered (exitCode : Int) (measured : Measurements)
  | processTreeSurvived (exitCode : Int) (measured : Measurements)
  | schemaViolation (issue field : Option String) (exitCode : Int) (measured : Measurements)
  /-- What the host raises where a thread cannot be started. -/
  | thread
deriving DecidableEq, Repr

def AdapterError.message : AdapterError → String
  | .timeout .. => "model cagrisi sure sinirini asti"
  | .outputLimitExceeded .. => "cikti sinirini asti; surec agaci durduruldu"
  | .processFailed .generic .. => "model sureci sifirdan farkli koda dondu"
  | .processFailed .. => "model sureci bildirilen bir sinirda durdu"
  | .promptNotDelivered .. => "istem modele tamamen teslim edilemedi"
  | .processTreeSurvived .. => "model sureci kapsayicisi bosaltilamadi"
  | .schemaViolation .. => "yanit sema disi"
  | .thread => "can't start new thread"

structure ImplementerRun (Reply : Type) where
  reply : Reply
  exitCode : Int
  durationMs : ℕ
  stdoutBytes : ℕ
  stderrBytes : ℕ
  event : String
  schemaSha256 : String
deriving DecidableEq, Repr

def modelCallFinished : String := "model_call_finished"

/-- What is made of a buffer: by `_parse_reply`, and by `_envelope_failure`
where the process has failed. -/
class Judge (Reply : Type) where
  parseReply : Bytes → Except (Option String × Option String) Reply
  envelopeFailure : Bytes → ProcessFailure

/-- The canonical call. Times are in milliseconds. -/
structure Call where
  promptBytes : Bytes
  timeoutSeconds : ℕ
  maxOutputBytes : ℕ
  schemaSha256 : String
deriving DecidableEq, Repr

def reapMs : ℕ := 10000

/-! ## The state -/

inductive Thread where
  | writer
  | stdout
  | stderr
deriving DecidableEq, Repr

/-- Where the main thread is. -/
inductive Pc (Reply : Type) where
  | start (thread : Thread)
  | askTripped
  | askExited
  | askClock
  | sleep
  | grace
  | askStop
  | stop
  | drain
  | join (thread : Thread)
  | joining (thread : Thread)
  | alive
  | measure
  | checkTimeout
  | checkOverflow (label : Label)
  | wait
  | checkExit (exitCode : Int)
  | checkWriter (exitCode : Int)
  | checkDrained (exitCode : Int)
  | unwind (error : AdapterError)
  | parse (exitCode : Int)
  | returned (result : Except AdapterError (ImplementerRun Reply))
deriving DecidableEq

structure State (Reply : Type) where
  call : Call
  started : ℕ
  now : ℕ
  exit : Option Int
  tripped : Bool
  stdout : Reader
  stderr : Reader
  writer : Writer
  pc : Pc Reply
  timedOut : Bool
  grace : ℕ
  cleanupComplete : Bool
  drained : Bool
  joined : Bool
  measured : Measurements

section
variable {Reply : Type}

namespace State

def reader (s : State Reply) : Label → Reader
  | .stdout => s.stdout
  | .stderr => s.stderr

def setReader (s : State Reply) (r : Reader) : Label → State Reply
  | .stdout => { s with stdout := r }
  | .stderr => { s with stderr := r }

def ended (s : State Reply) : Thread → Bool
  | .writer => s.writer.phase = .ended
  | .stdout => s.stdout.phase = .ended
  | .stderr => s.stderr.phase = .ended

end State

/-- The child has just been started. -/
def launched (call : Call) (started : ℕ) : State Reply where
  call := call
  started := started
  now := started
  exit := none
  tripped := false
  stdout := .new
  stderr := .new
  writer := .new
  pc := .start .stdout
  timedOut := false
  grace := 0
  cleanupComplete := true
  drained := false
  joined := false
  measured := ⟨0, 0, 0, true⟩

/-- What happens next: an event of a thread, the child's exit, the clock, or a
step of the main thread, with the host's answer where it asks for one. -/
inductive Action where
  | reader (label : Label) (e : ReaderEvent)
  | writer (e : WriterEvent)
  | exits (code : Int)
  | tick (ms : ℕ)
  | main
  | host (answer : Bool)
deriving DecidableEq, Repr

/-! ## The main thread -/

section
variable [Judge Reply]

/-- The readers first, then the prompt. -/
def startThread (s : State Reply) : Thread → State Reply
  | .stdout => { s with stdout := { s.stdout with phase := .reading }, pc := .start .stderr }
  | .stderr => { s with stderr := { s.stderr with phase := .reading }, pc := .start .writer }
  | .writer => { s with writer := { s.writer with phase := .writing s.call.promptBytes }, pc := .askTripped }

/-- The next of `[writer, *streams]`. -/
def joinNext : Thread → Pc Reply
  | .writer => .join .stdout
  | .stdout => .join .stderr
  | .stderr => .alive

/-- A step at which the host answers: a thread starts, `stop` and `drain` say
whether they have done it. -/
def hostStep (s : State Reply) (answer : Bool) : Option (State Reply) :=
  match s.pc with
  | .start thread => some (if answer then startThread s thread else { s with pc := .unwind .thread })
  | .stop => some { s with cleanupComplete := answer, pc := .drain }
  | .drain =>
    some { s with drained := answer, cleanupComplete := s.cleanupComplete && answer, pc := .join .writer }
  | .unwind error => if s.drained then none else some { s with pc := .returned (.error error) }
  | _ => none

/-- A step at which nothing is asked of the host. -/
def mainStep (s : State Reply) : Option (State Reply) :=
  match s.pc with
  | .askTripped => some { s with pc := if s.tripped then .grace else .askExited }
  | .askExited => some { s with pc := if s.exit.isSome then .grace else .askClock }
  | .askClock =>
    if s.started + 1000 * s.call.timeoutSeconds ≤ s.now then
      some { s with timedOut := true, pc := .grace }
    else some { s with pc := .sleep }
  | .sleep => some { s with pc := .askTripped }
  | .grace => some { s with grace := s.now + reapMs, cleanupComplete := true, pc := .askStop }
  | .askStop => some { s with pc := if s.tripped || s.timedOut then .stop else .drain }
  | .join thread =>
    if s.grace ≤ s.now then some { s with joined := false, cleanupComplete := false, pc := .measure }
    else some { s with pc := .joining thread }
  | .joining thread =>
    if s.ended thread ∨ s.grace ≤ s.now then some { s with pc := joinNext thread } else none
  | .alive =>
    let joined := s.ended .writer && s.ended .stdout && s.ended .stderr
    some { s with joined := joined, cleanupComplete := s.cleanupComplete && joined, pc := .measure }
  | .measure =>
    some { s with
      measured := ⟨s.now - s.started, s.stdout.total, s.stderr.total, s.cleanupComplete⟩
      pc := .checkTimeout }
  | .checkTimeout =>
    some { s with pc :=
      if s.timedOut then .unwind (.timeout s.call.timeoutSeconds s.exit s.measured)
      else .checkOverflow .stdout }
  | .checkOverflow label =>
    some { s with pc :=
      if (s.reader label).overflowed then .unwind (.outputLimitExceeded label s.exit s.measured)
      else if label = .stdout then .checkOverflow .stderr else .wait }
  | .wait => s.exit.map fun code => { s with pc := .checkExit code }
  | .checkExit code =>
    let failure := if s.stdout.outcome = .completed then Judge.envelopeFailure Reply s.stdout.buffer else .generic
    some { s with pc := if code ≠ 0 then .unwind (.processFailed failure code s.measured) else .checkWriter code }
  | .checkWriter code =>
    some { s with pc :=
      if s.writer.completed then .checkDrained code
      else .unwind (.promptNotDelivered code s.measured) }
  | .checkDrained code =>
    some { s with pc :=
      if s.drained then .parse code else .unwind (.processTreeSurvived code s.measured) }
  | .unwind error => if s.drained then some { s with pc := .returned (.error error) } else none
  | .parse code =>
    some { s with pc :=
      match (Judge.parseReply s.stdout.buffer : Except _ Reply) with
      | .ok reply => .returned (.ok ⟨reply, code, s.measured.durationMs, s.measured.stdoutBytes,
          s.measured.stderrBytes, modelCallFinished, s.call.schemaSha256⟩)
      | .error (issue, field) =>
        .returned (.error (.schemaViolation issue field code { s.measured with cleanupComplete := true })) }
  | _ => none

def exec (s : State Reply) : Action → Option (State Reply)
  | .reader label e =>
    ((s.reader label).step s.call.maxOutputBytes e).map fun (r, trips) =>
      { s.setReader r label with tripped := s.tripped || trips }
  | .writer e => (s.writer.step e).map fun w => { s with writer := w }
  | .exits code => if s.exit = none then some { s with exit := some code } else none
  | .tick ms => some { s with now := s.now + ms }
  | .main => mainStep s
  | .host answer => hostStep s answer

/-- Every interleaving of a call. -/
def call : System (State Reply) Action where
  initial s := ∃ c started, s = launched c started
  step s a s' := exec s a = some s'

end
end

end RagPipeline.Calls
