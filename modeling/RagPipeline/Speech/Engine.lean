import RagPipeline.Lib.Transition
import Mathlib.Data.List.Basic
import RagPipeline.Lib.Table
import Mathlib.Data.Option.Basic

/-! # The speech engine

One model, one worker thread, one slot. The event loop and the worker take turns
in any order: every label is one stretch of code without a suspension in it, and
says what the environment has decided about it. A request is known by its place
in the list of all requests there have been. -/

set_option autoImplicit false

namespace RagPipeline.Speech
open Transition

structure Limits where
  maxUploadBytes : ℕ
  maxWaiting : ℕ

def defaultLimits : Limits := ⟨25 * 1024 * 1024, 2⟩

/-- Where the request's own task stands. -/
inductive Phase where
  | staging
  | waiting
  | awaiting
  | over
deriving DecidableEq

/-- Where its job stands. `handing` is a job whose `_run` has ended and whose
release of the slot the event loop has still to carry out. -/
inductive Job where
  | none
  | pending
  | running
  | handing
  | done
  | cancelled
deriving DecidableEq

structure Request where
  phase : Phase
  job : Job
  /-- The staged file is on the disk. -/
  file : Bool
deriving DecidableEq

inductive Executor where
  | accepting
  /-- `close` waits for the worker, and the event loop with it. -/
  | closing
  | closed
deriving DecidableEq

structure Engine where
  model : Bool
  /-- The free count of the semaphore. -/
  free : ℕ
  waiting : ℕ
  executor : Executor
  requests : List Request
deriving DecidableEq

def Request.removed (r : Request) : Request := { r with file := false }

def Request.ended (r : Request) : Request := { r with phase := .over }

def Request.onJob (job : Job) (r : Request) : Request := { r with job := job }

/-- Submitted, and the slot not handed back. -/
def Request.unfinished (r : Request) : Bool :=
  r.job = .pending ∨ r.job = .running ∨ r.job = .handing

def Request.waits (r : Request) : Bool := r.phase = .waiting

def Engine.put (i : ℕ) (r : Request) (s : Engine) : Engine :=
  { s with requests := s.requests.set i r }

def Engine.withWaiting (n : ℕ) (s : Engine) : Engine := { s with waiting := n }

def Engine.withFree (n : ℕ) (s : Engine) : Engine := { s with free := n }

inductive StageError where
  | uploadTooLarge
  | invalidAudio
  | readFailed
deriving DecidableEq

/-- The loop of `_stage` over what the reads of the upload give. -/
def stage (limits : Limits) : List (Option ℕ) → ℕ → Except StageError ℕ
  | [], total => if total = 0 then .error .invalidAudio else .ok total
  | none :: _, _ => .error .readFailed
  | some 0 :: _, total => if total = 0 then .error .invalidAudio else .ok total
  | some (n + 1) :: rest, total =>
    if limits.maxUploadBytes < total + (n + 1) then .error .uploadTooLarge
    else stage limits rest (total + (n + 1))

/-- `transcribe` up to its wait for the slot. -/
def Engine.transcribe (limits : Limits) (i : ℕ) (r : Request) (s : Engine) : Engine :=
  if s.model = false then s.put i r.removed.ended
  else if limits.maxWaiting ≤ s.waiting then s.put i r.removed.ended
  else (s.put i ⟨.waiting, r.job, r.file⟩).withWaiting (s.waiting + 1)

/-- The slot is taken and the job submitted. An executor that was shut down
refuses it, and the request is left with the slot. -/
def Engine.submit (i : ℕ) (r : Request) (s : Engine) : Engine :=
  let s' := (s.withFree (s.free - 1)).withWaiting (s.waiting - 1)
  if s.executor = .accepting then s'.put i ⟨.awaiting, .pending, r.file⟩
  else s'.put i r.removed.ended

/-- The wait for the slot ends without it. -/
def Engine.giveUp (i : ℕ) (r : Request) (s : Engine) : Engine :=
  (s.put i r.removed.ended).withWaiting (s.waiting - 1)

def Request.cancelPending (r : Request) : Request :=
  if r.job = .pending then r.onJob .cancelled else r

/-- `shutdown(cancel_futures=True)`: the jobs that have not started never will. -/
def Engine.shutdown (s : Engine) : Engine :=
  { s with executor := .closing, requests := s.requests.map Request.cancelPending }

inductive Label where
  /-- A request has its file, still empty. -/
  | arrive
  | upload (i : ℕ) (reads : List (Option ℕ))
  | granted (i : ℕ)
  | queueTimeout (i : ℕ)
  | cancel (i : ℕ)
  /-- The worker takes the job up, and ends it: with a text, a probe that
  refuses or a model that fails. -/
  | start (i : ℕ)
  | finish (i : ℕ)
  | release (i : ℕ)
  | answered (i : ℕ)
  | transcribeTimeout (i : ℕ)
  | close
  | closed
deriving DecidableEq

/-- What the event loop does. -/
def loopStep (limits : Limits) (s : Engine) : Label → Option Engine
  | .arrive => some { s with requests := s.requests ++ [⟨.staging, .none, true⟩] }
  | .upload i reads => do
    let r ← s.requests[i]?
    guard (r.phase = .staging)
    match stage limits reads 0 with
    | .ok _ => return s.transcribe limits i r
    | .error _ => return s.put i r.removed.ended
  | .granted i => do
    let r ← s.requests[i]?
    guard (r.phase = .waiting ∧ 0 < s.free)
    return s.submit i r
  | .queueTimeout i => do
    let r ← s.requests[i]?
    guard (r.phase = .waiting)
    return s.giveUp i r
  | .cancel i => do
    let r ← s.requests[i]?
    match r.phase with
    | .staging => return s.put i r.removed.ended
    | .waiting => return s.giveUp i r
    | .awaiting => return s.put i r.ended
    | .over => failure
  | .release i => do
    let r ← s.requests[i]?
    guard (r.job = .handing)
    return (s.put i (r.onJob .done)).withFree (s.free + 1)
  | .answered i => do
    let r ← s.requests[i]?
    guard (r.phase = .awaiting ∧ (r.job = .handing ∨ r.job = .done ∨ r.job = .cancelled))
    return s.put i r.ended
  | .transcribeTimeout i => do
    let r ← s.requests[i]?
    guard (r.phase = .awaiting)
    return s.put i r.ended
  | .close => do
    guard (s.executor = .accepting)
    return s.shutdown
  | _ => none

/-- One step: the worker at any time, the event loop unless `close` holds it. -/
def step (limits : Limits) (s : Engine) : Label → Option Engine
  | .start i => do
    let r ← s.requests[i]?
    guard (r.job = .pending ∧ ∀ q ∈ s.requests, q.job ≠ .running)
    return s.put i (r.onJob .running)
  | .finish i => do
    let r ← s.requests[i]?
    guard (r.job = .running)
    return s.put i (r.removed.onJob .handing)
  | .closed => do
    guard (s.executor = .closing ∧ ∀ q ∈ s.requests, q.job ≠ .running)
    return { s with executor := .closed, model := false }
  | l => do
    guard (s.executor ≠ .closing)
    loopStep limits s l

/-- The engine after `load`, which may have failed. -/
def loaded (model : Bool) : Engine := ⟨model, 1, 0, .accepting, []⟩

def speech (limits : Limits) : System Engine Label where
  initial s := ∃ model, s = loaded model
  step s l s' := step limits s l = some s'

end RagPipeline.Speech

/-! # The slot and the staged files

Every turn changes one request and the two counters with it, so the invariant is
kept turn by turn by accounting for that request alone. A shutdown that finds a
job unstarted, and a caller that is granted the slot after it, are the two turns
that break the account. -/

namespace RagPipeline.Speech
open Transition Table

variable {limits : Limits} {s s' : Engine} {r q : Request} {i : ℕ} {l : Label}

/-- The request and its job, if there is one, are over. -/
def Request.gone (r : Request) : Prop :=
  r.phase = .over ∧ (r.job = .none ∨ r.job = .done ∨ r.job = .cancelled)

/-- What is claimed of every state. -/
structure Kept (limits : Limits) (s : Engine) : Prop where
  slot : s.free + s.requests.countP Request.unfinished = 1
  waiting : s.waiting = s.requests.countP Request.waits
  bound : s.waiting ≤ limits.maxWaiting
  files : ∀ r ∈ s.requests, r.gone → r.file = false

/-- Who owns what of a request: no job before the submission, and a file only
with a request or a job that will remove it. -/
structure Request.Owned (r : Request) : Prop where
  unsubmitted : r.phase = .staging ∨ r.phase = .waiting → r.job = .none
  file : r.file = true → r.phase = .staging ∨ r.phase = .waiting ∨ r.job = .pending ∨
    r.job = .running

structure Sound (limits : Limits) (s : Engine) : Prop where
  slot : s.free + s.requests.countP Request.unfinished = 1
  waiting : s.waiting = s.requests.countP Request.waits
  bound : s.waiting ≤ limits.maxWaiting
  owned : ∀ r ∈ s.requests, r.Owned

theorem Sound.kept (h : Sound limits s) : Kept limits s where
  slot := h.slot
  waiting := h.waiting
  bound := h.bound
  files r hr hgone := by
    cases hfile : r.file with
    | false => rfl
    | true =>
      obtain ⟨hphase, hjob⟩ := hgone
      have howner := (h.owned r hr).file hfile
      rw [hphase] at howner
      rcases hjob with hjob | hjob | hjob <;> simp [hjob] at howner

/-- One request is changed and the counters follow it. -/
theorem Sound.change {t : Engine} (h : Sound limits s) (hr : s.requests[i]? = some r)
    (hrequests : t.requests = s.requests.set i q) (hq : q.Owned)
    (hslot : t.free + q.unfinished.toNat = s.free + r.unfinished.toNat)
    (hwaiting : t.waiting + r.waits.toNat = s.waiting + q.waits.toNat)
    (hbound : t.waiting ≤ limits.maxWaiting) : Sound limits t where
  slot := by
    have hcount := countP_set (p := Request.unfinished) (b := q) hr
    have hbefore := h.slot
    rw [hrequests]
    omega
  waiting := by
    have hcount := countP_set (p := Request.waits) (b := q) hr
    have hbefore := h.waiting
    rw [hrequests]
    omega
  bound := hbound
  owned := by
    rw [hrequests]
    exact forall_mem_set h.owned hq

theorem Sound.request (h : Sound limits s) (hr : s.requests[i]? = some r) : r.Owned :=
  h.owned r (List.mem_of_getElem? hr)

theorem Request.Owned.no_file (h : r.Owned) (hsubmitted : r.job ≠ .none) (hp : r.job ≠ .pending)
    (hr : r.job ≠ .running) : r.file = false := by
  cases hfile : r.file with
  | false => rfl
  | true =>
    rcases h.file hfile with hphase | hphase | hjob | hjob
    · exact absurd (h.unsubmitted (.inl hphase)) hsubmitted
    · exact absurd (h.unsubmitted (.inr hphase)) hsubmitted
    · exact absurd hjob hp
    · exact absurd hjob hr

/-- A request that has not submitted a job leaves, and its file with it. -/
theorem owned_left (hjob : r.job = .none) : r.removed.ended.Owned :=
  ⟨fun _ => hjob, fun hfile => by cases hfile⟩

theorem unfinished_of_none (hjob : r.job = .none) : r.unfinished = false := by
  simp [Request.unfinished, hjob]

theorem Sound.leaveStaging (h : Sound limits s) (hr : s.requests[i]? = some r)
    (hphase : r.phase = .staging) : Sound limits (s.put i r.removed.ended) := by
  have hjob := (h.request hr).unsubmitted (.inl hphase)
  refine h.change hr rfl (owned_left hjob) rfl ?_ h.bound
  simp [Engine.put, Request.waits, Request.removed, Request.ended, hphase]

theorem Sound.transcribe (h : Sound limits s) (hr : s.requests[i]? = some r)
    (hphase : r.phase = .staging) : Sound limits (s.transcribe limits i r) := by
  have hjob := (h.request hr).unsubmitted (.inl hphase)
  unfold Engine.transcribe
  split
  · exact h.leaveStaging hr hphase
  · split
    · exact h.leaveStaging hr hphase
    · refine h.change (q := ⟨.waiting, r.job, r.file⟩) hr rfl
        ⟨fun _ => hjob, fun _ => .inr (.inl rfl)⟩ rfl ?_ ?_
      · simp [Engine.withWaiting, Request.waits, hphase]
      · change s.waiting + 1 ≤ _
        omega

/-- A caller in the queue is counted there. -/
theorem Sound.one_waits (h : Sound limits s) (hr : s.requests[i]? = some r)
    (hphase : r.phase = .waiting) : 0 < s.waiting := by
  rw [h.waiting, List.countP_pos_iff]
  exact ⟨r, List.mem_of_getElem? hr, by simp [Request.waits, hphase]⟩

theorem Sound.giveUp (h : Sound limits s) (hr : s.requests[i]? = some r)
    (hphase : r.phase = .waiting) : Sound limits (s.giveUp i r) := by
  have hjob := (h.request hr).unsubmitted (.inr hphase)
  have hpos := h.one_waits hr hphase
  have hbound := h.bound
  refine h.change hr rfl (owned_left hjob) rfl ?_ ?_
  · simp only [Engine.giveUp, Engine.withWaiting, Request.waits, Request.removed, Request.ended,
      hphase]
    simp
    omega
  · change s.waiting - 1 ≤ _
    omega

theorem Sound.submit (h : Sound limits s) (hr : s.requests[i]? = some r)
    (hphase : r.phase = .waiting) (hfree : 0 < s.free) (hopen : s.executor = .accepting) :
    Sound limits (s.submit i r) := by
  have hjob := (h.request hr).unsubmitted (.inr hphase)
  have hpos := h.one_waits hr hphase
  have hbound := h.bound
  unfold Engine.submit
  rw [if_pos hopen]
  refine h.change (q := ⟨.awaiting, .pending, r.file⟩) hr rfl
    ⟨fun hp => (by rcases hp with hp | hp <;> cases hp), fun _ => .inr (.inr (.inl rfl))⟩ ?_ ?_ ?_
  · rw [unfinished_of_none hjob]
    change s.free - 1 + 1 = s.free + 0
    omega
  · simp only [Request.waits, hphase]
    change s.waiting - 1 + 1 = s.waiting + 0
    omega
  · change s.waiting - 1 ≤ _
    omega

/-- The task of a submitted request ends, whatever its job does. -/
theorem Sound.leaveAwaiting (h : Sound limits s) (hr : s.requests[i]? = some r)
    (hphase : r.phase = .awaiting) : Sound limits (s.put i r.ended) := by
  refine h.change hr rfl ⟨fun hp => ?_, fun hfile => ?_⟩ rfl ?_ h.bound
  · rcases hp with hp | hp <;> cases hp
  · have howner := (h.request hr).file hfile
    rw [hphase] at howner
    simpa [Request.ended] using howner
  · simp [Engine.put, Request.waits, Request.ended, hphase]

/-- A turn of the worker or of the hand-over. -/
theorem Sound.onJob {job : Job} {t : Engine} (h : Sound limits s) (hr : s.requests[i]? = some r)
    (hsubmitted : r.job ≠ .none) (hrequests : t.requests = s.requests.set i q)
    (hq : q.phase = r.phase ∧ q.job = job) (hfile : q.file = true → job = .running)
    (hslot : t.free + q.unfinished.toNat = s.free + r.unfinished.toNat)
    (hwaiting : t.waiting = s.waiting) : Sound limits t := by
  have hphase : ¬ (r.phase = .staging ∨ r.phase = .waiting) := fun hp =>
    hsubmitted ((h.request hr).unsubmitted hp)
  refine h.change hr hrequests ⟨fun hp => ?_, fun hf => ?_⟩ hslot ?_ ?_
  · rw [hq.1] at hp
    exact absurd hp hphase
  · exact .inr (.inr (.inr (hq.2.trans (hfile hf))))
  · simp [Request.waits, hq.1, hwaiting]
  · rw [hwaiting]
    exact h.bound

theorem Sound.arrive (h : Sound limits s) :
    Sound limits { s with requests := s.requests ++ [⟨.staging, .none, true⟩] } where
  slot := by simpa [Request.unfinished] using h.slot
  waiting := by simpa [Request.waits] using h.waiting
  bound := h.bound
  owned r hr := by
    rcases List.mem_append.1 hr with hr | hr
    · exact h.owned r hr
    · obtain rfl := List.mem_singleton.1 hr
      exact ⟨fun _ => rfl, fun _ => .inl rfl⟩

/-- A shutdown that finds no job unstarted changes no request. -/
theorem Sound.shutdown (h : Sound limits s) (hstarted : ∀ r ∈ s.requests, r.job ≠ .pending) :
    Sound limits s.shutdown := by
  have hsame : s.requests.map Request.cancelPending = s.requests := by
    conv_rhs => rw [← List.map_id s.requests]
    exact List.map_congr_left fun r hr => if_neg (hstarted r hr)
  constructor
  · change s.free + (s.requests.map _).countP _ = 1
    rw [hsame]
    exact h.slot
  · change s.waiting = (s.requests.map _).countP _
    rw [hsame]
    exact h.waiting
  · exact h.bound
  · change ∀ r ∈ s.requests.map _, _
    rw [hsame]
    exact h.owned

/-- No shutdown finds a job unstarted, and no caller is granted the slot after
one. -/
def Calm (s : Engine) : Label → Prop
  | .close => ∀ r ∈ s.requests, r.job ≠ .pending
  | .granted _ => s.executor = .accepting
  | _ => True

instance (s : Engine) (l : Label) : Decidable (Calm s l) := by
  cases l <;> unfold Calm <;> infer_instance

theorem sound_loopStep (h : Sound limits s) (hcalm : Calm s l)
    (hstep : loopStep limits s l = some s') : Sound limits s' := by
  cases l with
  | arrive =>
    obtain rfl := Option.some.inj hstep
    exact h.arrive
  | upload i reads =>
    simp only [loopStep, Option.bind_eq_bind, Option.bind_eq_some_iff, Option.guard_eq_some'] at hstep
    obtain ⟨r, hr, -, hphase, hstep⟩ := hstep
    split at hstep
    · obtain rfl := Option.some.inj hstep
      exact h.transcribe hr hphase
    · obtain rfl := Option.some.inj hstep
      exact h.leaveStaging hr hphase
  | granted i =>
    simp only [loopStep, Option.bind_eq_bind, Option.bind_eq_some_iff, Option.guard_eq_some'] at hstep
    obtain ⟨r, hr, -, ⟨hphase, hfree⟩, hstep⟩ := hstep
    obtain rfl := Option.some.inj hstep
    exact h.submit hr hphase hfree hcalm
  | queueTimeout i =>
    simp only [loopStep, Option.bind_eq_bind, Option.bind_eq_some_iff, Option.guard_eq_some'] at hstep
    obtain ⟨r, hr, -, hphase, hstep⟩ := hstep
    obtain rfl := Option.some.inj hstep
    exact h.giveUp hr hphase
  | cancel i =>
    simp only [loopStep, Option.bind_eq_bind, Option.bind_eq_some_iff] at hstep
    obtain ⟨r, hr, hstep⟩ := hstep
    split at hstep
    · obtain rfl := Option.some.inj hstep
      exact h.leaveStaging hr ‹_›
    · obtain rfl := Option.some.inj hstep
      exact h.giveUp hr ‹_›
    · obtain rfl := Option.some.inj hstep
      exact h.leaveAwaiting hr ‹_›
    · cases hstep
  | release i =>
    simp only [loopStep, Option.bind_eq_bind, Option.bind_eq_some_iff, Option.guard_eq_some'] at hstep
    obtain ⟨r, hr, -, hjob, hstep⟩ := hstep
    obtain rfl := Option.some.inj hstep
    have hfile := (h.request hr).no_file (by simp [hjob]) (by simp [hjob]) (by simp [hjob])
    refine h.onJob (q := r.onJob .done) hr (by simp [hjob]) rfl ⟨rfl, rfl⟩ ?_ ?_ rfl
    · exact fun hf => absurd (hf.symm.trans hfile) (by decide)
    · simp [Engine.withFree, Engine.put, Request.unfinished, Request.onJob, hjob]
  | answered i =>
    simp only [loopStep, Option.bind_eq_bind, Option.bind_eq_some_iff, Option.guard_eq_some'] at hstep
    obtain ⟨r, hr, -, ⟨hphase, -⟩, hstep⟩ := hstep
    obtain rfl := Option.some.inj hstep
    exact h.leaveAwaiting hr hphase
  | transcribeTimeout i =>
    simp only [loopStep, Option.bind_eq_bind, Option.bind_eq_some_iff, Option.guard_eq_some'] at hstep
    obtain ⟨r, hr, -, hphase, hstep⟩ := hstep
    obtain rfl := Option.some.inj hstep
    exact h.leaveAwaiting hr hphase
  | close =>
    simp only [loopStep, Option.bind_eq_bind, Option.bind_eq_some_iff, Option.guard_eq_some'] at hstep
    obtain ⟨-, -, hstep⟩ := hstep
    obtain rfl := Option.some.inj hstep
    exact h.shutdown hcalm
  | start i => cases hstep
  | finish i => cases hstep
  | closed => cases hstep

theorem sound_step (h : Sound limits s) (hcalm : Calm s l) (hstep : step limits s l = some s') :
    Sound limits s' := by
  have hloop : ∀ {l}, Calm s l → (do
      guard (s.executor ≠ .closing)
      loopStep limits s l) = some s' → Sound limits s' := by
    intro l hl hs
    simp only [Option.bind_eq_bind, Option.bind_eq_some_iff] at hs
    obtain ⟨-, -, hs⟩ := hs
    exact sound_loopStep h hl hs
  cases l with
  | start i =>
    simp only [step, Option.bind_eq_bind, Option.bind_eq_some_iff, Option.guard_eq_some'] at hstep
    obtain ⟨r, hr, -, ⟨hjob, -⟩, hstep⟩ := hstep
    obtain rfl := Option.some.inj hstep
    refine h.onJob (q := r.onJob .running) hr (by simp [hjob]) rfl ⟨rfl, rfl⟩ (fun _ => rfl) ?_ rfl
    simp [Engine.put, Request.unfinished, Request.onJob, hjob]
  | finish i =>
    simp only [step, Option.bind_eq_bind, Option.bind_eq_some_iff, Option.guard_eq_some'] at hstep
    obtain ⟨r, hr, -, hjob, hstep⟩ := hstep
    obtain rfl := Option.some.inj hstep
    refine h.onJob (q := r.removed.onJob .handing) hr (by simp [hjob]) rfl ⟨rfl, rfl⟩
      (fun hf => by cases hf) ?_ rfl
    simp [Engine.put, Request.unfinished, Request.onJob, hjob]
  | closed =>
    simp only [step, Option.bind_eq_bind, Option.bind_eq_some_iff, Option.guard_eq_some'] at hstep
    obtain ⟨-, -, hstep⟩ := hstep
    obtain rfl := Option.some.inj hstep
    exact ⟨h.slot, h.waiting, h.bound, h.owned⟩
  | _ => exact hloop hcalm hstep

/-- In every run whose turns are calm, in every state of it: one slot in all, the
waiting counted, and no file left behind. -/
theorem kept_of_calm (h : ((speech limits).only Calm).Reachable s) : Kept limits s := by
  refine (System.invariant (I := Sound limits) ?_ ?_ h).kept
  · rintro s ⟨model, rfl⟩
    exact ⟨rfl, rfl, Nat.zero_le _, fun _ hr => by cases hr⟩
  · exact fun s l s' _ hs hstep => sound_step hs hstep.1 hstep.2

def calmStep (limits : Limits) (s : Engine) (l : Label) : Option Engine :=
  if Calm s l then step limits s l else none

theorem calmStep_only (h : calmStep limits s l = some s') :
    ((speech limits).only Calm).step s l s' := by
  unfold calmStep at h
  split at h
  · exact ⟨‹_›, h⟩
  · cases h

/-- A request that is answered, and a `close` after it. -/
def answeredRun : List Label :=
  [.arrive, .upload 0 [some 4096], .granted 0, .start 0, .finish 0, .release 0, .answered 0,
    .close, .closed]

theorem kept_of_calm_answered :
    Kept defaultLimits ⟨false, 1, 0, .closed, [⟨.over, .done, false⟩]⟩ := by
  have hexec : ∀ s l s', calmStep defaultLimits s l = some s' →
      ((speech defaultLimits).only Calm).step s l s' := fun _ _ _ h => calmStep_only h
  exact kept_of_calm (System.reachable_play (l := answeredRun) hexec (.start ⟨true, rfl⟩)
    (by decide))

/-- The shutdown comes before the worker has taken up the job. -/
def cancelledRun : List Label :=
  [.arrive, .upload 0 [some 4096], .granted 0, .close, .closed, .answered 0]

def cancelledEngine : Engine := ⟨false, 0, 0, .closed, [⟨.over, .cancelled, true⟩]⟩

/-- The request is over and its job is, the file is there and the slot is not. -/
theorem file_and_slot_lost : (speech defaultLimits).Reachable cancelledEngine ∧
    ⟨.over, .cancelled, true⟩ ∈ cancelledEngine.requests ∧
    cancelledEngine.free + cancelledEngine.requests.countP Request.unfinished = 0 := by
  have hexec : ∀ s l s', step defaultLimits s l = some s' →
      (speech defaultLimits).step s l s' := fun _ _ _ h => h
  refine ⟨?_, by decide, by decide⟩
  exact System.reachable_play (l := cancelledRun) hexec (.start ⟨true, rfl⟩) (by decide)

end RagPipeline.Speech
