import RagPipeline.Calls.Implementer

/-! # Whole replies

A reply is taken from two streams that were read to their end, wherever no pipe
breaks and the cleanup is over within its budget. The call asks neither, so a
broken pipe and a reader still at work leave a truncated reply standing. -/

set_option autoImplicit false

namespace RagPipeline.Calls
open Transition

section
variable {Reply : Type} [Judge Reply]

/-- Both streams were read to the end, and their readers joined. -/
def Whole (s : State Reply) : Prop :=
  s.joined = true ∧ ∀ label, (s.reader label).phase = .ended ∧ (s.reader label).outcome = .completed

/-- From the moment the budget is set until the joins are over. -/
def Pc.cleaning : Pc Reply → Bool
  | .askStop | .stop | .drain | .join _ | .joining _ | .alive => true
  | _ => false

/-- No read and no close raises, and the clock does not use up the budget of the
cleanup while it is going on. -/
def Sound (s : State Reply) : Action → Prop
  | .reader _ e => e ≠ .readRaises ∧ e ≠ .closeRaises
  | .tick ms => s.pc.cleaning = true → s.now + ms < s.grace
  | _ => True

instance (s : State Reply) (a : Action) : Decidable (Sound s a) := by
  cases a <;> unfold Sound <;> infer_instance

end

/-! ## What is known at each place of the main thread -/

section
variable {Reply : Type}

def Label.thread : Label → Thread
  | .stdout => .stdout
  | .stderr => .stderr

/-- The threads that are over. -/
def Pc.threadsOver : Pc Reply → List Thread
  | .join .stdout | .joining .stdout => [.writer]
  | .join .stderr | .joining .stderr => [.writer, .stdout]
  | .alive | .measure | .checkTimeout | .checkOverflow _ | .wait | .checkExit _ | .checkWriter _
  | .checkDrained _ | .parse _ | .returned (.ok _) => [.writer, .stdout, .stderr]
  | _ => []

/-- The joins have been answered. -/
def Pc.settled : Pc Reply → Bool
  | .measure | .checkTimeout | .checkOverflow _ | .wait | .checkExit _ | .checkWriter _
  | .checkDrained _ | .parse _ | .returned (.ok _) => true
  | _ => false

/-- The streams that stayed within their limit. -/
def Pc.within : Pc Reply → List Label
  | .checkOverflow .stderr => [.stdout]
  | .wait | .checkExit _ | .checkWriter _ | .checkDrained _ | .parse _ | .returned (.ok _) =>
    [.stdout, .stderr]
  | _ => []

theorem within_over {pc : Pc Reply} {label : Label} (h : label ∈ pc.within) :
    label.thread ∈ pc.threadsOver := by
  cases pc with
  | checkOverflow l => cases l <;> cases label <;> simp_all [Pc.within, Pc.threadsOver, Label.thread]
  | returned result => cases result <;> cases label <;> simp_all [Pc.within, Pc.threadsOver, Label.thread]
  | _ => cases label <;> simp_all [Pc.within, Pc.threadsOver, Label.thread]

theorem ended_reader {s : State Reply} {label : Label} :
    s.ended label.thread = true ↔ (s.reader label).phase = .ended := by
  cases label <;> simp [State.ended, State.reader, Label.thread]

end

/-! ## The invariant -/

section
variable {Reply : Type} [Judge Reply]

structure Kept (s : State Reply) : Prop where
  readers : ∀ label, (s.reader label).Sound
  time : s.pc.cleaning = true → s.now < s.grace
  ended : ∀ t ∈ s.pc.threadsOver, s.ended t = true
  settled : s.pc.settled = true → s.joined = true
  within : ∀ label ∈ s.pc.within, (s.reader label).outcome ≠ .overflowed
  judged : ∀ run, s.pc = .returned (.ok run) →
    (Judge.parseReply s.stdout.buffer : Except _ Reply) = .ok run.reply

theorem launched_kept (c : Call) (started : ℕ) : Kept (launched c started : State Reply) where
  readers label := by cases label <;> exact Reader.new_sound
  time h := by cases h
  ended t ht := by cases ht
  settled h := by cases h
  within label h := by cases h
  judged run h := by cases h

/-- A step of another thread, of the child or of the clock: the main thread is
where it was, and nothing changes of a thread that is over. -/
structure Frame (s s' : State Reply) : Prop where
  pc : s'.pc = s.pc
  joined : s'.joined = s.joined
  ended : ∀ t, s.ended t = true → s'.ended t = true
  reader : ∀ label, s.ended label.thread = true → s'.reader label = s.reader label

theorem Kept.frame {s s' : State Reply} (h : Kept s) (hf : Frame s s')
    (hreaders : ∀ label, (s'.reader label).Sound) (htime : s'.pc.cleaning = true → s'.now < s'.grace) :
    Kept s' where
  readers := hreaders
  time := htime
  ended t ht := by
    rw [hf.pc] at ht
    exact hf.ended t (h.ended t ht)
  settled hs := by
    rw [hf.pc] at hs
    rw [hf.joined, h.settled hs]
  within label hl := by
    rw [hf.pc] at hl
    rw [hf.reader label (h.ended _ (within_over hl))]
    exact h.within label hl
  judged run hrun := by
    rw [hf.pc] at hrun
    have hover : s.ended .stdout = true := h.ended .stdout (by simp [hrun, Pc.threadsOver])
    have hsame : s'.stdout = s.stdout := hf.reader .stdout hover
    rw [hsame]
    exact h.judged run hrun

theorem reader_kept {s s' : State Reply} {label : Label} {e : ReaderEvent} (h : Kept s)
    (hs : Sound s (.reader label e)) (hstep : exec s (.reader label e) = some s') : Kept s' := by
  obtain ⟨⟨r, trips⟩, hr, rfl⟩ := Option.map_eq_some_iff.1 hstep
  have hrunning : (s.reader label).phase ≠ .ended := Reader.step_ended hr
  have hsound : r.Sound := Reader.step_sound (h.readers label) hs hr
  apply h.frame
  · constructor
    · cases label <;> rfl
    · cases label <;> rfl
    · intro t ht
      cases label <;> cases t <;> simp_all [State.ended, State.setReader, State.reader]
    · intro l hl
      cases label <;> cases l <;> simp_all [State.ended, State.setReader, State.reader, Label.thread]
  · intro l
    have hother := h.readers l
    cases label <;> cases l <;> first | exact hsound | exact hother
  · intro hc
    cases label <;> exact h.time hc

theorem Writer.step_ended {w w' : Writer} {e : WriterEvent} (h : w.step e = some w') :
    w.phase ≠ .ended := by
  intro hended
  cases e <;> simp [Writer.step, hended] at h

theorem writer_kept {s s' : State Reply} {e : WriterEvent} (h : Kept s)
    (hstep : exec s (.writer e) = some s') : Kept s' := by
  obtain ⟨w, hw, rfl⟩ := Option.map_eq_some_iff.1 hstep
  have hrunning : s.writer.phase ≠ .ended := Writer.step_ended hw
  apply h.frame
  · constructor
    · rfl
    · rfl
    · intro t ht
      cases t with
      | writer => exact absurd (of_decide_eq_true ht) hrunning
      | stdout => exact ht
      | stderr => exact ht
    · intro l _
      cases l <;> rfl
  · exact h.readers
  · exact h.time

/-- The clock and the exit of the child touch no thread. -/
theorem same_kept {s s' : State Reply} (h : Kept s) (hpc : s'.pc = s.pc) (hjoined : s'.joined = s.joined)
    (hended : s'.ended = s.ended) (hreader : s'.reader = s.reader)
    (htime : s'.pc.cleaning = true → s'.now < s'.grace) : Kept s' := by
  apply h.frame
  · exact ⟨hpc, hjoined, fun t ht => by rw [hended, ht], fun l _ => by rw [hreader]⟩
  · intro l
    rw [hreader]
    exact h.readers l
  · exact htime

/-! ## The steps of the main thread -/

/-- A place of which nothing needs to be known. -/
def Pc.free : Pc Reply → Bool
  | .start _ | .askTripped | .askExited | .askClock | .sleep | .grace | .unwind _ | .returned (.error _) => true
  | _ => false

omit [Judge Reply] in
theorem free_places {pc : Pc Reply} (h : pc.free = true) :
    pc.cleaning = false ∧ pc.threadsOver = [] ∧ pc.settled = false ∧ pc.within = [] ∧
      ∀ run, pc ≠ .returned (.ok run) := by
  cases pc with
  | returned result => cases result <;> simp_all [Pc.free, Pc.cleaning, Pc.threadsOver, Pc.settled, Pc.within]
  | _ => simp_all [Pc.free, Pc.cleaning, Pc.threadsOver, Pc.settled, Pc.within]

theorem free_kept {s' : State Reply} (hreaders : ∀ label, (s'.reader label).Sound)
    (h : s'.pc.free = true) : Kept s' := by
  obtain ⟨hcleaning, hover, hsettled, hwithin, hresult⟩ := free_places h
  constructor
  · exact hreaders
  · intro hc
    rw [hcleaning] at hc
    cases hc
  · intro t ht
    rw [hover] at ht
    cases ht
  · intro hs
    rw [hsettled] at hs
    cases hs
  · intro label hl
    rw [hwithin] at hl
    cases hl
  · intro run hrun
    exact absurd hrun (hresult run)

/-- Within the cleanup, where only the threads that are over are in question. -/
theorem cleaning_kept {s s' : State Reply} (h : Kept s) (hreader : s'.reader = s.reader)
    (htime : s'.now < s'.grace) (hpc : s'.pc.cleaning = true)
    (hover : ∀ t ∈ s'.pc.threadsOver, s'.ended t = true) : Kept s' := by
  have hplaces : s'.pc.settled = false ∧ s'.pc.within = [] ∧ ∀ run, s'.pc ≠ .returned (.ok run) := by
    cases hs : s'.pc <;> simp_all [Pc.cleaning, Pc.settled, Pc.within]
  obtain ⟨hsettled, hwithin, hresult⟩ := hplaces
  constructor
  · intro label
    rw [hreader]
    exact h.readers label
  · exact fun _ => htime
  · exact hover
  · intro hs
    rw [hsettled] at hs
    cases hs
  · intro label hl
    rw [hwithin] at hl
    cases hl
  · intro run hrun
    exact absurd hrun (hresult run)

omit [Judge Reply] in
theorem started_sound {s : State Reply} (h : ∀ label, (s.reader label).Sound) (thread : Thread)
    (label : Label) : ((startThread s thread).reader label).Sound := by
  have hstarted : ∀ r : Reader, r.Sound → ({ r with phase := .reading } : Reader).Sound := by
    intro r hr
    constructor
    · exact hr.outcome
    · simp
    · simp
  have hlabel := h label
  cases thread <;> cases label <;> first | exact hlabel | exact hstarted _ hlabel

theorem hostStep_kept {s s' : State Reply} {answer : Bool} (h : Kept s)
    (hstep : hostStep s answer = some s') : Kept s' := by
  unfold hostStep at hstep
  cases hpc : s.pc with
  | start thread =>
    simp only [hpc] at hstep
    cases hstep
    cases answer with
    | false => exact free_kept h.readers rfl
    | true =>
      apply free_kept (started_sound h.readers thread)
      cases thread <;> rfl
  | stop =>
    simp only [hpc] at hstep
    cases hstep
    apply cleaning_kept h
    · rfl
    · exact h.time (by rw [hpc]; rfl)
    · rfl
    · exact fun t ht => nomatch ht
  | drain =>
    simp only [hpc] at hstep
    cases hstep
    apply cleaning_kept h
    · rfl
    · exact h.time (by rw [hpc]; rfl)
    · rfl
    · exact fun t ht => nomatch ht
  | unwind error =>
    simp only [hpc] at hstep
    split_ifs at hstep
    cases hstep
    exact free_kept h.readers rfl
  | _ => simp [hpc] at hstep

/-- Behind the joins: all threads are over, and the places differ in what was
asked of the streams. -/
theorem settled_kept {s s' : State Reply} (h : Kept s) (hs : s.pc.settled = true)
    (hsame : s'.reader = s.reader ∧ s'.ended = s.ended ∧ s'.joined = s.joined)
    (hpc : s'.pc.settled = true)
    (hwithin : ∀ label ∈ s'.pc.within, (s.reader label).outcome ≠ .overflowed)
    (hjudged : ∀ run, s'.pc = .returned (.ok run) →
      (Judge.parseReply s'.stdout.buffer : Except _ Reply) = .ok run.reply) : Kept s' := by
  have hplaces : ∀ pc : Pc Reply, pc.settled = true →
      pc.cleaning = false ∧ pc.threadsOver = [.writer, .stdout, .stderr] := by
    intro pc hpc
    cases pc with
    | returned result => cases result <;> simp_all [Pc.cleaning, Pc.settled, Pc.threadsOver]
    | _ => simp_all [Pc.cleaning, Pc.settled, Pc.threadsOver]
  obtain ⟨hreader, hended, hjoined⟩ := hsame
  constructor
  · intro label
    rw [hreader]
    exact h.readers label
  · intro hc
    rw [(hplaces _ hpc).1] at hc
    cases hc
  · intro t ht
    rw [hended]
    apply h.ended
    rw [(hplaces _ hs).2]
    rwa [(hplaces _ hpc).2] at ht
  · intro _
    rw [hjoined, h.settled hs]
  · intro label hl
    rw [hreader]
    exact hwithin label hl
  · exact hjudged

omit [Judge Reply] in
/-- The next join begins where one more thread is over. -/
theorem joinNext_over {s : State Reply} {thread : Thread}
    (hover : ∀ t ∈ (Pc.joining thread : Pc Reply).threadsOver, s.ended t = true)
    (hthread : s.ended thread = true) :
    ∀ t ∈ (joinNext thread : Pc Reply).threadsOver, s.ended t = true := by
  intro t ht
  have hcases : t ∈ (Pc.joining thread : Pc Reply).threadsOver ∨ t = thread := by
    cases thread <;> simpa [joinNext, Pc.threadsOver, or_assoc] using ht
  obtain ht | rfl := hcases
  · exact hover t ht
  · exact hthread

theorem mainStep_kept {s s' : State Reply} (h : Kept s) (hstep : mainStep s = some s') : Kept s' := by
  have hover := h.ended
  have hwithin := h.within
  have htime : s.pc.cleaning = true → s.now < s.grace := h.time
  unfold mainStep at hstep
  cases hpc : s.pc with
  | askTripped =>
    simp only [hpc] at hstep
    cases hstep
    apply free_kept
    · exact h.readers
    · show Pc.free (if s.tripped then .grace else .askExited) = true
      split_ifs <;> rfl
  | askExited =>
    simp only [hpc] at hstep
    cases hstep
    apply free_kept
    · exact h.readers
    · show Pc.free (if s.exit.isSome then .grace else .askClock) = true
      split_ifs <;> rfl
  | askClock =>
    simp only [hpc] at hstep
    split_ifs at hstep <;> cases hstep <;> exact free_kept h.readers rfl
  | sleep =>
    simp only [hpc] at hstep
    cases hstep
    exact free_kept h.readers rfl
  | grace =>
    simp only [hpc] at hstep
    cases hstep
    apply cleaning_kept h
    · rfl
    · exact Nat.lt_add_of_pos_right (by decide)
    · rfl
    · exact fun t ht => nomatch ht
  | askStop =>
    rw [hpc] at htime
    simp only [hpc] at hstep
    cases hstep
    apply cleaning_kept h
    · rfl
    · exact htime rfl
    · show Pc.cleaning (if s.tripped || s.timedOut then .stop else .drain) = true
      split_ifs <;> rfl
    · intro t ht
      change t ∈ Pc.threadsOver (if s.tripped || s.timedOut then Pc.stop else Pc.drain) at ht
      split_ifs at ht <;> cases ht
  | join thread =>
    rw [hpc] at htime hover
    simp only [hpc, if_neg (Nat.not_le.2 (htime rfl))] at hstep
    cases hstep
    apply cleaning_kept h
    · rfl
    · exact htime rfl
    · rfl
    · cases thread <;> exact hover
  | joining thread =>
    rw [hpc] at htime hover
    simp only [hpc] at hstep
    split_ifs at hstep with hended
    cases hstep
    have hthread : s.ended thread = true := hended.resolve_right (Nat.not_le.2 (htime rfl))
    apply cleaning_kept h
    · rfl
    · exact htime rfl
    · cases thread <;> rfl
    · exact joinNext_over hover hthread
  | alive =>
    rw [hpc] at hover
    simp only [hpc] at hstep
    cases hstep
    constructor
    · exact h.readers
    · exact fun hc => nomatch hc
    · exact hover
    · intro _
      have hwriter := hover .writer (by simp [Pc.threadsOver])
      have hstdout := hover .stdout (by simp [Pc.threadsOver])
      have hstderr := hover .stderr (by simp [Pc.threadsOver])
      simp [hwriter, hstdout, hstderr]
    · exact fun label hl => nomatch hl
    · exact fun run hrun => nomatch hrun
  | measure =>
    simp only [hpc] at hstep
    cases hstep
    apply settled_kept h (by rw [hpc]; rfl)
    · exact ⟨rfl, rfl, rfl⟩
    · rfl
    · exact fun label hl => nomatch hl
    · exact fun run hrun => nomatch hrun
  | checkTimeout =>
    simp only [hpc] at hstep
    cases hstep
    by_cases htimed : s.timedOut = true
    · apply free_kept
      · exact h.readers
      · simp [htimed, Pc.free]
    · simp only [if_neg htimed]
      apply settled_kept h (by rw [hpc]; rfl)
      · exact ⟨rfl, rfl, rfl⟩
      · rfl
      · exact fun label hl => nomatch hl
      · exact fun run hrun => nomatch hrun
  | checkOverflow label =>
    rw [hpc] at hwithin
    simp only [hpc] at hstep
    cases hstep
    by_cases hoverflowed : (s.reader label).overflowed = true
    · apply free_kept
      · exact h.readers
      · simp [hoverflowed, Pc.free]
    · have houtcome : (s.reader label).outcome ≠ .overflowed := by
        simpa [Reader.overflowed] using hoverflowed
      simp only [if_neg hoverflowed]
      cases label with
      | stdout =>
        apply settled_kept h (by rw [hpc]; rfl)
        · exact ⟨rfl, rfl, rfl⟩
        · rfl
        · intro l hl
          obtain rfl := List.mem_singleton.1 hl
          exact houtcome
        · exact fun run hrun => nomatch hrun
      | stderr =>
        apply settled_kept h (by rw [hpc]; rfl)
        · exact ⟨rfl, rfl, rfl⟩
        · rfl
        · intro l _
          cases l with
          | stdout => exact hwithin .stdout (by simp [Pc.within])
          | stderr => exact houtcome
        · exact fun run hrun => nomatch hrun
  | wait =>
    rw [hpc] at hwithin
    simp only [hpc] at hstep
    obtain ⟨code, -, rfl⟩ := Option.map_eq_some_iff.1 hstep
    apply settled_kept h (by rw [hpc]; rfl)
    · exact ⟨rfl, rfl, rfl⟩
    · rfl
    · exact hwithin
    · exact fun run hrun => nomatch hrun
  | checkExit code =>
    rw [hpc] at hwithin
    simp only [hpc] at hstep
    cases hstep
    by_cases hcode : code ≠ 0
    · apply free_kept
      · exact h.readers
      · simp [hcode, Pc.free]
    · simp only [if_neg hcode]
      apply settled_kept h (by rw [hpc]; rfl)
      · exact ⟨rfl, rfl, rfl⟩
      · rfl
      · exact hwithin
      · exact fun run hrun => nomatch hrun
  | checkWriter code =>
    rw [hpc] at hwithin
    simp only [hpc] at hstep
    cases hstep
    by_cases hcompleted : s.writer.completed = true
    · simp only [if_pos hcompleted]
      apply settled_kept h (by rw [hpc]; rfl)
      · exact ⟨rfl, rfl, rfl⟩
      · rfl
      · exact hwithin
      · exact fun run hrun => nomatch hrun
    · apply free_kept
      · exact h.readers
      · simp [hcompleted, Pc.free]
  | checkDrained code =>
    rw [hpc] at hwithin
    simp only [hpc] at hstep
    cases hstep
    by_cases hdrained : s.drained = true
    · simp only [if_pos hdrained]
      apply settled_kept h (by rw [hpc]; rfl)
      · exact ⟨rfl, rfl, rfl⟩
      · rfl
      · exact hwithin
      · exact fun run hrun => nomatch hrun
    · apply free_kept
      · exact h.readers
      · simp [hdrained, Pc.free]
  | unwind error =>
    simp only [hpc] at hstep
    split_ifs at hstep
    cases hstep
    exact free_kept h.readers rfl
  | parse code =>
    rw [hpc] at hwithin
    simp only [hpc] at hstep
    cases hstep
    cases hreply : (Judge.parseReply s.stdout.buffer : Except _ Reply) with
    | error refused => exact free_kept h.readers rfl
    | ok reply =>
      apply settled_kept h (by rw [hpc]; rfl)
      · exact ⟨rfl, rfl, rfl⟩
      · rfl
      · exact hwithin
      · intro run hrun
        cases hrun
        exact hreply
  | _ => simp [hpc] at hstep

/-! ## Runs -/

theorem step_kept {s s' : State Reply} {a : Action} (h : Kept s) (hs : Sound s a)
    (hstep : exec s a = some s') : Kept s' := by
  cases a with
  | reader label e => exact reader_kept h hs hstep
  | writer e => exact writer_kept h hstep
  | exits code =>
    rw [exec] at hstep
    split_ifs at hstep
    cases hstep
    exact same_kept h rfl rfl rfl rfl h.time
  | tick ms =>
    cases hstep
    exact same_kept h rfl rfl rfl rfl hs
  | main => exact mainStep_kept h hstep
  | host answer => exact hostStep_kept h hstep

theorem sound_kept {s : State Reply} (h : (call.only Sound).Reachable s) : Kept s := by
  apply System.invariant _ _ h
  · rintro s ⟨c, started, rfl⟩
    exact launched_kept c started
  · intro s a s' _ hk hstep
    exact step_kept hk hstep.1 hstep.2

/-- Where no pipe breaks and the cleanup is over within its budget, a reply is
returned only of two streams that were read to their end, and it is what is made
of all that stdout held. -/
theorem reply_whole (s : State Reply) (run : ImplementerRun Reply)
    (h : (call.only Sound).Reachable s) (hreply : s.pc = .returned (.ok run)) :
    Whole s ∧ (Judge.parseReply s.stdout.buffer : Except _ Reply) = .ok run.reply := by
  have hkept : Kept s := sound_kept h
  have hover := hkept.ended
  have hwithin := hkept.within
  have hsettled := hkept.settled
  rw [hreply] at hover hwithin hsettled
  refine ⟨⟨hsettled rfl, fun label => ?_⟩, hkept.judged run hreply⟩
  have hended : (s.reader label).phase = .ended :=
    ended_reader.1 (hover label.thread (by cases label <;> simp [Pc.threadsOver, Label.thread]))
  have hlimit : (s.reader label).outcome ≠ .overflowed :=
    hwithin label (by cases label <;> simp [Pc.within])
  exact ⟨hended, (hkept.readers label).completed hended hlimit⟩

end

/-! ## Fixed runs -/

section

/-- The reply is how many bytes there were. -/
@[reducible] def counted : Judge ℕ where
  parseReply bytes := .ok bytes.length
  envelopeFailure _ := .generic

attribute [local instance] counted

def question : Call := ⟨[63], 30, 1024, "c1"⟩

/-- The threads start, the prompt is delivered, and stderr is read to its end. -/
def opening : List Action :=
  [.host true, .host true, .host true, .writer (.wrote 1), .writer .flushed, .writer .ends,
    .reader .stdout (.chunk [123, 125]), .reader .stderr .eof, .reader .stderr .closes,
    .reader .stderr .ends]

/-- The child exits with nought, and the cleanup begins. -/
def leaving : List Action :=
  [.exits 0, .main, .main, .main, .main, .host true, .main, .main]

/-- From the overflow checks to the reply. -/
def deciding : List Action :=
  [.main, .main, .main, .main, .main, .main, .main, .main, .main]

/-- Both readers end, the second read of stdout answering with `e`. -/
def readRun (e : ReaderEvent) : List Action :=
  opening ++ [.reader .stdout e, .reader .stdout .closes, .reader .stdout .ends] ++ leaving ++
    [.main, .main, .main, .main, .main] ++ deciding

/-- The reader of stdout is still at work when the budget is used up. -/
def lateRun : List Action :=
  opening ++ leaving ++ [.main, .tick reapMs, .main, .main] ++ deciding

def Pc.reply : Pc ℕ → Option (ImplementerRun ℕ)
  | .returned (.ok run) => some run
  | _ => none

theorem reply_eq_some {pc : Pc ℕ} {run : ImplementerRun ℕ} (h : pc.reply = some run) :
    pc = .returned (.ok run) := by
  cases pc with
  | returned result =>
    cases result with
    | error error => cases h
    | ok run' => rw [Option.some.inj h]
  | _ => cases h

/-- What a run of these is seen to come to. -/
def seen (l : List Action) : Option (Option (ImplementerRun ℕ) × Outcome) :=
  (System.play exec (launched question 0) l).map fun s => (s.pc.reply, s.stdout.outcome)

theorem reached_of_seen {l : List Action} {run : ImplementerRun ℕ} {o : Outcome}
    (h : seen l = some (some run, o)) :
    ∃ s : State ℕ, call.Reachable s ∧ s.pc = .returned (.ok run) ∧ s.stdout.outcome = o := by
  obtain ⟨s, hplay, heq⟩ := Option.map_eq_some_iff.1 h
  obtain ⟨hreply, houtcome⟩ := Prod.mk.inj heq
  have hstart : call.Reachable (launched question 0 : State ℕ) := .start ⟨question, 0, rfl⟩
  exact ⟨s, System.reachable_play (fun _ _ _ hstep => hstep) hstart hplay, reply_eq_some hreply, houtcome⟩

/-- A read that raises, and a reader that is not awaited: either time the two
bytes that came are returned as the reply. -/
theorem truncated_replies :
    (∃ (s : State ℕ) (run : ImplementerRun ℕ), call.Reachable s ∧ s.pc = .returned (.ok run) ∧
      s.stdout.outcome = .readFailed ∧ ¬ Whole s) ∧
    ∃ (s : State ℕ) (run : ImplementerRun ℕ), call.Reachable s ∧ s.pc = .returned (.ok run) ∧
      s.stdout.outcome = .pending ∧ ¬ Whole s := by
  have hfailed : ∀ {s : State ℕ} {o : Outcome}, s.stdout.outcome = o → o ≠ .completed → ¬ Whole s := by
    intro s o ho hne hwhole
    exact hne (ho.symm.trans (hwhole.2 .stdout).2)
  constructor
  · have hrun : seen (readRun .readRaises) =
        some (some ⟨2, 0, 0, 2, 0, modelCallFinished, "c1"⟩, .readFailed) := by decide +kernel
    obtain ⟨s, hreached, hreply, houtcome⟩ := reached_of_seen hrun
    exact ⟨s, _, hreached, hreply, houtcome, hfailed houtcome (by decide)⟩
  · have hrun : seen lateRun =
        some (some ⟨2, 0, 10000, 2, 0, modelCallFinished, "c1"⟩, .pending) := by decide +kernel
    obtain ⟨s, hreached, hreply, houtcome⟩ := reached_of_seen hrun
    exact ⟨s, _, hreached, hreply, houtcome, hfailed houtcome (by decide)⟩

/-- Steps that are sound and can be taken. -/
def soundExec (s : State ℕ) (a : Action) : Option (State ℕ) := if Sound s a then exec s a else none

theorem soundExec_step (s : State ℕ) (a : Action) (s' : State ℕ) (h : soundExec s a = some s') :
    (call.only Sound).step s a s' := by
  unfold soundExec at h
  split_ifs at h with hs
  exact ⟨hs, h⟩

theorem whole_reply :
    ∃ (s : State ℕ) (run : ImplementerRun ℕ), (call.only Sound).Reachable s ∧
      s.pc = .returned (.ok run) ∧ run.reply = 2 ∧ Whole s := by
  have hrun : (System.play soundExec (launched question 0) (readRun .eof)).map (fun s => s.pc.reply) =
      some (some ⟨2, 0, 0, 2, 0, modelCallFinished, "c1"⟩) := by decide +kernel
  obtain ⟨s, hplay, hreply⟩ := Option.map_eq_some_iff.1 hrun
  have hstart : (call.only Sound).Reachable (launched question 0 : State ℕ) := .start ⟨question, 0, rfl⟩
  have hreached := System.reachable_play soundExec_step hstart hplay
  have hover := reply_eq_some hreply
  exact ⟨s, _, hreached, hover, rfl, (reply_whole s _ hreached hover).1⟩

end

end RagPipeline.Calls
