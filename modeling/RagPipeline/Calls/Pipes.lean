import RagPipeline.Calls.Implementer

/-! # What goes through the pipes

However the pipes answer, a prompt that was delivered was delivered whole, and what a
reader keeps is where its stream begins. -/

set_option autoImplicit false

namespace RagPipeline.Calls
open Transition

/-! ## The prompt -/

/-- A writer that has been started. -/
def Writer.opened (payload : Bytes) : Writer := { Writer.new with phase := .writing payload }

/-- What is still to be written. -/
def Writer.left (w : Writer) : Bytes :=
  match w.phase with
  | .writing remaining => remaining
  | _ => []

/-- What the pipe takes at an event. -/
def Writer.takes (w : Writer) : WriterEvent → Bytes
  | .wrote count => w.left.take count
  | _ => []

def Writer.accepted : Writer → List WriterEvent → Bytes
  | _, [] => []
  | w, e :: rest => w.takes e ++ ((w.step e).map fun w' => w'.accepted rest).getD []

/-- The pipe has taken the beginning of the payload, and what is left is still to be written. -/
structure Writer.Delivers (payload taken : Bytes) (w : Writer) : Prop where
  begins : taken <+: payload
  writing : ∀ remaining, w.phase = .writing remaining → w.completed = false ∧ taken ++ remaining = payload
  completed : w.completed = true → taken = payload

theorem Writer.opened_delivers (payload : Bytes) : (Writer.opened payload).Delivers payload [] := by
  constructor
  · exact List.nil_prefix
  · intro remaining h
    cases h
    exact ⟨rfl, rfl⟩
  · intro h
    cases h

theorem Writer.step_delivers {payload taken : Bytes} {w w' : Writer} {e : WriterEvent}
    (hw : w.Delivers payload taken) (h : w.step e = some w') :
    w'.Delivers payload (taken ++ w.takes e) := by
  cases e with
  | wrote count =>
    rw [Writer.step] at h
    split at h
    · rename_i remaining hphase
      have htakes : w.takes (.wrote count) = remaining.take count := by
        rw [Writer.takes, Writer.left, hphase]
      obtain ⟨hopen, hpayload⟩ := hw.writing remaining hphase
      have hsplit : taken ++ remaining.take count ++ remaining.drop count = payload := by
        rw [List.append_assoc, List.take_append_drop, hpayload]
      rw [htakes]
      split_ifs at h with _ hzero
      · cases h
        constructor
        · exact ⟨remaining.drop count, hsplit⟩
        · intro rest hrest
          cases hrest
        · intro hcompleted
          rw [hopen] at hcompleted
          cases hcompleted
      · cases h
        constructor
        · exact ⟨remaining.drop count, hsplit⟩
        · intro rest hrest
          cases hrest
          exact ⟨hopen, hsplit⟩
        · intro hcompleted
          rw [hopen] at hcompleted
          cases hcompleted
    · cases h
  | flushed =>
    rw [Writer.step] at h
    split_ifs at h with hphase
    cases h
    have hpayload := (hw.writing [] hphase).2
    rw [List.append_nil] at hpayload
    have htakes : w.takes .flushed = [] := rfl
    rw [htakes, List.append_nil]
    constructor
    · exact hw.begins
    · intro rest hrest
      cases hrest
    · intro _
      exact hpayload
  | raises =>
    rw [Writer.step] at h
    split at h
    · rename_i remaining hphase
      cases h
      have htakes : w.takes .raises = [] := rfl
      rw [htakes, List.append_nil]
      constructor
      · exact hw.begins
      · intro rest hrest
        cases hrest
      · exact hw.completed
    · cases h
  | ends =>
    rw [Writer.step] at h
    split_ifs at h with hphase
    cases h
    have htakes : w.takes .ends = [] := rfl
    rw [htakes, List.append_nil]
    constructor
    · exact hw.begins
    · intro rest hrest
      cases hrest
    · exact hw.completed

theorem Writer.run_delivers {payload taken : Bytes} {w w' : Writer} {events : List WriterEvent}
    (hw : w.Delivers payload taken) (h : System.play Writer.step w events = some w') :
    w'.Delivers payload (taken ++ w.accepted events) := by
  induction events generalizing w taken with
  | nil =>
    cases h
    rw [Writer.accepted, List.append_nil]
    exact hw
  | cons e rest ih =>
    obtain ⟨w₁, hfirst, hrest⟩ := Option.bind_eq_some_iff.1 h
    have hlater := ih (Writer.step_delivers hw hfirst) hrest
    rw [Writer.accepted, hfirst]
    rw [List.append_assoc] at hlater
    exact hlater

/-! ## The output -/

def Reader.opened : Reader := { Reader.new with phase := .reading }

def ReaderEvent.bytes : ReaderEvent → Bytes
  | .chunk bytes => bytes
  | _ => []

/-- All that the pipe has given. -/
def given (events : List ReaderEvent) : Bytes := events.flatMap ReaderEvent.bytes

theorem given_concat (past : List ReaderEvent) (e : ReaderEvent) : given (past ++ [e]) = given past ++ e.bytes := by
  rw [given, List.flatMap_append, List.flatMap_singleton]
  rfl

/-- `BoundedStream.run`, event after event. -/
def Reader.next (limit : ℕ) (r : Reader) (e : ReaderEvent) : Option Reader := (r.step limit e).map Prod.fst

/-- Everything was read, up to its end. -/
def AllRead (past : List ReaderEvent) (buffer : Bytes) : Prop := buffer = given past ∧ .eof ∈ past

structure Reader.Keeps (limit : ℕ) (past : List ReaderEvent) (r : Reader) : Prop where
  kept : r.buffer <+: given past
  bound : r.buffer.length ≤ limit
  reading : r.phase = .reading → r.outcome = .pending ∧ r.buffer = given past ∧ r.total = (given past).length
  closing : r.phase = .closing .completed → AllRead past r.buffer
  completed : r.outcome = .completed → AllRead past r.buffer

theorem Reader.opened_keeps (limit : ℕ) : Reader.opened.Keeps limit [] := by
  constructor
  · exact List.nil_prefix
  · exact Nat.zero_le limit
  · intro _
    exact ⟨rfl, rfl, rfl⟩
  · intro h
    cases h
  · intro h
    cases h

theorem Reader.step_keeps {limit : ℕ} {past : List ReaderEvent} {r r' : Reader} {e : ReaderEvent}
    (hr : r.Keeps limit past) (h : r.next limit e = some r') : r'.Keeps limit (past ++ [e]) := by
  obtain ⟨⟨r', tripped⟩, hstep, rfl⟩ := Option.map_eq_some_iff.1 h
  have hwhole : ∀ buffer, e.bytes = [] → AllRead past buffer → AllRead (past ++ [e]) buffer := by
    intro buffer hbytes hpast
    refine ⟨?_, List.mem_append_left _ hpast.2⟩
    rw [given_concat, hbytes, List.append_nil]
    exact hpast.1
  cases e with
  | chunk bytes =>
    simp only [Reader.step] at hstep
    split_ifs at hstep with hok hover
    all_goals
      obtain ⟨rfl, -⟩ := Prod.mk.inj (Option.some.inj hstep)
      obtain ⟨hpending, hbuffer, htotal⟩ := hr.reading hok.1
    · constructor
      · rw [given_concat]
        exact hr.kept.trans (List.prefix_append _ _)
      · exact hr.bound
      · intro hphase
        cases hphase
      · intro hphase
        cases hphase
      · intro hcompleted
        rw [hpending] at hcompleted
        cases hcompleted
    · have hall : r.buffer ++ bytes = given (past ++ [.chunk bytes]) := by
        rw [given_concat, hbuffer]
        rfl
      constructor
      · exact ⟨[], (List.append_nil _).trans hall⟩
      · show (r.buffer ++ bytes).length ≤ limit
        rw [List.length_append, hbuffer]
        omega
      · intro _
        refine ⟨hpending, hall, ?_⟩
        rw [← hall, List.length_append, hbuffer, htotal]
      · intro hphase
        rw [hok.1] at hphase
        cases hphase
      · intro hcompleted
        rw [hpending] at hcompleted
        cases hcompleted
  | eof =>
    rw [Reader.step] at hstep
    split_ifs at hstep with hphase
    obtain ⟨rfl, -⟩ := Prod.mk.inj (Option.some.inj hstep)
    obtain ⟨hpending, hbuffer, -⟩ := hr.reading hphase
    have hend : AllRead (past ++ [.eof]) r.buffer := by
      refine ⟨?_, List.mem_append_right _ List.mem_cons_self⟩
      rw [given_concat, hbuffer]
      exact (List.append_nil _).symm
    constructor
    · exact ⟨[], (List.append_nil _).trans hend.1⟩
    · exact hr.bound
    · intro h
      cases h
    · intro _
      exact hend
    · intro hcompleted
      rw [hpending] at hcompleted
      cases hcompleted
  | readRaises =>
    rw [Reader.step] at hstep
    split_ifs at hstep with hphase
    obtain ⟨rfl, -⟩ := Prod.mk.inj (Option.some.inj hstep)
    constructor
    · rw [given_concat]
      exact hr.kept.trans (List.prefix_append _ _)
    · exact hr.bound
    · intro h
      cases h
    · intro h
      cases h
    · intro hcompleted
      exact hwhole _ rfl (hr.completed hcompleted)
  | closes =>
    rw [Reader.step] at hstep
    split at hstep
    · rename_i sonuc hphase
      obtain ⟨rfl, -⟩ := Prod.mk.inj (Option.some.inj hstep)
      constructor
      · rw [given_concat]
        exact hr.kept.trans (List.prefix_append _ _)
      · exact hr.bound
      · intro h
        cases h
      · intro h
        cases h
      · intro hcompleted
        obtain rfl : sonuc = .completed := hcompleted
        exact hwhole _ rfl (hr.closing hphase)
    · cases hstep
  | closeRaises =>
    rw [Reader.step] at hstep
    split at hstep
    · obtain ⟨rfl, -⟩ := Prod.mk.inj (Option.some.inj hstep)
      constructor
      · rw [given_concat]
        exact hr.kept.trans (List.prefix_append _ _)
      · exact hr.bound
      · intro h
        cases h
      · intro h
        cases h
      · intro h
        cases h
    · cases hstep
  | ends =>
    rw [Reader.step] at hstep
    split_ifs at hstep with hphase
    obtain ⟨rfl, -⟩ := Prod.mk.inj (Option.some.inj hstep)
    constructor
    · rw [given_concat]
      exact hr.kept.trans (List.prefix_append _ _)
    · exact hr.bound
    · intro h
      cases h
    · intro h
      cases h
    · intro hcompleted
      exact hwhole _ rfl (hr.completed hcompleted)

theorem Reader.run_keeps {limit : ℕ} {past events : List ReaderEvent} {r r' : Reader}
    (hr : r.Keeps limit past) (h : System.play (Reader.next limit) r events = some r') :
    r'.Keeps limit (past ++ events) := by
  induction events generalizing r past with
  | nil =>
    cases h
    rw [List.append_nil]
    exact hr
  | cons e rest ih =>
    obtain ⟨r₁, hfirst, hrest⟩ := Option.bind_eq_some_iff.1 h
    have hlater := ih (Reader.step_keeps hr hfirst) hrest
    rw [List.append_assoc] at hlater
    exact hlater

/-! ## Both -/

/-- Nothing is lost, repeated or put out of order on either side. -/
theorem pipes_keep_order (payload : Bytes) (limit : ℕ) :
    (∀ events w, System.play Writer.step (Writer.opened payload) events = some w →
      (Writer.opened payload).accepted events <+: payload ∧
        (w.completed = true → (Writer.opened payload).accepted events = payload)) ∧
    ∀ events r, System.play (Reader.next limit) Reader.opened events = some r →
      r.buffer <+: given events ∧ r.buffer.length ≤ limit ∧
        (r.outcome = .completed → r.buffer = given events ∧ .eof ∈ events) := by
  constructor
  · intro events w h
    have hw := Writer.run_delivers (Writer.opened_delivers payload) h
    rw [List.nil_append] at hw
    exact ⟨hw.begins, hw.completed⟩
  · intro events r h
    have hr := Reader.run_keeps (Reader.opened_keeps limit) h
    rw [List.nil_append] at hr
    exact ⟨hr.kept, hr.bound, hr.completed⟩

end RagPipeline.Calls
