import RagPipeline.Runner.Loop
import Mathlib.Data.List.Chain

/-! # The order of the gates

What a history of the loop may look like, told as the road of one candidate:
written, tested, read, agreed upon, applied. An objection or a failed acceptance
leads back to the writing once. -/

set_option autoImplicit false

namespace RagPipeline.Runner
open Acceptance (Candidate)

variable {W : Type} {e : Env W}

inductive Point where
  | fresh
  | writing
  | written
  | tested
  | refused
  | reading
  | agreed
  | objected
  | ended
  | applied
  | approved
deriving DecidableEq

/-- Where the candidate stands, whether the repair has been spent, how often the
evaluator was called, and since which moment which candidate counts as tested. -/
structure Course where
  point : Point
  repaired : Bool
  rounds : ℕ
  fingerprint : String
  since : ℕ

/-- No other process writes in these moments. -/
def Calm (e : Env W) (a b : ℕ) : Prop := ∀ n, a ≤ n → n < b → e.foreign n = none

theorem Calm.mono {a b c d : ℕ} (h : Calm e a d) (hab : a ≤ b) (hcd : c ≤ d) : Calm e b c :=
  fun n hn hn' => h n (hab.trans hn) (hn'.trans_le hcd)

def fingerprintOf (e : Env W) (w : W) : Option String :=
  match e.derive w with
  | .ok c => some c.changeSet.fingerprint
  | .error _ => none

/-- If nobody else wrote between the test and the second reading, the evaluator
began and ended on the tested candidate. -/
def Read (e : Env W) (since shown : ℕ) (f : String) (start finish : W) : Prop :=
  Calm e since shown → fingerprintOf e start = some f ∧ fingerprintOf e finish = some f

inductive Follows (e : Env W) : List (Event W) → Course → Prop where
  | start : Follows e [] ⟨.fresh, false, 0, "", 0⟩
  | persisted {l c} (s : State) (hs : s ≠ .approved) :
    Follows e l c → Follows e (.persisted s :: l) c
  | implementing {l n f t} : Follows e l ⟨.fresh, false, n, f, t⟩ →
    Follows e (.implementing :: l) ⟨.writing, false, n, f, t⟩
  | candidate {l r n f t} (g : String) : Follows e l ⟨.writing, r, n, f, t⟩ →
    Follows e (.candidate g :: l) ⟨.written, r, n, g, t⟩
  | accepted {l r n f t} (since : ℕ) : Follows e l ⟨.written, r, n, f, t⟩ →
    Follows e (.accepted since f :: l) ⟨.tested, r, n, f, since⟩
  | refused {l r n f t} : Follows e l ⟨.written, r, n, f, t⟩ →
    Follows e (.refused :: l) ⟨.refused, r, n, f, t⟩
  | auditing {l r n f t} (start : W) : Follows e l ⟨.tested, r, n, f, t⟩ →
    Follows e (.auditing start :: l) ⟨.reading, r, n + 1, f, t⟩
  | agreed {l r n f t} (start finish : W) (shown : ℕ) : Follows e l ⟨.reading, r, n, f, t⟩ →
    Read e t shown f start finish →
    Follows e (.judged start finish shown .approved :: l) ⟨.agreed, r, n, f, t⟩
  | objected {l r n f t} (start finish : W) (shown : ℕ) (fs : List Finding) (hfs : fs ≠ []) :
    Follows e l ⟨.reading, r, n, f, t⟩ →
    Follows e (.judged start finish shown (.changesRequested fs hfs) :: l) ⟨.objected, r, n, f, t⟩
  | blocked {l r n f t} (start finish : W) (shown : ℕ) (reason : StopReason) (fs : List Finding) :
    Follows e l ⟨.reading, r, n, f, t⟩ →
    Follows e (.judged start finish shown (.blocked reason fs) :: l) ⟨.ended, r, n, f, t⟩
  | failed {l r n f t} (start finish : W) (shown : ℕ) (reason : StopReason) (fs : List Finding) :
    Follows e l ⟨.reading, r, n, f, t⟩ →
    Follows e (.judged start finish shown (.failed reason fs) :: l) ⟨.ended, r, n, f, t⟩
  | repairing {l p n f t} (hp : p = .refused ∨ p = .objected) : Follows e l ⟨p, false, n, f, t⟩ →
    Follows e (.repairing :: l) ⟨.writing, true, n, f, t⟩
  | applied {l r n f t} : Follows e l ⟨.agreed, r, n, f, t⟩ →
    Follows e (.applied f :: l) ⟨.applied, r, n, f, t⟩
  | approved {l r n f t} : Follows e l ⟨.applied, r, n, f, t⟩ →
    Follows e (.persisted .approved :: l) ⟨.approved, r, n, f, t⟩

namespace Event

def implements : Event W → Bool
  | .implementing => true
  | _ => false

def repairs : Event W → Bool
  | .repairing => true
  | _ => false

def audits : Event W → Bool
  | .auditing _ => true
  | _ => false

/-- A model was let at the candidate, or came back with another one. -/
def edits : Event W → Bool
  | .implementing => true
  | .repairing => true
  | .candidate _ => true
  | _ => false

def persists : Event W → Option State
  | .persisted s => some s
  | _ => none

def verdict : Event W → Option Reply
  | .judged _ _ _ reply => some reply
  | _ => none

end Event

inductive Gate where
  | acceptance
  | evaluator
deriving DecidableEq

def Event.gate : Event W → Option Gate
  | .accepted _ _ => some .acceptance
  | .refused => some .acceptance
  | .auditing _ => some .evaluator
  | _ => none

def persistedStates (l : List (Event W)) : List State := l.filterMap Event.persists

def verdicts (l : List (Event W)) : List Reply := l.filterMap Event.verdict

/-- The gates the candidate has met since the repair, the last one first. -/
def gatesSinceRepair (l : List (Event W)) : List Gate :=
  (l.takeWhile fun x => !x.repairs).filterMap Event.gate

def Point.begun : Point → Bool
  | .fresh => false
  | _ => true

def Point.read : Point → Bool
  | .fresh | .writing | .written | .tested | .refused => false
  | _ => true

def Point.gates : Point → List Gate
  | .fresh | .writing | .written => []
  | .tested | .refused => [.acceptance]
  | _ => [.evaluator, .acceptance]

theorem Follows.implementations {l : List (Event W)} {c : Course} (h : Follows e l c) :
    l.countP Event.implements = c.point.begun.toNat := by
  induction h with
  | start => rfl
  | implementing _ ih => rw [List.countP_cons, ih]; rfl
  | repairing hp _ ih => rcases hp with rfl | rfl <;> (rw [List.countP_cons, ih]; rfl)
  | _ => rename_i ih; rw [List.countP_cons, ih]; rfl

theorem Follows.repairs {l : List (Event W)} {c : Course} (h : Follows e l c) :
    l.countP Event.repairs = c.repaired.toNat := by
  induction h with
  | start => rfl
  | _ => rename_i ih; rw [List.countP_cons, ih]; rfl

theorem Follows.audits {l : List (Event W)} {c : Course} (h : Follows e l c) :
    l.countP Event.audits = c.rounds := by
  induction h with
  | start => rfl
  | _ => rename_i ih; rw [List.countP_cons, ih]; rfl

theorem Follows.rounds_le {l : List (Event W)} {c : Course} (h : Follows e l c) :
    c.rounds ≤ c.repaired.toNat + c.point.read.toNat := by
  induction h with
  | start => exact Nat.zero_le _
  | auditing _ _ ih => exact Nat.succ_le_succ ih
  | repairing hp _ ih =>
    rcases hp with rfl | rfl
    · exact ih.trans (Nat.zero_le _)
    · exact ih
  | _ => rename_i ih; exact ih

/-- Newer than `x` nothing touched the candidate, and up to `x` there is `P`. -/
def Since (x : Event W → Prop) (P : List (Event W) → Prop) (l : List (Event W)) : Prop :=
  ∃ p y rest, l = p ++ y :: rest ∧ (∀ z ∈ p, z.edits = false) ∧ x y ∧ P rest

theorem Since.head {x : Event W → Prop} {P : List (Event W) → Prop} {l : List (Event W)}
    {y : Event W} (hy : x y) (h : P l) : Since x P (y :: l) :=
  ⟨[], y, l, rfl, by simp, hy, h⟩

theorem Since.cons {x : Event W → Prop} {P : List (Event W) → Prop} {l : List (Event W)}
    {z : Event W} (hz : z.edits = false) (h : Since x P l) : Since x P (z :: l) := by
  obtain ⟨p, y, rest, rfl, hp, hy, hrest⟩ := h
  exact ⟨z :: p, y, rest, rfl, List.forall_mem_cons.2 ⟨hz, hp⟩, hy, hrest⟩

/-- `f` is the latest candidate. -/
def Latest (f : String) : List (Event W) → Prop := Since (· = .candidate f) fun _ => True

/-- The acceptance passed on the latest candidate, measured from `t` on. -/
def Tested (t : ℕ) (f : String) : List (Event W) → Prop := Since (· = .accepted t f) (Latest f)

/-- The evaluator approved after that. -/
def Agreed (e : Env W) (t : ℕ) (f : String) : List (Event W) → Prop :=
  Since (fun y => ∃ start finish shown, y = .judged start finish shown .approved ∧
    Read e t shown f start finish) (Tested t f)

/-- What has been reached of the road. -/
def Course.Reached (e : Env W) (c : Course) (l : List (Event W)) : Prop :=
  match c.point with
  | .fresh | .writing => True
  | .written | .refused => Latest c.fingerprint l
  | .tested | .reading | .objected | .ended => Tested c.since c.fingerprint l
  | .agreed | .applied | .approved => Agreed e c.since c.fingerprint l

theorem Course.Reached.persisted {c : Course} {l : List (Event W)} {s : State}
    (h : c.Reached e l) : c.Reached e (.persisted s :: l) := by
  obtain ⟨point, r, n, f, t⟩ := c
  cases point <;> first | trivial | exact Since.cons rfl h

theorem Follows.reached {l : List (Event W)} {c : Course} (h : Follows e l c) :
    c.Reached e l := by
  induction h with
  | start => trivial
  | persisted s _ _ ih => exact ih.persisted
  | implementing => trivial
  | candidate g => exact Since.head rfl trivial
  | accepted since _ ih => exact Since.head rfl ih
  | agreed start finish shown _ hread ih => exact Since.head ⟨start, finish, shown, rfl, hread⟩ ih
  | repairing => trivial
  | _ => exact Since.cons rfl ‹_›

theorem Follows.approved_point {l : List (Event W)} {c : Course} (h : Follows e l c)
    (ha : .persisted .approved ∈ l) : c.point = .approved := by
  induction h with
  | start => cases ha
  | persisted s hs _ ih => exact ih (by simpa [hs.symm] using ha)
  | approved => rfl
  | repairing hp _ ih =>
    have hpoint := ih (by simpa using ha)
    rcases hp with rfl | rfl <;> cases hpoint
  | _ => exact absurd (‹_ → _› (by simpa using ha)) (by simp)

theorem Follows.gates {l : List (Event W)} {c : Course} (h : Follows e l c)
    (hr : c.repaired = true) : gatesSinceRepair l = c.point.gates := by
  induction h with
  | start => cases hr
  | repairing => rfl
  | implementing => cases hr
  | accepted _ _ ih => exact congrArg (Gate.acceptance :: ·) (ih hr)
  | refused _ ih => exact congrArg (Gate.acceptance :: ·) (ih hr)
  | auditing _ _ ih => exact congrArg (Gate.evaluator :: ·) (ih hr)
  | _ => rename_i ih; exact ih hr

def Reply.objects : Reply → Prop
  | .approved => False
  | _ => True

/-- An objection is answered by a repair or by nothing. -/
theorem Follows.objection {l : List (Event W)} {c : Course} (h : Follows e l c) {r : Reply}
    (hr : r ∈ verdicts l) (ho : r.objects) :
    c.repaired = true ∨ c.point = .objected ∨ c.point = .ended := by
  induction h with
  | start => cases hr
  | persisted _ _ _ ih => exact ih hr
  | repairing => exact .inl rfl
  | objected => exact .inr (.inl rfl)
  | blocked => exact .inr (.inr rfl)
  | failed => exact .inr (.inr rfl)
  | agreed start finish shown _ _ ih =>
    rcases List.mem_cons.1 hr with rfl | hr
    · exact ho.elim
    · simpa using ih hr
  | _ => rename_i ih; simpa using ih hr

theorem Follows.objection_while_reading {l : List (Event W)} {r n f t}
    (h : Follows e l ⟨.reading, r, n, f, t⟩) {reply : Reply} (hr : reply ∈ verdicts l)
    (ho : reply.objects) : r = true := by
  simpa using h.objection hr ho

/-- The second objection is where the road ends. -/
theorem Follows.second_objection {l : List (Event W)} {c : Course} (h : Follows e l c)
    {r s : Reply} (hrs : [s, r].Sublist (verdicts l)) (hr : r.objects) (hs : s.objects) :
    c.repaired = true ∧ (c.point = .objected ∨ c.point = .ended) := by
  -- of the two, the newer one is the newest verdict or the road had ended before
  have hnewest : ∀ {l : List (Event W)} {t n f since} {last : Reply},
      Follows e l ⟨.reading, t, n, f, since⟩ →
      ([s, r].Sublist (verdicts l) → False) →
      [s, r].Sublist (last :: verdicts l) → t = true := by
    intro l t n f since last hl hnone hsub
    rcases List.sublist_cons_iff.1 hsub with hsub | ⟨tail, htail, hsub⟩
    · exact (hnone hsub).elim
    · obtain ⟨-, rfl⟩ := List.cons.inj htail
      exact hl.objection_while_reading (List.singleton_sublist.1 hsub) hr
  induction h with
  | start => cases hrs
  | persisted _ _ _ ih => exact ih hrs
  | repairing hp _ ih => simpa using ih hrs
  | objected _ _ _ _ _ hl ih =>
    exact ⟨hnewest hl (fun hsub => by simpa using ih hsub) hrs, .inl rfl⟩
  | blocked _ _ _ _ _ hl ih =>
    exact ⟨hnewest hl (fun hsub => by simpa using ih hsub) hrs, .inr rfl⟩
  | failed _ _ _ _ _ hl ih =>
    exact ⟨hnewest hl (fun hsub => by simpa using ih hsub) hrs, .inr rfl⟩
  | agreed _ _ _ hl _ ih =>
    rcases List.sublist_cons_iff.1 hrs with hsub | ⟨tail, htail, -⟩
    · simpa using ih hsub
    · obtain ⟨rfl, -⟩ := List.cons.inj htail
      exact hs.elim
  | _ => rename_i ih; simpa using ih hrs

def Event.acceptance : Event W → Option (ℕ × String)
  | .accepted since f => some (since, f)
  | _ => none

def Event.reading : Event W → Option (W × W × ℕ × Reply)
  | .judged start finish shown reply => some (start, finish, shown, reply)
  | _ => none

def lastAccepted (l : List (Event W)) : Option (ℕ × String) := l.findSome? Event.acceptance

def lastReading (l : List (Event W)) : Option (W × W × ℕ × Reply) := l.findSome? Event.reading

def Point.pastTest : Point → Bool
  | .fresh | .writing | .written | .refused => false
  | _ => true

theorem Follows.lastAccepted {l : List (Event W)} {c : Course} (h : Follows e l c)
    (hp : c.point.pastTest = true) : lastAccepted l = some (c.since, c.fingerprint) := by
  induction h with
  | start => cases hp
  | implementing => cases hp
  | candidate => cases hp
  | accepted => rfl
  | refused => cases hp
  | repairing => cases hp
  | auditing _ _ ih => exact ih rfl
  | agreed _ _ _ _ _ ih => exact ih rfl
  | objected _ _ _ _ _ _ ih => exact ih rfl
  | blocked _ _ _ _ _ _ ih => exact ih rfl
  | failed _ _ _ _ _ _ ih => exact ih rfl
  | applied _ ih => exact ih rfl
  | approved _ ih => exact ih rfl
  | persisted _ _ _ ih => exact ih hp

def Point.pastVerdict : Point → Bool
  | .agreed | .applied | .approved => true
  | _ => false

theorem Follows.lastReading {l : List (Event W)} {c : Course} (h : Follows e l c)
    (hp : c.point.pastVerdict = true) : ∃ start finish shown,
      lastReading l = some (start, finish, shown, .approved) ∧
      Read e c.since shown c.fingerprint start finish := by
  induction h with
  | agreed start finish shown _ hread => exact ⟨start, finish, shown, rfl, hread⟩
  | applied _ ih => exact ih rfl
  | approved _ ih => exact ih rfl
  | persisted _ _ _ ih => exact ih hp
  | _ => cases hp

/-- What is applied is the candidate the road is about, and it is applied once. -/
theorem Follows.applied_iff {l : List (Event W)} {c : Course} (h : Follows e l c) {g : String} :
    .applied g ∈ l ↔ (c.point = .applied ∨ c.point = .approved) ∧ g = c.fingerprint := by
  induction h with
  | start => simp
  | persisted s _ _ ih => simpa using ih
  | repairing hp _ ih => rcases hp with rfl | rfl <;> simpa using ih
  | applied _ ih => simp [ih]
  | approved _ ih => simpa using ih
  | _ => rename_i ih; simpa using ih

end RagPipeline.Runner
