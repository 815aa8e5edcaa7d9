import RagPipeline.Index.Finished
import Mathlib.Algebra.Group.Nat.Defs

/-! # Leases seen through a context

A run reads its document through row level security, and the context of its
connection is signed once and good for two minutes. Without it the connection is
the default tenant's, which sees no row of another tenant. -/

set_option autoImplicit false

namespace RagPipeline.Index
open Guard Table Transition

/-- The tenant a connection without a valid context belongs to. -/
def defaultTenant : Uuid := 0

/-- What a context signs. -/
structure ContextMaterial where
  tenantId : Uuid
  actorId : Option Uuid
  service : Bool
  issuedAt : ℕ
  nonce : ℕ
deriving DecidableEq, Repr

/-- The settings of a session. -/
structure SessionContext where
  material : ContextMaterial
  signature : String
deriving DecidableEq, Repr

/-- `set_tenant_context`. -/
def setTenantContext (sign : ContextMaterial → String) (tenantId : Uuid) (actorId : Option Uuid)
    (service : Bool) (issuedAt nonce : ℕ) : SessionContext :=
  let material : ContextMaterial := ⟨tenantId, actorId, service, issuedAt, nonce⟩
  ⟨material, sign material⟩

/-- `extract(epoch FROM now())::bigint`, which rounds half away from zero. -/
def epochSeconds (now : Time) : ℤ :=
  if 0 ≤ now then (now + 500000) / 1000000 else -((500000 - now) / 1000000)

namespace SessionContext

/-- `rag_context_valid`. The issue time is a number of at most twelve digits. -/
def Valid (sign : ContextMaterial → String) (context : SessionContext) (now : Time) : Prop :=
  context.material.issuedAt < 10 ^ 12 ∧ (epochSeconds now - context.material.issuedAt).natAbs ≤ 120 ∧
    sign context.material = context.signature

instance (sign : ContextMaterial → String) (context : SessionContext) (now : Time) :
    Decidable (context.Valid sign now) := inferInstanceAs (Decidable (_ ∧ _))

def effectiveTenant (sign : ContextMaterial → String) (context : SessionContext) (now : Time) :
    Uuid :=
  if context.Valid sign now then context.material.tenantId else defaultTenant

def ServiceAccess (sign : ContextMaterial → String) (context : SessionContext) (now : Time) :
    Prop :=
  context.Valid sign now ∧ context.material.service = true

instance (sign : ContextMaterial → String) (context : SessionContext) (now : Time) :
    Decidable (context.ServiceAccess sign now) := inferInstanceAs (Decidable (_ ∧ _))

/-- The policy `tenant_isolation` on a row of this tenant. -/
def Sees (sign : ContextMaterial → String) (context : SessionContext) (now : Time)
    (tenantId : Uuid) : Prop :=
  context.ServiceAccess sign now ∨ tenantId = context.effectiveTenant sign now

instance (sign : ContextMaterial → String) (context : SessionContext) (now : Time)
    (tenantId : Uuid) : Decidable (context.Sees sign now tenantId) :=
  inferInstanceAs (Decidable (_ ∨ _))

/-- A context signed for the tenant of the row, or for the service, sees it for
two minutes; rows of the default tenant are seen by everybody. -/
theorem sees_iff {sign : ContextMaterial → String} {tenantId documentTenant : Uuid}
    {actorId : Option Uuid} {service : Bool} {issuedAt nonce : ℕ}
    (hbound : service = true ∨ documentTenant = tenantId) (now : Time) :
    (setTenantContext sign tenantId actorId service issuedAt nonce).Sees sign now documentTenant ↔
      documentTenant = defaultTenant ∨
        issuedAt < 10 ^ 12 ∧ (epochSeconds now - issuedAt).natAbs ≤ 120 := by
  have hvalid : (setTenantContext sign tenantId actorId service issuedAt nonce).Valid sign now ↔
      issuedAt < 10 ^ 12 ∧ (epochSeconds now - issuedAt).natAbs ≤ 120 :=
    ⟨fun h => ⟨h.1, h.2.1⟩, fun h => ⟨h.1, h.2, rfl⟩⟩
  by_cases h : issuedAt < 10 ^ 12 ∧ (epochSeconds now - issuedAt).natAbs ≤ 120
  · refine iff_of_true ?_ (.inr h)
    rcases hbound with hservice | htenant
    · exact .inl ⟨hvalid.2 h, hservice⟩
    · right
      rw [effectiveTenant, if_pos (hvalid.2 h)]
      exact htenant
  · have hexpired := mt hvalid.1 h
    rw [Sees, ServiceAccess, effectiveTenant, if_neg hexpired]
    simp only [hexpired, h, false_and, false_or, or_false]

end SessionContext

/-- The tables as a connection sees them that sees no row of the document. -/
def Store.hidden (s : Store) : Store := ⟨none, [], [], [], [], [], [], [], none, s.policyEpoch⟩

def Store.through (s : Store) (visible : Prop) [Decidable visible] : Store :=
  if visible then s else s.hidden

/-- A write of a run that asks the row first. -/
inductive AuthorityCheck where
  | heartbeat
  | allocate
  | upsert (rows : List (PreparedRow × Vectors))
  | copy (rows : List PreparedRow)
  | recordOutcome (status : AttemptOutcome) (note : Option String)

section
variable [Deployment] {a : IngestAttempt} {s : Store} {w w' : World}

namespace AuthorityCheck

def run (a : IngestAttempt) (now : Time) (s : Store) : AuthorityCheck → Except Refusal Store
  | .heartbeat => heartbeatAttempt a now s
  | .allocate => (allocateGeneration a s).map Prod.fst
  | .upsert rows => upsertChunks rows a s
  | .copy rows => copyChunksIntoGeneration rows a s
  | .recordOutcome status note => recordAttemptOutcome a status note now s

/-- The row is asked, unless the verdict is not a worker's to write. -/
def asks : AuthorityCheck → Prop
  | .recordOutcome status _ => status ∈ AttemptOutcome.workerWritable
  | _ => True

end AuthorityCheck

theorem updateDocument_error {old new : DocumentRow} {e : Refusal}
    (h : s.updateDocument old new = .error e) : ¬ e.saysLost := by
  unfold Store.updateDocument at h
  by_cases h1 : old.purgedAt = none ∨ new = old
  · by_cases h2 : old.purgedAt ≠ none ∨ new.purgedAt = none ∨ new.tombstone
    · simp only [require_true h1, require_true h2, ok_bind] at h
      cases h
    · simp only [require_true h1, require_false h2, ok_bind, error_bind] at h
      cases h
      exact id
  · simp only [require_false h1, error_bind] at h
    cases h
    exact id

/-- With the authority of the row nothing is reported lost. -/
theorem run_authorized {check : AuthorityCheck} {now : Time} {d : DocumentRow} {e : Refusal}
    (hauth : authority a s = .ok d) (h : check.run a now s = .error e) : ¬ e.saysLost := by
  cases check with
  | heartbeat =>
    simp only [AuthorityCheck.run, heartbeatAttempt, hauth, ok_bind] at h
    exact updateDocument_error h
  | allocate =>
    simp only [AuthorityCheck.run, allocateGeneration, hauth, ok_bind] at h
    cases hup : s.updateDocument d { d with lastGeneration := d.lastGeneration + 1 } with
    | ok t =>
      rw [hup] at h
      cases h
    | error e' =>
      rw [hup] at h
      cases h
      exact updateDocument_error hup
  | upsert rows =>
    simp only [AuthorityCheck.run, upsertChunks, hauth, ok_bind] at h
    by_cases hv : rows = [] ∨ s.hasVersion a.candidateId
    · simp only [require_true hv, ok_bind] at h
      cases h
    · simp only [require_false hv, error_bind] at h
      cases h
      exact id
  | copy rows =>
    simp only [AuthorityCheck.run, copyChunksIntoGeneration, hauth, ok_bind] at h
    by_cases hv : rows = [] ∨ s.hasVersion a.candidateId
    · simp only [require_true hv, ok_bind] at h
      cases h
    · simp only [require_false hv, error_bind] at h
      cases h
      exact id
  | recordOutcome status note =>
    simp only [AuthorityCheck.run, recordAttemptOutcome, hauth, ok_bind] at h
    by_cases hw : status ∈ AttemptOutcome.workerWritable
    · simp only [require_true hw, ok_bind] at h
      exact updateDocument_error h
    · simp only [require_false hw, error_bind] at h
      cases h
      exact id

/-- Without it a check that asks reports the refusal of the row. -/
theorem run_unauthorized {check : AuthorityCheck} {now : Time} {e : Refusal}
    (hasks : check.asks) (hauth : authority a s = .error e) : check.run a now s = .error e := by
  cases check with
  | heartbeat => simp only [AuthorityCheck.run, heartbeatAttempt, hauth, error_bind]
  | allocate =>
    simp only [AuthorityCheck.run, allocateGeneration, hauth, error_bind]
    rfl
  | upsert rows => simp only [AuthorityCheck.run, upsertChunks, hauth, error_bind]
  | copy rows => simp only [AuthorityCheck.run, copyChunksIntoGeneration, hauth, error_bind]
  | recordOutcome status note =>
    have hw : status ∈ AttemptOutcome.workerWritable := hasks
    simp only [AuthorityCheck.run, recordAttemptOutcome, require_true hw, hauth, ok_bind,
      error_bind]

/-- A check that does not ask says nothing about the lease. -/
theorem run_unasked {check : AuthorityCheck} {now : Time} {e : Refusal} (hasks : ¬ check.asks)
    (h : check.run a now s = .error e) : ¬ e.saysLost := by
  cases check with
  | recordOutcome status note =>
    have hw : status ∉ AttemptOutcome.workerWritable := hasks
    simp only [AuthorityCheck.run, recordAttemptOutcome, require_false hw, error_bind] at h
    cases h
    exact id
  | heartbeat | allocate | upsert rows | copy rows => exact absurd trivial hasks

/-- The candidate and the attempt on the row. -/
def Store.names (s : Store) : Option (Option Uuid × Option Uuid) :=
  s.document.map fun d => (d.candidateId, d.attemptId)

/-- A history in which no transaction changed the names on the row. -/
inductive Undisturbed (w : World) : World → Prop where
  | start : Undisturbed w w
  | next {u v : World} {act : Action} : Undisturbed w u → documentSystem.step u act v →
      v.store.names = u.store.names → Undisturbed w v

theorem Undisturbed.names (h : Undisturbed w w') : w'.store.names = w.store.names := by
  induction h with
  | start => rfl
  | next _ _ hsame ih => exact hsame.trans ih

omit [Deployment] in
theorem keepsLease_iff_names : keepsLease a w ↔
    w.store.names = some (some a.candidateId, some a.attemptId) := by
  constructor
  · rintro ⟨d, hauth⟩
    obtain ⟨hd, hcand, hatt⟩ := authority_ok.1 hauth
    rw [Store.names, hd, Option.map_some, hcand, hatt]
  · intro h
    obtain ⟨d, hd, hnames⟩ := Option.map_eq_some_iff.1 h
    obtain ⟨hcand, hatt⟩ := Prod.mk.inj hnames
    exact ⟨d, authority_ok.2 ⟨hd, hcand, hatt⟩⟩

/-- In a history without a change of the names no check reports the lease lost,
exactly if the check does not ask or its connection still sees the row. -/
theorem lost_only_when_lost_iff (h : keepsLease a w) (sign : ContextMaterial → String)
    {tenantId documentTenant : Uuid} (actorId : Option Uuid) {service : Bool} (issuedAt nonce : ℕ)
    (hbound : service = true ∨ documentTenant = tenantId) (now : Time) (check : AuthorityCheck) :
    (∀ w', Undisturbed w w' → ∀ e,
      check.run a now (w'.store.through ((setTenantContext sign tenantId actorId service issuedAt
        nonce).Sees sign now documentTenant)) = .error e → ¬ e.saysLost) ↔
      (check.asks → documentTenant = defaultTenant ∨
        issuedAt < 10 ^ 12 ∧ (epochSeconds now - issuedAt).natAbs ≤ 120) := by
  have hsees := @SessionContext.sees_iff sign _ _ actorId _ issuedAt nonce hbound now
  rw [← hsees]
  constructor
  · intro hall hasks
    by_contra hblind
    have hauth : authority a (w.store.through ((setTenantContext sign tenantId actorId service
        issuedAt nonce).Sees sign now documentTenant)) =
          .error (.attemptLeaseLost "belge kaydi yok; bu deneme gecersiz") := by
      rw [Store.through, if_neg hblind]
      rfl
    exact hall w .start _ (run_unauthorized hasks hauth) trivial
  · intro hseen w' hw' e he
    by_cases hasks : check.asks
    · rw [Store.through, if_pos (hseen hasks)] at he
      obtain ⟨d, hauth⟩ := keepsLease_iff_names.2 (hw'.names.trans (keepsLease_iff_names.1 h))
      exact run_authorized hauth he
    · exact run_unasked hasks he

end

section
attribute [local instance] sampleDeployment

/-- A run of less than two minutes. -/
theorem lost_only_when_lost_soon : keepsLease secondAttempt replacedWorld ∧
    ∀ w', Undisturbed replacedWorld w' → ∀ e,
      AuthorityCheck.heartbeat.run secondAttempt 90000000 (w'.store.through
        ((setTenantContext (fun _ => "imza") 5 none false 0 1).Sees (fun _ => "imza") 90000000 5)) =
          .error e → ¬ e.saysLost :=
  ⟨replacedWorld_working.lease, (lost_only_when_lost_iff replacedWorld_working.lease
    (fun _ => "imza") none 0 1 (.inr rfl) 90000000 .heartbeat).2 fun _ => .inr (by decide)⟩

/-- Three minutes after the connection was opened the heartbeat of the only
attempt there is reports its lease lost. -/
theorem lost_after_context : keepsLease secondAttempt replacedWorld ∧
    Undisturbed replacedWorld replacedWorld ∧
    AuthorityCheck.heartbeat.run secondAttempt 180000000 (replacedWorld.store.through
      ((setTenantContext (fun _ => "imza") 5 none false 0 1).Sees (fun _ => "imza") 180000000 5)) =
        .error (.attemptLeaseLost "belge kaydi yok; bu deneme gecersiz") :=
  ⟨replacedWorld_working.lease, .start, rfl⟩

end

end RagPipeline.Index
