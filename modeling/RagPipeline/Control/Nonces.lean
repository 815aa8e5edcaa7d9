import RagPipeline.Control.Accounted

/-! # An assertion is presented once

The rows of a nonce are a slice of the store, under the lock of the nonce. Who consumes
an assertion leaves its own row there and takes away only what had expired when the call
started; everybody else leaves every slice as it is. -/

set_option autoImplicit false

namespace RagPipeline.Control
open Guard Locks Table

/-- A key version and a nonce. -/
abbrev NonceKey := Int4 × Bytes

def Store.nonceRows (s : Store) (k : NonceKey) : List NonceRow :=
  s.nonces.filter fun n => n.keyVersion = k.1 ∧ n.nonce = k.2

def nonceSlices : Slicing Store Row NonceKey fun _ => List NonceRow where
  slice k s := s.nonceRows k
  key k := lock (.nonce k.1 k.2)
  exclusive k := excludes_iff.2 ⟨rfl, by simp [lock]⟩

def Coordinates.nonceKey (a : Coordinates) : NonceKey := (a.keyVersion, a.nonce)

/-- When an assertion can no longer be presented. -/
def Coordinates.expiry (a : Coordinates) : Time := a.expiresAt.toInt * second

/-- The call and the assertion that an operation presents, if it presents one. -/
def Operation.presents : Operation → Option (Moment × Coordinates)
  | .redeemIssue r => some (r.moment, r.coordinates .approvalRedeemIssue)
  | .redeemRotation r => some (r.moment, r.coordinates .approvalRedeemRotate)
  | .present m _ a _ => some (m, a)
  | _ => none

/-- Only what had expired is gone. -/
def Kept (now : Time) (before after : List NonceRow) : Prop :=
  ∀ n ∈ before, n ∈ after ∨ n.expiresAt ≤ now

/-- What a call that presents an assertion makes of the rows of a nonce. -/
def Presented (m : Moment) (a : Coordinates) (k : NonceKey) (before after : List NonceRow) : Prop :=
  Kept m.now before after ∧
    (k = a.nonceKey → m.now < a.expiry ∧ (∀ n ∈ before, n.expiresAt ≤ m.now) ∧ a.nonceRow m ∈ after)

/-- None of the statements that are left writes a nonce. -/
def Spares : ControlScript → Prop
  | .statement _ run next =>
    ∀ s, (∀ f, run s = .ok f → ∀ c, (f c).nonces = c.nonces) ∧ Spares (next s)
  | _ => True

section
variable {P : NonceKey → List NonceRow → List NonceRow → Prop}
  {H : List Row} {c s : Store} {rest : ControlScript} {m : Moment} {a : Coordinates}

/-- What holds of the slices that are held, and of any other that is left alone,
holds of them all. -/
theorem rows_seen {c' s' : Store} (hsees : nonceSlices.Sees (fun _ => True) H c s c' s')
    (hheld : ∀ k, nonceSlices.key k ∈ H → P k (c.nonceRows k) (s.nonceRows k))
    (hfree : ∀ k, nonceSlices.key k ∉ H → ∀ l, P k l l) (k : NonceKey) :
    P k (c'.nonceRows k) (s'.nonceRows k) := by
  by_cases hk : nonceSlices.key k ∈ H
  · have hc : c.nonceRows k = c'.nonceRows k := hsees.committed k (Slicing.guarded_key hk)
    have hs : s.nonceRows k = s'.nonceRows k := hsees.view k (Slicing.guarded_key hk)
    exact hc ▸ hs ▸ hheld k hk
  · have hsame : s'.nonceRows k = c'.nonceRows k := hsees.apart k hk
    exact hsame ▸ hfree k hk _

theorem Spares.shielded (h : Spares rest)
    (hheld : ∀ k, nonceSlices.key k ∈ H → P k (c.nonceRows k) (s.nonceRows k))
    (hfree : ∀ k, nonceSlices.key k ∉ H → ∀ l, P k l l) :
    nonceSlices.Shielded (fun _ => True) (fun c s => ∀ k, P k (c.nonceRows k) (s.nonceRows k))
      rest H c s := by
  induction rest generalizing H c s with
  | commit => exact fun c' s' hsees => rows_seen hsees hheld hfree
  | abort => trivial
  | statement targets run next ih =>
    intro s₀ c₁ s₁ _ hsees _ f hf
    have hsame : ∀ c k, (f c).nonceRows k = c.nonceRows k :=
      fun c k => congrArg (List.filter _) ((h s₁).1 f hf c)
    refine ⟨⟨fun k _ c => hsame c k, fun k c c' hcc => ?_⟩, ih s₁ (h s₁).2 ?_ ?_⟩
    · exact (hsame c k).trans (Eq.trans hcc (hsame c' k).symm)
    · intro k _
      rw [hsame]
      exact rows_seen hsees hheld hfree k
    · exact fun k hk => hfree k fun hmem => hk (List.mem_append_right _ hmem)

theorem confined_deleteNonces {l : List NonceRow}
    (h : ∀ n ∈ l, lock (.nonce n.keyVersion n.nonce) ∈ H) :
    nonceSlices.Confined H (Store.deleteNonces l) where
  unkeyed k hk c := by
    refine (List.filter_filter ..).trans (List.filter_congr fun n _ => ?_)
    by_cases hn : n.keyVersion = k.1 ∧ n.nonce = k.2
    · have hnot : n ∉ l := by
        intro hl
        have hmem := h n hl
        rw [hn.1, hn.2] at hmem
        exact hk hmem
      simp [hn, hnot]
    · simp [hn]
  sliced k c c' hc := by
    have hrows : ∀ c : Store,
        (c.deleteNonces l).nonceRows k = (c.nonceRows k).filter fun n => n ∉ l :=
      fun c => List.filter_comm ..
    exact (hrows c).trans (Eq.trans (congrArg _ hc) (hrows c').symm)

theorem nonceRows_addNonce {n : NonceRow} {k : NonceKey} : (s.addNonce n).nonceRows k =
    s.nonceRows k ++ if (n.keyVersion, n.nonce) = k then [n] else [] := by
  by_cases h : (n.keyVersion, n.nonce) = k
  · simp [Store.nonceRows, Store.addNonce, List.filter_append, ← h]
  · have hn : ¬ (n.keyVersion = k.1 ∧ n.nonce = k.2) := fun hn => h (Prod.ext hn.1 hn.2)
    simp [Store.nonceRows, Store.addNonce, List.filter_append, h, hn]

theorem confined_addNonce {n : NonceRow} (h : lock (.nonce n.keyVersion n.nonce) ∈ H) :
    nonceSlices.Confined H (Store.addNonce n) where
  unkeyed k hk c := by
    have hne : (n.keyVersion, n.nonce) ≠ k := fun he => hk (he ▸ h)
    have hsame : (c.addNonce n).nonceRows k = c.nonceRows k := by
      rw [nonceRows_addNonce, if_neg hne, List.append_nil]
    exact hsame
  sliced k c c' hc :=
    nonceRows_addNonce.trans (Eq.trans (congrArg (· ++ _) hc) nonceRows_addNonce.symm)

theorem shielded_consume {hmac : Bytes → Bytes → Bytes} {version : BitVec 16} {mac : Bytes}
    (h : Spares rest) (hH : ∀ k, nonceSlices.key k ∉ H) : nonceSlices.Shielded (fun _ => True)
      (fun c s => ∀ k, Presented m a k (c.nonceRows k) (s.nonceRows k))
      (consumeAssertion hmac m version a mac rest) H c s := by
  refine Slicing.shielded_require fun hvalid => ?_
  split
  · trivial
  intro s₀ c₁ s₁ _ _ _ f hf
  obtain rfl := Except.ok.inj hf
  refine ⟨Slicing.confined_id, Slicing.shielded_demand fun key _ =>
    Slicing.shielded_require fun _ => ?_⟩
  have hfree : ∀ k, nonceSlices.key k ∉ (if (s₀.verificationKey a.keyVersion m.now).isSome then
      [share (.assertionKey a.keyVersion)] else []) ++ H := by
    intro k hk
    rcases List.mem_append.1 hk with hk | hk
    · split at hk
      · cases List.mem_singleton.1 hk
      · cases hk
    · exact hH k hk
  intro _ c₂ s₂ _ _ _ f hf
  obtain rfl := Except.ok.inj hf
  refine ⟨Slicing.confined_id, ?_⟩
  -- the expired nonces that it found go, each under its lock
  intro _ c₃ s₃ _ hsees _ f hf
  obtain rfl := Except.ok.inj hf
  refine ⟨confined_deleteNonces fun n hn => List.mem_append_left _ (List.mem_map_of_mem hn), ?_⟩
  have hdeleted : ∀ k, Kept m.now (c₃.nonceRows k)
      ((s₃.deleteNonces (s₂.expiredNonces m.now m.skips)).nonceRows k) := by
    intro k n hn
    have hsame : s₃.nonceRows k = c₃.nonceRows k := hsees.apart k (hfree k)
    by_cases hexp : n ∈ s₂.expiredNonces m.now m.skips
    · right
      have hmem := List.mem_filter.1 ((List.mem_mergeSort).1 (List.mem_of_mem_take hexp))
      exact (of_decide_eq_true hmem.2).1
    · left
      rw [← hsame] at hn
      exact List.mem_filter.2 ⟨List.mem_filter.2 ⟨(List.mem_filter.1 hn).1, by simpa using hexp⟩,
        (List.mem_filter.1 hn).2⟩
  -- and then its own row, where there is none
  intro _ c₄ s₄ _ hsees' _ f hf
  obtain rfl := Except.ok.inj hf
  have hleft : ∀ k, Kept m.now (c₄.nonceRows k) (s₄.nonceRows k) :=
    @rows_seen (fun _ => Kept m.now) _ _ _ _ _ hsees' (fun k _ => hdeleted k)
      fun _ _ _ _ hn => .inl hn
  refine ⟨?_, Slicing.shielded_require fun hunused => h.shielded ?_ ?_⟩
  · split
    · exact Slicing.confined_id
    · exact confined_addNonce List.mem_cons_self
  · intro k _
    rw [if_neg hunused, nonceRows_addNonce]
    refine ⟨fun n hn => (hleft k n hn).imp_left (List.mem_append_left _), ?_⟩
    rintro rfl
    refine ⟨?_, fun n hn => (hleft _ n hn).resolve_left fun hmem => hunused ?_, ?_⟩
    · exact (Int.ediv_lt_iff_lt_mul (by decide)).1 hvalid.2.2.2
    · have := List.mem_filter.1 hmem
      exact ⟨n, this.1, of_decide_eq_true this.2⟩
    · exact List.mem_append_right _ (by simp [Coordinates.nonceKey, Coordinates.nonceRow])
  · intro k hk l
    refine ⟨fun n hn => .inl hn, ?_⟩
    rintro rfl
    exact absurd List.mem_cons_self hk

/-! ## What each operation spares -/

@[simp] theorem spares_commit : Spares .commit := trivial

@[simp] theorem spares_abort {e : Refusal} : Spares (.abort e) := trivial

@[simp] theorem spares_require {p : Prop} [Decidable p] {e : Refusal} :
    Spares (.require p e rest) ↔ (p → Spares rest) := by
  by_cases h : p <;> simp [Script.require, h]

@[simp] theorem spares_demand {α : Type} {o : Option α} {e : Refusal} {next : α → ControlScript} :
    Spares (.demand o e next) ↔ ∀ x ∈ o, Spares (next x) := by
  cases o <;> simp [Script.demand]

@[simp] theorem spares_statement {targets : Store → List Row}
    {run : Store → Except Refusal (Store → Store)} {next : Store → ControlScript} :
    Spares (.statement targets run next) ↔
      ∀ s, (∀ f, run s = .ok f → ∀ c, (f c).nonces = c.nonces) ∧ Spares (next s) := Iff.rfl

@[simp] theorem spares_read {targets : Store → List Row} {next : Store → ControlScript} :
    Spares (.read targets next) ↔ ∀ s, Spares (next s) := by
  simp [Script.read]

@[simp] theorem spares_security {o : OperatorKey} {next : Uuid → ControlScript}
    (h : ∀ u, Spares (next u)) :
    Spares (requirePlatformSecurity o next) := by
  rw [requirePlatformSecurity, spares_read]
  intro s
  split
  · exact h _
  · trivial

/-- A statement that writes something else. -/
theorem spares_write {targets : Store → List Row} {run : Store → Except Refusal (Store → Store)}
    (h : ∀ s f, run s = .ok f → ∀ c, (f c).nonces = c.nonces) :
    Spares (.statement targets run fun _ => rest) ↔ Spares rest :=
  ⟨fun hs => (hs .empty).2, fun hr s => ⟨h s, hr⟩⟩

theorem spares_ok {targets : Store → List Row} {g : Store → Store → Store}
    (h : ∀ s c, (g s c).nonces = c.nonces) :
    Spares (.statement targets (fun s => .ok (g s)) fun _ => rest) ↔ Spares rest :=
  spares_write fun s _ hf c => Except.ok.inj hf ▸ h s c

@[simp] theorem spares_cancelApprovals {p : ApprovalRow → Prop} [DecidablePred p]
    {reasonCode : String} {actor : Actor} :
    Spares (cancelApprovals p reasonCode actor rest) ↔ Spares rest := spares_ok fun _ _ => rfl

@[simp] theorem spares_insertApproval {x : ApprovalRow} :
    Spares (insertApproval x rest) ↔ Spares rest := by
  refine spares_write fun s f hf c => ?_
  simp only [bind_ok, require_ok, exists_unit, pure_ok] at hf
  obtain ⟨-, -, rfl⟩ := hf
  rfl

@[simp] theorem spares_insertApprovalEvent {x : ApprovalEvent} :
    Spares (insertApprovalEvent x rest) ↔ Spares rest :=
  spares_ok fun _ _ => rfl

@[simp] theorem spares_insertEvent {x : AccountEvent} : Spares (insertEvent x rest) ↔ Spares rest :=
  spares_ok fun _ _ => rfl

@[simp] theorem spares_insertAccount {x : AccountRow} :
    Spares (insertAccount x rest) ↔ Spares rest := by
  refine spares_write fun s f hf c => ?_
  simp only [bind_ok, require_ok, exists_unit, pure_ok] at hf
  obtain ⟨-, rfl⟩ := hf
  rfl

@[simp] theorem spares_insertScopes {k : Uuid} {scopes : List String} :
    Spares (insertScopes k scopes rest) ↔ Spares rest := by
  refine spares_write fun s f hf c => ?_
  simp only [bind_ok, require_ok, exists_unit, pure_ok] at hf
  obtain ⟨-, rfl⟩ := hf
  rfl

@[simp] theorem spares_insertCredential {k : Uuid} {version : ℕ} {digest : Bytes}
    {now expiresAt : Time} :
    Spares (insertCredential k version digest now expiresAt rest) ↔ Spares rest := by
  refine spares_write fun s f hf c => ?_
  simp only [bind_ok, require_ok, exists_unit, pure_ok] at hf
  obtain ⟨-, -, -, -, -, rfl⟩ := hf
  rfl

@[simp] theorem spares_updateAccount {k : Uuid} {f : AccountRow → AccountRow} :
    Spares (updateAccount k f rest) ↔ Spares rest := spares_ok fun _ _ => rfl

@[simp] theorem spares_endCredentials {k : Uuid} {state : CredentialState} {e : Refusal}
    (h : Spares rest) :
    Spares (endCredentials k state e rest) := by
  refine fun s => ⟨fun f hf c => ?_, spares_require.2 fun _ => h⟩
  obtain rfl := Except.ok.inj hf
  rfl

@[simp] theorem spares_updateApprovals {p : ApprovalRow → Prop} [DecidablePred p]
    {state : ApprovalState} {next : List ApprovalRow → ControlScript}
    (h : ∀ l, Spares (next l)) : Spares (updateApprovals p state next) := by
  refine fun s => ⟨fun f hf c => ?_, h _⟩
  obtain rfl := Except.ok.inj hf
  rfl

theorem spares_redeemed {r : Redeem} {x : ApprovalRow} {action : AccountAction}
    {expected : Option ℤ} {n : ℕ} :
    Spares (redeemed r x action expected n) := by
  simp [redeemed]

theorem spares_direct {hmac : Bytes → Bytes → Bytes} {o : Operation} (h : o.presents = none) :
    Spares (o.script hmac) := by
  cases o with
  | redeemIssue | redeemRotation | present => cases h
  | _ =>
    refine spares_security fun _ => ?_
    simp [readTenant, lockServiceAccount, expireServiceAccountApproval, readAccount]

theorem spares_redeemIssue {r : Redeem} : Spares (readTenant r.tenantId fun policy =>
    lockServiceAccount r.accountId <|
    readApproval r.approvalId r.tenantId r.accountId fun approved =>
    redeemIssueChecked r policy approved) := by
  simp only [readTenant, lockServiceAccount, readApproval, spares_read, redeemIssueChecked,
    spares_demand]
  rintro - - - - a -
  cases a.terms <;> simp [spares_redeemed]

theorem spares_redeemRotation {r : Redeem} : Spares (readTenant r.tenantId fun policy =>
    lockServiceAccount r.accountId <|
    readApproval r.approvalId r.tenantId r.accountId fun approved =>
    readAccount r.tenantId r.accountId fun account =>
    redeemRotationChecked r policy approved account) := by
  simp only [readTenant, lockServiceAccount, readApproval, readAccount, spares_read,
    redeemRotationChecked, spares_demand]
  rintro - - - - - a -
  cases a.terms <;> simp [spares_redeemed]

end

/-! ## Any interleaving -/

/-- What each operation does to the nonces when it commits. -/
def Leaves (o : Operation) (c s : Store) : Prop :=
  match o.presents with
  | none => ∀ k, s.nonceRows k = c.nonceRows k
  | some (m, a) => ∀ k, Presented m a k (c.nonceRows k) (s.nonceRows k)

theorem leaves_script {hmac : Bytes → Bytes → Bytes} (o : Operation) (c s : Store) :
    nonceSlices.Shielded (fun _ => True) (Leaves o) (o.script hmac) [] c s := by
  cases o with
  | redeemIssue r => exact shielded_consume spares_redeemIssue fun _ => List.not_mem_nil
  | redeemRotation r => exact shielded_consume spares_redeemRotation fun _ => List.not_mem_nil
  | present m version a mac => exact shielded_consume spares_commit fun _ => List.not_mem_nil
  | _ =>
    exact @Spares.shielded (fun _ before after => after = before) _ _ _ _ (spares_direct rfl)
      (fun _ h => absurd h List.not_mem_nil) fun _ _ _ => rfl

section
variable {τ : Type} [DecidableEq τ] {hmac : Bytes → Bytes → Bytes} {ops : τ → Operation}
  {w w' w₁ w₁' : World τ Store Row Refusal} {e e₁ : Event τ}

/-- A step changes the nonces as its operation does when it commits, or not at all. -/
theorem leaves_of_step (h : (ledgerSystem hmac ops).Reachable w)
    (hstep : (ledgerSystem hmac ops).step w e w') :
    w'.committed = w.committed ∨
      (w.transactions e.who).script = .commit ∧ Leaves (ops e.who) w.committed w'.committed :=
  Slicing.goal_of_step (fun _ _ => trivial) (fun t => leaves_script (ops t))
    (fun _ _ _ _ _ => trivial) h hstep

/-- Whoever commits and has presented an assertion had started before this time. -/
def Before (ops : τ → Operation) (now : Time) (w : World τ Store Row Refusal) (e : Event τ) :
    Prop :=
  (w.transactions e.who).script = .commit → ∀ x ∈ (ops e.who).presents, x.1.now < now

/-- A row stays as long as only those commit that had started before it expires. -/
theorem row_stays {k : NonceKey} {n : NonceRow} (h : (ledgerSystem hmac ops).Reachable w)
    (hn : n ∈ w.committed.nonceRows k)
    (hl : ((ledgerSystem hmac ops).only (Before ops n.expiresAt)).Later w w') :
    (ledgerSystem hmac ops).Reachable w' ∧ n ∈ w'.committed.nonceRows k := by
  induction hl with
  | refl => exact ⟨h, hn⟩
  | tail _ hs ih =>
    obtain ⟨hr, hn⟩ := ih
    obtain ⟨e, hbefore, hs⟩ := hs
    refine ⟨hr.next hs, ?_⟩
    rcases leaves_of_step hr hs with hsame | ⟨hcommit, hleaves⟩
    · rwa [hsame]
    · unfold Leaves at hleaves
      split at hleaves
      case h_1 =>
        rw [hleaves]
        exact hn
      case h_2 m a hpresents =>
        refine ((hleaves k).1 n hn).resolve_right (not_le.2 ?_)
        exact hbefore hcommit (m, a) hpresents

/-- Until somebody commits who started after its expiry, no assertion is accepted twice, nor
another one under its nonce; and who accepts it then is such a call, with an assertion that
expires later. -/
theorem assertion_once {m m₁ : Moment} {a a₁ : Coordinates}
    (h : (ledgerSystem hmac ops).Reachable w)
    (hstep : (ledgerSystem hmac ops).step w e w') (hpresents : (ops e.who).presents = some (m, a))
    (haccepted : w'.committed ≠ w.committed)
    (hl : ((ledgerSystem hmac ops).only (Before ops a.expiry)).Later w' w₁)
    (hstep₁ : (ledgerSystem hmac ops).step w₁ e₁ w₁')
    (hpresents₁ : (ops e₁.who).presents = some (m₁, a₁))
    (haccepted₁ : w₁'.committed ≠ w₁.committed) (hsame : a₁.nonceKey = a.nonceKey) :
    a.expiry ≤ m₁.now ∧ a.expiry < a₁.expiry := by
  have hfirst := ((leaves_of_step h hstep).resolve_left haccepted).2
  rw [Leaves, hpresents] at hfirst
  have hrow := ((hfirst a.nonceKey).2 rfl).2.2
  obtain ⟨hr, hstays⟩ := row_stays (h.next hstep) hrow hl
  have hsecond := ((leaves_of_step hr hstep₁).resolve_left haccepted₁).2
  rw [Leaves, hpresents₁] at hsecond
  obtain ⟨hbefore, hexpired, -⟩ := (hsecond a.nonceKey).2 hsame.symm
  have hstarted : a.expiry ≤ m₁.now := hexpired _ hstays
  exact ⟨hstarted, hstarted.trans_lt hbefore⟩

end

/-- One nonce, at once and again when it has expired. -/
def listed (t : ℤ) : Coordinates :=
  ⟨.approvalList, 1, 7, List.replicate 32 0, 1, none, none, none, none, some 10, BitVec.ofInt 64 t,
    BitVec.ofInt 64 (t + 30), List.replicate 16 0⟩

def presentedAt (t : ℤ) : Moment := ⟨t * second, fun _ => false⟩

def flatHmac (_ _ : Bytes) : Bytes := List.replicate 32 0

def atTime (b : Bool) : ℤ := if b then 0 else 31

def twice (b : Bool) : Operation :=
  .present (presentedAt (atTime b)) 1 (listed (atTime b)) (List.replicate 32 0)

/-- What is left of a presentation whose form is in order. -/
def presenting (m : Moment) (a : Coordinates) : ControlScript :=
  .read (fun s =>
      if (s.verificationKey a.keyVersion m.now).isSome then [share (.assertionKey a.keyVersion)]
      else []) fun s =>
  .demand (s.verificationKey a.keyVersion m.now) assertionInvalid fun key =>
  .require (secureByteaEqual (flatHmac a.bytes key.secret) (List.replicate 32 0))
    assertionInvalid <|
  .read (fun _ => []) fun s =>
  .statement
    (fun _ => (s.expiredNonces m.now m.skips).map fun n => lock (.nonce n.keyVersion n.nonce))
    (fun _ => .ok (Store.deleteNonces (s.expiredNonces m.now m.skips))) fun _ =>
  .statement (fun _ => [lock (.nonce a.keyVersion a.nonce)])
    (fun s => .ok (if s.nonceUsed a.keyVersion a.nonce then id else Store.addNonce (a.nonceRow m)))
    fun s =>
  .require (¬ s.nonceUsed a.keyVersion a.nonce)
    (.raised "40001" "service_account_assertion_replayed") .commit

theorem twice_script (b : Bool) :
    (twice b).script flatHmac = presenting (presentedAt (atTime b)) (listed (atTime b)) := by
  have hvalid : (listed (atTime b)).valid := by
    cases b <;> exact ⟨by decide, rfl, by decide, by decide, rfl, rfl, rfl, rfl, rfl, 10, rfl,
      by decide, by decide⟩
  have hform : (1 : BitVec 16) = 1 ∧ (List.replicate 32 (0 : UInt8)).length = 32 ∧
      (listed (atTime b)).issuedAt.toInt ≤ (presentedAt (atTime b)).epoch + 5 ∧
      (presentedAt (atTime b)).epoch < (listed (atTime b)).expiresAt.toInt := by
    cases b <;> decide
  rw [twice, Operation.script, consumeAssertion, Script.require, if_pos hform, assertionPayload,
    require_true hvalid]
  rfl

def keyedWorld : World Bool Store Row Refusal :=
  ⟨{ Store.empty with assertionKeys := [⟨1, [], .active, 0, none, none⟩] },
    fun b => .new (presenting (presentedAt (atTime b)) (listed (atTime b))), []⟩

/-- A step that is no commit. -/
def unfinished (w : World Bool Store Row Refusal) (e : Event Bool) :
    Option (World Bool Store Row Refusal) :=
  match (w.transactions e.who).script with
  | .commit => none
  | _ => w.happen e

theorem unfinished_before {now : Time} {w w' : World Bool Store Row Refusal} {e : Event Bool}
    (h : unfinished w e = some w') :
    ((ledgerSystem flatHmac twice).only (Before twice now)).step w e w' := by
  unfold unfinished at h
  split at h
  case h_1 => cases h
  case h_2 hscript => exact ⟨fun hcommit => absurd hcommit hscript, h⟩

/-- The first has only to commit; then the second has. -/
def acceptingWorld : World Bool Store Row Refusal :=
  (Transition.System.play World.happen keyedWorld (List.replicate 6 (.step true))).getD keyedWorld

def acceptedWorld : World Bool Store Row Refusal :=
  (acceptingWorld.happen (.step true)).getD keyedWorld

def againWorld : World Bool Store Row Refusal :=
  (Transition.System.play unfinished acceptedWorld (List.replicate 7 (.step false))).getD keyedWorld

def replacedWorld : World Bool Store Row Refusal :=
  (againWorld.happen (.step false)).getD keyedWorld

theorem assertion_once_replaced :
    replacedWorld.committed.nonces.map NonceRow.consumedAt = [31 * second] ∧
    (listed 0).expiry ≤ (presentedAt 31).now ∧ (listed 0).expiry < (listed 31).expiry := by
  have hreach : (ledgerSystem flatHmac twice).Reachable acceptingWorld :=
    Transition.System.reachable_play (fun _ _ _ h => h)
      (.start ⟨⟨rfl, rfl, rfl, rfl, rfl⟩, rfl,
        fun b => congrArg Transaction.new (twice_script b).symm⟩)
      (some_getD (by decide +kernel))
  have hlater : ((ledgerSystem flatHmac twice).only (Before twice (listed 0).expiry)).Later
      acceptedWorld againWorld :=
    Transition.System.later_play (fun _ _ _ => unfinished_before) (some_getD (by decide +kernel))
  have hfirst : (ledgerSystem flatHmac twice).step acceptingWorld (.step true) acceptedWorld :=
    some_getD (by decide +kernel)
  have hsecond : (ledgerSystem flatHmac twice).step againWorld (.step false) replacedWorld :=
    some_getD (by decide +kernel)
  have hcount : ∀ {s s' : Store},
      s'.nonces.map NonceRow.consumedAt ≠ s.nonces.map NonceRow.consumedAt → s' ≠ s :=
    fun h he => h (he ▸ rfl)
  exact ⟨by decide +kernel, assertion_once hreach hfirst rfl (hcount (by decide +kernel))
    hlater hsecond rfl (hcount (by decide +kernel)) rfl⟩

end RagPipeline.Control
