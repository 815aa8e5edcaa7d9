import RagPipeline.Control.Books
import Mathlib.Algebra.GroupWithZero.Nat
import Mathlib.Data.List.Count

/-! # What the book of an account says

The abstract side of the service accounts: a book whose rows and events tell one
story, and the five ways in which it grows. -/

set_option autoImplicit false

namespace RagPipeline.Control
open Table

/-- The events that an approval in this state has left. -/
def ApprovalState.history : ApprovalState → List ApprovalAction
  | .approved => [.created]
  | .redeemed _ => [.created, .redeemed]
  | .cancelled => [.created, .cancelled]

def ApprovalState.isRedeemed : ApprovalState → Bool
  | .redeemed _ => true
  | _ => false

def Actor.isTenant : Actor → Bool
  | .tenantOrgAdmin _ _ => true
  | _ => false

/-- The revision of the account, and 0 before there is one. -/
def revisionOf (accounts : List AccountRow) : ℕ := (accounts.map AccountRow.revision).sum

/-- The revisions of an account are numbered without a gap by its events; each of them but a
revocation issued the credential of that version, and the last one is the active one. -/
structure Standing (accounts : List AccountRow) (credentials : List CredentialRow)
    (events : List AccountEvent) : Prop where
  single : accounts.length ≤ 1
  chain : events.map AccountEvent.resultingRevision = List.range' 1 (revisionOf accounts)
  issued : credentials.map CredentialRow.credentialVersion =
    (events.filter fun e => e.action ≠ .revoke).map AccountEvent.resultingRevision
  current : (credentials.filter fun c => c.state = .active).map CredentialRow.credentialVersion =
    (accounts.filter fun a => a.state = .active).map AccountRow.revision

/-- One approval is open at most, and each has the events of its state and no others. -/
structure Dealt (approvals : List ApprovalRow) (approvalEvents : List ApprovalEvent) : Prop where
  ids : (approvals.map ApprovalRow.approvalId).Nodup
  single : (approvals.filter fun a => a.state = .approved).length ≤ 1
  history : ∀ a ∈ approvals, (approvalEvents.filter fun e => e.approvalId = a.approvalId).map
    ApprovalEvent.action = a.state.history
  known : ∀ e ∈ approvalEvents, ∃ a ∈ approvals, a.approvalId = e.approvalId
  timely : ∀ a ∈ approvals, ∀ t, a.state = .redeemed t → t < a.expiresAt

namespace Book

/-- Each redeemed approval stands for one change that a tenant made to the account. -/
structure Sound (b : Book) : Prop where
  standing : Standing b.accounts b.credentials b.events
  dealt : Dealt b.approvals b.approvalEvents
  redemptions : b.events.countP (fun e => e.actor.isTenant) =
    b.approvals.countP fun a => a.state.isRedeemed

/-- Nothing that was recorded, and nothing that has ended, is changed. -/
structure Extends (b b' : Book) : Prop where
  events : b.events <+: b'.events
  approvalEvents : b.approvalEvents <+: b'.approvalEvents
  closed : ∀ a ∈ b.approvals, a.state ≠ .approved → a ∈ b'.approvals
  revoked : ∀ a ∈ b.accounts, a.state = .revoked → a ∈ b'.accounts

theorem Extends.refl (b : Book) : b.Extends b :=
  ⟨List.prefix_rfl, List.prefix_rfl, fun _ h _ => h, fun _ h _ => h⟩

theorem Extends.trans {b b' b'' : Book} (h : b.Extends b') (h' : b'.Extends b'') :
    b.Extends b'' where
  events := h.events.trans h'.events
  approvalEvents := h.approvalEvents.trans h'.approvalEvents
  closed a ha hs := h'.closed a (h.closed a ha hs) hs
  revoked a ha hs := h'.revoked a (h.revoked a ha hs) hs

def granted (b : Book) (a : ApprovalRow) (actor : Actor) : Book :=
  { b with
    approvals := b.approvals ++ [a]
    approvalEvents := b.approvalEvents ++ [a.event .created a.reasonCode actor] }

/-- The approvals that meet a condition are closed, and each closing is recorded. -/
def closed (b : Book) (p : ApprovalRow → Prop) [DecidablePred p] (state : ApprovalState)
    (action : ApprovalAction) (reasonCode : String) (actor : Actor) : Book :=
  { b with
    approvals := updateWhere p (fun a => { a with state := state }) b.approvals
    approvalEvents := b.approvalEvents ++
      (b.approvals.filter fun a => p a).map fun a => a.event action reasonCode actor }

end Book

theorem eq_singleton {α : Type} {l : List α} {x : α} (h : l.length ≤ 1) (hx : x ∈ l) : l = [x] := by
  match l with
  | [] => cases hx
  | [y] => rw [List.mem_singleton.1 hx]
  | _ :: _ :: _ => simp at h

/-! ## Approvals -/

section
variable {l : List ApprovalRow} {ev : List ApprovalEvent} {a : ApprovalRow} {actor : Actor}
  {p : ApprovalRow → Prop} [DecidablePred p] {state : ApprovalState} {action : ApprovalAction}
  {reasonCode : String}

theorem filter_id (h : (l.map ApprovalRow.approvalId).Nodup) (ha : a ∈ l) :
    l.filter (fun b => b.approvalId = a.approvalId) = [a] := by
  have hsame : l.filter (fun b => b.approvalId = a.approvalId) = l.filter fun b => b = a :=
    List.filter_congr fun b hb => decide_eq_decide.2 ⟨List.inj_on_of_nodup_map h hb ha, congrArg _⟩
  rw [hsame, List.filter_eq, List.count_eq_one_of_mem (List.Nodup.of_map _ h) ha]
  rfl

/-- The closings that are recorded of one approval. -/
theorem closings (h : (l.map ApprovalRow.approvalId).Nodup) (ha : a ∈ l) :
    (((l.filter fun b => p b).map fun b => b.event action reasonCode actor).filter
      fun e => e.approvalId = a.approvalId).map ApprovalEvent.action =
        if p a then [action] else [] := by
  have hone : (l.filter fun b => p b).filter (fun b => b.approvalId = a.approvalId) =
      [a].filter fun b => p b := by
    rw [List.filter_comm, filter_id h ha]
  rw [List.filter_map, List.map_map]
  change ((l.filter fun b => p b).filter fun b => b.approvalId = a.approvalId).map _ = _
  rw [hone]
  by_cases hp : p a <;> simp [hp, ApprovalRow.event]

theorem Dealt.granted (h : Dealt l ev) (hid : ∀ b ∈ l, b.approvalId ≠ a.approvalId)
    (hopen : ∀ b ∈ l, b.state ≠ .approved) (ha : a.state = .approved) :
    Dealt (l ++ [a]) (ev ++ [a.event .created reasonCode actor]) where
  ids := by
    rw [List.map_append, List.nodup_append]
    refine ⟨h.ids, by simp, ?_⟩
    rintro x hx y hy rfl
    obtain ⟨b, hb, rfl⟩ := List.mem_map.1 hx
    exact hid b hb (by simpa using hy)
  single := by
    have hnone : l.filter (fun a => a.state = .approved) = [] := by
      rw [List.filter_eq_nil_iff]
      exact fun b hb => by simpa using hopen b hb
    simp [List.filter_append, hnone, ha]
  history := by
    intro b hb
    rcases List.mem_append.1 hb with hb | hb
    · rw [List.filter_append, List.map_append, h.history b hb]
      simp [ApprovalRow.event, (hid b hb).symm]
    · obtain rfl := List.mem_singleton.1 hb
      have hnone : ev.filter (fun e => e.approvalId = b.approvalId) = [] := by
        rw [List.filter_eq_nil_iff]
        intro e he heq
        obtain ⟨x, hx, hxe⟩ := h.known e he
        exact hid x hx (hxe.trans (by simpa using heq))
      rw [List.filter_append, hnone, ha]
      simp [ApprovalRow.event, ApprovalState.history]
  known := by
    intro e he
    rcases List.mem_append.1 he with he | he
    · obtain ⟨x, hx, hxe⟩ := h.known e he
      exact ⟨x, List.mem_append_left _ hx, hxe⟩
    · obtain rfl := List.mem_singleton.1 he
      exact ⟨a, List.mem_append_right _ (List.mem_singleton_self a), rfl⟩
  timely := by
    intro b hb t ht
    rcases List.mem_append.1 hb with hb | hb
    · exact h.timely b hb t ht
    · obtain rfl := List.mem_singleton.1 hb
      rw [ha] at ht
      cases ht

theorem Dealt.closed (h : Dealt l ev) (hp : ∀ a ∈ l, p a → a.state = .approved)
    (hstate : state.history = [.created, action])
    (htimely : ∀ a ∈ l, p a → ∀ t, state = .redeemed t → t < a.expiresAt) :
    Dealt (updateWhere p (fun a => { a with state := state }) l)
      (ev ++ (l.filter fun a => p a).map fun a => a.event action reasonCode actor) where
  ids := by
    have hsame : (updateWhere p (fun a => { a with state := state }) l).map ApprovalRow.approvalId =
        l.map ApprovalRow.approvalId := map_updateWhere fun _ _ => rfl
    rw [hsame]
    exact h.ids
  single := by
    refine le_trans ?_ h.single
    rw [updateWhere, List.filter_map, List.length_map]
    refine List.Sublist.length_le (List.monotone_filter_right l fun b hb => ?_)
    simp only [Function.comp_apply, decide_eq_true_eq] at hb ⊢
    by_cases hpb : p b
    · rw [if_pos hpb] at hb
      rw [show state = .approved from hb] at hstate
      cases hstate
    · rwa [if_neg hpb] at hb
  history := by
    intro b hb
    rw [List.filter_append, List.map_append]
    rcases mem_updateWhere.1 hb with ⟨a, ha, hpa, rfl⟩ | ⟨hb, hpb⟩
    · have hold := h.history a ha
      rw [hp a ha hpa] at hold
      exact (congrArg₂ (· ++ ·) hold ((closings h.ids ha).trans (if_pos hpa))).trans hstate.symm
    · rw [h.history b hb, closings h.ids hb, if_neg hpb, List.append_nil]
  known := by
    intro e he
    have hkept : ∀ a ∈ l, ∃ b ∈ updateWhere p (fun a => { a with state := state }) l,
        b.approvalId = a.approvalId := by
      intro a ha
      exact ⟨_, List.mem_map_of_mem ha, by split <;> rfl⟩
    rcases List.mem_append.1 he with he | he
    · obtain ⟨a, ha, hae⟩ := h.known e he
      obtain ⟨b, hb, hba⟩ := hkept a ha
      exact ⟨b, hb, hba.trans hae⟩
    · obtain ⟨a, ha, rfl⟩ := List.mem_map.1 he
      exact hkept a (List.mem_filter.1 ha).1
  timely := by
    intro b hb t ht
    rcases mem_updateWhere.1 hb with ⟨a, ha, hpa, rfl⟩ | ⟨hb, -⟩
    · exact htimely a ha hpa t ht
    · exact h.timely b hb t ht

/-- Closing changes how many approvals are redeemed by those it redeems. -/
theorem countP_closed (hp : ∀ a ∈ l, p a → a.state = .approved) :
    (updateWhere p (fun a => { a with state := state }) l).countP (fun a => a.state.isRedeemed) =
      l.countP (fun a => a.state.isRedeemed) +
        if state.isRedeemed then (l.filter fun a => p a).length else 0 := by
  induction l with
  | nil => simp [updateWhere]
  | cons a l ih =>
    have hrest := ih fun b hb => hp b (List.mem_cons_of_mem a hb)
    simp only [updateWhere] at hrest ⊢
    rw [List.map_cons, List.countP_cons, List.countP_cons, hrest]
    by_cases hpa : p a
    · have hno : a.state.isRedeemed = false := by rw [hp a List.mem_cons_self hpa]; rfl
      cases hs : state.isRedeemed <;> simp [hpa, hno, hs]
      omega
    · simp [hpa]
      omega

end

/-! ## Accounts -/

section
variable {accounts : List AccountRow} {credentials : List CredentialRow}
  {events : List AccountEvent} {a : AccountRow} {c : CredentialRow} {e : AccountEvent}

theorem Standing.opened (h : Standing [] credentials events) (hactive : a.state = .active)
    (hfirst : a.revision = 1) (hversion : c.credentialVersion = 1) (hc : c.state = .active)
    (he : e.resultingRevision = 1) (haction : e.action ≠ .revoke) :
    Standing [a] (credentials ++ [c]) (events ++ [e]) := by
  have hevents : events = [] := by
    have := h.chain
    simpa [revisionOf] using this
  subst hevents
  have hcredentials : credentials = [] := by
    have := h.issued
    simpa using this
  subst hcredentials
  exact ⟨by simp, by simp [revisionOf, hfirst, he], by simp [hversion, he, haction],
    by simp [hactive, hfirst, hversion, hc]⟩

theorem versions_ended {state : CredentialState} :
    (updateWhere (fun c => c.state = .active) (fun c => { c with state := state })
      credentials).map CredentialRow.credentialVersion =
        credentials.map CredentialRow.credentialVersion :=
  map_updateWhere fun _ _ => rfl

theorem active_ended {state : CredentialState} (hs : state ≠ .active) :
    (updateWhere (fun c => c.state = .active) (fun c => { c with state := state })
      credentials).filter (fun c => c.state = .active) = [] := by
  rw [List.filter_eq_nil_iff]
  intro c hc
  rcases mem_updateWhere.1 hc with ⟨b, -, -, rfl⟩ | ⟨-, hne⟩
  · simpa using hs
  · simpa using hne

theorem Standing.rotated (h : Standing [a] credentials events) (hactive : a.state = .active)
    (hversion : c.credentialVersion = a.revision + 1) (hc : c.state = .active)
    (he : e.resultingRevision = a.revision + 1) (haction : e.action ≠ .revoke) :
    Standing [{ a with revision := a.revision + 1 }]
      (updateWhere (fun c => c.state = .active) (fun c => { c with state := .retired })
        credentials ++ [c]) (events ++ [e]) where
  single := by simp
  chain := by
    rw [List.map_append, h.chain]
    simp [revisionOf, List.range'_concat, he, Nat.add_comm]
  issued := by
    rw [List.map_append, versions_ended, h.issued, List.filter_append]
    simp [haction, hversion, he]
  current := by
    rw [List.filter_append, active_ended (by decide)]
    simp [hc, hactive, hversion]

theorem Standing.revoked (h : Standing [a] credentials events)
    (he : e.resultingRevision = a.revision + 1) (haction : e.action = .revoke) :
    Standing [{ a with state := .revoked, revision := a.revision + 1 }]
      (updateWhere (fun c => c.state = .active) (fun c => { c with state := .revoked })
        credentials) (events ++ [e]) where
  single := by simp
  chain := by
    rw [List.map_append, h.chain]
    simp [revisionOf, List.range'_concat, he, Nat.add_comm]
  issued := by
    rw [versions_ended, h.issued, List.filter_append]
    simp [haction]
  current := by
    rw [active_ended (by decide)]
    simp

end

/-! ## Books -/

namespace Book

variable {b : Book} {a x : ApprovalRow} {actor : Actor} {p : ApprovalRow → Prop} [DecidablePred p]
  {reasonCode : String} {accounts : List AccountRow} {credentials : List CredentialRow}
  {e : AccountEvent}

theorem Sound.filter_one (h : b.Sound) (hx : x ∈ b.approvals) (hpx : p x)
    (hp : ∀ a, p a → a.approvalId = x.approvalId) : b.approvals.filter (fun a => p a) = [x] := by
  rw [← filter_id h.dealt.ids hx]
  refine List.filter_congr fun a ha => decide_eq_decide.2 ⟨hp a, fun hid => ?_⟩
  rwa [List.inj_on_of_nodup_map h.dealt.ids ha hx hid]

/-- The active account of a sound book. -/
theorem Sound.accounts_eq (h : b.Sound) {q : AccountRow → Bool} {row : AccountRow}
    (hrow : b.accounts.find? q = some row) : b.accounts = [row] ∧ q row = true :=
  ⟨eq_singleton h.standing.single (List.mem_of_find?_eq_some hrow), List.find?_some hrow⟩

theorem Sound.granted (h : b.Sound) (hid : ∀ c ∈ b.approvals, c.approvalId ≠ a.approvalId)
    (hopen : ∀ c ∈ b.approvals, c.state ≠ .approved) (ha : a.state = .approved) :
    (b.granted a actor).Sound where
  standing := h.standing
  dealt := h.dealt.granted hid hopen ha
  redemptions := by
    change _ = (b.approvals ++ [a]).countP _
    rw [List.countP_append, ← h.redemptions]
    simp [ha, ApprovalState.isRedeemed, Book.granted]

theorem extends_granted : b.Extends (b.granted a actor) where
  events := List.prefix_rfl
  approvalEvents := List.prefix_append _ _
  closed _ hc _ := List.mem_append_left _ hc
  revoked _ hc _ := hc

theorem Sound.cancelled (h : b.Sound) (hp : ∀ a ∈ b.approvals, p a → a.state = .approved) :
    (b.closed p .cancelled .cancelled reasonCode actor).Sound where
  standing := h.standing
  dealt := h.dealt.closed hp rfl fun _ _ _ _ ht => nomatch ht
  redemptions := by
    have hcount : (b.closed p .cancelled .cancelled reasonCode actor).approvals.countP _ = _ :=
      countP_closed hp
    exact h.redemptions.trans hcount.symm

theorem mem_closed {state : ApprovalState} (hp : ∀ a ∈ b.approvals, p a → a.state = .approved)
    (ha : a ∈ b.approvals) (hs : a.state ≠ .approved) :
    a ∈ updateWhere p (fun a => { a with state := state }) b.approvals :=
  mem_updateWhere.2 (.inr ⟨ha, fun hpa => hs (hp a ha hpa)⟩)

theorem extends_closed {state : ApprovalState} {action : ApprovalAction}
    (hp : ∀ a ∈ b.approvals, p a → a.state = .approved) :
    b.Extends (b.closed p state action reasonCode actor) where
  events := List.prefix_rfl
  approvalEvents := List.prefix_append _ _
  closed _ ha hs := mem_closed hp ha hs
  revoked _ ha _ := ha

/-- An operator changes the account. -/
theorem Sound.operated (h : b.Sound) (hstanding : Standing accounts credentials (b.events ++ [e]))
    (he : e.actor.isTenant = false) :
    Sound
      { b with accounts := accounts, credentials := credentials, events := b.events ++ [e] } where
  standing := hstanding
  dealt := h.dealt
  redemptions := by
    rw [← h.redemptions, List.countP_append]
    simp [he]

theorem extends_operated (h : ∀ a ∈ b.accounts, a.state = .revoked → a ∈ accounts) :
    b.Extends
      { b with accounts := accounts, credentials := credentials, events := b.events ++ [e] } where
  events := List.prefix_append _ _
  approvalEvents := List.prefix_rfl
  closed _ hc _ := hc
  revoked := h

/-- An account that is active is not a revoked one. -/
theorem none_revoked {row : AccountRow} (hrow : b.accounts = [row]) (hstate : row.state = .active) :
    ∀ a ∈ b.accounts, a.state = .revoked → a ∈ accounts := by
  intro a ha hrevoked
  rw [hrow, List.mem_singleton] at ha
  rw [ha, hstate] at hrevoked
  cases hrevoked

theorem only {l : List ApprovalRow} (hone : l.filter (fun a => p a) = [x]) (ha : a ∈ l)
    (hpa : p a) : a = x := by
  have hmem : a ∈ l.filter fun a => p a := List.mem_filter.2 ⟨ha, decide_eq_true hpa⟩
  rw [hone] at hmem
  exact List.mem_singleton.1 hmem

/-- A tenant changes the account, and redeems the one approval. -/
theorem Sound.settled (h : b.Sound) (hone : b.approvals.filter (fun a => p a) = [x])
    (hx : x.state = .approved) {t : Time} (ht : t < x.expiresAt)
    (hstanding : Standing accounts credentials (b.events ++ [e])) (he : e.actor.isTenant = true) :
    Sound ⟨accounts, credentials, b.events ++ [e],
      updateWhere p (fun a => { a with state := .redeemed t }) b.approvals,
      b.approvalEvents ++ [x.event .redeemed reasonCode actor]⟩ where
  standing := hstanding
  dealt := by
    have hd : Dealt (b.closed p (.redeemed t) .redeemed reasonCode actor).approvals
        (b.closed p (.redeemed t) .redeemed reasonCode actor).approvalEvents := by
      refine h.dealt.closed (fun a ha hpa => only hone ha hpa ▸ hx) rfl fun a ha hpa t' ht' => ?_
      obtain rfl := ApprovalState.redeemed.inj ht'
      exact only hone ha hpa ▸ ht
    rwa [closed, hone] at hd
  redemptions := by
    change _ = (b.closed p (.redeemed t) .redeemed reasonCode actor).approvals.countP _
    have hcount : (b.closed p (.redeemed t) .redeemed reasonCode actor).approvals.countP
        (fun a => a.state.isRedeemed) = _ := countP_closed fun a ha hpa => only hone ha hpa ▸ hx
    rw [hcount, hone, ← h.redemptions, List.countP_append]
    simp [he, ApprovalState.isRedeemed]

end Book

end RagPipeline.Control
