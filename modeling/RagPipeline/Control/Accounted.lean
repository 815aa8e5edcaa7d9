import RagPipeline.Control.Ledger

/-! # The ledger under any interleaving

Each script is followed by itself: until it holds the lock of its account it
writes to no book, and from then on the book it sees is the one it found and
what it wrote. -/

set_option autoImplicit false

namespace RagPipeline.Control
open Guard Locks Table

/-- Every book is sound, and an approval id stands on one account. -/
structure Store.Sound (s : Store) : Prop where
  books : ∀ k, (s.book k).Sound
  holders : ∀ id, (s.holders id).length ≤ 1

/-- One book has grown, and one approval id was taken at most. -/
def Store.Grows (s s' : Store) : Prop := ∃ k, (∀ j, j ≠ k → s'.book j = s.book j) ∧
  (s'.book k).Sound ∧ (s.book k).Extends (s'.book k) ∧
  ∀ id, s'.holders id = s.holders id ∨ s.holders id = [] ∧ s'.holders id = [k]

theorem Store.Sound.grows {s s' : Store} (h : s.Sound) (hg : s.Grows s') : s'.Sound := by
  obtain ⟨k, hother, hbook, -, hholders⟩ := hg
  constructor
  · intro j
    by_cases hj : j = k
    · exact hj ▸ hbook
    · rw [hother j hj]
      exact h.books j
  · intro id
    rcases hholders id with hsame | ⟨-, hnew⟩
    · rw [hsame]
      exact h.holders id
    · rw [hnew]
      rfl

/-- A script may yet do what it likes but commit something that does not grow. -/
abbrev Grown : ControlScript → List Row → Store → Store → Prop :=
  parts.Shielded Store.Sound Store.Grows

/-- The keys in hand: the account, and the id of an approval that was granted. -/
def Keys (k : Uuid) (N : Option Uuid) (H : List Row) : Prop :=
  ∀ p, parts.key p ∈ H ↔ p = .account k ∨ ∃ id ∈ N, p = .approval id

/-- A script that holds the lock of the account, found this book and has made that of it. -/
def Follows (k : Uuid) (N : Option Uuid) (script : ControlScript) (B₀ B : Book) : Prop :=
  ∀ H c s, Keys k N H → c.book k = B₀ → s.book k = B →
    (∀ id ∈ N, c.holders id = [] ∧ s.holders id = [k]) → Grown script H c s

/-- A script that has no key yet. -/
def Opens (script : ControlScript) : Prop := ∀ H c s, (∀ p, parts.key p ∉ H) → Grown script H c s

/-- Locks that are keys of nothing. -/
def Keyless (l : List Row) : Prop := ∀ p, parts.key p ∉ l

theorem keyless_nil : Keyless [] := fun _ => List.not_mem_nil

/-- What the slices are kept under. -/
def Thing.isKey : Thing → Bool
  | .account _ | .approvalKey _ => true
  | _ => false

theorem keyless_of {l : List Row} (h : ∀ r ∈ l, r.thing.isKey = false) : Keyless l := by
  intro p hp
  cases p <;> cases h _ hp

theorem keyless_one {r : Row} (h : r.thing.isKey = false) : Keyless [r] :=
  keyless_of fun _ hr => List.mem_singleton.1 hr ▸ h

theorem keyless_ite {p : Prop} [Decidable p] {r : Row} (h : r.thing.isKey = false) :
    Keyless (if p then [r] else []) := by
  split
  · exact keyless_one h
  · exact keyless_nil

theorem keyless_map {α : Type} {l : List α} {f : α → Row} (h : ∀ a, (f a).thing.isKey = false) :
    Keyless (l.map f) := by
  refine keyless_of fun r hr => ?_
  obtain ⟨a, -, rfl⟩ := List.mem_map.1 hr
  exact h a

theorem Keyless.append {l H : List Row} {p : Part} (h : Keyless l) :
    parts.key p ∈ l ++ H ↔ parts.key p ∈ H := by
  rw [List.mem_append]
  exact or_iff_right (h p)

section
variable {k : Uuid} {N : Option Uuid} {rest : ControlScript} {B₀ B B' : Book} {e : Refusal}

theorem Keys.account {H : List Row} (h : Keys k N H) {j : Uuid} :
    parts.key (.account j) ∈ H ↔ j = k := by
  rw [h]
  simp

theorem Keys.approval {H : List Row} (h : Keys k N H) {id : Uuid} :
    parts.key (.approval id) ∈ H ↔ id ∈ N := by
  rw [h]
  simp

theorem follows_commit (hsound : B.Sound) (hext : B₀.Extends B) : Follows k N .commit B₀ B := by
  intro H c s hkeys hc hs hN c' s' hsees
  have hk : parts.Guarded H (.account k) := Slicing.guarded_key (hkeys.account.2 rfl)
  have hbook : c'.book k = B₀ := (hsees.committed (.account k) hk).symm.trans hc
  have hview : s'.book k = B := (hsees.view (.account k) hk).symm.trans hs
  refine ⟨k, fun j hj => hsees.apart (.account j) (mt hkeys.account.1 hj), hview ▸ hsound,
    by rw [hbook, hview]; exact hext, fun id => ?_⟩
  by_cases hid : id ∈ N
  · have hg : parts.Guarded H (.approval id) := Slicing.guarded_key (hkeys.approval.2 hid)
    exact .inr ⟨(hsees.committed (.approval id) hg).symm.trans (hN id hid).1,
      (hsees.view (.approval id) hg).symm.trans (hN id hid).2⟩
  · exact .inl (hsees.apart (.approval id) (mt hkeys.approval.1 hid))

theorem follows_require {p : Prop} [Decidable p] (h : p → Follows k N rest B₀ B) :
    Follows k N (.require p e rest) B₀ B :=
  fun H c s hkeys hc hs hN => Slicing.shielded_require fun hp => h hp H c s hkeys hc hs hN

theorem follows_demand {α : Type} {o : Option α} {rest : α → ControlScript}
    (h : ∀ a, o = some a → Follows k N (rest a) B₀ B) : Follows k N (.demand o e rest) B₀ B :=
  fun H c s hkeys hc hs hN => Slicing.shielded_demand fun a ha => h a ha H c s hkeys hc hs hN

/-- A statement that changes the book it sees from one to another. -/
theorem follows_statement {targets : Store → List Row}
    {run : Store → Except Refusal (Store → Store)} {next : Store → ControlScript}
    (htargets : ∀ s, Keyless (targets s))
    (h : ∀ s, s.book k = B → (∀ id, id ∉ N → (s.holders id).length ≤ 1) → ∀ f, run s = .ok f →
      ∃ B', (∀ H, lock (.account k) ∈ H → parts.Confined H f) ∧ (f s).book k = B' ∧
        (∀ id, (f s).holders id = s.holders id) ∧ Follows k N (next s) B₀ B') :
    Follows k N (.statement targets run next) B₀ B := by
  intro H c s hkeys hc hs hN s₀ c₁ s₁ _ hsees _ f hf
  have hk : parts.Guarded H (.account k) := Slicing.guarded_key (hkeys.account.2 rfl)
  have hview : s₁.book k = B := (hsees.view (.account k) hk).symm.trans hs
  have hheld : ∀ id, id ∉ N → (s₁.holders id).length ≤ 1 := by
    intro id hid
    have hsame : s₁.holders id = c₁.holders id :=
      hsees.apart (.approval id) (mt hkeys.approval.1 hid)
    rw [hsame]
    exact hsees.inv.holders id
  obtain ⟨B', hconf, hbook, hholders, hrest⟩ := h s₁ hview hheld f hf
  have hkeys' : Keys k N (targets s₀ ++ H) := fun p => (htargets s₀).append.trans (hkeys p)
  refine ⟨hconf _ (hkeys'.account.2 rfl), hrest _ _ _ hkeys' ?_ hbook ?_⟩
  · exact (hsees.committed (.account k) hk).symm.trans hc
  · intro id hid
    have hg : parts.Guarded H (.approval id) := Slicing.guarded_key (hkeys.approval.2 hid)
    rw [hholders]
    exact ⟨(hsees.committed (.approval id) hg).symm.trans (hN id hid).1,
      (hsees.view (.approval id) hg).symm.trans (hN id hid).2⟩

theorem follows_read {targets : Store → List Row} {next : Store → ControlScript}
    (htargets : ∀ s, Keyless (targets s))
    (h : ∀ s, s.book k = B → Follows k N (next s) B₀ B) :
    Follows k N (.read targets next) B₀ B := by
  refine follows_statement htargets fun s hs _ f hf => ?_
  obtain rfl := Except.ok.inj hf
  exact ⟨B, fun _ _ => Slicing.confined_id, hs, fun _ => rfl, h s hs⟩

/-- A statement that writes one thing, or refuses. -/
theorem follows_write {targets : Store → List Row} {run : Store → Except Refusal (Store → Store)}
    {f : Store → Store} (htargets : ∀ s, Keyless (targets s)) (hrun : ∀ s g, run s = .ok g → g = f)
    (hconf : ∀ H, lock (.account k) ∈ H → parts.Confined H f)
    (hbook : ∀ s, s.book k = B → (f s).book k = B')
    (hholders : ∀ s id, (f s).holders id = s.holders id) (h : Follows k N rest B₀ B') :
    Follows k N (.statement targets run fun _ => rest) B₀ B := by
  refine follows_statement htargets fun s hs _ g hg => ?_
  obtain rfl := hrun s g hg
  exact ⟨B', hconf, hbook s hs, hholders s, h⟩

/-! ## The statements, under the lock of the account -/

theorem follows_insertAccount {a : AccountRow} (ha : a.serviceAccountId = k)
    (h : B.accounts = [] → Follows k N rest B₀ { B with accounts := B.accounts ++ [a] }) :
    Follows k N (insertAccount a rest) B₀ B := by
  refine follows_statement (fun _ => keyless_nil) fun s hs _ f hf => ?_
  simp only [bind_ok, require_ok, exists_unit, pure_ok] at hf
  obtain ⟨hnone, rfl⟩ := hf
  refine ⟨_, fun H hH => confined_addAccount hH ha, Store.book_addAccount ha,
    fun _ => rfl, hs ▸ h ?_⟩
  rw [ha, account_eq, hs] at hnone
  exact List.head?_eq_none_iff.1 hnone

theorem follows_insertScopes {scopes : List String} (h : Follows k N rest B₀ B) :
    Follows k N (insertScopes k scopes rest) B₀ B := by
  refine follows_statement (fun _ => keyless_nil) fun s hs _ f hf => ?_
  simp only [bind_ok, require_ok, exists_unit, pure_ok] at hf
  obtain ⟨-, rfl⟩ := hf
  exact ⟨B, fun H _ => confined_of_same fun c p => by cases p <;> rfl, hs, fun _ => rfl, h⟩

theorem follows_insertCredential {version : ℕ} {digest : Bytes} {now expiresAt : Time}
    (h : Follows k N rest B₀
      { B with credentials := B.credentials ++ [⟨k, version, digest, .active, now, expiresAt⟩] }) :
    Follows k N (insertCredential k version digest now expiresAt rest) B₀ B := by
  refine follows_statement (fun _ => keyless_one rfl) fun s hs _ f hf => ?_
  simp only [bind_ok, require_ok, exists_unit, pure_ok] at hf
  obtain ⟨-, -, -, -, -, rfl⟩ := hf
  exact ⟨_, fun H hH => confined_addCredential hH rfl, Store.book_addCredential rfl,
    fun _ => rfl, hs ▸ h⟩

theorem follows_endCredentials {state : CredentialState} (h : Follows k N rest B₀ { B with
      credentials := updateWhere (fun c => c.state = .active) (fun c => { c with state := state })
        B.credentials }) :
    Follows k N (endCredentials k state e rest) B₀ B := by
  refine follows_statement (fun _ => keyless_nil) fun s hs _ f hf => ?_
  obtain rfl := Except.ok.inj hf
  exact ⟨_, fun H hH => confined_retireCredentials hH, Store.book_retireCredentials, fun _ => rfl,
    follows_require fun _ => hs ▸ h⟩

theorem follows_updateAccount {f : AccountRow → AccountRow}
    (hf : ∀ a, (f a).serviceAccountId = a.serviceAccountId)
    (h : Follows k N rest B₀ { B with accounts := B.accounts.map f }) :
    Follows k N (updateAccount k f rest) B₀ B :=
  follows_write (fun _ => keyless_one rfl) (fun _ _ hg => (Except.ok.inj hg).symm)
    (fun _ hH => confined_setAccount hH hf) (fun _ hs => hs ▸ Store.book_setAccount hf)
    (fun _ _ => rfl) h

theorem follows_insertEvent {x : AccountEvent} (hx : x.serviceAccountId = k)
    (h : Follows k N rest B₀ { B with events := B.events ++ [x] }) :
    Follows k N (insertEvent x rest) B₀ B :=
  follows_write (fun _ => keyless_nil) (fun _ _ hg => (Except.ok.inj hg).symm)
    (fun _ hH => confined_addEvent hH hx)
    (fun _ hs => hs ▸ Store.book_addEvent hx) (fun _ _ => rfl) h

theorem follows_insertApprovalEvent {x : ApprovalEvent} (hx : x.serviceAccountId = k)
    (h : Follows k N rest B₀ { B with approvalEvents := B.approvalEvents ++ [x] }) :
    Follows k N (insertApprovalEvent x rest) B₀ B := by
  have hall : ∀ y ∈ [x], y.serviceAccountId = k := by simpa using hx
  exact follows_write (fun _ => keyless_nil) (fun _ _ hg => (Except.ok.inj hg).symm)
    (fun _ hH => confined_addApprovalEvents hH hall)
    (fun _ hs => hs ▸ Store.book_addApprovalEvents hall)
    (fun _ _ => rfl) h

/-- The rows of one account are those of its book. -/
theorem selected {s : Store} {p : ApprovalRow → Prop} [DecidablePred p]
    (hp : ∀ a ∈ s.approvals, p a → a.serviceAccountId = k) :
    s.approvals.filter (fun a => p a) = (s.book k).approvals.filter fun a => p a := by
  rw [Store.book, List.filter_filter]
  refine List.filter_congr fun a ha => ?_
  by_cases hpa : p a <;> simp [hpa, hp a ha]

theorem updateWhere_selected {l : List ApprovalRow} {p : ApprovalRow → Prop} [DecidablePred p]
    {f : ApprovalRow → ApprovalRow} :
    updateWhere (fun a => a ∈ l.filter fun a => p a) f l = updateWhere p f l := by
  refine List.map_congr_left fun a ha => ?_
  simp [ha]

theorem confined_closed {l : List ApprovalRow} {ev : List ApprovalEvent} {state : ApprovalState}
    {H : List Row} (hH : lock (.account k) ∈ H) (hl : ∀ a ∈ l, a.serviceAccountId = k)
    (hev : ∀ x ∈ ev, x.serviceAccountId = k) :
    parts.Confined H fun c => (c.setApprovals l state).addApprovalEvents ev :=
  (confined_addApprovalEvents hH hev).comp (confined_setApprovals hH hl)

theorem follows_cancelApprovals {p : ApprovalRow → Prop} [DecidablePred p] {reasonCode : String}
    {actor : Actor} (hp : ∀ a, p a → a.serviceAccountId = k)
    (h : Follows k N rest B₀ (B.closed p .cancelled .cancelled reasonCode actor)) :
    Follows k N (cancelApprovals p reasonCode actor rest) B₀ B := by
  refine follows_statement (fun _ => keyless_map fun _ => rfl) fun s hs _ f hf => ?_
  obtain rfl := Except.ok.inj hf
  have hl : ∀ a ∈ s.approvals.filter (fun a => p a), a.serviceAccountId = k := by
    intro a ha
    exact hp a (by simpa using (List.mem_filter.1 ha).2)
  have hev : ∀ x ∈ (s.approvals.filter fun a => p a).map
      (fun a => a.event .cancelled reasonCode actor), x.serviceAccountId = k := by
    intro x hx
    obtain ⟨a, ha, rfl⟩ := List.mem_map.1 hx
    exact hl a ha
  refine ⟨_, fun H hH => confined_closed hH hl hev, ?_, fun _ => Store.holders_setApprovals, h⟩
  rw [Store.book_addApprovalEvents hev, Store.book_setApprovals, selected fun a _ => hp a, hs,
    updateWhere_selected]
  rfl

/-- An update whose rows are all on the account. -/
theorem follows_updateApprovals {p : ApprovalRow → Prop} [DecidablePred p] {state : ApprovalState}
    {next : List ApprovalRow → ControlScript}
    (hp : ∀ s : Store, s.book k = B → (∀ id, id ∉ N → (s.holders id).length ≤ 1) →
      ∀ a ∈ s.approvals, p a → a.serviceAccountId = k)
    (h : Follows k N (next (B.approvals.filter fun a => p a)) B₀
      { B with approvals := updateWhere p (fun a => { a with state := state }) B.approvals }) :
    Follows k N (updateApprovals p state next) B₀ B := by
  refine follows_statement (fun _ => keyless_map fun _ => rfl) fun s hs hheld f hf => ?_
  obtain rfl := Except.ok.inj hf
  have hsel := selected (hp s hs hheld)
  have hl : ∀ a ∈ s.approvals.filter (fun a => p a), a.serviceAccountId = k := by
    intro a ha
    exact hp s hs hheld a (List.mem_filter.1 ha).1 (by simpa using (List.mem_filter.1 ha).2)
  rw [hsel, hs] at hl ⊢
  exact ⟨_, fun H hH => confined_setApprovals hH hl,
    by rw [Store.book_setApprovals, hs, updateWhere_selected],
    fun _ => Store.holders_setApprovals, h⟩

/-- A new approval takes its id with it. -/
theorem follows_insertApproval {a : ApprovalRow} (ha : a.serviceAccountId = k)
    (h : (∀ b ∈ B.approvals, b.approvalId ≠ a.approvalId) →
      (∀ b ∈ B.approvals, b.state ≠ .approved) →
      Follows k (some a.approvalId) rest B₀ { B with approvals := B.approvals ++ [a] }) :
    Follows k none (insertApproval a rest) B₀ B := by
  intro H c s hkeys hc hs _ s₀ c₁ s₁ _ hsees _ f hf
  have hguard : parts.Guarded H (.account k) := Slicing.guarded_key (hkeys.account.2 rfl)
  have hbook : s₁.book k = B := (hsees.view (.account k) hguard).symm.trans hs
  simp only [bind_ok, require_ok, exists_unit, pure_ok] at hf
  obtain ⟨hid, hopen, rfl⟩ := hf
  have hnone : s₁.holders a.approvalId = [] := by
    rw [Store.holders, List.map_eq_nil_iff, List.filter_eq_nil_iff]
    exact fun b hb => by simpa using hid b hb
  have hfree : c₁.holders a.approvalId = [] :=
    (hsees.apart (.approval a.approvalId)
      (mt hkeys.approval.1 (Option.not_mem_none _))).symm.trans hnone
  have hkeys' : Keys k (some a.approvalId) (lock (.approvalKey a.approvalId) :: H) := by
    intro p
    rw [List.mem_cons, hkeys p]
    constructor
    · rintro (h | h | ⟨_, h, -⟩)
      · exact .inr ⟨_, rfl, Part.thing_injective (congrArg Row.thing h)⟩
      · exact .inl h
      · cases h
    · rintro (h | ⟨id, hid, rfl⟩)
      · exact .inr (.inl h)
      · obtain rfl := Option.some.inj hid
        exact .inl rfl
  have hmem : ∀ b ∈ B.approvals, b ∈ s₁.approvals ∧ b.serviceAccountId = k := by
    intro b hb
    rw [← hbook] at hb
    simpa [Store.book] using hb
  refine ⟨confined_addApproval (hkeys'.account.2 rfl) ha List.mem_cons_self,
    h (fun b hb => hid b (hmem b hb).1)
      (fun b hb => hopen b (hmem b hb).1 ((hmem b hb).2.trans ha.symm))
      _ _ _ hkeys' ((hsees.committed (.account k) hguard).symm.trans hc) ?_ ?_⟩
  · rw [Store.book_addApproval ha, hbook]
  · intro id hid
    obtain rfl := Option.some.inj hid
    exact ⟨hfree, by rw [Store.holders_addApproval, hnone, if_pos rfl, ha]; rfl⟩

theorem follows_readAccount {t : Uuid} {rest : Option AccountRow → ControlScript}
    (h : Follows k N (rest (B.accounts.find? fun a => a.tenantId = t ∧ a.state = .active)) B₀ B) :
    Follows k N (readAccount t k rest) B₀ B := by
  refine follows_read (fun _ => keyless_ite rfl) fun s hs => ?_
  rw [activeAccount_eq, hs]
  exact h

theorem follows_readApproval {t id : Uuid} {rest : Option ApprovalRow → ControlScript}
    (h : Follows k N (rest (B.approvals.find? fun a => a.approvalId = id ∧ a.tenantId = t)) B₀ B) :
    Follows k N (readApproval id t k rest) B₀ B := by
  refine follows_read (fun _ => keyless_ite rfl) fun s hs => ?_
  rw [approval_eq, hs]
  exact h

/-! ## The statements before it -/

theorem opens_require {p : Prop} [Decidable p] (h : p → Opens rest) : Opens (.require p e rest) :=
  fun H c s hH => Slicing.shielded_require fun hp => h hp H c s hH

theorem opens_demand {α : Type} {o : Option α} {rest : α → ControlScript}
    (h : ∀ a, Opens (rest a)) :
    Opens (.demand o e rest) :=
  fun H c s hH => Slicing.shielded_demand fun a _ => h a H c s hH

/-- A statement that leaves every book as it is. -/
theorem opens_statement {targets : Store → List Row} {run : Store → Except Refusal (Store → Store)}
    {next : Store → ControlScript} (htargets : ∀ s, Keyless (targets s))
    (hrun : ∀ s f, run s = .ok f → ∀ c p, (f c).part p = c.part p) (h : ∀ s, Opens (next s)) :
    Opens (.statement targets run next) := by
  intro H c s hH s₀ c₁ s₁ _ _ _ f hf
  exact ⟨confined_of_same (hrun s₁ f hf), h s₁ _ _ _ fun p => mt (htargets s₀).append.1 (hH p)⟩

theorem opens_read {targets : Store → List Row} {next : Store → ControlScript}
    (htargets : ∀ s, Keyless (targets s))
    (h : ∀ s, Opens (next s)) : Opens (.read targets next) :=
  opens_statement htargets (fun _ _ hf _ _ => by rw [← Except.ok.inj hf]; rfl) h

theorem opens_lock (h : ∀ B : Book, B.Sound → (∀ a ∈ B.approvals, a.serviceAccountId = k) →
      Follows k none rest B B) :
    Opens (lockServiceAccount k rest) := by
  intro H c s hH s₀ c₁ s₁ _ hsees _ f hf
  obtain rfl := Except.ok.inj hf
  have hview : s₁.book k = c₁.book k := hsees.apart (.account k) (hH _)
  refine ⟨Slicing.confined_id, h _ (hsees.inv.books k) ?_ _ _ _ ?_ rfl hview
    fun _ hid => by cases hid⟩
  · intro a ha
    simpa using (List.mem_filter.1 ha).2
  intro p
  rw [List.singleton_append, List.mem_cons]
  constructor
  · rintro (h | h)
    · exact .inl (Part.thing_injective (congrArg Row.thing h))
    · exact absurd h (hH p)
  · rintro (rfl | ⟨_, h, -⟩)
    · exact .inl rfl
    · cases h

/-- Who holds no key has written to no book. -/
theorem opens_commit : Opens .commit := by
  intro H c s hH c' s' hsees
  have hbook : ∀ k, s'.book k = c'.book k := fun k => hsees.apart (.account k) (hH _)
  refine ⟨0, fun j _ => hbook j, ?_, ?_, fun id => .inl (hsees.apart (.approval id) (hH _))⟩
  · rw [hbook]
    exact hsees.inv.books 0
  · rw [hbook]
    exact .refl _

theorem opens_security {o : OperatorKey} {rest : Uuid → ControlScript} (h : ∀ u, Opens (rest u)) :
    Opens (requirePlatformSecurity o rest) := by
  refine opens_read (fun _ => keyless_nil) fun s => ?_
  split
  · exact h _
  · exact fun _ _ _ _ => trivial

theorem opens_tenant {t : Uuid} {rest : Option ℕ → ControlScript} (h : ∀ p, Opens (rest p)) :
    Opens (readTenant t rest) :=
  opens_read (fun _ => keyless_ite rfl) fun _ => h _

theorem opens_consume {hmac : Bytes → Bytes → Bytes} {m : Moment} {version : BitVec 16}
    {a : Coordinates}
    {mac : Bytes} (h : Opens rest) : Opens (consumeAssertion hmac m version a mac rest) := by
  refine opens_require fun _ => ?_
  split
  · exact fun _ _ _ _ => trivial
  refine opens_read (fun _ => keyless_ite rfl) fun s => opens_demand fun key =>
    opens_require fun _ => opens_read (fun _ => keyless_nil) fun s =>
    opens_statement (fun _ => keyless_map fun _ => rfl) (fun _ f hf c p => ?_) fun _ =>
    opens_statement (fun _ => keyless_one rfl) (fun s f hf c p => ?_) fun s =>
    opens_require fun _ => h
  · rw [← Except.ok.inj hf]
    cases p <;> rfl
  · rw [← Except.ok.inj hf]
    split
    · rfl
    · cases p <;> rfl

/-! ## The operations -/

theorem follows_expire {now : Time} (hB : B.Sound)
    (h : ∀ B', B'.Sound → B.Extends B' → Follows k N rest B B') :
    Follows k N (expireServiceAccountApproval now k rest) B B := by
  have hp : ∀ a ∈ B.approvals, a.serviceAccountId = k ∧ a.state = .approved ∧ a.expiresAt ≤ now →
      a.state = .approved := fun _ _ ha => ha.2.1
  exact follows_cancelApprovals (fun _ ha => ha.1) (h _ (hB.cancelled hp) (Book.extends_closed hp))

theorem follows_grant {a : ApprovalRow} {actor : Actor} (ha : a.serviceAccountId = k)
    (hstate : a.state = .approved) (hB : B.Sound) (hext : B₀.Extends B) :
    Follows k none
      (insertApproval a <| insertApprovalEvent (a.event .created a.reasonCode actor) .commit)
      B₀ B :=
  follows_insertApproval ha fun hid hopen => follows_insertApprovalEvent ha <|
    follows_commit (hB.granted hid hopen hstate) (hext.trans Book.extends_granted)

theorem opens_approveIssue {now : Time} {r : ApproveIssue} : Opens (approveIssue now r) :=
  opens_security fun _ => opens_tenant fun _ => opens_lock fun _ hB _ =>
    follows_expire hB fun _ hB' hext => follows_read (fun _ => keyless_nil) fun _ _ =>
    follows_require fun _ => follows_demand fun _ _ => follows_require fun _ =>
    follows_require fun _ => follows_require fun _ => follows_require fun _ =>
    follows_require fun _ => follows_require fun _ => follows_grant rfl rfl hB' hext

theorem opens_approveRotation {now : Time} {r : ApproveRotation} : Opens (approveRotation now r) :=
  opens_security fun _ => opens_tenant fun _ => opens_lock fun _ hB _ =>
    follows_expire hB fun _ hB' hext => follows_readAccount <|
    follows_read (fun _ => keyless_nil) fun _ _ => follows_demand fun _ _ =>
    follows_require fun _ => follows_demand fun _ _ => follows_require fun _ =>
    follows_require fun _ => follows_require fun _ => follows_require fun _ =>
    follows_require fun _ => follows_demand fun _ _ => follows_grant rfl rfl hB' hext

theorem opens_cancelApproval {r : CancelApproval} : Opens (cancelApproval r) := by
  refine opens_security fun operator => opens_lock fun B hB _ => follows_updateApprovals
    (fun _ _ _ a _ ha => ha.2.2.1) (follows_demand fun x hx => ?_)
  obtain ⟨hmem, hsel⟩ := List.mem_filter.1 (List.mem_of_head? hx)
  have hxs : r.selects x := of_decide_eq_true hsel
  have hone : B.approvals.filter (fun a => r.selects a) = [x] :=
    hB.filter_one hmem hxs fun a ha => ha.1.trans hxs.1.symm
  have hp : ∀ a ∈ B.approvals, r.selects a → a.state = .approved := fun _ _ ha => ha.2.2.2.1
  have hclosed :
      B.closed r.selects .cancelled .cancelled r.reasonCode (.platformSecurity operator) = { B with
        approvals := updateWhere r.selects (fun a => { a with state := .cancelled }) B.approvals
        approvalEvents := B.approvalEvents ++
          [x.event .cancelled r.reasonCode (.platformSecurity operator)] } := by
    rw [Book.closed, hone]
    rfl
  exact follows_insertApprovalEvent hxs.2.2.1 <|
    follows_commit (hclosed ▸ hB.cancelled hp) (hclosed ▸ Book.extends_closed hp)

/-- An id is on one account. -/
theorem same_holder {s : Store} {id : Uuid} {a b : ApprovalRow} (h : (s.holders id).length ≤ 1)
    (ha : a ∈ s.approvals) (hb : b ∈ s.approvals) (hai : a.approvalId = id)
    (hbi : b.approvalId = id) : a.serviceAccountId = b.serviceAccountId := by
  have hmem : ∀ x ∈ s.approvals, x.approvalId = id → x.serviceAccountId ∈ s.holders id :=
    fun x hx hxi => List.mem_map_of_mem (List.mem_filter.2 ⟨hx, decide_eq_true hxi⟩)
  exact List.mem_singleton.1 (eq_singleton h (hmem b hb hbi) ▸ hmem a ha hai)

/-- What both redemptions end with, when the account is already changed. -/
theorem follows_redeemed {r : Redeem} {a : ApprovalRow} {action : AccountAction}
    {expected : Option ℤ} {resulting : ℕ} {accounts : List AccountRow}
    {credentials : List CredentialRow} (hB : B.Sound) (ha : a ∈ B.approvals)
    (hid : a.approvalId = r.approvalId) (hk : a.serviceAccountId = r.accountId)
    (hadmits : a.state = .approved ∧ r.moment.now < a.expiresAt)
    (hrevoked : ∀ row ∈ B.accounts, row.state = .revoked → row ∈ accounts)
    (hstanding : Standing accounts credentials (B.events ++
      [⟨a.platformOperatorId, r.actor, r.tenantId, r.accountId, action, a.reasonCode, expected,
        resulting, r.requestDigest, r.resultingFactDigest⟩])) :
    Follows r.accountId none (redeemed r a action expected resulting) B
      { B with accounts := accounts, credentials := credentials } := by
  have hone : B.approvals.filter (fun b => b.approvalId = r.approvalId) = [a] :=
    hB.filter_one ha hid fun b hb => hb.trans hid.symm
  refine follows_updateApprovals (fun s hs hheld b hb hbi => ?_) (follows_insertEvent rfl <|
    follows_insertApprovalEvent hk <| follows_commit
      (hB.settled hone hadmits.1 hadmits.2 hstanding rfl) ?_)
  · have has : a ∈ s.approvals := by
      have : a ∈ (s.book r.accountId).approvals := hs ▸ ha
      exact (List.mem_filter.1 this).1
    exact (same_holder (hheld _ nofun) hb has hbi hid).trans hk
  · exact ⟨List.prefix_append _ _, List.prefix_append _ _,
      fun _ => Book.mem_closed fun b hb hbi => Book.only hone hb hbi ▸ hadmits.1, hrevoked⟩

theorem opens_redeemIssue {hmac : Bytes → Bytes → Bytes} {r : Redeem} :
    Opens (redeemIssue hmac r) := by
  refine opens_consume <| opens_tenant fun policy => opens_lock fun B hB hown =>
    follows_readApproval <| follows_read (fun _ => keyless_nil) fun s _ =>
    follows_demand fun a ha => ?_
  have hmem := List.mem_of_find?_eq_some ha
  have hfound : a.approvalId = r.approvalId ∧ a.tenantId = r.tenantId := by
    simpa using List.find?_some ha
  cases hterms : a.terms with
  | rotate expected => exact fun _ _ _ _ _ _ _ => trivial
  | issue scopes accountExpiresAt =>
    refine follows_require fun hadmits => follows_require fun _ => follows_require fun _ =>
      follows_require fun _ => follows_insertAccount rfl fun hnone => follows_insertScopes <|
      follows_insertCredential ?_
    refine follows_redeemed hB hmem hfound.1 (hown a hmem) ⟨hadmits.1, hadmits.2.2.2.1⟩
      (fun _ hrow => by rw [hnone] at hrow; cases hrow) ?_
    rw [hnone]
    exact (hnone ▸ hB.standing).opened rfl rfl rfl rfl rfl nofun

theorem opens_redeemRotation {hmac : Bytes → Bytes → Bytes} {r : Redeem} :
    Opens (redeemRotation hmac r) := by
  refine opens_consume <| opens_tenant fun policy => opens_lock fun B hB hown =>
    follows_readApproval <| follows_readAccount <| follows_read (fun _ => keyless_nil) fun s _ =>
    follows_demand fun a ha => ?_
  have hmem := List.mem_of_find?_eq_some ha
  have hfound : a.approvalId = r.approvalId ∧ a.tenantId = r.tenantId := by
    simpa using List.find?_some ha
  cases hterms : a.terms with
  | issue scopes accountExpiresAt => exact fun _ _ _ _ _ _ _ => trivial
  | rotate expected =>
    refine follows_require fun hadmits => follows_demand fun row hrow => follows_require fun _ =>
      follows_require fun _ => follows_endCredentials <| follows_insertCredential <|
      follows_updateAccount (fun _ => rfl) ?_
    obtain ⟨haccounts, hactive⟩ := hB.accounts_eq hrow
    have hstate := (of_decide_eq_true hactive).2
    refine follows_redeemed hB hmem hfound.1 (hown a hmem) ⟨hadmits.1, hadmits.2.2.2.1⟩
      (Book.none_revoked haccounts hstate) ?_
    rw [haccounts]
    exact (haccounts ▸ hB.standing).rotated hstate rfl rfl rfl nofun

theorem opens_issueAccount {now : Time} {r : IssueAccount} : Opens (issueAccount now r) := by
  refine opens_security fun operator => opens_lock fun B hB _ =>
    follows_read (fun _ => keyless_nil) fun s _ => follows_require fun _ =>
    follows_require fun _ => follows_require fun _ => follows_require fun _ =>
    follows_require fun _ => follows_insertAccount rfl fun hnone => follows_insertScopes <|
    follows_insertCredential <| follows_insertEvent rfl <| follows_commit (hB.operated ?_ rfl) ?_
  · rw [hnone]
    exact (hnone ▸ hB.standing).opened rfl rfl rfl rfl rfl nofun
  · exact Book.extends_operated fun _ hrow => by rw [hnone] at hrow; cases hrow

theorem opens_rotateAccount {now : Time} {r : RotateAccount} : Opens (rotateAccount now r) := by
  refine opens_security fun operator => opens_lock fun B hB _ => follows_readAccount <|
    follows_demand fun row hrow => follows_require fun _ => follows_require fun _ =>
    follows_require fun _ => follows_require fun _ => follows_endCredentials <|
    follows_insertCredential <| follows_updateAccount (fun _ => rfl) <|
    follows_insertEvent rfl <| follows_commit (hB.operated ?_ rfl) ?_
  all_goals
    obtain ⟨haccounts, hactive⟩ := hB.accounts_eq hrow
    have hstate := (of_decide_eq_true hactive).2
  · rw [haccounts]
    exact (haccounts ▸ hB.standing).rotated hstate rfl rfl rfl nofun
  · exact Book.extends_operated (Book.none_revoked haccounts hstate)

theorem opens_revokeAccount {r : RevokeAccount} : Opens (revokeAccount r) := by
  refine opens_security fun operator => opens_lock fun B hB _ => follows_readAccount <|
    follows_demand fun row hrow => follows_require fun _ => follows_require fun _ =>
    follows_require fun _ => follows_endCredentials <| follows_updateAccount (fun _ => rfl) <|
    follows_cancelApprovals (fun _ ha => ha.2.1) <| follows_insertEvent rfl ?_
  obtain ⟨haccounts, hactive⟩ := hB.accounts_eq hrow
  have hstate := (of_decide_eq_true hactive).2
  have hp : ∀ a ∈ B.approvals, a.tenantId = r.tenantId ∧ a.serviceAccountId = r.accountId ∧
      a.state = .approved → a.state = .approved := fun _ _ ha => ha.2.2
  have hstanding : Standing _ _ (B.events ++
      [⟨operator, .platformSecurity operator, r.tenantId, r.accountId, .revoke, r.reasonCode,
        r.expectedRevision, row.revision + 1, r.requestDigest, r.resultingFactDigest⟩]) :=
    (haccounts ▸ hB.standing).revoked rfl rfl
  rw [haccounts]
  exact follows_commit ((hB.operated hstanding rfl).cancelled hp)
    ((Book.extends_operated (Book.none_revoked haccounts hstate)).trans (Book.extends_closed hp))

end

/-! ## Any interleaving -/

/-- A call of the control plane on its service accounts; what a list or a get writes is what
it takes to present an assertion. -/
inductive Operation where
  | approveIssue (now : Time) (r : ApproveIssue)
  | approveRotation (now : Time) (r : ApproveRotation)
  | cancelApproval (r : CancelApproval)
  | redeemIssue (r : Redeem)
  | redeemRotation (r : Redeem)
  | issueAccount (now : Time) (r : IssueAccount)
  | rotateAccount (now : Time) (r : RotateAccount)
  | revokeAccount (r : RevokeAccount)
  | present (m : Moment) (version : BitVec 16) (a : Coordinates) (mac : Bytes)

def Operation.script (hmac : Bytes → Bytes → Bytes) : Operation → ControlScript
  | .approveIssue now r => Control.approveIssue now r
  | .approveRotation now r => Control.approveRotation now r
  | .cancelApproval r => Control.cancelApproval r
  | .redeemIssue r => Control.redeemIssue hmac r
  | .redeemRotation r => Control.redeemRotation hmac r
  | .issueAccount now r => Control.issueAccount now r
  | .rotateAccount now r => Control.rotateAccount now r
  | .revokeAccount r => Control.revokeAccount r
  | .present m version a mac => consumeAssertion hmac m version a mac .commit

/-- No account and no approval has been recorded. -/
def Store.Blank (s : Store) : Prop := s.accounts = [] ∧ s.credentials = [] ∧ s.events = [] ∧
  s.approvals = [] ∧ s.approvalEvents = []

def ledgerSystem {τ : Type} [DecidableEq τ] (hmac : Bytes → Bytes → Bytes) (ops : τ → Operation) :
    Transition.System (World τ Store Row Refusal) (Event τ) :=
  scriptSystem Store.Blank fun t => (ops t).script hmac

theorem opens_script {hmac : Bytes → Bytes → Bytes} : ∀ o : Operation, Opens (o.script hmac)
  | .approveIssue _ _ => opens_approveIssue
  | .approveRotation _ _ => opens_approveRotation
  | .cancelApproval _ => opens_cancelApproval
  | .redeemIssue _ => opens_redeemIssue
  | .redeemRotation _ => opens_redeemRotation
  | .issueAccount _ _ => opens_issueAccount
  | .rotateAccount _ _ => opens_rotateAccount
  | .revokeAccount _ => opens_revokeAccount
  | .present _ _ _ _ => opens_consume opens_commit

theorem sound_of_blank {s : Store} (h : s.Blank) : s.Sound := by
  obtain ⟨ha, hc, he, hp, hpe⟩ := h
  constructor
  · intro k
    have hbook : s.book k = ⟨[], [], [], [], []⟩ := by simp [Store.book, ha, hc, he, hp, hpe]
    rw [hbook]
    exact ⟨⟨by simp, rfl, rfl, rfl⟩, ⟨by simp, by simp, by simp, by simp, by simp⟩, rfl⟩
  · intro id
    simp [Store.holders, hp]

section
variable {τ : Type} [DecidableEq τ] {hmac : Bytes → Bytes → Bytes} {ops : τ → Operation}
  {w w' : World τ Store Row Refusal}

omit [DecidableEq τ] in
theorem grown_scripts (t : τ) (c s : Store) : Grown ((ops t).script hmac) [] c s :=
  opens_script (ops t) [] c s fun _ => List.not_mem_nil

/-- Whatever calls interleave, the rows and the events of each account tell one story. -/
theorem ledger_sound (h : (ledgerSystem hmac ops).Reachable w) : w.committed.Sound :=
  (Slicing.placed_of_reachable (fun _ => sound_of_blank) grown_scripts (fun _ _ _ => .grows) h).1

/-- What has been recorded of an account, or has ended, is never changed. -/
theorem ledger_grows (h : (ledgerSystem hmac ops).Reachable w)
    (hl : (ledgerSystem hmac ops).Later w w') (k : Uuid) :
    (w.committed.book k).Extends (w'.committed.book k) := by
  have hkept : ∀ w₁ e w₂, (ledgerSystem hmac ops).Reachable w₁ →
      (w.committed.book k).Extends (w₁.committed.book k) → (ledgerSystem hmac ops).step w₁ e w₂ →
        (w.committed.book k).Extends (w₂.committed.book k) := by
    intro w₁ e w₂ hr hext hstep
    rcases Slicing.goal_of_step (fun _ => sound_of_blank) grown_scripts (fun _ _ _ => .grows) hr
      hstep with
      hsame | ⟨-, j, hother, -, hgrown, -⟩
    · rwa [hsame]
    · by_cases hk : k = j
      · subst hk
        exact hext.trans hgrown
      · rwa [hother k hk]
  exact Transition.System.stable hkept h (.refl _) hl

end

/-- An operator of platform security and a tenant that is served. -/
def provisioned : Store :=
  { Store.empty with
    tenants := [⟨7, .active, 1⟩], quotas := [7], routes := [⟨7, "eu", .active⟩]
    regions := [⟨"eu", .active⟩]
    operators := [⟨3, .platformSecurity, .active⟩]
    operatorDigests := [⟨3, 1, List.replicate 32 0, true⟩] }

/-- One call opens an account, the other one revokes it. -/
def briefly : Bool → Operation
  | true => .issueAccount 0
    ⟨⟨1, List.replicate 32 0⟩, 7, 9, List.replicate 32 1, ["rag.query"], 20, 10,
      "incident_response", List.replicate 32 2, List.replicate 32 3⟩
  | false => .revokeAccount
    ⟨⟨1, List.replicate 32 0⟩, 7, 9, some 1, "access_removed", List.replicate 32 4,
      List.replicate 32 5⟩

def provisionedWorld : World Bool Store Row Refusal :=
  ⟨provisioned, fun t => .new ((briefly t).script fun _ _ => []), []⟩

/-- The account is open, and its revocation has only to commit. -/
def revokingWorld : World Bool Store Row Refusal :=
  (Transition.System.play World.happen provisionedWorld
    (List.replicate 10 (.step true) ++ List.replicate 10 (.step false))).getD provisionedWorld

def revokedWorld : World Bool Store Row Refusal :=
  (revokingWorld.happen (.step false)).getD revokingWorld

theorem some_getD {α : Type} {o : Option α} {a : α} (h : o.isSome = true) :
    o = some (o.getD a) := by
  cases o with
  | none => cases h
  | some => rfl

theorem revokingWorld_reachable : (ledgerSystem (fun _ _ => []) briefly).Reachable revokingWorld :=
  Transition.System.reachable_play (fun _ _ _ h => h)
    (.start ⟨⟨rfl, rfl, rfl, rfl, rfl⟩, rfl, fun _ => rfl⟩)
    (some_getD (by decide +kernel))

theorem ledger_sound_open : revokingWorld.committed.events.length = 1 ∧
    revokingWorld.committed.Sound :=
  ⟨by decide +kernel, ledger_sound revokingWorld_reachable⟩

theorem ledger_grows_revoked : revokedWorld.committed.events.length = 2 ∧
    (revokingWorld.committed.book 9).Extends (revokedWorld.committed.book 9) :=
  ⟨by decide +kernel,
    ledger_grows revokingWorld_reachable (.single ⟨.step false, some_getD (by decide +kernel)⟩) 9⟩

end RagPipeline.Control
