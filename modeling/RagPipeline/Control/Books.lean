import RagPipeline.Control.Scripts

/-! # The book of an account

All that the tables say of one account: its row, its credentials and events, and
the approvals on it with theirs. Who changes a book holds the advisory lock of
the account. The holders of an approval id are a slice of the store as well. -/

set_option autoImplicit false

namespace RagPipeline.Control
open Locks

structure Book where
  accounts : List AccountRow
  credentials : List CredentialRow
  events : List AccountEvent
  approvals : List ApprovalRow
  approvalEvents : List ApprovalEvent

namespace Store

def book (s : Store) (k : Uuid) : Book where
  accounts := s.accounts.filter fun a => a.serviceAccountId = k
  credentials := s.credentials.filter fun c => c.serviceAccountId = k
  events := s.events.filter fun e => e.serviceAccountId = k
  approvals := s.approvals.filter fun a => a.serviceAccountId = k
  approvalEvents := s.approvalEvents.filter fun e => e.serviceAccountId = k

/-- The accounts that an approval of this id is on. -/
def holders (s : Store) (id : Uuid) : List Uuid :=
  (s.approvals.filter fun a => a.approvalId = id).map ApprovalRow.serviceAccountId

end Store

inductive Part where
  | account (k : Uuid)
  | approval (id : Uuid)
deriving DecidableEq, Repr

def Part.Content : Part → Type
  | .account _ => Book
  | .approval _ => List Uuid

def Store.part (s : Store) : ∀ p : Part, p.Content
  | .account k => s.book k
  | .approval id => s.holders id

def Part.thing : Part → Thing
  | .account k => .account k
  | .approval id => .approvalKey id

theorem Part.thing_injective : Function.Injective Part.thing := by
  intro p q h
  cases p <;> cases q <;> simp_all [Part.thing]

theorem excludes_iff {r r' : Row} :
    Exclusion.excludes r r' = true ↔ r.thing = r'.thing ∧ ¬ (r.shared = true ∧ r'.shared = true) :=
  decide_eq_true_iff

/-- The slices of the store, each with the lock of its writers. -/
def parts : Slicing Store Row Part Part.Content where
  slice p s := s.part p
  key p := lock p.thing
  exclusive p := excludes_iff.2 ⟨rfl, by simp [lock]⟩

/-! ## Looking a row up in its book -/

section
variable {s : Store} {k t id : Uuid}

theorem find?_filter_and {α : Type} {p q : α → Prop} [DecidablePred p] [DecidablePred q]
    {l : List α} :
    (l.filter fun a => p a).find? (fun a => q a) = l.find? fun a => p a ∧ q a := by
  rw [List.find?_filter]
  congr 1
  funext a
  simp

theorem account_eq : s.account k = (s.book k).accounts.head? := by
  rw [Store.account, Store.book, List.head?_filter]

theorem activeAccount_eq : s.activeAccount t k =
    (s.book k).accounts.find? fun a => a.tenantId = t ∧ a.state = .active := by
  rw [Store.book, find?_filter_and]
  rfl

theorem approval_eq : s.approval id t k =
    (s.book k).approvals.find? fun a => a.approvalId = id ∧ a.tenantId = t := by
  rw [Store.book, find?_filter_and, Store.approval]
  congr 1
  funext a
  simp only [decide_eq_decide]
  tauto

end

/-! ## What each write does to the slices -/

namespace Store

variable {s : Store} {k t id : Uuid}

theorem book_addAccount {a : AccountRow} (h : a.serviceAccountId = k) :
    (s.addAccount a).book k = { s.book k with accounts := (s.book k).accounts ++ [a] } := by
  simp [book, addAccount, List.filter_append, h]

theorem book_addCredential {c : CredentialRow} (h : c.serviceAccountId = k) :
    (s.addCredential c).book k =
      { s.book k with credentials := (s.book k).credentials ++ [c] } := by
  simp [book, addCredential, List.filter_append, h]

theorem book_addEvent {e : AccountEvent} (h : e.serviceAccountId = k) :
    (s.addEvent e).book k = { s.book k with events := (s.book k).events ++ [e] } := by
  simp [book, addEvent, List.filter_append, h]

theorem book_addApproval {a : ApprovalRow} (h : a.serviceAccountId = k) :
    (s.addApproval a).book k = { s.book k with approvals := (s.book k).approvals ++ [a] } := by
  simp [book, addApproval, List.filter_append, h]

theorem book_addApprovalEvents {l : List ApprovalEvent} (h : ∀ e ∈ l, e.serviceAccountId = k) :
    (s.addApprovalEvents l).book k =
      { s.book k with approvalEvents := (s.book k).approvalEvents ++ l } := by
  have hl : l.filter (fun e => e.serviceAccountId = k) = l :=
    List.filter_eq_self.2 fun e he => decide_eq_true (h e he)
  simp [book, addApprovalEvents, List.filter_append, hl]

end Store

/-- An update of some rows goes through a selection it does not move rows across. -/
theorem filter_updateWhere {α : Type} {p q : α → Prop} [DecidablePred p] [DecidablePred q]
    {f : α → α} {l : List α} (h : ∀ a, q (f a) ↔ q a) :
    (Table.updateWhere p f l).filter (fun a => q a) =
      Table.updateWhere p f (l.filter fun a => q a) := by
  induction l with
  | nil => rfl
  | cons a l ih =>
    have hhead : q (if p a then f a else a) ↔ q a := by
      split
      · exact h a
      · exact Iff.rfl
    simp only [Table.updateWhere, List.map_cons] at ih ⊢
    by_cases hq : q a
    · simp only [List.filter_cons, decide_eq_true (hhead.2 hq), decide_eq_true hq, if_true,
        List.map_cons, ih]
    · simp only [List.filter_cons, decide_eq_false (mt hhead.1 hq), decide_eq_false hq,
        Bool.false_eq_true, if_false, ih]

/-- An update of the rows of one key leaves those of another. -/
theorem filter_updateWhere_other {α : Type} {key : α → Uuid} {p : α → Prop} [DecidablePred p]
    {f : α → α} {l : List α} {j k : Uuid} (hj : j ≠ k) (hf : ∀ a, key (f a) = key a)
    (hp : ∀ a, p a → key a = k) :
    (Table.updateWhere p f l).filter (fun a => key a = j) = l.filter fun a => key a = j := by
  rw [filter_updateWhere fun a => by rw [hf]]
  refine Table.updateWhere_of_forall_not fun a ha hpa => hj ?_
  exact (of_decide_eq_true (List.mem_filter.1 ha).2).symm.trans (hp a hpa)

namespace Store

variable {s : Store} {k t id : Uuid}

theorem book_retireCredentials {state : CredentialState} :
    (s.retireCredentials k state).book k =
      { s.book k with
        credentials := Table.updateWhere (fun c => c.state = .active)
          (fun c => { c with state := state }) (s.book k).credentials } := by
  simp only [book, retireCredentials, Book.mk.injEq, true_and, and_true]
  have hid : ∀ c : CredentialRow,
      ({ c with state := state } : CredentialRow).serviceAccountId = k ↔ c.serviceAccountId = k :=
    fun _ => Iff.rfl
  rw [filter_updateWhere hid]
  refine List.map_congr_left fun c hc => ?_
  have hk : c.serviceAccountId = k := by simpa using (List.mem_filter.1 hc).2
  simp [hk]

theorem book_setAccount {f : AccountRow → AccountRow}
    (hf : ∀ a, (f a).serviceAccountId = a.serviceAccountId) :
    (s.setAccount k f).book k = { s.book k with accounts := (s.book k).accounts.map f } := by
  simp only [book, setAccount, Book.mk.injEq, and_true]
  have hid : ∀ a, (f a).serviceAccountId = k ↔ a.serviceAccountId = k := fun a => by rw [hf]
  rw [filter_updateWhere hid]
  refine List.map_congr_left fun a ha => if_pos ?_
  simpa using (List.mem_filter.1 ha).2

theorem book_setApprovals {l : List ApprovalRow} {state : ApprovalState} :
    (s.setApprovals l state).book k =
      { s.book k with
        approvals := Table.updateWhere (fun a => a ∈ l) (fun a => { a with state := state })
          (s.book k).approvals } := by
  simp only [book, setApprovals, Book.mk.injEq, true_and, and_true]
  exact filter_updateWhere fun _ => Iff.rfl

theorem holders_setApprovals {l : List ApprovalRow} {state : ApprovalState} :
    (s.setApprovals l state).holders id = s.holders id := by
  simp only [holders, setApprovals]
  have hid : ∀ a : ApprovalRow,
      ({ a with state := state } : ApprovalRow).approvalId = id ↔ a.approvalId = id :=
    fun _ => Iff.rfl
  rw [filter_updateWhere hid]
  exact Table.map_updateWhere fun a _ => rfl

theorem holders_addApproval {a : ApprovalRow} : (s.addApproval a).holders id =
    s.holders id ++ if a.approvalId = id then [a.serviceAccountId] else [] := by
  by_cases h : a.approvalId = id <;> simp [holders, addApproval, List.filter_append, h]

end Store

/-! ## Writes under the lock of an account -/

section
variable {H : List Row} {k : Uuid} {f : Store → Store}

/-- A write that leaves every slice as it is. -/
theorem confined_of_same (h : ∀ c p, (f c).part p = c.part p) : parts.Confined H f where
  unkeyed p _ c := h c p
  sliced p c c' hp := (h c p).trans (hp.trans (h c' p).symm)

/-- A write to one book. -/
theorem confined_of_book (hk : lock (.account k) ∈ H) (g : Book → Book)
    (hbook : ∀ c, (f c).book k = g (c.book k)) (hother : ∀ c j, j ≠ k → (f c).book j = c.book j)
    (hholders : ∀ c id, (f c).holders id = c.holders id) : parts.Confined H f where
  unkeyed p hp c := by
    cases p with
    | account j =>
      refine hother c j ?_
      rintro rfl
      exact hp hk
    | approval id => exact hholders c id
  sliced p c c' h := by
    cases p with
    | account j =>
      by_cases hj : j = k
      · subst hj
        exact (hbook c).trans ((congrArg g h).trans (hbook c').symm)
      · exact (hother c j hj).trans (Eq.trans h (hother c' j hj).symm)
    | approval id => exact (hholders c id).trans (Eq.trans h (hholders c' id).symm)

variable (hk : lock (.account k) ∈ H)
include hk

theorem confined_addAccount {a : AccountRow} (h : a.serviceAccountId = k) :
    parts.Confined H (Store.addAccount a) := by
  refine confined_of_book hk (fun b => { b with accounts := b.accounts ++ [a] })
    (fun c => Store.book_addAccount h) ?_ fun _ _ => rfl
  intro c j hj
  have hne : a.serviceAccountId ≠ j := fun he => hj (he.symm.trans h)
  simp [Store.book, Store.addAccount, List.filter_append, hne]

theorem confined_addCredential {x : CredentialRow} (h : x.serviceAccountId = k) :
    parts.Confined H (Store.addCredential x) := by
  refine confined_of_book hk (fun b => { b with credentials := b.credentials ++ [x] })
    (fun c => Store.book_addCredential h) ?_ fun _ _ => rfl
  intro c j hj
  have hne : x.serviceAccountId ≠ j := fun he => hj (he.symm.trans h)
  simp [Store.book, Store.addCredential, List.filter_append, hne]

theorem confined_addEvent {e : AccountEvent} (h : e.serviceAccountId = k) :
    parts.Confined H (Store.addEvent e) := by
  refine confined_of_book hk (fun b => { b with events := b.events ++ [e] })
    (fun c => Store.book_addEvent h) ?_ fun _ _ => rfl
  intro c j hj
  have hne : e.serviceAccountId ≠ j := fun he => hj (he.symm.trans h)
  simp [Store.book, Store.addEvent, List.filter_append, hne]

theorem confined_addApprovalEvents {l : List ApprovalEvent}
    (h : ∀ e ∈ l, e.serviceAccountId = k) : parts.Confined H (Store.addApprovalEvents l) := by
  refine confined_of_book hk (fun b => { b with approvalEvents := b.approvalEvents ++ l })
    (fun c => Store.book_addApprovalEvents h) ?_ fun _ _ => rfl
  intro c j hj
  have hl : l.filter (fun e => e.serviceAccountId = j) = [] :=
    List.filter_eq_nil_iff.2 fun e he => by simpa [h e he] using Ne.symm hj
  simp [Store.book, Store.addApprovalEvents, List.filter_append, hl]

theorem confined_retireCredentials {state : CredentialState} :
    parts.Confined H (Store.retireCredentials k state) := by
  refine confined_of_book hk (fun b =>
    { b with
      credentials := Table.updateWhere (fun c => c.state = .active)
        (fun c => { c with state := state }) b.credentials })
    (fun c => Store.book_retireCredentials) ?_ fun _ _ => rfl
  intro c j hj
  simp only [Store.book, Store.retireCredentials, Book.mk.injEq, true_and, and_true]
  exact filter_updateWhere_other hj (fun _ => rfl) fun _ hx => hx.1

theorem confined_setAccount {g : AccountRow → AccountRow}
    (hg : ∀ a, (g a).serviceAccountId = a.serviceAccountId) :
    parts.Confined H (Store.setAccount k g) := by
  refine confined_of_book hk (fun b => { b with accounts := b.accounts.map g })
    (fun c => Store.book_setAccount hg) ?_ fun _ _ => rfl
  intro c j hj
  simp only [Store.book, Store.setAccount, Book.mk.injEq, and_true]
  exact filter_updateWhere_other hj hg fun _ hx => hx

theorem confined_setApprovals {l : List ApprovalRow} {state : ApprovalState}
    (h : ∀ a ∈ l, a.serviceAccountId = k) : parts.Confined H (Store.setApprovals l state) := by
  refine confined_of_book hk (fun b =>
    { b with
      approvals := Table.updateWhere (fun a => a ∈ l) (fun a => { a with state := state })
        b.approvals })
    (fun c => Store.book_setApprovals) ?_
    fun _ _ => Store.holders_setApprovals
  intro c j hj
  simp only [Store.book, Store.setApprovals, Book.mk.injEq, true_and, and_true]
  exact filter_updateWhere_other hj (fun _ => rfl) h

/-- A new approval takes its id as well. -/
theorem confined_addApproval {a : ApprovalRow} (h : a.serviceAccountId = k)
    (ha : lock (.approvalKey a.approvalId) ∈ H) : parts.Confined H (Store.addApproval a) where
  unkeyed p hp c := by
    cases p with
    | account j =>
      have hne : a.serviceAccountId ≠ j := by
        rintro rfl
        exact hp (h ▸ hk)
      change (c.addApproval a).book j = c.book j
      simp [Store.book, Store.addApproval, List.filter_append, hne]
    | approval id =>
      have hne : a.approvalId ≠ id := by
        rintro rfl
        exact hp ha
      change (c.addApproval a).holders id = c.holders id
      rw [Store.holders_addApproval, if_neg hne, List.append_nil]
  sliced p c c' hp := by
    cases p with
    | account j =>
      change (c.addApproval a).book j = (c'.addApproval a).book j
      by_cases hj : a.serviceAccountId = j
      · rw [Store.book_addApproval hj, Store.book_addApproval hj]
        change c.book j = c'.book j at hp
        rw [hp]
      · have hsame : ∀ c : Store, (c.addApproval a).book j = c.book j := by
          intro c
          simp [Store.book, Store.addApproval, List.filter_append, hj]
        rw [hsame, hsame]
        exact hp
    | approval id =>
      change (c.addApproval a).holders id = (c'.addApproval a).holders id
      change c.holders id = c'.holders id at hp
      rw [Store.holders_addApproval, Store.holders_addApproval, hp]

end

end RagPipeline.Control
