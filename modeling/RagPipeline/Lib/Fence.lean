import RagPipeline.Lib.Table

/-! # Fencing

One resource with a recorded candidate, one holder at most, and a ledger of
everybody who ever held it. A new candidate fences the holder off, a newcomer
displaces one whose time is over, and the holder itself may finish; each closes
the entries it displaces in the same step. -/

set_option autoImplicit false

namespace RagPipeline.Fence
open Table

variable {A C E : Type}

/-- What an entry of the ledger says. -/
structure Reading (A C E : Type) where
  ident : E → A
  candidate : E → C
  running : E → Prop

structure State (A C E : Type) where
  candidate : Option C
  published : Prop
  holder : Option A
  entries : List E

namespace Reading

variable (R : Reading A C E)

/-- The running entries that meet a condition are closed, the rest stays. -/
def Closes (p : E → Prop) : List E → List E → Prop :=
  List.Forall₂ fun e e' => ¬ (R.running e ∧ p e) ∧ e' = e ∨
    R.running e ∧ p e ∧ R.ident e' = R.ident e ∧ R.candidate e' = R.candidate e ∧ ¬ R.running e'

inductive Move : State A C E → State A C E → Prop where
  | still {s s' : State A C E} (candidate : s'.candidate = s.candidate)
      (published : s.published → s'.published) (holder : s'.holder = s.holder)
      (entries : s'.entries = s.entries) : Move s s'
  | idle {s s' : State A C E} (free : s.holder = none) (holder : s'.holder = none)
      (entries : s'.entries = s.entries) : Move s s'
  | fence {s s' : State A C E} (candidate : s'.candidate ≠ s.candidate)
      (holder : s'.holder = none)
      (closes : R.Closes (fun e => some (R.candidate e) ≠ s'.candidate) s.entries s'.entries) :
      Move s s'
  | take {s s' : State A C E} (e : E) (l : List E) (published : s.published)
      (candidate : s.candidate = some (R.candidate e)) (running : R.running e)
      (unused : R.ident e ∉ s.entries.map R.ident)
      (closes : R.Closes (fun e => some (R.ident e) = s.holder) s.entries l)
      (kept : s'.candidate = s.candidate) (still : s'.published)
      (holder : s'.holder = some (R.ident e)) (entries : s'.entries = l ++ [e]) : Move s s'
  | finish {s s' : State A C E} {a : A} (held : s.holder = some a)
      (holder : s'.holder = none)
      (closes : R.Closes (fun e => R.ident e = a) s.entries s'.entries) : Move s s'

structure Exclusive (s : State A C E) : Prop where
  nodup : (s.entries.map R.ident).Nodup
  running : ∀ e ∈ s.entries, R.running e →
    s.holder = some (R.ident e) ∧ s.candidate = some (R.candidate e)
  held : ∀ a, s.holder = some a → s.published ∧ ∃ e ∈ s.entries, R.ident e = a ∧ R.running e

variable {R}

section
variable {p : E → Prop} {l l' : List E}

theorem closes_updateWhere {q : E → Prop} [DecidablePred q] {f : E → E}
    (hq : ∀ e ∈ l, q e ↔ R.running e ∧ p e) (hident : ∀ e, R.ident (f e) = R.ident e)
    (hcandidate : ∀ e, R.candidate (f e) = R.candidate e) (hclosed : ∀ e, ¬ R.running (f e)) :
    R.Closes p l (updateWhere q f l) := by
  induction l with
  | nil => exact List.Forall₂.nil
  | cons e rest ih =>
    have hhead := hq e List.mem_cons_self
    refine List.Forall₂.cons ?_ (ih fun x hx => hq x (List.mem_cons_of_mem _ hx))
    by_cases h : q e
    · simp only [if_pos h]
      exact .inr ⟨(hhead.1 h).1, (hhead.1 h).2, hident e, hcandidate e, hclosed e⟩
    · simp only [if_neg h]
      exact .inl ⟨fun hr => h (hhead.2 hr), trivial⟩

theorem Closes.map_ident (h : R.Closes p l l') : l'.map R.ident = l.map R.ident := by
  induction h with
  | nil => rfl
  | cons he _ ih =>
    rw [List.map_cons, List.map_cons, ih]
    rcases he with ⟨-, rfl⟩ | ⟨-, -, hid, -, -⟩
    · rfl
    · rw [hid]

theorem Closes.running {e : E} (h : R.Closes p l l') (he : e ∈ l') (hr : R.running e) :
    e ∈ l ∧ ¬ p e := by
  induction h with
  | nil => cases he
  | cons hhead _ ih =>
    rcases List.mem_cons.1 he with rfl | he
    · rcases hhead with ⟨hn, rfl⟩ | ⟨-, -, -, -, hclosed⟩
      · exact ⟨List.mem_cons_self, fun hp => hn ⟨hr, hp⟩⟩
      · exact absurd hr hclosed
    · exact ⟨List.mem_cons_of_mem _ (ih he).1, (ih he).2⟩

theorem Closes.finished {e : E} (h : R.Closes p l l') (he : e ∈ l) (hr : ¬ R.running e) :
    e ∈ l' := by
  induction h with
  | nil => cases he
  | cons hhead _ ih =>
    rcases List.mem_cons.1 he with rfl | he
    · rcases hhead with ⟨-, rfl⟩ | ⟨hrun, -⟩
      · exact List.mem_cons_self
      · exact absurd hrun hr
    · exact List.mem_cons_of_mem _ (ih he)

theorem Closes.continues {e : E} (h : R.Closes p l l') (he : e ∈ l) :
    ∃ e' ∈ l', R.ident e' = R.ident e ∧ R.candidate e' = R.candidate e := by
  induction h with
  | nil => cases he
  | @cons a b _ _ hhead _ ih =>
    rcases List.mem_cons.1 he with rfl | he
    · rcases hhead with ⟨-, rfl⟩ | ⟨-, -, hid, hcandidate, -⟩
      · exact ⟨b, List.mem_cons_self, rfl, rfl⟩
      · exact ⟨b, List.mem_cons_self, hid, hcandidate⟩
    · obtain ⟨e', he', hsame⟩ := ih he
      exact ⟨e', List.mem_cons_of_mem _ he', hsame⟩

end

section
variable {s s' : State A C E} {e e' : E}

theorem Exclusive.ident_inj (h : R.Exclusive s) (he : e ∈ s.entries) (he' : e' ∈ s.entries)
    (hid : R.ident e = R.ident e') : e = e' :=
  List.inj_on_of_nodup_map h.nodup he he' hid

/-- One entry at most is running. -/
theorem Exclusive.unique (h : R.Exclusive s) (he : e ∈ s.entries) (he' : e' ∈ s.entries)
    (hr : R.running e) (hr' : R.running e') : e = e' := by
  have hid : some (R.ident e) = some (R.ident e') :=
    (h.running e he hr).1.symm.trans (h.running e' he' hr').1
  exact h.ident_inj he he' (Option.some.inj hid)

theorem Exclusive.holder_iff (h : R.Exclusive s) (he : e ∈ s.entries) :
    s.holder = some (R.ident e) ↔ R.running e := by
  constructor
  · intro hh
    obtain ⟨-, e', he', hid, hr⟩ := h.held _ hh
    exact h.ident_inj he' he hid ▸ hr
  · exact fun hr => (h.running e he hr).1

theorem Exclusive.idle (h : R.Exclusive s) (hfree : s.holder = none) (he : e ∈ s.entries) :
    ¬ R.running e := by
  intro hr
  rw [(h.running e he hr).1] at hfree
  cases hfree

/-- Nobody is left running once the holder's entry, or every entry of another
candidate than the recorded one, is closed. -/
theorem Exclusive.of_quiet {l : List E} (h : R.Exclusive s)
    (hl : l.map R.ident = s.entries.map R.ident) (hholder : s'.holder = none)
    (hentries : s'.entries = l) (hquiet : ∀ e ∈ l, ¬ R.running e) : R.Exclusive s' where
  nodup := by rw [hentries, hl]; exact h.nodup
  running e he hr := absurd hr (hquiet e (hentries ▸ he))
  held a ha := by rw [hholder] at ha; cases ha

theorem Move.exclusive (h : R.Exclusive s) (hmove : R.Move s s') : R.Exclusive s' := by
  cases hmove with
  | still hcandidate hpublished hholder hentries =>
    refine ⟨by rw [hentries]; exact h.nodup, fun e he hr => ?_, fun a ha => ?_⟩
    · rw [hholder, hcandidate]
      exact h.running e (hentries ▸ he) hr
    · obtain ⟨hp, he⟩ := h.held a (hholder ▸ ha)
      exact ⟨hpublished hp, by rw [hentries]; exact he⟩
  | idle hfree hholder hentries =>
    exact h.of_quiet rfl hholder hentries fun e he => h.idle hfree he
  | fence hcandidate hholder hcloses =>
    refine h.of_quiet hcloses.map_ident hholder rfl fun e he hr => ?_
    obtain ⟨hmem, hsame⟩ := hcloses.running he hr
    exact hcandidate ((not_not.1 hsame).symm.trans (h.running e hmem hr).2.symm)
  | finish hheld hholder hcloses =>
    refine h.of_quiet hcloses.map_ident hholder rfl fun e he hr => ?_
    obtain ⟨hmem, hother⟩ := hcloses.running he hr
    exact hother (Option.some.inj ((h.running e hmem hr).1.symm.trans hheld))
  | take e l hpublished hcandidate hrunning hunused hcloses hkept hstill hholder hentries =>
    have hquiet : ∀ x ∈ l, ¬ R.running x := fun x hx hr => by
      obtain ⟨hmem, hother⟩ := hcloses.running hx hr
      exact hother (h.running x hmem hr).1.symm
    have honly : ∀ x ∈ s'.entries, R.running x → x = e := fun x hx hr => by
      rw [hentries] at hx
      rcases List.mem_append.1 hx with hx | hx
      · exact absurd hr (hquiet x hx)
      · exact List.mem_singleton.1 hx
    refine ⟨?_, fun x hx hr => ?_, fun a ha => ?_⟩
    · rw [hentries, List.map_append, hcloses.map_ident, List.map_singleton]
      exact List.nodup_append.2 ⟨h.nodup, List.nodup_singleton _, fun a ha b hb hab =>
        hunused (List.mem_singleton.1 hb ▸ hab ▸ ha)⟩
    · rw [honly x hx hr, hkept]
      exact ⟨hholder, hcandidate⟩
    · have hid : R.ident e = a := Option.some.inj (hholder.symm.trans ha)
      exact ⟨hstill, e, by rw [hentries]; simp, hid, hrunning⟩

/-- A finished entry stays as it is. -/
theorem Move.finished (hmove : R.Move s s') (he : e ∈ s.entries) (hr : ¬ R.running e) :
    e ∈ s'.entries := by
  cases hmove with
  | still _ _ _ hentries => rwa [hentries]
  | idle _ _ hentries => rwa [hentries]
  | fence _ _ hcloses => exact hcloses.finished he hr
  | finish _ _ hcloses => exact hcloses.finished he hr
  | take _ _ _ _ _ _ hcloses _ _ _ hentries =>
    rw [hentries]
    exact List.mem_append_left _ (hcloses.finished he hr)

/-- No entry is lost, whatever becomes of it. -/
theorem Move.continues (hmove : R.Move s s') (he : e ∈ s.entries) :
    ∃ e' ∈ s'.entries, R.ident e' = R.ident e ∧ R.candidate e' = R.candidate e := by
  cases hmove with
  | still _ _ _ hentries => exact ⟨e, hentries ▸ he, rfl, rfl⟩
  | idle _ _ hentries => exact ⟨e, hentries ▸ he, rfl, rfl⟩
  | fence _ _ hcloses => exact hcloses.continues he
  | finish _ _ hcloses => exact hcloses.continues he
  | take _ _ _ _ _ _ hcloses _ _ _ hentries =>
    obtain ⟨e', he', hsame⟩ := hcloses.continues he
    exact ⟨e', by rw [hentries]; exact List.mem_append_left _ he', hsame⟩

end

end Reading

end RagPipeline.Fence
