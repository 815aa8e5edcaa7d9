import RagPipeline.Org.Isolation

/-! # Managers and founders

Two ways to act for a tenant. A manager has locked the row of the tenant: what
it sees of the tenant's slice stays as it is until it changes it itself, and it
commits only when exactly those with authority are bound. A founder seats one
architect: it holds the binding of that identity, and before it commits it has
taken the share lock on the tenant or found the architect seated already. -/

set_option autoImplicit false

namespace RagPipeline.Org
open Guard Locks

/-- What is left of a manager, where the slice of its tenant is `p`. -/
def Managed (t : Uuid) : Slice → OrgScript → Prop
  | p, .commit => p.Exact
  | _, .abort _ => True
  | p, .statement targets run next => ∀ s₀ s₁, s₁.Sole → s₀.slice t = p → s₁.slice t = p →
      (targets s₀ = [] → s₁ = s₀) → ∀ f, run s₁ = .ok f →
        ∃ K, Confined t K f ∧ (∀ x, K x → Row.binding x ∈ targets s₀ ∧ ∀ u, s₁.bound x u → u = t) ∧
          Managed t ((f s₁).slice t) (next s₁)

/-- How far a founder is: which identity it holds, whether it has seated it, and
whether the seat is covered by a share lock or by one that was there before. -/
inductive Stage where
  | idle
  | held (x : Uuid) (seated covered : Bool)

/-- What a founder sees at a stage. -/
def Stage.sees (t : Uuid) : Stage → Store → Prop
  | .idle, s => s.architectsActive ∧ s.Sole
  | .held x seated _, s => s.architectsActive ∧ s.bound x t ∧ (∀ u, s.bound x u → u = t) ∧
      (seated = true → s.architectOf x t)

/-- What a statement with these locks may do at a stage, and where it leads. -/
inductive Stage.Moves (t : Uuid) (rows : List Row) (s : Store) (f : Store → Store) :
    Stage → Stage → Prop where
  | quiet {stage : Stage} (h : Same f) : Moves t rows s f stage stage
  | claim {x : Uuid} (hrow : Row.binding x ∈ rows) (hsole : ∀ u, s.bound x u → u = t)
      (h : f = Store.bind x t ∨ f = id ∧ s.bound x t) : Moves t rows s f .idle (.held x false false)
  | share {x : Uuid} {seated covered : Bool} (hrow : Row.tenantShare t ∈ rows) (h : Same f) :
      Moves t rows s f (.held x seated covered) (.held x seated true)
  | known {x : Uuid} (hknown : s.architectOf x t) (h : Same f) :
      Moves t rows s f (.held x false false) (.held x false true)
  | seat {x : Uuid} {covered : Bool} (h : f = Store.putArchitect ⟨t, x, true⟩) :
      Moves t rows s f (.held x false covered) (.held x true covered)

/-- What is left of a founder. -/
def Founding (t : Uuid) : Stage → OrgScript → Prop
  | .idle, .commit => True
  | .held _ seated covered, .commit => seated = true ∧ covered = true
  | _, .abort _ => True
  | stage, .statement targets run next => ∀ s₀ s₁, stage.sees t s₀ → stage.sees t s₁ →
      (targets s₀ = [] → s₁ = s₀) → ∀ f, run s₁ = .ok f →
        ∃ stage', stage.Moves t (targets s₀) s₁ f stage' ∧ Founding t stage' (next s₁)

/-- What is left of a manager that has not locked its tenant. -/
def Entering (t : Uuid) : OrgScript → Prop
  | .commit => True
  | .abort _ => True
  | .statement targets run next => ∀ s₀ s₁, (targets s₀ = [] → s₁ = s₀) → ∀ f, run s₁ = .ok f →
      f = id ∧ ((∃ e, next s₁ = .abort e) ∨
        Row.tenant t ∈ targets s₀ ∧ ((s₁.slice t).Exact → Managed t (s₁.slice t) (next s₁)))

/-- Exactly those with active authority are bound, each to one tenant. Only
`bootstrap_org_tenant` writes architects, and it writes them active. -/
structure Settled (s : Store) : Prop where
  sole : s.Sole
  exact : ∀ x t, s.bound x t ↔ s.authority x t
  active : s.architectsActive

theorem Settled.slice {s : Store} (h : Settled s) (t : Uuid) : (s.slice t).Exact :=
  fun x => h.exact x t

variable {τ : Type}

/-- What a transaction has written is confined to its tenant and its locks. -/
structure Held (w : World τ Store Row Refusal) (i : τ) (t : Uuid) (K : Uuid → Prop) : Prop where
  confined : Confined t K (w.transactions i).pending
  keys : ∀ x, K x → w.holds i (.binding x)
  sole : ∀ x, K x → ∀ u, w.committed.bound x u → u = t

structure Managing (w : World τ Store Row Refusal) (i : τ) (t : Uuid) : Prop where
  tenant : w.holds i (.tenant t)
  held : ∃ K, Held w i t K
  managed : Managed t ((w.view i).slice t) (w.transactions i).script
  underway : Underway w i fun s => s.slice t = (w.view i).slice t

/-- What a founder has done at a stage. -/
def Stage.Done (w : World τ Store Row Refusal) (i : τ) (t : Uuid) : Stage → Prop
  | .idle => Same (w.transactions i).pending
  | .held x seated covered => Held w i t (· = x) ∧ (w.view i).bound x t ∧
      (∀ c, ((w.transactions i).pending c).memberships = c.memberships) ∧
      (∀ c y u, ((w.transactions i).pending c).architectOf y u →
        c.architectOf y u ∨ (seated = true ∧ y = x ∧ u = t)) ∧
      (seated = true → ∀ c, ((w.transactions i).pending c).architectOf x t) ∧
      (covered = true → w.holds i (.tenantShare t) ∨ w.committed.architectOf x t)

structure Founder (w : World τ Store Row Refusal) (i : τ) (t : Uuid) (stage : Stage) : Prop where
  done : stage.Done w i t
  founding : Founding t stage (w.transactions i).script
  underway : Underway w i (stage.sees t)

structure Outside (w : World τ Store Row Refusal) (i : τ) (t : Uuid) : Prop where
  unwritten : (w.transactions i).pending = id
  entering : Entering t (w.transactions i).script
  underway : Underway w i fun _ => True

/-- Every transaction has its place. -/
def Placed (w : World τ Store Row Refusal) (i : τ) : Prop :=
  ∃ t, Outside w i t ∨ Managing w i t ∨ ∃ stage, Founder w i t stage

/-- What the commit of a transaction changes, as the others see it. -/
structure Commits (w : World τ Store Row Refusal) (j : τ) (c' : Store) (t : Uuid)
    (K : Uuid → Prop) : Prop where
  members : ∀ x u, u ≠ t → (c'.memberOf x u ↔ w.committed.memberOf x u)
  architects : ∀ x u, u ≠ t → (c'.architectOf x u ↔ w.committed.architectOf x u)
  unkeyed : ∀ x, ¬ K x → ∀ u, c'.bound x u ↔ w.committed.bound x u
  before : ∀ x, K x → ∀ u, w.committed.bound x u → u = t
  after : ∀ x, K x → ∀ u, c'.bound x u → u = t
  kept : ∀ x u, w.committed.architectOf x u → c'.architectOf x u
  keys : ∀ x, K x → w.holds j (.binding x)
  guarded : w.holds j (.tenant t) ∨ w.holds j (.tenantShare t) ∨
    c'.slice t = w.committed.slice t

section
variable {w w' : World τ Store Row Refusal} {i j : τ} {t : Uuid} {K : Uuid → Prop} {c' : Store}

theorem Commits.refl (j : τ) : Commits w j w.committed 0 fun _ => False where
  members _ _ _ := Iff.rfl
  architects _ _ _ := Iff.rfl
  unkeyed _ _ _ := Iff.rfl
  before _ hx := hx.elim
  after _ hx := hx.elim
  kept _ _ h := h
  keys _ hx := hx.elim
  guarded := .inr (.inr rfl)

/-- The slice of another tenant stays as it is. -/
theorem Commits.slice_of_ne (h : Commits w j c' t K) {u : Uuid} (hu : u ≠ t) :
    c'.slice u = w.committed.slice u := by
  refine slice_eq (fun x => h.members x u hu) (fun x => h.architects x u hu) fun x => ?_
  by_cases hx : K x
  · exact ⟨fun hb => absurd (h.after x hx u hb) hu, fun hb => absurd (h.before x hx u hb) hu⟩
  · exact h.unkeyed x hx u

theorem Held.commits (h : Held w i t K)
    (hg : w.holds i (.tenant t) ∨ w.holds i (.tenantShare t) ∨
      (w.view i).slice t = w.committed.slice t) : Commits w i (w.view i) t K where
  members x u hu := h.confined.members _ x u hu
  architects x u hu := h.confined.architects _ x u hu
  unkeyed x hx u := h.confined.unkeyed _ x hx u
  before := h.sole
  after x hx := h.confined.keyed _ x hx (h.sole x hx)
  kept x u ha := by
    by_cases hu : u = t
    · subst hu
      exact h.confined.kept _ x ha
    · exact (h.confined.architects _ x u hu).2 ha
  keys := h.keys
  guarded := hg

/-- Nobody sees an identity bound twice. -/
theorem Held.view_sole (h : Held w i t K) (hs : Settled w.committed) : (w.view i).Sole := by
  intro x u v hu hv
  by_cases hx : K x
  · have hsole := h.confined.keyed _ x hx (h.sole x hx)
    exact (hsole u hu).trans (hsole v hv).symm
  · exact hs.sole x u v ((h.confined.unkeyed _ x hx u).1 hu) ((h.confined.unkeyed _ x hx v).1 hv)

/-- A manager leaves a settled store behind. -/
theorem Managing.settled (h : Managing w i t) (hs : Settled w.committed)
    (hcommit : (w.transactions i).script = .commit) : Settled (w.view i) := by
  obtain ⟨K, hK⟩ := h.held
  have hexact : ((w.view i).slice t).Exact := by
    have hm := h.managed
    rwa [hcommit] at hm
  have hc := hK.commits (.inl h.tenant)
  have hother : ∀ u, u ≠ t → ∀ x, (w.view i).bound x u ↔ (w.view i).authority x u := by
    intro u hu x
    have hslice := hc.slice_of_ne hu
    rw [bound_of_slice hslice, authority_of_slice hslice]
    exact hs.exact x u
  refine ⟨hK.view_sole hs, fun x u => ?_, hK.confined.active _ hs.active⟩
  by_cases hu : u = t
  · subst hu
    exact hexact x
  · exact hother u hu x

/-- So does a founder. -/
theorem Stage.Done.settled {stage : Stage} (h : stage.Done w i t) (hs : Settled w.committed)
    (hf : Founding t stage .commit) : Settled (w.view i) := by
  cases stage with
  | idle =>
    refine ⟨Same.sole h hs.sole, fun x u => ?_, ?_⟩
    · rw [World.view, Same.bound h, Store.authority_def, Same.memberOf h, Same.architectOf h]
      exact hs.exact x u
    · exact (Same.confined (t := t) h).active _ hs.active
  | held x seated covered =>
    obtain ⟨hheld, hbound, hmembers, harch, hseat, -⟩ := h
    obtain ⟨rfl, -⟩ := hf
    have hmember : ∀ y u, (w.view i).memberOf y u ↔ w.committed.memberOf y u := by
      intro y u
      rw [Store.memberOf, World.view, hmembers, Store.memberOf]
    have harchitect : ∀ y u, (w.view i).architectOf y u ↔
        w.committed.architectOf y u ∨ (y = x ∧ u = t) := by
      intro y u
      constructor
      · exact fun ha => (harch _ y u ha).imp_right And.right
      · rintro (ha | ⟨rfl, rfl⟩)
        · by_cases hu : u = t
          · subst hu
            exact hheld.confined.kept _ y ha
          · exact (hheld.confined.architects _ y u hu).2 ha
        · exact hseat rfl _
    refine ⟨hheld.view_sole hs, fun y u => ?_, hheld.confined.active _ hs.active⟩
    rw [Store.authority_def, hmember, harchitect]
    by_cases hy : y = x
    · subst hy
      constructor
      · intro hb
        exact .inr (.inr ⟨rfl, hheld.confined.keyed _ y rfl (hheld.sole y rfl) u hb⟩)
      · rintro (hm | ha | ⟨-, rfl⟩)
        · have hu := hheld.sole y rfl u ((hs.exact y u).2 (.inl hm))
          exact hu ▸ hbound
        · have hu := hheld.sole y rfl u ((hs.exact y u).2 (.inr ha))
          exact hu ▸ hbound
        · exact hbound
    · rw [World.view, hheld.confined.unkeyed _ y hy u, hs.exact, Store.authority_def]
      simp [hy]

/-! ## What others do -/

/-- Another transaction moved: what `i` is and has stays, and what is committed
changed by a commit of `j`. -/
structure Beside (w w' : World τ Store Row Refusal) (i j : τ) (t : Uuid) (K : Uuid → Prop) :
    Prop where
  ne : i ≠ j
  exclusive : w.Exclusive
  transaction : w'.transactions i = w.transactions i
  holds : ∀ r, w'.holds i r ↔ w.holds i r
  commits : Commits w j w'.committed t K

variable {u : Uuid} {L : Uuid → Prop}

theorem Beside.not_key (h : Beside w w' i j t K) {x : Uuid} (hx : w.holds i (.binding x)) :
    ¬ K x := fun hk =>
  h.ne (h.exclusive i j _ _ hx (h.commits.keys x hk) (by simp [Exclusion.excludes, Row.excludes]))

/-- The slice of a tenant that is locked. -/
theorem Beside.slice (h : Beside w w' i j t K) (hu : w.holds i (.tenant u)) :
    w'.committed.slice u = w.committed.slice u := by
  by_cases hne : u = t
  · subst hne
    rcases h.commits.guarded with ht | ht | hslice
    · exact absurd (h.exclusive i j _ _ hu ht (by simp [Exclusion.excludes, Row.excludes])) h.ne
    · exact absurd (h.exclusive i j _ _ hu ht (by simp [Exclusion.excludes, Row.excludes])) h.ne
    · exact hslice
  · exact h.commits.slice_of_ne hne

theorem Held.beside (hheld : Held w i u L) (h : Beside w w' i j t K) : Held w' i u L where
  confined := by rw [h.transaction]; exact hheld.confined
  keys x hx := (h.holds _).2 (hheld.keys x hx)
  sole x hx v hv :=
    hheld.sole x hx v ((h.commits.unkeyed x (h.not_key (hheld.keys x hx)) v).1 hv)

theorem underway_beside {P Q : Store → Prop} (hu : Underway w i P) (h : Beside w w' i j t K)
    (hPQ : ∀ s, P s → Q s) : Underway w' i Q := by
  unfold Underway
  simp only [h.transaction, h.holds]
  rcases hu with hidle | ⟨targets, run, next, s₀, hscript, hs₀, hrest⟩
  · exact .inl hidle
  · exact .inr ⟨targets, run, next, s₀, hscript, hPQ s₀ hs₀, hrest⟩

theorem Managing.beside (hm : Managing w i u) (h : Beside w w' i j t K) : Managing w' i u := by
  obtain ⟨L, hL⟩ := hm.held
  have hslice : (w'.view i).slice u = (w.view i).slice u := by
    rw [World.view, h.transaction]
    exact hL.confined.slice _ _ (h.slice hm.tenant)
  refine ⟨(h.holds _).2 hm.tenant, ⟨L, hL.beside h⟩, ?_, underway_beside hm.underway h fun s hs => ?_⟩
  · rw [hslice, h.transaction]
    exact hm.managed
  · rw [hslice]
    exact hs

theorem Stage.Done.beside {stage : Stage} (hd : stage.Done w i u) (h : Beside w w' i j t K) :
    stage.Done w' i u := by
  cases stage with
  | idle =>
    unfold Stage.Done
    rw [h.transaction]
    exact hd
  | held x seated covered =>
    obtain ⟨hheld, hbound, hmembers, harch, hseat, hcover⟩ := hd
    refine ⟨hheld.beside h, ?_, ?_, ?_, ?_, fun hc => (hcover hc).imp (h.holds _).2 ?_⟩
    · rw [World.view, h.transaction]
      have hcell := hheld.confined.cell w'.committed w.committed x
        (h.commits.unkeyed x (h.not_key (hheld.keys x rfl)))
      exact (hcell u).2 hbound
    · rwa [h.transaction]
    · rwa [h.transaction]
    · rwa [h.transaction]
    · exact h.commits.kept x u

theorem Placed.beside (hp : Placed w i) (h : Beside w w' i j t K) : Placed w' i := by
  obtain ⟨u, ho | hm | ⟨stage, hf⟩⟩ := hp
  · refine ⟨u, .inl ⟨?_, ?_, underway_beside ho.underway h fun _ hs => hs⟩⟩
    · rw [h.transaction]
      exact ho.unwritten
    · rw [h.transaction]
      exact ho.entering
  · exact ⟨u, .inr (.inl (hm.beside h))⟩
  · refine ⟨u, .inr (.inr ⟨stage, hf.done.beside h, ?_, underway_beside hf.underway h fun _ hs => hs⟩)⟩
    rw [h.transaction]
    exact hf.founding

/-! ## What it does itself -/

theorem placed_over (h : w'.transactions i = .new .commit) : Placed w' i := by
  refine ⟨0, .inl ⟨?_, ?_, .inl ?_⟩⟩
  · rw [h]
    rfl
  · rw [h]
    trivial
  · rw [h]
    rfl

theorem placed_release [DecidableEq τ] {c : Store}
    (h : w' = { w with committed := c }.release i) : Placed w' i :=
  placed_over (by rw [h]; exact Function.update_self _ _ _)

section
variable {P : Store → Prop} {targets : Store → List Row}
  {run : Store → Except Refusal (Store → Store)} {next : Store → OrgScript} {s₀ : Store}

theorem ran_error (h : Ran w i P w' targets run next s₀) {e : Refusal}
    (he : run (w.view i) = .error e) :
    w'.transactions i = ⟨.abort e, [], (w.transactions i).pending⟩ := by
  rw [h.after, Transaction.ran, he]

theorem ran_ok (h : Ran w i P w' targets run next s₀) {f : Store → Store}
    (hf : run (w.view i) = .ok f) :
    w'.transactions i = ⟨next (w.view i), [], fun c => f ((w.transactions i).pending c)⟩ := by
  rw [h.after, Transaction.ran, hf]

theorem view_ok (h : Ran w i P w' targets run next s₀) {f : Store → Store}
    (hf : run (w.view i) = .ok f) : w'.view i = f (w.view i) := by
  rw [World.view, ran_ok h hf, h.committed]
  rfl

end

theorem Outside.goes [DecidableEq τ] (ho : Outside w i t)
    (hs : Settled w.committed) (hg : Goes w i (fun _ => True) w') : Placed w' i := by
  cases hg with
  | committed _ h => exact placed_release h
  | ended h => exact placed_release h
  | waiting hscript hpending hcommitted hkept hunder =>
    refine ⟨t, .inl ⟨?_, ?_, hunder⟩⟩
    · rw [hpending]
      exact ho.unwritten
    · rw [hscript]
      exact ho.entering
  | @ran targets run next s₀ h =>
    cases hrun : run (w.view i) with
    | error e =>
      have hx := ran_error h hrun
      refine ⟨t, .inl ⟨?_, ?_, .inl ?_⟩⟩
      · rw [hx]
        exact ho.unwritten
      · rw [hx]
        trivial
      · rw [hx]
    | ok f =>
      have hx := ran_ok h hrun
      have hentering := ho.entering
      rw [h.script] at hentering
      obtain ⟨rfl, hnext⟩ := hentering s₀ (w.view i) h.same f hrun
      have hid : (w'.transactions i).pending = id := by
        rw [hx]
        simp only [ho.unwritten]
        rfl
      rcases hnext with ⟨e, hnext⟩ | ⟨hrow, hnext⟩
      · refine ⟨t, .inl ⟨hid, ?_, .inl ?_⟩⟩
        · rw [hx, hnext]
          trivial
        · rw [hx]
      · have hview : w.view i = w.committed := by
          rw [World.view, ho.unwritten, id]
        have hview' : w'.view i = w.view i := view_ok h hrun
        refine ⟨t, .inr (.inl ⟨h.locked _ hrow, ⟨fun _ => False, ?_, fun _ hy => hy.elim,
          fun _ hy => hy.elim⟩, ?_, .inl ?_⟩)⟩
        · rw [hid]
          exact same_id.confined
        · rw [hview', hx]
          exact hnext (by rw [hview]; exact hs.slice t)
        · rw [hx]

theorem Managing.goes [DecidableEq τ] (hm : Managing w i t) (hs : Settled w.committed)
    (hg : Goes w i (fun s => s.slice t = (w.view i).slice t) w') : Placed w' i := by
  obtain ⟨K, hK⟩ := hm.held
  cases hg with
  | committed _ h => exact placed_release h
  | ended h => exact placed_release h
  | waiting hscript hpending hcommitted hkept hunder =>
    have hview : w'.view i = w.view i := by rw [World.view, World.view, hpending, hcommitted]
    refine ⟨t, .inr (.inl ⟨hkept _ hm.tenant, ⟨K, ?_, fun x hx => hkept _ (hK.keys x hx), ?_⟩, ?_, ?_⟩)⟩
    · rw [hpending]
      exact hK.confined
    · rw [hcommitted]
      exact hK.sole
    · rw [hview, hscript]
      exact hm.managed
    · rw [hview]
      exact hunder
  | @ran targets run next s₀ h =>
    cases hrun : run (w.view i) with
    | error e =>
      have hx := ran_error h hrun
      refine ⟨t, .inr (.inl ⟨h.kept _ hm.tenant,
        ⟨K, ?_, fun x hx => h.kept _ (hK.keys x hx), ?_⟩, ?_, .inl ?_⟩)⟩
      · rw [hx]
        exact hK.confined
      · rw [h.committed]
        exact hK.sole
      · rw [hx]
        trivial
      · rw [hx]
    | ok f =>
      have hx := ran_ok h hrun
      have hmanaged := hm.managed
      rw [h.script] at hmanaged
      obtain ⟨L, hconf, hL, hnext⟩ := hmanaged s₀ (w.view i) (hK.view_sole hs) h.seen rfl h.same f hrun
      refine ⟨t, .inr (.inl ⟨h.kept _ hm.tenant,
        ⟨fun x => K x ∨ L x, ?_, fun x hx => ?_, fun x hx u hu => ?_⟩, ?_, .inl ?_⟩)⟩
      · rw [hx]
        exact hconf.comp hK.confined
      · exact hx.elim (fun hx => h.kept _ (hK.keys x hx)) fun hx => h.locked _ (hL x hx).1
      · rw [h.committed] at hu
        by_cases hKx : K x
        · exact hK.sole x hKx u hu
        · exact (hL x (hx.resolve_left hKx)).2 u ((hK.confined.unkeyed _ x hKx u).2 hu)
      · rw [view_ok h hrun, hx]
        exact hnext
      · rw [hx]

theorem Stage.Done.sees {stage : Stage} (h : stage.Done w i t) (hs : Settled w.committed) :
    stage.sees t (w.view i) := by
  cases stage with
  | idle => exact ⟨(Same.confined (t := t) h).active _ hs.active, Same.sole h hs.sole⟩
  | held x seated covered =>
    obtain ⟨hheld, hbound, -, -, hseat, -⟩ := h
    exact ⟨hheld.confined.active _ hs.active, hbound,
      hheld.confined.keyed _ x rfl (hheld.sole x rfl), fun hx => hseat hx _⟩

theorem Stage.Done.kept {stage : Stage} (h : stage.Done w i t)
    (hpending : (w'.transactions i).pending = (w.transactions i).pending)
    (hcommitted : w'.committed = w.committed) (hkept : ∀ r, w.holds i r → w'.holds i r) :
    stage.Done w' i t := by
  have hview : w'.view i = w.view i := by rw [World.view, World.view, hpending, hcommitted]
  cases stage with
  | idle =>
    unfold Stage.Done
    rw [hpending]
    exact h
  | held x seated covered =>
    obtain ⟨hheld, hbound, hmembers, harch, hseat, hcover⟩ := h
    refine ⟨⟨?_, fun y hy => hkept _ (hheld.keys y hy), ?_⟩, ?_, ?_, ?_, ?_, fun hc => ?_⟩
    · rw [hpending]
      exact hheld.confined
    · rw [hcommitted]
      exact hheld.sole
    · rw [hview]
      exact hbound
    · rwa [hpending]
    · rwa [hpending]
    · rwa [hpending]
    · rw [hcommitted]
      exact (hcover hc).imp_left (hkept _)

/-- A statement of a founder takes what is done at one stage to the next. -/
theorem Stage.Done.moves {stage stage' : Stage} {P : Store → Prop} {targets : Store → List Row}
    {run : Store → Except Refusal (Store → Store)} {next : Store → OrgScript} {s₀ : Store}
    {f : Store → Store} (h : stage.Done w i t) (hr : Ran w i P w' targets run next s₀)
    (hrun : run (w.view i) = .ok f)
    (hm : stage.Moves t (targets s₀) (w.view i) f stage') : stage'.Done w' i t := by
  have hx := ran_ok hr hrun
  have hpending : (w'.transactions i).pending = fun c => f ((w.transactions i).pending c) := by
    rw [hx]
  have hview := view_ok hr hrun
  -- a change that leaves the tables of authority as they are keeps a held identity
  have hsame : ∀ {x seated covered}, Same f → Stage.Done w i t (.held x seated covered) →
      ∀ covered', (covered' = true → covered = true ∨ w'.holds i (.tenantShare t) ∨
        w'.committed.architectOf x t) → Stage.Done w' i t (.held x seated covered') := by
    intro x seated covered hf hdone covered' hcov
    obtain ⟨hheld, hbound, hmembers, harch, hseat, hcover⟩ := hdone
    refine ⟨⟨?_, fun y hy => hr.kept _ (hheld.keys y hy), ?_⟩, ?_, ?_, ?_, ?_, ?_⟩
    · rw [hpending]
      exact (hf.confined.comp hheld.confined).mono fun y hy => hy.elim id nofun
    · rw [hr.committed]
      exact hheld.sole
    · rw [hview, hf.bound]
      exact hbound
    · intro c
      rw [hpending, (hf _).1, hmembers]
    · intro c y u hy
      rw [hpending, hf.architectOf] at hy
      exact harch c y u hy
    · intro hs c
      rw [hpending, hf.architectOf]
      exact hseat hs c
    · intro hc
      rcases hcov hc with hc | hc
      · rcases hcover hc with hshare | hknown
        · exact .inl (hr.kept _ hshare)
        · exact .inr (by rw [hr.committed]; exact hknown)
      · exact hc
  cases hm with
  | quiet hf =>
    cases stage with
    | idle =>
      intro c
      rw [hpending]
      exact ⟨(hf _).1.trans (h c).1, (hf _).2.1.trans (h c).2.1, (hf _).2.2.trans (h c).2.2⟩
    | held x seated covered => exact hsame hf h covered fun hc => .inl hc
  | share hrow hf => exact hsame hf h true fun _ => .inr (.inl (hr.locked _ hrow))
  | known hknown hf =>
    refine hsame hf h true fun _ => .inr (.inr ?_)
    rw [hr.committed]
    exact (h.2.2.2.1 _ _ _ hknown).resolve_right fun hn => Bool.false_ne_true hn.1
  | @claim x hrow hsole hf =>
    have hbefore : Same (w.transactions i).pending := h
    have hconf : Confined t (· = x) f := by
      rcases hf with rfl | ⟨rfl, -⟩
      · exact confined_bind x
      · exact same_id.confined.mono nofun
    have hmembers : ∀ c, (f c).memberships = c.memberships := by
      rcases hf with rfl | ⟨rfl, -⟩ <;> exact fun _ => rfl
    have harch : ∀ c y u, (f c).architectOf y u ↔ c.architectOf y u := by
      rcases hf with rfl | ⟨rfl, -⟩ <;> exact fun _ _ _ => Iff.rfl
    refine ⟨⟨?_, fun y hy => hr.locked _ (hy ▸ hrow), fun y hy u hu => ?_⟩, ?_, ?_, ?_, nofun, nofun⟩
    · rw [hpending]
      exact (hconf.comp hbefore.confined).mono fun y hy => hy.elim nofun id
    · rw [hr.committed] at hu
      subst hy
      exact hsole u ((hbefore.bound _ _ _).2 hu)
    · rw [hview]
      rcases hf with rfl | ⟨rfl, hbound⟩
      · rw [Store.bound_bind, if_pos rfl]
      · exact hbound
    · intro c
      rw [hpending, hmembers, (hbefore c).1]
    · intro c y u hy
      rw [hpending, harch, hbefore.architectOf] at hy
      exact .inl hy
  | @seat x covered hf =>
    subst hf
    obtain ⟨hheld, hbound, hmembers, harch, -, hcover⟩ := h
    refine ⟨⟨?_, fun y hy => hr.kept _ (hheld.keys y hy), ?_⟩, ?_, ?_, ?_, ?_, fun hc => ?_⟩
    · rw [hpending]
      exact ((confined_putArchitect x).comp hheld.confined).mono fun y hy => hy.elim id nofun
    · rw [hr.committed]
      exact hheld.sole
    · rw [hview]
      exact hbound
    · intro c
      rw [hpending]
      exact hmembers c
    · intro c y u hy
      rw [hpending, Store.architectOf_putArchitect] at hy
      split at hy
      case isTrue hkey => exact .inr ⟨rfl, hkey.2.symm, hkey.1.symm⟩
      case isFalse => exact .inl ((harch c y u hy).resolve_right fun hn => Bool.false_ne_true hn.1)
    · intro _ c
      rw [hpending, Store.architectOf_putArchitect, if_pos ⟨rfl, rfl⟩]
    · rcases hcover hc with hshare | hknown
      · exact .inl (hr.kept _ hshare)
      · exact .inr (by rw [hr.committed]; exact hknown)

theorem Founder.goes [DecidableEq τ] {stage : Stage} (hf : Founder w i t stage)
    (hs : Settled w.committed) (hg : Goes w i (stage.sees t) w') : Placed w' i := by
  cases hg with
  | committed _ h => exact placed_release h
  | ended h => exact placed_release h
  | waiting hscript hpending hcommitted hkept hunder =>
    refine ⟨t, .inr (.inr ⟨stage, ?_, ?_, hunder⟩)⟩
    · exact hf.done.kept hpending hcommitted hkept
    · rw [hscript]
      exact hf.founding
  | @ran targets run next s₀ h =>
    cases hrun : run (w.view i) with
    | error e =>
      have hx := ran_error h hrun
      refine ⟨t, .inr (.inr ⟨stage, ?_, ?_, .inl ?_⟩)⟩
      · exact hf.done.kept (by rw [hx]) h.committed h.kept
      · rw [hx]
        cases stage <;> trivial
      · rw [hx]
    | ok f =>
      have hx := ran_ok h hrun
      have hfounding := hf.founding
      rw [h.script] at hfounding
      obtain ⟨stage', hmoves, hnext⟩ : ∃ stage', stage.Moves t (targets s₀) (w.view i) f stage' ∧
          Founding t stage' (next (w.view i)) := by
        cases stage with
        | idle => exact hfounding s₀ (w.view i) h.seen (hf.done.sees hs) h.same f hrun
        | held => exact hfounding s₀ (w.view i) h.seen (hf.done.sees hs) h.same f hrun
      refine ⟨t, .inr (.inr ⟨stage', hf.done.moves h hrun hmoves, ?_, .inl ?_⟩)⟩
      · rw [hx]
        exact hnext
      · rw [hx]

/-! ## Any interleaving -/

/-- What one commit does: the others see a confined change, and the store is
settled afterwards. -/
theorem Placed.commits (hp : Placed w j) (hs : Settled w.committed)
    (h : (w.transactions j).script = .commit) :
    Settled (w.view j) ∧ ∃ t K, Commits w j (w.view j) t K := by
  obtain ⟨t, ho | hm | ⟨stage, hf⟩⟩ := hp
  · have hview : w.view j = w.committed := by
      rw [World.view, ho.unwritten, id]
    rw [hview]
    exact ⟨hs, 0, _, .refl j⟩
  · obtain ⟨K, hK⟩ := hm.held
    exact ⟨hm.settled hs h, t, K, hK.commits (.inl hm.tenant)⟩
  · have hfounding := hf.founding
    rw [h] at hfounding
    refine ⟨hf.done.settled hs hfounding, ?_⟩
    have hdone := hf.done
    cases stage with
    | idle =>
      have hsame : Same (w.transactions j).pending := hdone
      refine ⟨t, fun _ => False, Held.commits ⟨hsame.confined, fun _ hy => hy.elim,
        fun _ hy => hy.elim⟩ ?_⟩
      exact .inr (.inr (hsame.slice _ t))
    | held x seated covered =>
      obtain ⟨hheld, hbound, hmembers, harch, hseat, hcover⟩ := hdone
      obtain ⟨rfl, rfl⟩ := hfounding
      refine ⟨t, _, hheld.commits (.inr ((hcover rfl).imp_right fun hknown => ?_))⟩
      -- the seat was there, so the commit changes nothing
      have hwas : w.committed.bound x t := (hs.exact x t).2 (.inr hknown)
      refine slice_eq (fun y => ?_) (fun y => ?_) fun y => ?_
      · rw [Store.memberOf, World.view, hmembers, Store.memberOf]
      · refine ⟨fun hy => ?_, hheld.confined.kept _ y⟩
        rcases harch _ y t hy with hy | ⟨-, rfl, -⟩
        · exact hy
        · exact hknown
      · by_cases hy : y = x
        · subst hy
          exact iff_of_true hbound hwas
        · exact hheld.confined.unkeyed _ y hy t

variable [DecidableEq τ]

theorem Placed.goes (hp : Placed w i) (hs : Settled w.committed) (hm : Moves w i w') :
    Placed w' i := by
  obtain ⟨t, ho | hman | ⟨stage, hf⟩⟩ := hp
  · exact ho.goes hs (hm.goes trivial ho.underway)
  · exact hman.goes hs (hm.goes (P := fun s => s.slice t = (w.view i).slice t) rfl hman.underway)
  · exact hf.goes hs (hm.goes (hf.done.sees hs) hf.underway)

/-- Every transaction keeps its place and what is committed stays settled. -/
theorem settled_of_reachable {kinds : OrgScript → Prop}
    (hkinds : ∀ p, kinds p → ∃ t, Entering t p ∨ Founding t .idle p)
    (h : (lockSystem τ Settled kinds).Reachable w) :
    Settled w.committed ∧ ∀ i, Placed w i := by
  refine Transition.System.invariant (I := fun w => Settled w.committed ∧ ∀ i, Placed w i) ?_ ?_ h
  · rintro w ⟨hs, -, hnew⟩
    refine ⟨hs, fun i => ?_⟩
    obtain ⟨p, hp, hx⟩ := hnew i
    obtain ⟨t, ht | ht⟩ := hkinds p hp
    · refine ⟨t, .inl ⟨?_, ?_, .inl ?_⟩⟩
      · rw [hx]
        rfl
      · rw [hx]
        exact ht
      · rw [hx]
        rfl
    · refine ⟨t, .inr (.inr ⟨.idle, ?_, ?_, .inl ?_⟩)⟩
      · unfold Stage.Done
        rw [hx]
        exact same_id
      · rw [hx]
        exact ht
      · rw [hx]
        rfl
  · intro w e w' hr hw hstep
    have hm := happen_moves hstep
    obtain ⟨hs, hplaced⟩ := hw
    have hexcl := exclusive_of_reachable hr
    -- one commit at most, seen by the others as a confined change
    obtain ⟨hs', t, K, hcommits⟩ : Settled w'.committed ∧ ∃ t K,
        Commits w e.who w'.committed t K := by
      cases hm with
      | committed hscript => exact (hplaced e.who).commits hs hscript
      | ended | issued | passed | took | finished => exact ⟨hs, 0, _, .refl e.who⟩
    refine ⟨hs', fun i => ?_⟩
    by_cases hi : i = e.who
    · subst hi
      exact (hplaced e.who).goes hs hm
    · exact (hplaced i).beside
        ⟨hi, hexcl, hm.transactions_other hi, fun r => hm.holds_other hi, hcommits⟩

end

end RagPipeline.Org
