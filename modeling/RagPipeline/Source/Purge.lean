import RagPipeline.Source.Immutable
import RagPipeline.Lib.Effects

/-! # Purging version sources

A purge removes the one file it knows and then the directory, which the kernel
gives up only when it is empty. A temporary that a publisher left behind is in
its way for good; without one a purge ends, and may be cut short and called
again as often as it takes. -/

set_option autoImplicit false

namespace RagPipeline.Source
open Effects Transition

inductive Refusal where
  | corrupt (message : String)
  | refused (message : String)
deriving DecidableEq, Repr

variable {V : Type} [DecidableEq V]

def removeSource (v : V) : Program (Storage V) Refusal Bool := do
  let d ← Program.read
  if (d.lookup v .source).isSome then do
    Program.commit fun d => .ok (d.dropName v .source)
    return true
  else return false

/-- `remove_child_directory`: only an empty directory goes. -/
def removeDirectory (v : V) : Program (Storage V) Refusal Unit :=
  Program.commit fun d =>
    match d.dirs v with
    | some dir =>
      if dir.keys = [] then .ok (d.setDir v none)
      else .error (.corrupt "surum kaynak dizininde beklenmeyen kalinti var")
    | none => .error (.refused "surum kaynagi kaldirilamadi")

def purgeVersionSource (v : V) : Program (Storage V) Refusal Bool := do
  let d ← Program.read
  match d.dirs v with
  | none => return false
  | some _ => do
    let removed ← removeSource v
    removeDirectory v
    return removed

def purgeLegacySource : Program (Storage V) Refusal Bool := do
  let d ← Program.read
  match d.legacy with
  | none => return false
  | some _ => do
    Program.commit fun d => .ok { d with legacy := none }
    return true

def purgeVersions : List V → Program (Storage V) Refusal ℕ
  | [] => return 0
  | v :: rest => do
    let removed ← purgeVersionSource v
    let n ← purgeVersions rest
    return if removed then n + 1 else n

/-- How many version sources went, and whether the compatibility copy did. -/
def purgeDocumentSources (versions : List V) : Program (Storage V) Refusal (ℕ × Bool) := do
  let removed ← purgeVersions versions
  let legacy ← purgeLegacySource
  return (removed, legacy)

/-- No temporary in a version's directory. -/
def Clear (d : Storage V) (v : V) : Prop := ∀ id, d.lookup v (.temporary id) = none

/-- What a purge may do on its way: it makes nothing. -/
structure Lessens (d t : Storage V) : Prop where
  clear : ∀ w, Clear d w → Clear t w
  gone : ∀ w, d.dirs w = none → t.dirs w = none

section
variable {d t u : Storage V} {v w : V}

omit [DecidableEq V] in
theorem Lessens.refl (d : Storage V) : Lessens d d := ⟨fun _ h => h, fun _ h => h⟩

omit [DecidableEq V] in
theorem Lessens.trans (h : Lessens d t) (h' : Lessens t u) : Lessens d u :=
  ⟨fun w hw => h'.clear w (h.clear w hw), fun w hw => h'.gone w (h.gone w hw)⟩

theorem dirs_setDir_ne (dir : Option Directory) (h : w ≠ v) : (d.setDir v dir).dirs w = d.dirs w := by
  simp [Storage.setDir, h]

theorem dirs_dropName_ne {name : Name} (h : w ≠ v) : (d.dropName v name).dirs w = d.dirs w :=
  dirs_setDir_ne _ h

theorem lessens_dropName (v : V) (name : Name) : Lessens d (d.dropName v name) := by
  refine ⟨fun w hw id => ?_, fun w hw => ?_⟩
  · rw [Storage.lookup_dropName]
    split_ifs
    · rfl
    · exact hw id
  · by_cases h : w = v
    · subst h
      simp [Storage.dropName, Storage.setDir, hw]
    · rwa [dirs_dropName_ne h]

theorem lessens_setDir_none (v : V) : Lessens d (d.setDir v none) := by
  refine ⟨fun w hw id => ?_, fun w hw => ?_⟩
  · rw [Storage.lookup_setDir]
    split_ifs
    · rfl
    · exact hw id
  · by_cases h : w = v
    · subst h
      simp [Storage.setDir]
    · rwa [dirs_setDir_ne none h]

omit [DecidableEq V] in
theorem keys_eq_nil {dir : Directory} (hd : d.dirs v = some dir) :
    dir.keys = [] ↔ ∀ name, d.lookup v name = none := by
  have hlookup (name : Name) : d.lookup v name = dir.lookup name := by simp [Storage.lookup, hd]
  constructor
  · intro h name
    rw [hlookup, AList.lookup_eq_none, AList.mem_keys, h]
    exact List.not_mem_nil
  · intro h
    rw [List.eq_nil_iff_forall_not_mem]
    intro name hname
    exact AList.lookup_eq_none.1 ((hlookup name).symm.trans (h name)) (AList.mem_keys.2 hname)

theorem removeSource_ensures (d : Storage V) (v : V) (hdir : (d.dirs v).isSome) :
    (removeSource v).Ensures d (Lessens d)
      (fun _ t => Lessens d t ∧ (∀ w, w ≠ v → t.dirs w = d.dirs w) ∧ (t.dirs v).isSome ∧
        t.lookup v .source = none ∧ ∀ id, t.lookup v (.temporary id) = d.lookup v (.temporary id))
      fun _ _ => False := by
  apply Program.ensures_read_bind
  split
  · have hdrop : (d.dropName v .source).lookup v .source = none := by
      rw [Storage.lookup_dropName, if_pos ⟨rfl, rfl⟩]
    have hkeep (id : ℕ) : (d.dropName v .source).lookup v (.temporary id) =
        d.lookup v (.temporary id) := by
      rw [Storage.lookup_dropName, if_neg (fun h => Name.noConfusion h.2)]
    have hsome : ((d.dropName v .source).dirs v).isSome := by
      simpa [Storage.dropName, Storage.setDir] using hdir
    refine Program.ensures_bind (R := fun _ t => t = d.dropName v .source) ?_ ?_
    · refine Program.ensures_commit _ (fun t ht => ?_) fun e he => by cases he
      cases ht
      exact ⟨lessens_dropName v .source, rfl⟩
    · rintro _ _ rfl
      exact Program.ensures_return _
        ⟨lessens_dropName v .source, fun w hw => dirs_dropName_ne hw, hsome, hdrop, hkeep⟩
  · rename_i hnone
    exact Program.ensures_return _ ⟨Lessens.refl d, fun _ _ => rfl, hdir, by simpa using hnone,
      fun _ => rfl⟩

/-- Without a temporary in its way a purge ends with the directory gone. -/
theorem purge_clear (h : Clear d v) :
    (purgeVersionSource v).Ensures d (Lessens d)
      (fun removed t => Lessens d t ∧ t.dirs v = none ∧ (∀ w, w ≠ v → t.dirs w = d.dirs w) ∧
        (d.dirs v = none → removed = false ∧ t = d))
      fun _ _ => False := by
  apply Program.ensures_read_bind
  cases hdir : d.dirs v with
  | none => exact Program.ensures_return _ ⟨Lessens.refl d, hdir, fun _ _ => rfl, fun _ => ⟨rfl, rfl⟩⟩
  | some dir =>
    refine Program.ensures_bind (removeSource_ensures d v (by simp [hdir])) ?_
    rintro removed t ⟨hless, hothers, hsome, hsource, htemps⟩
    obtain ⟨dir', hdir'⟩ := Option.isSome_iff_exists.1 hsome
    have hempty : dir'.keys = [] := by
      rw [keys_eq_nil hdir']
      intro name
      cases name with
      | source => exact hsource
      | temporary id => rw [htemps, h id]
    refine Program.ensures_bind (R := fun _ u => u = t.setDir v none) ?_ ?_
    · refine Program.ensures_commit _ (fun u hu => ?_) fun e he => ?_
      · simp only [hdir', hempty, if_true] at hu
        cases hu
        exact ⟨hless.trans (lessens_setDir_none v), rfl⟩
      · simp only [hdir', hempty, if_true] at he
        cases he
    · rintro _ _ rfl
      refine Program.ensures_return _ ⟨hless.trans (lessens_setDir_none v), ?_, fun w hw => ?_, ?_⟩
      · simp [Storage.setDir]
      · rw [dirs_setDir_ne none hw, hothers w hw]
      · intro hnone
        cases hnone

/-- A temporary keeps every purge of its version from ending well. -/
theorem purge_stuck (h : ¬ Clear d v) :
    (purgeVersionSource v).Ensures d (fun _ => True) (fun _ _ => False) fun _ _ => True := by
  rw [Clear, not_forall] at h
  obtain ⟨id, hid⟩ := h
  obtain ⟨i, hi⟩ := Option.ne_none_iff_exists'.1 hid
  apply Program.ensures_read_bind
  obtain ⟨dir, hdir⟩ := Option.isSome_iff_exists.1 (Storage.lookup_isSome_dir hi)
  rw [hdir]
  refine Program.ensures_bind (Program.ensures_mono (removeSource_ensures d v (by simp [hdir]))
    (fun _ _ => trivial) (fun _ _ h => h) fun _ _ h => h.elim) ?_
  rintro removed t ⟨-, -, hsome, -, htemps⟩
  obtain ⟨dir', hdir'⟩ := Option.isSome_iff_exists.1 hsome
  have hfull : dir'.keys ≠ [] := by
    rw [Ne, keys_eq_nil hdir', not_forall]
    exact ⟨.temporary id, by rw [htemps, hi]; exact Option.some_ne_none i⟩
  refine Program.ensures_bind (R := fun _ _ => False) ?_ fun _ _ h => h.elim
  refine Program.ensures_commit _ (fun u hu => ?_) fun _ _ => trivial
  simp only [hdir', hfull, if_false] at hu
  cases hu

theorem purgeVersions_clear {versions : List V} (h : ∀ v ∈ versions, Clear d v) :
    (purgeVersions versions).Ensures d (Lessens d)
      (fun removed t => Lessens d t ∧ (∀ v ∈ versions, t.dirs v = none) ∧
        ((∀ v ∈ versions, d.dirs v = none) → removed = 0 ∧ t = d))
      fun _ _ => False := by
  induction versions generalizing d with
  | nil => exact Program.ensures_return _ ⟨Lessens.refl d, by simp, fun _ => ⟨rfl, rfl⟩⟩
  | cons v rest ih =>
    rw [List.forall_mem_cons] at h
    refine Program.ensures_bind (purge_clear h.1) ?_
    rintro removed t ⟨hless, hgone, -, hnoop⟩
    refine Program.ensures_bind (Program.ensures_mono (ih fun w hw => hless.clear w (h.2 w hw))
      (fun u hu => hless.trans hu) (fun _ _ hu => hu) fun _ _ hu => hu) ?_
    rintro n u ⟨hless', hrest, hnoop'⟩
    refine Program.ensures_return _ ⟨hless.trans hless', ?_, fun hall => ?_⟩
    · rw [List.forall_mem_cons]
      exact ⟨hless'.gone v hgone, hrest⟩
    · rw [List.forall_mem_cons] at hall
      obtain ⟨rfl, rfl⟩ := hnoop hall.1
      obtain ⟨rfl, rfl⟩ := hnoop' hall.2
      exact ⟨rfl, rfl⟩

theorem purgeVersions_stuck {versions : List V} (h : ∃ v ∈ versions, ¬ Clear d v) :
    (purgeVersions versions).Ensures d (fun _ => True) (fun _ _ => False) fun _ _ => True := by
  induction versions generalizing d with
  | nil =>
    obtain ⟨v, hv, -⟩ := h
    cases hv
  | cons v rest ih =>
    by_cases hv : Clear d v
    · refine Program.ensures_bind (Program.ensures_mono (purge_clear hv) (fun _ _ => trivial)
        (fun _ _ h => h) fun _ _ h => h.elim) ?_
      rintro removed t ⟨-, -, hothers, -⟩
      refine Program.ensures_bind (ih ?_) fun _ _ h => h.elim
      obtain ⟨w, hw, hnot⟩ := h
      have hne : w ≠ v := by
        rintro rfl
        exact hnot hv
      refine ⟨w, (List.mem_cons.1 hw).resolve_left hne, fun hclear => hnot fun id => ?_⟩
      have := hclear id
      rwa [Storage.lookup, hothers w hne] at this
    · exact Program.ensures_bind (purge_stuck hv) fun _ _ h => h.elim

omit [DecidableEq V] in
theorem purgeLegacy_ensures (d : Storage V) :
    purgeLegacySource.Ensures d (Lessens d)
      (fun _ t => t.dirs = d.dirs ∧ Lessens d t ∧ t.legacy = none ∧ (d.legacy = none → t = d))
      (fun (_ : Refusal) _ => False) := by
  apply Program.ensures_read_bind
  cases hlegacy : d.legacy with
  | none => exact Program.ensures_return _ ⟨rfl, Lessens.refl d, hlegacy, fun _ => rfl⟩
  | some body =>
    have hless : Lessens d { d with legacy := none } := ⟨fun _ h => h, fun _ h => h⟩
    refine Program.ensures_bind (R := fun _ u => u = { d with legacy := none }) ?_ ?_
    · refine Program.ensures_commit _ (fun u hu => ?_) fun e he => by cases he
      cases hu
      exact ⟨hless, rfl⟩
    · rintro _ _ rfl
      exact Program.ensures_return _ ⟨rfl, hless, rfl, fun h => by cases h⟩

end

end RagPipeline.Source

/-! # Where a purge converges

Exactly where no temporary is left in the directories it is to remove; and none
is left by publishers that, once they have made theirs, neither die nor lose
the race before they have dropped it. -/

namespace RagPipeline.Source
open Effects Transition

variable {V α : Type}

/-- What purges that are cut short, one after another, lead to. -/
def Interrupted (p : Program (Storage V) Refusal α) : Storage V → Storage V → Prop :=
  Relation.ReflTransGen fun d t => t ∈ p.crashes d

/-- However often it is cut short, the purge called again ends with the
directories gone, and called once more it changes nothing. -/
structure Converges (p : Program (Storage V) Refusal α) (versions : List V) (d : Storage V) :
    Prop where
  completes : ∀ t, Interrupted p d t →
    ∃ a, (p t).result = .ok a ∧ ∀ v ∈ versions, (p t).state.dirs v = none
  again : ∀ t, Interrupted p d t → ∃ a, p.Lands (p t).state a (p t).state

/-- A purge that keeps what it needs converges from there. -/
theorem converges_of {p : Program (Storage V) Refusal α} {versions : List V}
    {P G : Storage V → Prop} (hgone : ∀ t, G t → ∀ v ∈ versions, t.dirs v = none)
    (hp : ∀ t, P t → p.Ensures t P (fun _ => G) fun _ _ => False)
    (hagain : ∀ t, G t → ∃ a, p.Lands t a t) {d : Storage V} (hd : P d) :
    Converges p versions d := by
  have hinter : ∀ t, Interrupted p d t → P t := by
    intro t ht
    induction ht with
    | refl => exact hd
    | tail _ hstep ih => exact Program.ensures_crashes (hp _ ih) ih _ hstep
  have hend : ∀ t, Interrupted p d t → ∃ a, (p t).result = .ok a ∧ G (p t).state := by
    intro t ht
    have hrun := (hp t (hinter t ht)).2
    cases hr : (p t).result with
    | ok a => exact ⟨a, rfl, by simpa [hr] using hrun⟩
    | error e => simp [hr] at hrun
  refine ⟨fun t ht => ?_, fun t ht => ?_⟩
  · obtain ⟨a, ha, hg⟩ := hend t ht
    exact ⟨a, ha, hgone _ hg⟩
  · obtain ⟨a, -, hg⟩ := hend t ht
    exact hagain _ hg

theorem not_converges {p : Program (Storage V) Refusal α} {versions : List V} {d : Storage V}
    (h : p.Ensures d (fun _ => True) (fun _ _ => False) fun _ _ => True) :
    ¬ Converges p versions d := by
  intro hc
  obtain ⟨a, ha, -⟩ := hc.completes d .refl
  have := h.2
  simp [ha] at this

/-- What a run of a program that ensures something lands in. -/
theorem lands_of_ensures {p : Program (Storage V) Refusal α} {d : Storage V}
    {C : Storage V → Prop} {Q : α → Storage V → Prop} (h : p.Ensures d C Q fun _ _ => False)
    (hsame : ∀ a t, Q a t → t = d) : ∃ a, p.Lands d a d := by
  have hrun := h.2
  cases hr : (p d).result with
  | ok a => exact ⟨a, hr, hsame a _ (by simpa [hr] using hrun)⟩
  | error e => simp [hr] at hrun

theorem clear_of_gone {d : Storage V} {v : V} (h : d.dirs v = none) : Clear d v := by
  intro id
  simp [Storage.lookup, h]

variable [DecidableEq V]

theorem purge_version_converges (d : Storage V) (v : V) :
    Converges (purgeVersionSource v) [v] d ↔ Clear d v := by
  constructor
  · intro h
    by_contra hn
    exact not_converges (purge_stuck hn) h
  · intro h
    refine converges_of (P := fun t => Clear t v) (G := fun t => t.dirs v = none)
      (by simp) (fun t ht => ?_) (fun t ht => ?_) h
    · exact Program.ensures_mono (purge_clear ht) (fun u hu => hu.clear v ht)
        (fun _ u hu => hu.2.1) fun _ _ hu => hu
    · exact lands_of_ensures (purge_clear (clear_of_gone ht)) fun _ u hu => (hu.2.2.2 ht).2

theorem purgeDocument_clear {d : Storage V} {versions : List V} (h : ∀ v ∈ versions, Clear d v) :
    (purgeDocumentSources versions).Ensures d (Lessens d)
      (fun _ t => ((∀ v ∈ versions, t.dirs v = none) ∧ t.legacy = none) ∧
        ((∀ v ∈ versions, d.dirs v = none) → d.legacy = none → t = d))
      fun _ _ => False := by
  refine Program.ensures_bind (purgeVersions_clear h) ?_
  rintro n t ⟨hless, hgone, hnoop⟩
  refine Program.ensures_bind (Program.ensures_mono (purgeLegacy_ensures t)
    (fun u hu => hless.trans hu) (fun _ _ hu => hu) fun _ _ hu => hu) ?_
  rintro b u ⟨hdirs, -, hlegacy, hsame⟩
  refine Program.ensures_return _ ⟨⟨fun v hv => by rw [hdirs]; exact hgone v hv, hlegacy⟩, ?_⟩
  intro hall hnone
  obtain ⟨-, rfl⟩ := hnoop hall
  exact hsame hnone

theorem purge_document_converges (d : Storage V) (versions : List V) :
    Converges (purgeDocumentSources versions) versions d ↔ ∀ v ∈ versions, Clear d v := by
  constructor
  · intro h
    by_contra hn
    push Not at hn
    refine not_converges ?_ h
    exact Program.ensures_bind (purgeVersions_stuck hn) fun _ _ h => h.elim
  · intro h
    refine converges_of (P := fun t => ∀ v ∈ versions, Clear t v)
      (G := fun t => (∀ v ∈ versions, t.dirs v = none) ∧ t.legacy = none)
      (fun t ht => ht.1) (fun t ht => ?_) (fun t ht => ?_) h
    · exact Program.ensures_mono (purgeDocument_clear ht)
        (fun u hu v hv => hu.clear v (ht v hv)) (fun _ u hu => hu.1) fun _ _ hu => hu
    · exact lands_of_ensures (purgeDocument_clear fun v hv => clear_of_gone (ht.1 v hv))
        fun _ u hu => hu.2 ht.1 ht.2

/-! ## Publishers that leave nothing behind -/

variable {D : Type} [DecidableEq D] {digest : Bytes → D}

/-- A step that drops no call which has made its temporary: such a call does
not die, and does not find the name taken. -/
def Tidy (s : State V D) : Event V D → Prop
  | .start _ => True
  | .run m _ => ∀ c, s.calls[m]? = some c → ∀ id i, c.phase = .linking id i →
    s.disk.lookup c.version .source = none
  | .die m => ∀ c, s.calls[m]? = some c → c.phase.holding = none

/-- Every temporary has a call that still holds it. -/
def Claimed (s : State V D) : Prop :=
  ∀ v id, s.disk.lookup v (.temporary id) ≠ none →
    ∃ c ∈ s.calls, c.version = v ∧ ∃ i, c.phase.holding = some (id, i)

/-- A good call keeps its temporary, until it drops it or loses the race. -/
theorem advance_holding {d d' : Storage V} {c c' : Call V D} {choice : Choice} {id : ℕ} {i : Inode}
    (hgood : Good digest d c) (hheld : c.phase.holding = some (id, i))
    (h : advance digest choice d c = some (d', c')) :
    c'.phase.holding = some (id, i) ∨ c.phase = .unlinking id i ∨
      c.phase = .linking id i ∧ d.lookup c.version .source ≠ none := by
  obtain ⟨version, expected, maximum, body, phase⟩ := c
  cases phase <;>
    simp only [Phase.holding, Option.some.injEq, Prod.mk.injEq, reduceCtorEq] at hheld
  all_goals obtain ⟨rfl, rfl⟩ := hheld
  case writing id i written =>
    simp only [advance] at h
    split at h <;> cases h <;> exact .inl rfl
  case staging id i =>
    obtain ⟨hacc, hown, hdata⟩ := hgood
    have hown' : d.lookup version (.temporary id) = some i := hown
    have hsize : ¬ maximum < (d.data i).length := by
      rw [hdata]
      exact not_lt.2 hacc.2
    simp only [advance, hown', if_true, openRead, if_neg hsize] at h
    cases h
    exact .inl rfl
  case staged id i got =>
    obtain ⟨hacc, hown, hdata, hgot⟩ := hgood
    simp only [advance] at h
    split at h
    · cases h
      exact .inl rfl
    · rename_i hend
      have hwhole : got = body := by
        have hpre : got <+: d.data i := by
          rw [hdata]
          exact hgot
        have hall : got = d.data i := step_end hend hpre
        exact hall.trans hdata
      rw [if_pos hwhole] at h
      cases h
      exact .inl rfl
  case linking id i =>
    by_cases hs : d.lookup version .source = none
    · have hown : d.lookup version (.temporary id) = some i := hgood.2.1
      simp only [advance, hown, hs] at h
      cases h
      exact .inl rfl
    · exact .inr (.inr ⟨rfl, hs⟩)
  case unlinking id i => exact .inr (.inl rfl)

omit [DecidableEq D] in
/-- The step that makes a fresh object makes the temporary its call then holds. -/
theorem effect_creates {d d' : Storage V} {c c' : Call V D} {id : ℕ}
    (h : Effect digest d c d' c') (hlt : d.next < d'.next)
    (hold : ∀ j, d.lookup c.version (.temporary id) = some j → j < d.next)
    (hl : d'.lookup c.version (.temporary id) = some d.next) :
    c'.phase.holding = some (id, d.next) := by
  cases h with
  | create id' creating dir free =>
    have hl' : (d.addName c.version (.temporary id') d.next).lookup c.version
        (.temporary id) = some d.next := hl
    rw [Storage.lookup_addName dir] at hl'
    split_ifs at hl' with hid
    · cases hid.2
      rfl
    · exact absurd (hold _ hl') (lt_irrefl _)
  | still => exact absurd hlt (lt_irrefl _)
  | mkdir => exact absurd hlt (lt_irrefl _)
  | write => exact absurd hlt (lt_irrefl _)
  | link => exact absurd hlt (lt_irrefl _)
  | unlink => exact absurd hlt (lt_irrefl _)

/-- In tidy runs the storage has no temporary but those that calls still hold. -/
theorem tidy_claimed {s : State V D} (h : ((system (V := V) digest).only Tidy).Reachable s) :
    Claimed s := by
  refine System.invariant (fun s hs v id hl => ?_) (fun s e s' hr hclaim hstep => ?_) h
  · have hdirs := hs.2 v
    simp [Storage.lookup, hdirs] at hl
  · obtain ⟨htidy, hexec⟩ := hstep
    have hi := reachable_inv (System.reachable_of_only hr)
    intro v id hl
    rcases exec_cases hi hexec with ⟨request, -, rfl⟩ | ⟨m, c, c', hc, heffect, hcalls, hevent⟩
    · obtain ⟨b, hb, hv, hheld⟩ := hclaim v id hl
      exact ⟨b, List.mem_append_left _ hb, hv, hheld⟩
    · have hf := frame_of_effect heffect
      have hmem : c' ∈ s'.calls := by
        rw [hcalls]
        exact List.mem_set (List.getElem?_eq_some_iff.1 hc).1 c'
      obtain ⟨i, hi'⟩ := Option.ne_none_iff_exists'.1 hl
      rcases hf.names v _ i hi' with hold | ⟨rfl, ⟨hn, -⟩ | ⟨rfl, hlt, -⟩⟩
      · obtain ⟨b, hb, hbv, j, hheld⟩ := hclaim v id (by rw [hold]; exact Option.some_ne_none i)
        rw [hcalls]
        rcases mem_set_or hb with hb | hb
        · exact ⟨b, hb, hbv, j, hheld⟩
        · obtain rfl : c = b := Option.some.inj (hc.symm.trans hb)
          rcases hevent with ⟨rfl, -⟩ | ⟨choice, rfl, hadv⟩
          · rw [htidy c hc] at hheld
            cases hheld
          · have hgood := hi.good c (List.mem_of_getElem? hc)
            rcases advance_holding hgood hheld hadv with h | h | ⟨hp, hs⟩
            · exact ⟨c', hcalls ▸ hmem, hf.version.trans hbv, j, h⟩
            · -- the temporary was just dropped
              exfalso
              have hdrop : s'.disk = s.disk.dropName c.version (.temporary id) := by
                simp only [advance, h] at hadv
                exact (congrArg Prod.fst (Option.some.inj hadv)).symm
              rw [hdrop, ← hbv, Storage.lookup_dropName, if_pos ⟨rfl, rfl⟩] at hi'
              cases hi'
            · exact absurd (htidy c hc id j hp) hs
      · cases hn
      · exact ⟨c', hmem, hf.version, s.disk.next,
          effect_creates heffect hlt (fun j hj => hi.names_lt _ _ _ hj) hi'⟩

variable (digest) in
/-- From every state that publishers and readers lead to, a purge of a version
or of a whole document converges exactly where no temporary is in its way; and
after a tidy run whose calls hold none there is none. -/
theorem purge_converges :
    (∀ s : State V D, (system digest).Reachable s →
      (∀ v, Converges (purgeVersionSource v) [v] s.disk ↔ Clear s.disk v) ∧
        ∀ versions, Converges (purgeDocumentSources versions) versions s.disk ↔
          ∀ v ∈ versions, Clear s.disk v) ∧
      ∀ s : State V D, ((system digest).only Tidy).Reachable s →
        (∀ c ∈ s.calls, c.phase.holding = none) →
        (∀ v, Converges (purgeVersionSource v) [v] s.disk) ∧
          ∀ versions, Converges (purgeDocumentSources versions) versions s.disk := by
  refine ⟨fun s _ => ⟨purge_version_converges s.disk, purge_document_converges s.disk⟩,
    fun s hr hquiet => ?_⟩
  have hclear (v : V) : Clear s.disk v := by
    intro id
    by_contra hl
    obtain ⟨c, hc, -, i, hheld⟩ := tidy_claimed hr v id hl
    rw [hquiet c hc] at hheld
    cases hheld
  exact ⟨fun v => (purge_version_converges s.disk v).2 (hclear v),
    fun versions => (purge_document_converges s.disk versions).2 fun v _ => hclear v⟩

/-- `Tidy`, to be computed. -/
def tidyCheck (s : State V D) : Event V D → Bool
  | .start _ => true
  | .run m _ => (s.calls[m]?).all fun c =>
    match c.phase with
    | .linking _ _ => (s.disk.lookup c.version .source).isNone
    | _ => true
  | .die m => (s.calls[m]?).all fun c => c.phase.holding.isNone

omit [DecidableEq V] [DecidableEq D] in
theorem tidy_of_check {s : State V D} {e : Event V D} (h : tidyCheck s e = true) : Tidy s e := by
  cases e with
  | start request => trivial
  | run m choice =>
    intro c hc id i hp
    simpa [tidyCheck, hc, hp] using h
  | die m =>
    intro c hc
    simpa [tidyCheck, hc] using h

/-- One publisher, from its start to its end. -/
def published : State Unit Bytes :=
  (System.play (fun s e => if tidyCheck s e then exec id s e else none) emptyState
    (.start (.publish () [1, 2] [1, 2] 8) :: List.replicate 13 (.run 0 ⟨0, 9, none, true⟩))).getD
    emptyState

theorem published_reachable : ((system id).only Tidy).Reachable published := by
  have hexec : ∀ s e s', (if tidyCheck s e then exec id s e else none) = some s' →
      ((system (V := Unit) id).only Tidy).step s e s' := by
    intro s e s' h
    obtain ⟨hcheck, hstep⟩ := Option.ite_none_right_eq_some.1 h
    exact ⟨tidy_of_check hcheck, hstep⟩
  have hsome : (System.play (fun s e => if tidyCheck s e then exec id s e else none) emptyState
      (.start (.publish () [1, 2] [1, 2] 8) ::
        List.replicate 13 (.run 0 ⟨0, 9, none, true⟩))).isSome = true := by
    decide +kernel
  obtain ⟨s, hs⟩ := Option.isSome_iff_exists.1 hsome
  have hplay : published = s := by
    rw [published, hs]
    rfl
  rw [hplay]
  exact System.reachable_play hexec (.start ⟨rfl, fun _ => rfl⟩) hs

theorem purge_converges_published :
    published.disk.lookup () .source = some 0 ∧
      (∀ v, Converges (purgeVersionSource v) [v] published.disk) ∧
      ∀ versions, Converges (purgeDocumentSources versions) versions published.disk :=
  ⟨by decide +kernel, (purge_converges id).2 published published_reachable
    (by decide +kernel)⟩

/-- The loser of the race keeps its temporary, and the version is there for
good. -/
theorem lost_race_stays : (system id).Reachable raced ∧
    ¬ Converges (purgeVersionSource ()) [()] raced.disk := by
  refine ⟨raced_reachable, fun h => ?_⟩
  have hclear := (purge_version_converges raced.disk ()).1 h 1
  exact absurd hclear (by decide +kernel)

end RagPipeline.Source
