import RagPipeline.Finalization.Archivable

/-! # What a refused call has removed

The removals come one at a time, and each may be refused: by the host, by a
document that is no longer the archived one, by a file above the ceiling. What
stood before the first refused one is gone. -/

set_option autoImplicit false

namespace RagPipeline.Finalization
open Runner Guard Effects Program

variable {deny : Denials} {h : Host} {r : Request} {st : StateDoc} {found : Findings}
  {name w : String} {holder : Holder} {d s t u x : Disk} {m : Manifest} {claim : Bytes}
  {listed : StateFile → Option String}

/-- Nothing that stood in `d` is gone from `t`. -/
structure NothingRemoved (d t : Disk) : Prop where
  document : ∀ f, d.files f ≠ none → t.files f ≠ none
  record : ∀ n, d.record n ≠ none → t.record n ≠ none
  workspace : ∀ w, d.holders w ≠ none → t.holders w = d.holders w
  task : d.task ≠ none → t.task ≠ none

theorem NothingRemoved.of_onlyArchives (ht : OnlyArchives d t) : NothingRemoved d t := by
  obtain ⟨archives, rfl⟩ := ht
  exact ⟨fun _ hf => hf, fun _ hn => hn, fun _ _ => rfl, fun htask => htask⟩

/-! ## The removals in their order -/

def holderTargets (w : String) (holder : Holder) : List Removal :=
  (holder.map fun e => .entry w e.1) ++ [.holder w]

def workspaceTargets : Option (String × Holder) → List Removal
  | some (w, holder) => holderTargets w holder ++ [.record w]
  | none => []

def documentTargets (listed : StateFile → Option String) (list : List StateFile) :
    List Removal :=
  (list.filter fun f => (listed f).isSome).map .document

def taskTargets : Option Task → List Removal
  | some _ => [.task]
  | none => []

/-- What the removals come to. `listed` is the digest the archive has of a
document. -/
def targets (found : Findings) (listed : StateFile → Option String) : List Removal :=
  workspaceTargets found.holder ++ documentTargets listed removableStateFiles ++
    taskTargets found.task

/-- The holder is one of the directories that are never a workspace. -/
def wide (h : Host) (w : String) : Prop :=
  holderFor h w ∈ [h.runnerTempRoot, h.stateDir, h.repo]

/-- The removal raises, on the disk `d` that the removals start from. -/
def Refuses (deny : Denials) (h : Host) (listed : StateFile → Option String) (d : Disk) :
    Removal → Prop
  | .entry w path => deny.removal (.entry w path) ∨ wide h w
  | .holder w => deny.removal (.holder w) ∨ wide h w
  | .record w => deny.removal (.record w)
  | .document f => d.files f = some .other ∨ ∃ b, d.files f = some (.file b) ∧
      (maxFileBytes < b.length ∨ listed f ≠ some (h.sha256 b) ∨ deny.removal (.document f))
  | .task => deny.removal .task ∨ ∃ b, d.task = some (.file b) ∧ maxFileBytes < b.length

/-- There is something to remove. -/
def Removes (d : Disk) : Removal → Prop
  | .document f => d.files f ≠ none
  | _ => True

/-- Something that is there to remove comes before the first refusal. -/
def Halfway (deny : Denials) (h : Host) (listed : StateFile → Option String) (d : Disk)
    (list : List Removal) : Prop :=
  ∃ before y after, list = before ++ y :: after ∧ Refuses deny h listed d y ∧
    (∀ z ∈ before, ¬ Refuses deny h listed d z) ∧ ∃ z ∈ before, Removes d z

/-- The run stopped in `u` at the first refusal of `list`, after `done`. -/
def Stops (deny : Denials) (h : Host) (listed : StateFile → Option String) (x : Disk)
    (done list : List Removal) (u : Disk) : Prop :=
  ∃ before y after, list = before ++ y :: after ∧ Refuses deny h listed x y ∧
    (∀ z ∈ before, ¬ Refuses deny h listed x z) ∧
    (NothingRemoved x u ↔ ∀ z ∈ done ++ before, ¬ Removes x z)

namespace Stops

variable {done list more : List Removal}

theorem append (hs : Stops deny h listed x done list u) :
    Stops deny h listed x done (list ++ more) u := by
  obtain ⟨before, y, after, rfl, hy, hbefore, hiff⟩ := hs
  exact ⟨before, y, after ++ more, by simp, hy, hbefore, hiff⟩

theorem prepend (hdone : ∀ z ∈ list, ¬ Refuses deny h listed x z)
    (hs : Stops deny h listed x (done ++ list) more u) :
    Stops deny h listed x done (list ++ more) u := by
  obtain ⟨before, y, after, rfl, hy, hbefore, hiff⟩ := hs
  refine ⟨list ++ before, y, after, by simp, hy, fun z hz => ?_, by simpa using hiff⟩
  exact (List.mem_append.1 hz).elim (hdone z) (hbefore z)

theorem split_unique {p : Removal → Prop} {before before' after after' : List Removal}
    {y y' : Removal} (heq : before ++ y :: after = before' ++ y' :: after') (hy : p y)
    (hy' : p y') (hbefore : ∀ z ∈ before, ¬ p z) (hbefore' : ∀ z ∈ before', ¬ p z) :
    before = before' := by
  induction before generalizing before' with
  | nil =>
    cases before' with
    | nil => rfl
    | cons z rest =>
      obtain ⟨rfl, -⟩ := List.cons.inj heq
      exact absurd hy (hbefore' _ List.mem_cons_self)
  | cons z rest ih =>
    cases before' with
    | nil =>
      obtain ⟨rfl, -⟩ := List.cons.inj heq
      exact absurd hy' (hbefore _ List.mem_cons_self)
    | cons z' rest' =>
      obtain ⟨rfl, hrest⟩ := List.cons.inj heq
      rw [ih hrest (fun v hv => hbefore v (List.mem_cons_of_mem _ hv)) fun v hv =>
        hbefore' v (List.mem_cons_of_mem _ hv)]

/-- Where the run stopped, nothing is gone exactly when it is not halfway. -/
theorem nothingRemoved_iff (hs : Stops deny h listed x [] list u) :
    NothingRemoved x u ↔ ¬ Halfway deny h listed x list := by
  obtain ⟨before, y, after, rfl, hy, hbefore, hiff⟩ := hs
  rw [hiff, List.nil_append]
  constructor
  · rintro hnone ⟨before', y', after', heq, hy', hbefore', z, hz, hremoves⟩
    obtain rfl := split_unique heq hy hy' hbefore hbefore'
    exact hnone z hz hremoves
  · exact fun hhalf z hz hremoves => hhalf ⟨before, y, after, rfl, hy, hbefore, z, hz, hremoves⟩

end Stops

theorem ensures_removing {y : Removal} {e : Refusal} {f : Disk → Disk} :
    (removing deny y e f).Ensures t (fun _ => True)
      (fun _ u => deny.removal y = false ∧ u = f t) fun _ u => deny.removal y = true ∧ u = t := by
  refine ensures_commit _ (fun s' hs' => ?_) fun e' he' => ?_
  · split at hs'
    case isTrue => cases hs'
    case isFalse hdeny => exact ⟨trivial, by simpa using hdeny, (Except.ok.inj hs').symm⟩
  · split at he'
    case isTrue hdeny => exact ⟨hdeny, rfl⟩
    case isFalse => cases he'

/-! ## The workspace -/

theorem removeTreeUnder_stops :
    (removeTreeUnder deny w holder).Ensures t (fun _ => True)
      (fun _ u => (∀ y ∈ holderTargets w holder, deny.removal y = false) ∧
        u = t.setHolder w none)
      fun _ u => ∃ before y after, holderTargets w holder = before ++ y :: after ∧
        deny.removal y = true ∧ (∀ z ∈ before, deny.removal z = false) ∧
        (before = [] ∧ u = t ∨
          before ≠ [] ∧ ∃ rest : Holder, rest.length < holder.length ∧
            u = t.setHolder w (some rest)) := by
  induction holder generalizing t with
  | nil =>
    refine ensures_mono ensures_removing (fun _ _ => trivial) ?_ ?_
    · rintro _ u ⟨hdeny, hu⟩
      exact ⟨by simpa [holderTargets] using hdeny, hu⟩
    · rintro _ u ⟨hdeny, hu⟩
      exact ⟨[], _, [], rfl, hdeny, by simp, .inl ⟨rfl, hu⟩⟩
  | cons e rest ih =>
    refine ensures_bind (ensures_mono ensures_removing (fun _ _ => trivial) (fun _ _ hu => hu) ?_) ?_
    · rintro _ u ⟨hdeny, hu⟩
      exact ⟨[], _, _, rfl, hdeny, by simp, .inl ⟨rfl, hu⟩⟩
    rintro _ u ⟨hdeny, rfl⟩
    refine ensures_mono ih (fun _ _ => trivial) ?_ ?_
    · rintro _ v ⟨hall, rfl⟩
      refine ⟨fun y hy => ?_, setHolder_setHolder _ _⟩
      rcases List.mem_cons.1 hy with rfl | hy
      · exact hdeny
      · exact hall y hy
    · rintro _ v ⟨before, y, after, heq, hy, hbefore, hv⟩
      refine ⟨.entry w e.1 :: before, y, after, congrArg (List.cons _) heq, hy, fun z hz => ?_,
        .inr ⟨List.cons_ne_nil _ _, ?_⟩⟩
      · rcases List.mem_cons.1 hz with rfl | hz
        · exact hdeny
        · exact hbefore z hz
      · rcases hv with ⟨-, rfl⟩ | ⟨-, rest', hlt, rfl⟩
        · exact ⟨rest, Nat.lt_succ_self _, rfl⟩
        · exact ⟨rest', Nat.lt_succ_of_lt hlt, setHolder_setHolder _ _⟩

theorem refuses_holderTargets (hwide : ¬ wide h w) {y : Removal}
    (hy : y ∈ holderTargets w holder) :
    Refuses deny h listed x y ↔ deny.removal y = true := by
  rcases List.mem_append.1 hy with hy | hy
  · obtain ⟨e, -, rfl⟩ := List.mem_map.1 hy
    exact or_iff_left hwide
  · rw [List.mem_singleton.1 hy]
    exact or_iff_left hwide

theorem removes_holderTargets {y : Removal} (hy : y ∈ holderTargets w holder) : Removes x y := by
  rcases List.mem_append.1 hy with hy | hy
  · obtain ⟨e, -, rfl⟩ := List.mem_map.1 hy
    trivial
  · rw [List.mem_singleton.1 hy]
    trivial

theorem not_nothingRemoved (hholder : x.holders w = some holder) {o : Option Holder}
    (hne : o ≠ some holder) (hu : u.holders w = o) : ¬ NothingRemoved x u := by
  intro hnothing
  have hsame := hnothing.workspace w (by rw [hholder]; exact Option.some_ne_none _)
  exact hne (hu.symm.trans (hsame.trans hholder))

/-- The workspace as its gates have found it. -/
def Held (h : Host) (x : Disk) : Option (String × Holder) → Prop
  | some (w, holder) => x.holders w = some holder ∧
      ∃ record, loadRecord h w x = some record ∧ record.repoId = h.repoId
  | none => True

theorem releaseWorkspaceUnder_stops {o : Option (String × Holder)} (hheld : Held h x o) :
    (releaseWorkspaceUnder deny h o).Ensures x (fun _ => True)
      (fun _ u => (∀ y ∈ workspaceTargets o, ¬ Refuses deny h listed x y) ∧
        u.files = x.files ∧ u.task = x.task ∧
        (o = none ∧ u = x ∨ o ≠ none ∧ ¬ NothingRemoved x u))
      fun _ u => Stops deny h listed x [] (workspaceTargets o) u := by
  cases o with
  | none => exact ensures_return _ ⟨fun _ hy => absurd hy List.not_mem_nil, rfl, rfl, .inl ⟨rfl, rfl⟩⟩
  | some e =>
    obtain ⟨w, holder⟩ := e
    obtain ⟨hholder, record, hrecord, hrepo⟩ := hheld
    have hself : NothingRemoved x x := .of_onlyArchives (.refl x)
    refine ensures_bind (ensures_ask (Q := fun held u => held = holder ∧ ¬ wide h w ∧ u = x) _
      (fun held hok => ?_) fun e herr => ?_) ?_
    · obtain ⟨-, hwide, hheld⟩ := assertRemovable_ok.1 hok
      exact ⟨Option.some.inj (hheld.symm.trans hholder), hwide, rfl⟩
    · have hwide : wide h w := by
        by_contra hnot
        have hok : assertRemovable h w x = .ok holder :=
          assertRemovable_ok.2 ⟨⟨record, hrecord, hrepo⟩, hnot, hholder⟩
        rw [hok] at herr
        cases herr
      cases hlist : workspaceTargets (some (w, holder)) with
      | nil => cases holder <;> cases hlist
      | cons y rest =>
        refine ⟨[], y, rest, rfl, ?_, by simp, by simpa using hself⟩
        cases holder with
        | nil =>
          obtain ⟨rfl, -⟩ := List.cons.inj hlist
          exact .inr hwide
        | cons e rest =>
          obtain ⟨rfl, -⟩ := List.cons.inj hlist
          exact .inr hwide
    rintro held u ⟨hheld, hwide, hu⟩
    rw [hheld, hu]
    have hrefuses : ∀ y ∈ holderTargets w holder,
        Refuses deny h listed x y ↔ deny.removal y = true :=
      fun y hy => refuses_holderTargets hwide hy
    refine ensures_bind (ensures_mono removeTreeUnder_stops (fun _ _ => trivial)
      (fun _ _ hu => hu) ?_) ?_
    · rintro _ u ⟨before, y, after, heq, hy, hbefore, hend⟩
      have hmem : ∀ z ∈ before, z ∈ holderTargets w holder := fun z hz => by
        rw [heq]
        exact List.mem_append_left _ hz
      refine Stops.append ⟨before, y, after, heq, ?_, fun z hz => ?_, ?_⟩
      · exact (hrefuses y (by rw [heq]; exact List.mem_append_right _ List.mem_cons_self)).2 hy
      · rw [hrefuses z (hmem z hz), hbefore z hz]
        exact Bool.false_ne_true
      · rw [List.nil_append]
        rcases hend with ⟨rfl, rfl⟩ | ⟨hne, rest, hlt, rfl⟩
        · exact iff_of_true hself fun z hz => absurd hz List.not_mem_nil
        · refine iff_of_false (not_nothingRemoved hholder (o := some rest) (fun heq => ?_)
            (Function.update_self _ _ _)) fun hnone => ?_
          · rw [Option.some.inj heq] at hlt
            exact lt_irrefl _ hlt
          · obtain ⟨z, hz⟩ := List.exists_mem_of_ne_nil before hne
            exact hnone z hz (removes_holderTargets (hmem z hz))
    rintro _ u ⟨hall, rfl⟩
    have hgone : ¬ NothingRemoved x (x.setHolder w none) :=
      not_nothingRemoved hholder (Option.some_ne_none _).symm (Function.update_self _ _ _)
    have hpassed : ∀ z ∈ holderTargets w holder, ¬ Refuses deny h listed x z := fun z hz => by
      rw [hrefuses z hz, hall z hz]
      exact Bool.false_ne_true
    refine ensures_mono ensures_removing (fun _ _ => trivial) ?_ ?_
    · rintro _ v ⟨hdeny, rfl⟩
      refine ⟨fun y hy => ?_, rfl, rfl, .inr ⟨Option.some_ne_none _, ?_⟩⟩
      · rcases List.mem_append.1 hy with hy | hy
        · exact hpassed y hy
        · rw [List.mem_singleton.1 hy, Refuses, hdeny]
          exact Bool.false_ne_true
      · exact not_nothingRemoved hholder (Option.some_ne_none _).symm (Function.update_self _ _ _)
    · rintro _ v ⟨hdeny, rfl⟩
      refine ⟨holderTargets w holder, .record w, [], rfl, hdeny, hpassed, ?_⟩
      refine iff_of_false hgone fun hnone => ?_
      have hmem : Removal.holder w ∈ holderTargets w holder :=
        List.mem_append_right _ List.mem_cons_self
      exact hnone _ hmem (removes_holderTargets hmem)

/-! ## The documents and the task -/

theorem unlinkVerifiedUnder_stops {f : StateFile} {expected : String}
    (hfile : t.files f = x.files f) (hlisted : listed f = some expected) :
    (unlinkVerifiedUnder deny h f expected).Ensures t (fun _ => True)
      (fun _ u => ¬ Refuses deny h listed x (.document f) ∧
        (x.files f = none ∧ u = t ∨ x.files f ≠ none ∧ u = t.setFile f none))
      fun _ u => Refuses deny h listed x (.document f) ∧ u = t := by
  unfold unlinkVerifiedUnder
  rw [show Refuses deny h listed x (.document f) ↔ x.files f = some .other ∨
    ∃ b, x.files f = some (.file b) ∧ (maxFileBytes < b.length ∨
      expected ≠ h.sha256 b ∨ deny.removal (.document f) = true) by
    rw [Refuses, hlisted]
    simp only [ne_eq, Option.some.injEq]]
  cases hx : x.files f with
  | none =>
    refine ensures_bind (ensures_ask (Q := fun present u => present = false ∧ u = t) _
      (fun present hok => ?_) fun e herr => ?_) ?_
    · rw [hfile, hx] at hok
      exact ⟨(Except.ok.inj hok).symm, rfl⟩
    · rw [hfile, hx] at herr
      cases herr
    · rintro _ _ ⟨rfl, rfl⟩
      exact ensures_return _ ⟨by simp, .inl ⟨rfl, rfl⟩⟩
  | some n =>
    cases n with
    | other =>
      refine ensures_bind (ensures_ask (Q := fun _ _ => False) _ (fun present hok => ?_)
        fun e herr => ⟨.inl rfl, rfl⟩) fun _ _ hf => hf.elim
      rw [hfile, hx] at hok
      cases hok
    | file b =>
      refine ensures_bind (ensures_ask (Q := fun present u => present = true ∧
        b.length ≤ maxFileBytes ∧ h.sha256 b = expected ∧ u = t) _ (fun present hok => ?_)
        fun e herr => ⟨.inr ⟨b, rfl, ?_⟩, rfl⟩) ?_
      · rw [hfile, hx] at hok
        simp only [assertUnlinkable, bind_ok, exists_unit, require_ok, pure_ok] at hok
        exact ⟨hok.2.2.symm, hok.1, hok.2.1, rfl⟩
      · by_contra hnot
        push Not at hnot
        rw [hfile, hx, assertUnlinkable, require_true hnot.1, require_true hnot.2.1.symm] at herr
        cases herr
      · rintro _ _ ⟨rfl, hlength, hsha, rfl⟩
        refine ensures_bind (ensures_mono ensures_removing (fun _ _ => trivial)
          (fun _ _ hu => hu) ?_) ?_
        · rintro _ u ⟨hdeny, rfl⟩
          exact ⟨.inr ⟨b, rfl, .inr (.inr hdeny)⟩, rfl⟩
        · rintro _ u ⟨hdeny, rfl⟩
          refine ensures_return _ ⟨?_, .inr ⟨by simp, rfl⟩⟩
          simp [hdeny, hsha, hlength]

theorem unlinkAllUnder_stops {list : List StateFile} {done : List Removal}
    (hnodup : list.Nodup) (hfiles : ∀ f ∈ list, t.files f = x.files f)
    (hlisted : ∀ f ∈ list, stateDigest m f = listed f)
    (hdone : NothingRemoved x t ↔ ∀ z ∈ done, ¬ Removes x z) :
    (unlinkAllUnder deny h m list).Ensures t (fun _ => True)
      (fun _ u => (∀ y ∈ documentTargets listed list, ¬ Refuses deny h listed x y) ∧
        u.task = t.task ∧
        (NothingRemoved x u ↔ ∀ z ∈ done ++ documentTargets listed list, ¬ Removes x z))
      fun _ u => Stops deny h listed x done (documentTargets listed list) u := by
  induction list generalizing t done with
  | nil =>
    refine ensures_return _ ⟨fun y hy => absurd hy List.not_mem_nil, rfl, ?_⟩
    simpa [documentTargets] using hdone
  | cons f rest ih =>
    obtain ⟨hf, hrest⟩ := List.nodup_cons.1 hnodup
    have hfilesRest : ∀ g ∈ rest, t.files g = x.files g :=
      fun g hg => hfiles g (List.mem_cons_of_mem _ hg)
    have hlistedRest : ∀ g ∈ rest, stateDigest m g = listed g :=
      fun g hg => hlisted g (List.mem_cons_of_mem _ hg)
    have hhead := hlisted f List.mem_cons_self
    unfold unlinkAllUnder
    cases hdigest : stateDigest m f with
    | none =>
      have hskip : documentTargets listed (f :: rest) = documentTargets listed rest := by
        simp [documentTargets, ← hhead, hdigest]
      rw [hskip]
      exact ih hrest hfilesRest hlistedRest hdone
    | some expected =>
      have hcons : documentTargets listed (f :: rest) =
          [.document f] ++ documentTargets listed rest := by
        simp [documentTargets, ← hhead, hdigest]
      rw [hcons]
      refine ensures_bind (ensures_mono (unlinkVerifiedUnder_stops (hfiles f List.mem_cons_self)
        (hhead.symm.trans hdigest)) (fun _ _ => trivial) (fun _ _ hu => hu) ?_) ?_
      · rintro _ u ⟨hrefuses, rfl⟩
        exact ⟨[], .document f, _, rfl, hrefuses, by simp, by simpa using hdone⟩
      rintro gone u ⟨hpasses, hu⟩
      have htask : u.task = t.task := by
        rcases hu with ⟨-, rfl⟩ | ⟨-, rfl⟩ <;> rfl
      have hstep : NothingRemoved x u ↔ ∀ z ∈ done ++ [.document f], ¬ Removes x z := by
        rcases hu with ⟨hnone, rfl⟩ | ⟨hsome, rfl⟩
        · rw [hdone]
          simp [or_imp, forall_and, Removes, hnone]
        · refine iff_of_false (fun hnothing => ?_) fun hnone => ?_
          · exact hnothing.document f hsome (Function.update_self _ _ _)
          · exact hnone (.document f) (by simp) hsome
      have hfilesAfter : ∀ g ∈ rest, u.files g = x.files g := by
        intro g hg
        rcases hu with ⟨-, rfl⟩ | ⟨-, rfl⟩
        · exact hfilesRest g hg
        · have hne : g ≠ f := fun heq => hf (heq ▸ hg)
          exact (Function.update_of_ne hne _ _).trans (hfilesRest g hg)
      have hpassed : ∀ z ∈ [Removal.document f], ¬ Refuses deny h listed x z := by
        simpa using hpasses
      refine ensures_bind (ensures_mono (ih hrest hfilesAfter hlistedRest hstep)
        (fun _ _ => trivial) (fun _ _ hv => hv) fun _ _ hv => hv.prepend hpassed) ?_
      rintro removed v ⟨hall, hsame, hiff⟩
      refine ensures_return _ ⟨fun y hy => ?_, hsame.trans htask, by simpa using hiff⟩
      exact (List.mem_append.1 hy).elim (hpassed y) (hall y)

/-- The task as its gates have found it. -/
def Bound (h : Host) (x : Disk) : Option Task → Prop
  | some task => x.task = some (.file task.bytes) ∧ task.digest = h.sha256 task.bytes
  | none => True

theorem releaseTaskUnder_stops {o : Option Task} {done : List Removal} (hbound : Bound h x o)
    (htask : t.task = x.task) (hdone : NothingRemoved x t ↔ ∀ z ∈ done, ¬ Removes x z) :
    (releaseTaskUnder deny h o).Ensures t (fun _ => True)
      (fun _ _ => ∀ y ∈ taskTargets o, ¬ Refuses deny h listed x y)
      fun _ u => Stops deny h listed x done (taskTargets o) u := by
  cases o with
  | none => exact ensures_return _ fun y hy => absurd hy List.not_mem_nil
  | some task =>
    obtain ⟨hx, hdigest⟩ := hbound
    have hrefuses : Refuses deny h listed x .task ↔
        deny.removal .task = true ∨ maxFileBytes < task.bytes.length := by
      simp [Refuses, hx]
    have hstop : Refuses deny h listed x .task →
        Stops deny h listed x done (taskTargets (some task)) t := fun hy =>
      ⟨[], .task, [], rfl, hy, by simp, by simpa using hdone⟩
    refine ensures_bind (ensures_ask (Q := fun data u => data = task.bytes ∧
      task.bytes.length ≤ maxFileBytes ∧ u = t) _ (fun data hok => ?_) fun e herr => ?_) ?_
    · rw [htask, hx] at hok
      simp only [sourceBytes, bind_ok, exists_unit, require_ok, pure_ok] at hok
      exact ⟨hok.2.symm, hok.1, rfl⟩
    · refine hstop (hrefuses.2 (.inr ?_))
      by_contra hnot
      rw [htask, hx, sourceBytes, require_true (Nat.not_lt.1 hnot)] at herr
      cases herr
    rintro data u ⟨hdata, hlength, hu⟩
    rw [hdata, hu]
    refine ensures_bind (ensures_ask (Q := fun _ u => u = t) _ (fun _ _ => rfl)
      fun e herr => ?_) ?_
    · rw [require_true hdigest.symm] at herr
      cases herr
    intro _ v hv
    rw [hv]
    refine ensures_mono ensures_removing (fun _ _ => trivial) ?_ ?_
    · rintro _ u ⟨hdeny, -⟩ y hy
      rw [List.mem_singleton.1 hy, hrefuses, hdeny]
      simpa using hlength
    · rintro _ u ⟨hdeny, rfl⟩
      exact hstop (hrefuses.2 (.inl hdeny))

/-- The removals against the manifest go through, or they stop at the first
refused one. -/
theorem cleanupUnder_stops (hheld : Held h x found.holder) (hbound : Bound h x found.task)
    (hlisted : ∀ f ∈ removableStateFiles, stateDigest m f = listed f) :
    (cleanupUnder deny h found m).Ensures x (fun _ => True)
      (fun _ _ => ∀ y ∈ targets found listed, ¬ Refuses deny h listed x y)
      fun _ u => Stops deny h listed x [] (targets found listed) u := by
  refine ensures_bind (ensures_mono (releaseWorkspaceUnder_stops hheld) (fun _ _ => trivial)
    (fun _ _ hu => hu) fun _ _ hu => hu.append.append) ?_
  rintro _ t ⟨hworkspace, hfiles, htask, hend⟩
  have hdone : NothingRemoved x t ↔ ∀ z ∈ workspaceTargets found.holder, ¬ Removes x z := by
    rcases hend with ⟨hnone, rfl⟩ | ⟨hsome, hgone⟩
    · rw [hnone]
      exact iff_of_true (.of_onlyArchives (.refl t)) fun z hz => absurd hz List.not_mem_nil
    · obtain ⟨⟨w, holder⟩, hholder⟩ := Option.ne_none_iff_exists'.1 hsome
      refine iff_of_false hgone fun hnone => ?_
      rw [hholder] at hnone
      exact hnone (.record w) (List.mem_append_right _ List.mem_cons_self) trivial
  refine ensures_bind (ensures_mono (unlinkAllUnder_stops (by decide)
    (fun f _ => congrFun hfiles f) hlisted hdone) (fun _ _ => trivial) (fun _ _ hu => hu)
    fun _ _ hu => (Stops.prepend hworkspace (by simpa using hu)).append) ?_
  rintro removed u ⟨hdocuments, hsame, hiff⟩
  have hpassed : ∀ z ∈ workspaceTargets found.holder ++
      documentTargets listed removableStateFiles, ¬ Refuses deny h listed x z :=
    fun z hz => (List.mem_append.1 hz).elim (hworkspace z) (hdocuments z)
  refine ensures_bind (ensures_mono (releaseTaskUnder_stops hbound (hsame.trans htask) hiff)
    (fun _ _ => trivial) (fun _ _ hu => hu) fun _ _ hu => Stops.prepend hpassed (by simpa using hu)) ?_
  rintro _ v htask
  exact ensures_return _ fun y hy => (List.mem_append.1 hy).elim (hpassed y) (htask y)

theorem held_of_bindWorkspace {binding : Option Binding} {runId : String}
    {o : Option (String × Holder)} (hok : bindWorkspace h runId d binding = .ok o) :
    Held h d o := by
  cases binding with
  | none =>
    simp only [bindWorkspace, bind_ok, exists_unit, pure_ok] at hok
    rw [← hok.2]
    trivial
  | some b =>
    rcases bindHolder_ok.1 hok with ⟨-, rfl⟩ | ⟨bytes, holder, hr, hh, -, hbinding, rfl⟩
    · trivial
    · refine ⟨hh, ?_⟩
      unfold assertBinding at hbinding
      split at hbinding
      case h_1 record _ _ _ hrecord _ => exact ⟨record, hrecord, hbinding.1⟩
      case h_2 => exact hbinding.elim

theorem bound_of_bindTask {binding : Option Binding} {o : Option Task}
    (hok : bindTask h r binding d = .ok o) : Bound h d o := by
  unfold bindTask at hok
  split at hok
  case h_1 =>
    obtain rfl := Except.ok.inj hok
    trivial
  case h_2 path _ =>
    split at hok
    case h_1 => cases hok
    case h_2 => cases hok
    case h_3 bytes htask =>
      simp only [bind_ok, exists_unit, require_ok, demand_ok, pure_ok] at hok
      obtain ⟨relative, -, -, tracked, -, -, staged, -, -, rfl⟩ := hok
      exact ⟨htask, rfl⟩

/-! ## A whole call -/

/-- The removals of a cleanup leave the lock. -/
theorem cleanupUnder_lock :
    Preserves (fun t => t.files .lock ≠ none) (cleanupUnder deny h found m) := by
  have hremoving : ∀ (y : Removal) (e : Refusal) (f : Disk → Disk),
      (∀ t : Disk, t.files .lock ≠ none → (f t).files .lock ≠ none) →
      Preserves (fun t => t.files .lock ≠ none) (removing deny y e f) := by
    intro y e f hf
    refine .commit _ fun t t' ht hok => ?_
    split at hok
    case isTrue => cases hok
    case isFalse => exact Except.ok.inj hok ▸ hf t ht
  have htree : ∀ (w : String) (holder : Holder),
      Preserves (fun t => t.files .lock ≠ none) (removeTreeUnder deny w holder) := by
    intro w holder
    induction holder with
    | nil => exact hremoving _ _ _ fun _ ht => ht
    | cons e rest ih => exact .bind (hremoving _ _ _ fun _ ht => ht) fun _ => ih
  have hunlink : ∀ list : List StateFile, .lock ∉ list →
      Preserves (fun t => t.files .lock ≠ none) (unlinkAllUnder deny h m list) := by
    intro list hlist
    induction list with
    | nil => exact .pure _
    | cons f rest ih =>
      have hne : StateFile.lock ≠ f := fun heq => hlist (heq ▸ List.mem_cons_self)
      have hrest := ih fun hmem => hlist (List.mem_cons_of_mem _ hmem)
      unfold unlinkAllUnder
      split
      case h_1 => exact hrest
      case h_2 =>
        refine .bind (.bind (.ask _) fun present => ?_) fun _ => .bind hrest fun _ => .pure _
        cases present with
        | true =>
          refine .bind (hremoving _ _ _ fun t ht => ?_) fun _ => .pure _
          rwa [show (t.setFile f none).files .lock = t.files .lock from
            Function.update_of_ne hne _ _]
        | false => exact .pure _
  refine .bind ?_ fun _ => .bind (hunlink _ (by decide)) fun _ => .bind ?_ fun _ => .pure _
  · cases found.holder with
    | none => exact .pure _
    | some e =>
      exact .bind (.ask _) fun held => .bind (htree _ held) fun _ => hremoving _ _ _ fun _ ht => ht
  · cases found.task with
    | none => exact .pure _
    | some task => exact .bind (.ask _) fun _ => .bind (.ask _) fun _ => hremoving _ _ _ fun _ ht => ht

/-- The call gets past its gates and its archive, and of the removals one is
refused when something before it was there to remove. -/
def StopsHalfway (deny : Denials) (h : Host) (r : Request) (claim : Bytes) (d : Disk) : Prop :=
  ∃ st found, readState h d = .ok (some st) ∧ gates h r st (locked claim d) = .ok found ∧
    Archivable deny h r st found (locked claim d) ∧
    Halfway deny h (archivedDigest h r st (locked claim d)) (locked claim d)
      (targets found (archivedDigest h r st (locked claim d)))

theorem nothingRemoved_locked (hlock : t.files .lock ≠ none) :
    NothingRemoved d t ↔ NothingRemoved (locked claim d) t := by
  constructor
  · refine fun hn => ⟨fun f hf => ?_, hn.record, hn.workspace, hn.task⟩
    by_cases hf' : f = .lock
    · rwa [hf']
    · rw [locked_files hf'] at hf
      exact hn.document f hf
  · refine fun hn => ⟨fun f hf => ?_, hn.record, hn.workspace, hn.task⟩
    by_cases hf' : f = .lock
    · rwa [hf']
    · have hsame : (locked claim d).files f = d.files f := locked_files hf'
      rw [← hsame] at hf
      exact hn.document f hf

theorem archiveRunUnder_onlyArchives :
    Preserves (OnlyArchives d) (archiveRunUnder deny h r st found name) := by
  unfold archiveRunUnder
  cases deny.archive with
  | none => exact archiveRun_onlyArchives
  | some refused => exact .cut _ _ archiveRun_onlyArchives

theorem refuses_onlyArchives (ht : OnlyArchives d t) :
    Refuses deny h listed t = Refuses deny h listed d := by
  obtain ⟨_, rfl⟩ := ht
  funext y
  cases y <;> rfl

theorem removes_onlyArchives (ht : OnlyArchives d t) : Removes t = Removes d := by
  obtain ⟨_, rfl⟩ := ht
  funext y
  cases y <;> rfl

theorem nothingRemoved_onlyArchives (ht : OnlyArchives d t) :
    NothingRemoved t u ↔ NothingRemoved d u := by
  obtain ⟨_, rfl⟩ := ht
  exact ⟨fun hn => ⟨hn.document, hn.record, hn.workspace, hn.task⟩,
    fun hn => ⟨hn.document, hn.record, hn.workspace, hn.task⟩⟩

/-- Past the archive the removals run from a disk that differs from the locked
one in the archives only. -/
theorem removals_stop {p : Manifest × Bool} (hgates : gates h r st d = .ok found)
    (hl : (archiveRunUnder deny h r st found
      (archiveNameFor st.runId st.state r.shippedCommit)).Lands d p x) :
    (cleanupUnder deny h found p.1).Ensures x (fun _ => True)
      (fun _ _ => ∀ y ∈ targets found (archivedDigest h r st d),
        ¬ Refuses deny h (archivedDigest h r st d) d y)
      fun _ u => NothingRemoved d u ↔ ¬ Halfway deny h (archivedDigest h r st d) d
        (targets found (archivedDigest h r st d)) := by
  obtain ⟨hrun, -⟩ := archiveRunUnder_lands.1 hl
  have honly : OnlyArchives d x := (archiveRun_lands (m := p.1) hrun).1
  obtain ⟨-, -, hworkspace, htask, -⟩ := gates_ok.1 hgates
  have hheld : Held h x found.holder := by
    obtain ⟨_, rfl⟩ := honly
    exact held_of_bindWorkspace hworkspace
  have hbound : Bound h x found.task := by
    obtain ⟨_, rfl⟩ := honly
    exact bound_of_bindTask htask
  refine ensures_mono (cleanupUnder_stops hheld hbound fun f hf =>
    stateDigest_archived hrun (List.mem_append_left _ hf)) (fun _ _ => trivial) ?_ ?_
  · intro _ u hall
    rwa [refuses_onlyArchives honly] at hall
  · intro _ u hu
    have hiff := hu.nothingRemoved_iff
    rwa [nothingRemoved_onlyArchives honly, Halfway, refuses_onlyArchives honly,
      removes_onlyArchives honly] at hiff

/-- A refusal before the removals. -/
theorem removes_nothing_before (hd : OnlyArchives (locked claim d) t)
    (hbefore : ¬ StopsHalfway deny h r claim d) :
    NothingRemoved d t ↔ ¬ StopsHalfway deny h r claim d := by
  refine iff_of_true ?_ hbefore
  obtain ⟨_, rfl⟩ := hd
  refine (nothingRemoved_locked ?_).2 (.of_onlyArchives ⟨_, rfl⟩)
  exact fun hnone => nomatch hnone

theorem finalizeUnder_stops (deny : Denials) (h : Host) (r : Request) (claim : Bytes)
    (d : Disk) :
    (finalizeUnder deny h r claim).Ensures d (fun _ => True)
      (fun _ _ => ¬ StopsHalfway deny h r claim d)
      fun _ t => NothingRemoved d t ↔ ¬ StopsHalfway deny h r claim d := by
  have hstart : OnlyArchives (locked claim d) (locked claim d) := .refl _
  refine ensures_bind (R := fun _ t => t = locked claim d) (ensures_commit _ ?_ ?_) ?_
  · exact fun s' hs' => ⟨trivial, (Except.ok.inj hs').symm⟩
  · exact fun _ he => nomatch he
  rintro _ _ rfl
  refine ensures_bind (ensures_ask (Q := fun o t => readState h d = .ok o ∧ t = locked claim d) _
    (fun o ho => ⟨readState_locked.symm.trans ho, rfl⟩) fun e herr => ?_) ?_
  · refine removes_nothing_before hstart fun ⟨st, found, hread, _⟩ => ?_
    rw [readState_locked, hread] at herr
    cases herr
  rintro o _ ⟨hread, rfl⟩
  cases o with
  | none =>
    have hbefore : ¬ StopsHalfway deny h r claim d := by
      rintro ⟨st, found, hread', _⟩
      rw [hread] at hread'
      cases hread'
    exact ensures_ask _ (fun _ _ => hbefore) fun _ _ => removes_nothing_before hstart hbefore
  | some st =>
    refine ensures_bind (ensures_ask (Q := fun found t =>
      gates h r st (locked claim d) = .ok found ∧ t = locked claim d) _ (fun _ hg => ⟨hg, rfl⟩)
      fun e herr => ?_) ?_
    · refine removes_nothing_before hstart fun ⟨st', found, hread', hgates, _⟩ => ?_
      obtain rfl := Option.some.inj (Except.ok.inj (hread.symm.trans hread'))
      rw [hgates] at herr
      cases herr
    rintro found _ ⟨hgates, rfl⟩
    have hsame : StopsHalfway deny h r claim d ↔
        Archivable deny h r st found (locked claim d) ∧
          Halfway deny h (archivedDigest h r st (locked claim d)) (locked claim d)
            (targets found (archivedDigest h r st (locked claim d))) := by
      constructor
      · rintro ⟨st', found', hread', hgates', hrest⟩
        obtain rfl := Option.some.inj (Except.ok.inj (hread.symm.trans hread'))
        obtain rfl := Except.ok.inj (hgates.symm.trans hgates')
        exact hrest
      · exact fun hrest => ⟨st, found, hread, hgates, hrest⟩
    have hstage : Preserves (OnlyArchives (locked claim d)) (archiveRunUnder deny h r st found
        (archiveNameFor st.runId st.state r.shippedCommit)) := archiveRunUnder_onlyArchives
    refine ensures_bind (ensures_landing (ensures_raising (ensures_mono (hstage _ hstart)
      (fun _ _ => trivial) (fun _ _ hu => hu) fun _ _ hu => hu) fun e herr hu => ?_)
      fun p x hl => hl) ?_
    · refine removes_nothing_before hu fun hstops => ?_
      obtain ⟨p, t, hok, -⟩ := archiveRunUnder_iff.2 (hsame.1 hstops).1
      rw [hok] at herr
      cases herr
    rintro p x hl
    have hlock : x.files .lock ≠ none := by
      obtain ⟨_, rfl⟩ := (archiveRun_lands (m := p.1) (archiveRunUnder_lands.1 hl).1).1
      exact fun hnone => nomatch hnone
    have harchivable : Archivable deny h r st found (locked claim d) :=
      archiveRunUnder_iff.1 ⟨p, x, hl⟩
    refine ensures_bind (R := fun _ _ => ¬ StopsHalfway deny h r claim d)
      (ensures_mono (ensures_both (removals_stop hgates hl) (cleanupUnder_lock x hlock))
        (fun _ _ => trivial) ?_ ?_) fun _ t hbefore => ?_
    · rintro _ t ⟨hall, -⟩ hstops
      obtain ⟨before, y, after, heq, hy, -⟩ := (hsame.1 hstops).2
      exact hall y (by rw [heq]; exact List.mem_append_right _ List.mem_cons_self) hy
    · rintro _ t ⟨hiff, hlock⟩
      have hlocked : NothingRemoved d t ↔ NothingRemoved (locked claim d) t :=
        nothingRemoved_locked hlock
      rw [hlocked, hiff, hsame, not_and]
      exact ⟨fun hnot _ => hnot, fun hnot => hnot harchivable⟩
    · exact ensures_bind (R := fun _ _ => ¬ StopsHalfway deny h r claim d) (ensures_read hbefore)
        fun _ _ hv => ensures_return _ hv

/-- A refused call removed nothing exactly when it does not stop halfway. -/
theorem refused_removes_nothing_iff (deny : Denials) (h : Host) (r : Request) (claim : Bytes)
    (d : Disk) :
    (∀ e, (finalizeUnder deny h r claim d).result = .error e →
      NothingRemoved d (finalizeUnder deny h r claim d).state) ↔
        ¬ StopsHalfway deny h r claim d := by
  have hend := (finalizeUnder_stops deny h r claim d).2
  cases hr : (finalizeUnder deny h r claim d).result with
  | ok res =>
    rw [hr] at hend
    exact iff_of_true (fun e he => nomatch he) hend
  | error e =>
    rw [hr] at hend
    exact ⟨fun hall => hend.1 (hall e rfl), fun hnot e' _ => hend.2 hnot⟩

theorem setFile_files_ne {f g : StateFile} (hne : f ≠ g) (n : Option Node) :
    (d.setFile g n).files f = d.files f := Function.update_of_ne hne _ _

/-- The archive of the first call stands and the events have changed since: the
second call unlinks the state document, then refuses the events. -/
theorem drifted_events_refused :
    (∃ e, (finalizeUnder .nothing sampleHost sampleRequest [7] driftedDisk).result = .error e) ∧
      ¬ NothingRemoved driftedDisk
        (finalizeUnder .nothing sampleHost sampleRequest [7] driftedDisk).state := by
  obtain ⟨-, -, -, hstate, -, -, -, -, -, -, hrefused, hgone⟩ := sample_calls
  rw [finalizeUnder_nothing]
  constructor
  · cases hr : (finalize sampleHost sampleRequest [7] driftedDisk).result with
    | ok res =>
      rw [hr] at hrefused
      cases hrefused
    | error e => exact ⟨e, rfl⟩
  · intro hnothing
    have hkept : driftedDisk.files .state ≠ none := by
      rwa [driftedDisk, setFile_files_ne (by decide)]
    exact hnothing.document .state hkept hgone

end RagPipeline.Finalization
