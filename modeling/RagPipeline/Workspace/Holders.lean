import RagPipeline.Workspace.Residue

/-! # Every holder is named, and which records can be removed

At every moment of every run a holder directory has its record. A record whose
holder is there can be removed; one whose holder is not there is refused by
`remove` and only listed by `find_orphans`. -/

set_option autoImplicit false

namespace RagPipeline.Workspace

open Transition

variable {I P : Type}

/-- The workspace a call is working on. -/
def State.under (s : State I P) : Option (I × Stage) :=
  s.call.bind fun c =>
    match c.phase with
    | .under id stage => some (id, stage)
    | _ => none

theorem under_of_phase {s : State I P} {c : Call I P} {id : I} {stage : Stage}
    (hc : s.call = some c) (h : c.phase = .under id stage) : s.under = some (id, stage) := by
  simp [State.under, hc, h]

theorem under_of_ended {s : State I P} {c : Call I P} {e : Ending I} (hc : s.call = some c)
    (h : c.phase = .ended e) : s.under = none := by
  simp [State.under, hc, h]

theorem under_of_atRest {s : State I P} (h : s.AtRest) : s.under = none := by
  cases hc : s.call with
  | none => simp [State.under, hc]
  | some c =>
    obtain ⟨e, he⟩ := h c hc
    exact under_of_ended hc he

theorem atRest_iff {s : State I P} : s.atRest = true ↔ s.AtRest := by
  cases hc : s.call with
  | none => simp [State.atRest, State.AtRest, hc]
  | some c => cases hp : c.phase <;> simp [State.atRest, State.AtRest, hc, hp]

/-- What a step of the system does to the disk and to the workspace under way. -/
inductive Move [LinearOrder I] [DecidableEq P] (place : Place I P) (s : State I P)
    (e : Event I P) (s' : State I P) : Prop where
  | calm (disk : s'.disk = s.disk) (before : s.under = none) (after : s'.under = none)
  | register (id : I) (c : Call I P) (now : String)
      (event : ∃ choice : Choice I, e = .run choice ∧ choice.id = id)
      (disk : s'.disk = s.disk.writeRecord id (c.registered place id now))
      (before : s.under = none) (after : s'.under = some (id, .advancing))
  | resolve (id : I) (disk : s'.disk = s.disk) (before : s.under = none)
      (after : s'.under = some (id, .deleting)) (record : id ∈ s.disk.records)
      (holder : id ∈ s.disk.holders)
  | stage (id : I) (stage : Stage) (choice : Choice I) (c c' : Call I P)
      (event : e = .run choice) (before : s.under = some (id, stage)) (call : s'.call = some c')
      (step : advanceStage place choice s.disk c id stage = (s'.disk, c'))
  | death (id : I) (stage : Stage) (event : e = .die) (disk : s'.disk = s.disk)
      (before : s.under = some (id, stage)) (after : s'.under = none)

section
variable [LinearOrder I] [DecidableEq P] {place : Place I P} {s s' : State I P} {e : Event I P}
  {d : Disk I} {id : I} {repo : P}

/-- What `_assert_removable` has found. -/
theorem assertRemovable_ok {workspaceId : Option I}
    (h : assertRemovable place repo d workspaceId = .ok id) :
    workspaceId = some id ∧ id ∈ d.records ∧ id ∈ d.holders := by
  cases workspaceId with
  | none => cases h
  | some w =>
    cases hload : d.load w with
    | error message => simp [assertRemovable, authorisedRecord, hload, bind, Except.bind] at h
    | ok record =>
      have hrecord : w ∈ d.records := mem_records_iff.2 ⟨record, load_ok hload⟩
      simp only [assertRemovable, authorisedRecord, hload, bind, Except.bind] at h
      by_cases howner : record.repoId = place.repoIdentity repo
      · by_cases hw : w ∈ d.holders
        · simp [howner, hw, place.apart] at h
          exact ⟨congrArg some h, h ▸ hrecord, h ▸ hw⟩
        · simp [howner, hw, place.apart] at h
      · simp [howner] at h

theorem move_of_run {choice : Choice I} {c c' : Call I P} {d' : Disk I} (hc : s.call = some c)
    (h : advance place choice s.disk c = some (d', c')) :
    Move place s (.run choice) ⟨d', some c'⟩ := by
  cases hp : c.phase with
  | ended e => simp [advance, hp] at h
  | reading =>
    have hbefore : s.under = none := by simp [State.under, hc, hp]
    simp only [advance, hp, Option.some.injEq, Prod.mk.injEq] at h
    obtain ⟨rfl, rfl⟩ := h
    refine .calm rfl hbefore ?_
    by_cases hok : choice.ok = true <;> by_cases hempty : c.girisler = [] <;>
      simp [State.under, Call.finish, hok, hempty]
  | registering =>
    have hbefore : s.under = none := by simp [State.under, hc, hp]
    simp only [advance, hp, Option.some.injEq] at h
    split_ifs at h with hok
    · cases h
      exact .register choice.id c choice.now ⟨choice, rfl, rfl⟩ rfl hbefore rfl
    · cases h
      exact .calm rfl hbefore rfl
  | under id stage =>
    simp only [advance, hp, Option.some.injEq] at h
    exact .stage id stage choice c c' rfl (under_of_phase hc hp) rfl h
  | binding workspaceId =>
    simp only [advance, hp, Option.some.injEq] at h
    cases h
    exact .calm rfl (by simp [State.under, hc, hp]) rfl
  | asserting workspaceId =>
    have hbefore : s.under = none := by simp [State.under, hc, hp]
    simp only [advance, hp, Option.some.injEq, Prod.mk.injEq] at h
    obtain ⟨rfl, rfl⟩ := h
    cases hassert : assertRemovable place c.repo s.disk workspaceId with
    | error message => exact .calm rfl hbefore rfl
    | ok id =>
      obtain ⟨-, hrecord, hholder⟩ := assertRemovable_ok hassert
      exact .resolve id rfl hbefore rfl hrecord hholder
  | listing runId =>
    simp only [advance, hp, Option.some.injEq] at h
    cases h
    exact .calm rfl (by simp [State.under, hc, hp]) rfl

theorem move_of_exec (h : exec place s e = some s') : Move place s e s' := by
  cases e with
  | start request =>
    simp only [exec] at h
    split_ifs at h with hrest
    cases h
    refine .calm rfl (under_of_atRest (atRest_iff.1 hrest)) ?_
    cases request <;> rfl
  | run choice =>
    obtain ⟨c, hc, h⟩ := Option.bind_eq_some_iff.1 h
    obtain ⟨⟨d', c'⟩, hadvance, h⟩ := Option.map_eq_some_iff.1 h
    cases h
    exact move_of_run hc hadvance
  | die =>
    simp only [exec] at h
    split_ifs at h with hrest
    cases h
    have hafter : (State.mk s.disk (s.call.map fun c => c.finish .died)).under = none := by
      cases hc : s.call <;> rfl
    cases hunder : s.under with
    | none => exact .calm rfl hunder hafter
    | some w => exact .death w.1 w.2 rfl rfl hunder hafter

end

/-- Between steps: holders are named, records belong to a repository, and the
workspace under way is as its stage says. -/
structure Inv [LinearOrder I] (place : Place I P) (s : State I P) : Prop where
  named : ∀ id ∈ s.disk.holders, id ∈ s.disk.records
  owned : ∀ id r, s.disk.records.lookup id = some r → ∃ repo, r.repoId = place.repoIdentity repo
  stage : ∀ id stage, s.under = some (id, stage) → id ∈ s.disk.records ∧ Holds s.disk id stage

/-- A call dies only while the holder of its workspace is there, and the unlink
of a record does not fail. -/
def Tidy [LinearOrder I] (s : State I P) (e : Event I P) : Prop :=
  ∀ id stage, s.under = some (id, stage) →
    match e with
    | .start _ => True
    | .run choice => stage.unlinks = true → choice.ok = true
    | .die => stage.exposed = true → id ∈ s.disk.holders

/-- No record without its holder, but that of the workspace under way. -/
def Covered [LinearOrder I] (s : State I P) : Prop :=
  ∀ id ∈ s.disk.records, id ∈ s.disk.holders ∨ ∃ stage, s.under = some (id, stage)

section
variable [LinearOrder I] [DecidableEq P] {place : Place I P} {s s' : State I P} {e : Event I P}

theorem mem_records_frame {d d' : Disk I} {id other : I} (hf : Frame d d' id) (h : other ≠ id) :
    other ∈ d'.records ↔ other ∈ d.records := by
  rw [mem_records_iff, mem_records_iff, hf.records other h]

theorem inv_move (hi : Inv place s) (h : Move place s e s') : Inv place s' := by
  cases h with
  | calm disk before after =>
    exact ⟨disk ▸ hi.named, disk ▸ hi.owned, fun id stage h => by rw [after] at h; cases h⟩
  | register id c now event disk before after =>
    refine ⟨fun other h => ?_, fun other r h => ?_, fun other stage h => ?_⟩
    · rw [disk] at h ⊢
      exact mem_records_writeRecord.2 (.inr (hi.named other h))
    · rw [disk] at h
      by_cases ho : other = id
      · subst ho
        have heq : c.registered place other now = r := by simpa [Disk.writeRecord] using h
        exact ⟨c.repo, heq ▸ rfl⟩
      · exact hi.owned other r ((AList.lookup_insert_ne ho).symm.trans h)
    · rw [after] at h
      cases h
      exact ⟨disk ▸ mem_records_writeRecord.2 (.inl rfl), trivial⟩
  | resolve id disk before after record holder =>
    refine ⟨disk ▸ hi.named, disk ▸ hi.owned, fun other stage h => ?_⟩
    rw [after] at h
    cases h
    exact ⟨disk ▸ record, disk ▸ holder⟩
  | stage id stage choice c c' event before call step =>
    obtain ⟨hrecord, hholds⟩ := hi.stage id stage before
    obtain ⟨hf, hleft⟩ := advanceStage_left hrecord hholds step
    refine ⟨fun other h => ?_, fun other r h => ?_, fun other stage' h => ?_⟩
    · by_cases ho : other = id
      · subst ho
        cases hleft with
        | on _ _ record _ => exact record
        | kept _ _ record _ _ => exact record
        | gone _ _ _ holder _ => exact absurd h holder
        | lost _ _ record _ _ _ => exact record
      · exact (mem_records_frame hf ho).2 (hi.named other ((hf.holders other ho).1 h))
    · by_cases ho : other = id
      · subst ho
        obtain ⟨r₀, hr₀, howner⟩ := hf.owner r h
        rw [howner]
        exact hi.owned other r₀ hr₀
      · exact hi.owned other r (hf.records other ho ▸ h)
    · cases hleft with
      | on stage'' phase record holds =>
        cases (under_of_phase call phase).symm.trans h
        exact ⟨record, holds⟩
      | kept e phase _ _ _ => cases (under_of_ended call phase).symm.trans h
      | gone e phase _ _ _ => cases (under_of_ended call phase).symm.trans h
      | lost e phase _ _ _ _ => cases (under_of_ended call phase).symm.trans h
  | death id stage event disk before after =>
    exact ⟨disk ▸ hi.named, disk ▸ hi.owned, fun other stage h => by rw [after] at h; cases h⟩

theorem reachable_inv (h : (system place).Reachable s) : Inv place s := by
  refine System.invariant (fun s hs => ?_) (fun s e s' _ hi hs =>
    inv_move hi (move_of_exec (show exec place s e = some s' from hs))) h
  obtain ⟨hdisk, hcall⟩ := hs
  refine ⟨fun id h => ?_, fun id r h => ?_, fun id stage h => ?_⟩
  · rw [hdisk] at h
    exact absurd h (AList.notMem_empty id)
  · rw [hdisk] at h
    cases h
  · simp [State.under, hcall] at h

theorem covered_move (hi : Inv place s) (hcover : Covered s) (ht : Tidy s e)
    (h : Move place s e s') : Covered s' := by
  cases h with
  | calm disk before after =>
    intro id hid
    rcases hcover id (disk ▸ hid) with h | ⟨stage, h⟩
    · exact .inl (disk ▸ h)
    · rw [before] at h
      cases h
  | register id c now event disk before after =>
    intro other hother
    rw [disk] at hother ⊢
    rcases mem_records_writeRecord.1 hother with rfl | hother
    · exact .inr ⟨_, after⟩
    · rcases hcover other hother with h | ⟨stage, h⟩
      · exact .inl h
      · rw [before] at h
        cases h
  | resolve id disk before after record holder =>
    intro other hother
    rcases hcover other (disk ▸ hother) with h | ⟨stage, h⟩
    · exact .inl (disk ▸ h)
    · rw [before] at h
      cases h
  | stage id stage choice c c' event before call step =>
    obtain ⟨hrecord, hholds⟩ := hi.stage id stage before
    obtain ⟨hf, hleft⟩ := advanceStage_left hrecord hholds step
    intro other hother
    by_cases ho : other = id
    · subst ho
      cases hleft with
      | on stage' phase _ _ => exact .inr ⟨stage', under_of_phase call phase⟩
      | kept _ _ _ holder _ => exact .inl holder
      | gone _ _ record _ _ => exact absurd hother record
      | lost _ _ _ _ unlinks failed =>
        have hok : choice.ok = true := by
          have htidy := ht other stage before
          rw [event] at htidy
          exact htidy unlinks
        rw [failed] at hok
        cases hok
    · rcases hcover other ((mem_records_frame hf ho).1 hother) with h | ⟨stage', h⟩
      · exact .inl ((hf.holders other ho).2 h)
      · cases before.symm.trans h
        exact absurd rfl ho
  | death id stage event disk before after =>
    intro other hother
    rcases hcover other (disk ▸ hother) with h | ⟨stage', h⟩
    · exact .inl (disk ▸ h)
    · cases before.symm.trans h
      have hholder : id ∈ s.disk.holders := by
        cases hexposed : stage.exposed with
        | false => exact holder_of_covered (hi.stage id stage before).2 hexposed
        | true =>
          have htidy := ht id stage before
          rw [event] at htidy
          exact htidy hexposed
      exact .inl (disk ▸ hholder)

theorem tidy_covered (h : ((system place).only Tidy).Reachable s) : Covered s := by
  refine System.invariant (fun s hs id hid => ?_) (fun s e s' hr hcover hstep => ?_) h
  · obtain ⟨hdisk, -⟩ := hs
    rw [hdisk] at hid
    exact absurd hid (AList.notMem_empty id)
  · exact covered_move (reachable_inv (System.reachable_of_only hr)) hcover hstep.1
      (move_of_exec hstep.2)

/-- A step that ends a call leaves every record its holder just where it is tidy. -/
theorem holders_iff_tidy (hi : Inv place s) (hcover : Covered s) (h : Move place s e s')
    (hrest : s'.under = none) :
    (∀ id ∈ s'.disk.records, id ∈ s'.disk.holders) ↔ Tidy s e := by
  constructor
  · intro hall id stage hunder
    cases h with
    | calm disk before after =>
      rw [before] at hunder
      cases hunder
    | register id c now event disk before after =>
      rw [before] at hunder
      cases hunder
    | resolve id disk before after record holder =>
      rw [before] at hunder
      cases hunder
    | stage id' stage' choice c c' event before call step =>
      cases before.symm.trans hunder
      subst event
      obtain ⟨hrecord, hholds⟩ := hi.stage id stage hunder
      intro hunlinks
      cases (advanceStage_left hrecord hholds step).2 with
      | on stage'' phase _ _ => cases (under_of_phase call phase).symm.trans hrest
      | kept _ _ _ _ stays =>
        rw [hunlinks] at stays
        cases stays
      | gone _ _ _ _ done => exact done
      | lost _ _ record holder _ _ => exact absurd (hall id record) holder
    | death id' stage' event disk before after =>
      cases before.symm.trans hunder
      subst event
      intro _
      exact disk ▸ hall id (disk ▸ (hi.stage id stage hunder).1)
  · intro htidy id hid
    rcases covered_move hi hcover htidy h id hid with h | ⟨stage, h⟩
    · exact h
    · rw [hrest] at h
      cases h

end

end RagPipeline.Workspace
