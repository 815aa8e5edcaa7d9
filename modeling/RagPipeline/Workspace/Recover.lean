import RagPipeline.Workspace.Holders

/-! # A further `remove`

Where a record is left without its holder, `remove` refuses for good: it asks
for the directory before it would unlink the record. -/

set_option autoImplicit false

namespace RagPipeline.Workspace

open Transition

variable {I P : Type} [LinearOrder I] [DecidableEq P]

section
variable (place : Place I P)

/-- The call under way, run on for a number of steps. -/
def after (choices : ℕ → Choice I) (s : State I P) : ℕ → State I P
  | 0 => s
  | n + 1 => (exec place (after choices s n) (.run (choices n))).getD (after choices s n)

/-- A `remove` on the disk `d`, at its start. -/
def removing (d : Disk I) (id : I) (repo : P) : State I P :=
  ⟨d, some (Request.remove repo (some id)).call⟩

/-- The call has ended as `remove` should, with neither directory nor record. -/
def State.Removed (s : State I P) (id : I) : Prop :=
  (∃ c, s.call = some c ∧ c.phase = .ended .removed) ∧ id ∉ s.disk.holders ∧ id ∉ s.disk.records

/-- Some repository's further `remove` completes, whatever order its tree goes
in, where no system call fails. -/
def Removable (d : Disk I) (id : I) : Prop :=
  ∃ repo, ∀ choices : ℕ → Choice I, (∀ n, (choices n).ok = true) →
    ∃ n, (after place choices (removing d id repo) n).Removed id

end

variable {place : Place I P} {choices : ℕ → Choice I} {s s' : State I P} {d : Disk I} {id : I}
  {repo : P}

theorem after_succ {n : ℕ} (h : after place choices s n = s') {t : State I P}
    (hstep : exec place s' (.run (choices n)) = some t) : after place choices s (n + 1) = t := by
  rw [after, h, hstep, Option.getD_some]

theorem assertRemovable_of {r : Record I} (hr : d.records.lookup id = some r)
    (howner : r.repoId = place.repoIdentity repo) (hh : id ∈ d.holders) :
    assertRemovable place repo d (some id) = .ok id := by
  simp [assertRemovable, authorisedRecord, load_of_lookup hr, bind, Except.bind, howner, hh,
    place.apart]

theorem assertRemovable_refuses (place : Place I P) (repo : P) (hh : id ∉ d.holders) :
    ∃ message, assertRemovable place repo d (some id) = .error message := by
  cases h : assertRemovable place repo d (some id) with
  | error message => exact ⟨message, rfl⟩
  | ok w =>
    obtain ⟨hw, -, hholder⟩ := assertRemovable_ok h
    cases hw
    exact absurd hholder hh

theorem entries_rmtreeStep {e : Entry I} {rest : List (Entry I)} (h : d.entries id = e :: rest)
    (entry : ℕ) : ((rmtreeStep d id entry).entries id).length = rest.length := by
  have hlt : entry % (rest.length + 1) < rest.length + 1 := Nat.mod_lt _ (Nat.succ_pos _)
  have hstep : rmtreeStep d id entry =
      d.setHolder id ((e :: rest).eraseIdx (entry % (e :: rest).length)) := by
    simp only [rmtreeStep, h]
  rw [hstep, Disk.entries, Disk.setHolder, AList.lookup_insert, Option.getD_some,
    List.length_eraseIdx_of_lt (by simpa using hlt)]
  rfl

/-- `rmtree` takes as many steps as the tree has entries, and one for the
directory. -/
theorem deleting_completes (hok : ∀ n, (choices n).ok = true) (k : ℕ) :
    ∀ (n : ℕ) (d' : Disk I) (c : Call I P),
      after place choices s n = ⟨d', some (c.at id .deleting)⟩ → (d'.entries id).length = k →
      ∃ m, (after place choices s m).Removed id := by
  induction k with
  | zero =>
    intro n d' c hn hk
    have hempty : d'.entries id = [] := List.length_eq_zero_iff.1 hk
    have hgone := after_succ hn (t := ⟨rmtreeStep d' id (choices n).entry,
      some ((c.at id .deleting).at id .unlinking)⟩)
      (by simp [exec, advance, Call.at, advanceStage, hok n, hempty])
    have hdone := after_succ hgone (t := ⟨(rmtreeStep d' id (choices n).entry).dropRecord id,
      some (((c.at id .deleting).at id .unlinking).finish .removed)⟩)
      (by simp [exec, advance, Call.at, advanceStage, hok (n + 1)])
    refine ⟨n + 2, ⟨_, congrArg State.call hdone, rfl⟩, ?_, ?_⟩
    · rw [hdone]
      exact gone_rmtreeStep hempty
    · rw [hdone]
      simp
  | succ k ih =>
    intro n d' c hn hk
    obtain ⟨e, rest, hcons⟩ := List.exists_cons_of_length_eq_add_one hk
    have hnext := after_succ hn (t := ⟨rmtreeStep d' id (choices n).entry,
      some ((c.at id .deleting).at id .deleting)⟩)
      (by simp [exec, advance, Call.at, advanceStage, hok n, hcons])
    refine ih (n + 1) _ _ hnext ?_
    rw [entries_rmtreeStep hcons]
    simpa [hcons] using hk

theorem removable_of_holder (hi : Inv place s) (hr : id ∈ s.disk.records)
    (hh : id ∈ s.disk.holders) : Removable place s.disk id := by
  obtain ⟨r, hlookup⟩ := mem_records_iff.1 hr
  obtain ⟨repo, howner⟩ := hi.owned id r hlookup
  refine ⟨repo, fun choices hok => ?_⟩
  have hassert := assertRemovable_of hlookup howner hh
  have hzero : after place choices (removing s.disk id repo) 0 = removing s.disk id repo := rfl
  have hstart := after_succ hzero
    (t := ⟨s.disk, some ((Request.remove repo (some id)).call.at id .deleting)⟩)
    (by simp [exec, removing, Request.call, advance, hassert])
  exact deleting_completes hok _ 1 _ _ hstart rfl

/-- Without the holder, the refusal is the only end. -/
theorem after_refused (place : Place I P) (choices : ℕ → Choice I) (repo : P) (hh : id ∉ d.holders)
    (n : ℕ) :
    ∃ c message, after place choices (removing d id repo) n = ⟨d, some c⟩ ∧
      (c.phase = .asserting (some id) ∧ c.repo = repo ∨ c.phase = .ended (.refused message false)) := by
  induction n with
  | zero => exact ⟨_, "", rfl, .inl ⟨rfl, rfl⟩⟩
  | succ n ih =>
    obtain ⟨c, message, heq, ⟨hp, rfl⟩ | hp⟩ := ih
    · obtain ⟨message, hrefused⟩ := assertRemovable_refuses place c.repo hh
      refine ⟨_, message, after_succ heq (t := ⟨d, some (c.finish (.refused message false))⟩) ?_,
        .inr rfl⟩
      simp [exec, advance, hp, hrefused]
    · refine ⟨c, message, ?_, .inr hp⟩
      rw [after, heq]
      simp [exec, advance, hp]

theorem holder_of_removable (hr : id ∈ d.records) (h : Removable place d id) : id ∈ d.holders := by
  by_contra hh
  obtain ⟨repo, hcompletes⟩ := h
  obtain ⟨n, -, -, hgone⟩ := hcompletes (fun _ => ⟨true, id, "", "", 0⟩) fun _ => rfl
  obtain ⟨c, message, heq, -⟩ := after_refused place (fun _ => ⟨true, id, "", "", 0⟩) repo hh n
  rw [heq] at hgone
  exact hgone hr

theorem removable_iff (hi : Inv place s) :
    (∀ id ∈ s.disk.records, Removable place s.disk id) ↔
      ∀ id ∈ s.disk.records, id ∈ s.disk.holders :=
  ⟨fun h id hid => holder_of_removable hid (h id hid),
    fun h id hid => removable_of_holder hi hid (h id hid)⟩

/-- A record without its holder that no call is working on. -/
structure Lost (s : State I P) (id : I) : Prop where
  record : id ∈ s.disk.records
  holder : id ∉ s.disk.holders
  idle : ∀ stage, s.under ≠ some (id, stage)

/-- The step does not mint the id anew. -/
def MintsOther (id : I) (_ : State I P) : Event I P → Prop
  | .run choice => choice.id ≠ id
  | _ => True

theorem lost_move {e : Event I P} (hi : Inv place s) (hl : Lost s id) (hmint : MintsOther id s e)
    (h : Move place s e s') : Lost s' id := by
  cases h with
  | calm disk before after =>
    exact ⟨disk ▸ hl.record, disk ▸ hl.holder, fun stage h => by rw [after] at h; cases h⟩
  | register other c now event disk before after =>
    obtain ⟨choice, rfl, rfl⟩ := event
    refine ⟨disk ▸ mem_records_writeRecord.2 (.inr hl.record), disk ▸ hl.holder, fun stage h => ?_⟩
    rw [after] at h
    cases h
    exact hmint rfl
  | resolve other disk before after record holder =>
    refine ⟨disk ▸ hl.record, disk ▸ hl.holder, fun stage h => ?_⟩
    rw [after] at h
    cases h
    exact hl.holder holder
  | stage other stage choice c c' event before call step =>
    have hne : id ≠ other := by
      rintro rfl
      exact hl.idle stage before
    obtain ⟨hrecord, hholds⟩ := hi.stage other stage before
    obtain ⟨hf, hleft⟩ := advanceStage_left hrecord hholds step
    refine ⟨(mem_records_frame hf hne).2 hl.record, fun h => hl.holder ((hf.holders id hne).1 h),
      fun stage' h => ?_⟩
    cases hleft with
    | on stage'' phase _ _ =>
      cases (under_of_phase call phase).symm.trans h
      exact hne rfl
    | kept e phase _ _ _ => cases (under_of_ended call phase).symm.trans h
    | gone e phase _ _ _ => cases (under_of_ended call phase).symm.trans h
    | lost e phase _ _ _ _ => cases (under_of_ended call phase).symm.trans h
  | death other stage event disk before after =>
    exact ⟨disk ▸ hl.record, disk ▸ hl.holder, fun stage h => by rw [after] at h; cases h⟩

/-- No call gets rid of a lost record, unless a `create` mints its id again. -/
theorem lost_stays (hs : (system place).Reachable s) (hl : Lost s id)
    (h : ((system place).only (MintsOther id)).Later s s') : Lost s' id := by
  have hboth : (system place).Reachable s' ∧ Lost s' id := by
    induction h with
    | refl => exact ⟨hs, hl⟩
    | tail _ hstep ih =>
      obtain ⟨e, hmint, he⟩ := hstep
      exact ⟨ih.1.next he, lost_move (reachable_inv ih.1) ih.2 hmint (move_of_exec he)⟩
  exact hboth.2

/-- Every holder directory is named by a record, in every state of every run.
Where no call has died in the gap between record and directory and no unlink of
a record has failed, a further `remove` of every record completes; and the call
that first does one of the two leaves a record whose `remove` does not. A record
without its holder stays whatever is called, until its id is minted again. -/
theorem holders_recoverable (place : Place I P) :
    (∀ s, (system place).Reachable s → ∀ id ∈ s.disk.holders, id ∈ s.disk.records) ∧
      (∀ s, ((system place).only Tidy).Reachable s → s.AtRest →
        ∀ id ∈ s.disk.records, Removable place s.disk id) ∧
      (∀ s e s', ((system place).only Tidy).Reachable s → exec place s e = some s' → s'.AtRest →
        ((∀ id ∈ s'.disk.records, Removable place s'.disk id) ↔ Tidy s e)) ∧
      ∀ s, (system place).Reachable s → s.AtRest → ∀ id ∈ s.disk.records, id ∉ s.disk.holders →
        ∀ s', ((system place).only (MintsOther id)).Later s s' → id ∈ s'.disk.records := by
  refine ⟨fun s hs => (reachable_inv hs).named, fun s hs hrest => ?_, fun s e s' hs he hrest => ?_,
    fun s hs hrest id hid hh s' hl => ?_⟩
  · refine (removable_iff (reachable_inv (System.reachable_of_only hs))).2 fun id hid => ?_
    rcases tidy_covered hs id hid with h | ⟨stage, h⟩
    · exact h
    · rw [under_of_atRest hrest] at h
      cases h
  · have hi := reachable_inv (System.reachable_of_only hs)
    have hmove := move_of_exec he
    rw [removable_iff (inv_move hi hmove)]
    exact holders_iff_tidy hi (tidy_covered hs) hmove (under_of_atRest hrest)
  · have hlost : Lost s id := ⟨hid, hh, fun stage h => by
      rw [under_of_atRest hrest] at h
      cases h⟩
    exact (lost_stays hs hlost hl).record

/-- `Tidy`, to be computed. -/
def tidyCheck (s : State I P) (e : Event I P) : Bool :=
  match s.under, e with
  | some (_, stage), .run choice => !stage.unlinks || choice.ok
  | some (id, stage), .die => !stage.exposed || decide (id ∈ s.disk.holders)
  | _, _ => true

omit [DecidableEq P] in
theorem tidy_of_check {e : Event I P} (h : tidyCheck s e = true) : Tidy s e := by
  intro id stage hunder
  cases e with
  | start request => trivial
  | run choice =>
    intro hu
    simpa [tidyCheck, hunder, hu] using h
  | die =>
    intro hx
    simpa [tidyCheck, hunder, hx] using h

/-- A ledger beside the runner's root, with one repository. -/
def place₀ : Place ℕ ℕ where
  tempRoot := 0
  stateDir := 1
  holderFor id := id + 3
  repoPath _ := 2
  repoIdentity _ := "depo"
  baselineDigest l := toString l.length
  digestOf l := toString l.length
  apart id repo := by simp

def create₀ : Event ℕ ℕ := .start (.create 2 "kosu-1" "taban" [⟨"a.py", false, "o", [65]⟩])

def good (identity : String) : Event ℕ ℕ := .run ⟨true, 0, "simdi", identity, 0⟩

/-- A `create` that dies while it materialises. -/
def cut : List (Event ℕ ℕ) :=
  [create₀, good "", good "", good "", good "", good "kok-1", good "kok-2", good "", .die]

/-- One that dies with its record written. -/
def early : List (Event ℕ ℕ) := [create₀, good "", good "", .die]

def emptyState : State ℕ ℕ := ⟨⟨∅, ∅⟩, none⟩

def halfMade : State ℕ ℕ :=
  (System.play (fun s e => if tidyCheck s e then exec place₀ s e else none) emptyState cut).getD
    emptyState

def abandoned : State ℕ ℕ := (System.play (exec place₀) emptyState early).getD emptyState

theorem halfMade_reachable : ((system place₀).only Tidy).Reachable halfMade := by
  have hexec : ∀ s e s', (if tidyCheck s e then exec place₀ s e else none) = some s' →
      ((system place₀).only Tidy).step s e s' := by
    intro s e s' h
    obtain ⟨hcheck, hstep⟩ := Option.ite_none_right_eq_some.1 h
    exact ⟨tidy_of_check hcheck, hstep⟩
  have hsome : (System.play (fun s e => if tidyCheck s e then exec place₀ s e else none)
      emptyState cut).isSome = true := by
    decide +kernel
  obtain ⟨s, hs⟩ := Option.isSome_iff_exists.1 hsome
  have hplay : halfMade = s := by
    rw [halfMade, hs]
    rfl
  rw [hplay]
  exact System.reachable_play hexec (.start ⟨rfl, rfl⟩) hs

theorem holders_recoverable_cut :
    0 ∈ halfMade.disk.records ∧ 0 ∈ halfMade.disk.holders ∧ Removable place₀ halfMade.disk 0 := by
  have hrest : halfMade.AtRest := atRest_iff.1 (by decide +kernel)
  have hrecord : 0 ∈ halfMade.disk.records := by decide +kernel
  exact ⟨hrecord, by decide +kernel,
    (holders_recoverable place₀).2.1 halfMade halfMade_reachable hrest 0 hrecord⟩

theorem abandoned_reachable : (system place₀).Reachable abandoned := by
  have hsome : (System.play (exec place₀) emptyState early).isSome = true := by decide +kernel
  obtain ⟨s, hs⟩ := Option.isSome_iff_exists.1 hsome
  have hplay : abandoned = s := by
    rw [abandoned, hs]
    rfl
  rw [hplay]
  exact System.reachable_play (fun _ _ _ h => h) (.start ⟨rfl, rfl⟩) hs

/-- The record stays, and `find_orphans` goes on listing it. -/
theorem abandoned_record : (system place₀).Reachable abandoned ∧ abandoned.AtRest ∧
    0 ∈ abandoned.disk.records ∧ ¬ Removable place₀ abandoned.disk 0 ∧
      findOrphans place₀ 2 abandoned.disk none = [⟨0, "kosu-1", .registered, false⟩] := by
  have hrecord : 0 ∈ abandoned.disk.records := by decide +kernel
  have hholder : 0 ∉ abandoned.disk.holders := by decide +kernel
  exact ⟨abandoned_reachable, atRest_iff.1 (by decide +kernel), hrecord,
    fun h => hholder (holder_of_removable hrecord h), by decide +kernel⟩

end RagPipeline.Workspace
