import RagPipeline.Workspace.Calls

/-! # What a call leaves behind

One step of a call touches its own workspace only. `Holds` says, stage by
stage, whether the holder directory of the workspace under way is there; its
record always is. -/

set_option autoImplicit false

namespace RagPipeline.Workspace

variable {I P : Type}

section
variable [DecidableEq I] {d : Disk I} {id other : I} {r : Record I} {l : List (Entry I)}

@[simp] theorem holders_writeRecord : (d.writeRecord id r).holders = d.holders := rfl

@[simp] theorem holders_dropRecord : (d.dropRecord id).holders = d.holders := rfl

@[simp] theorem records_setHolder : (d.setHolder id l).records = d.records := rfl

@[simp] theorem records_dropHolder : (d.dropHolder id).records = d.records := rfl

@[simp] theorem records_addEntry (e : Entry I) : (d.addEntry id e).records = d.records := rfl

@[simp] theorem mem_holders_setHolder :
    other ∈ (d.setHolder id l).holders ↔ other = id ∨ other ∈ d.holders := AList.mem_insert _

@[simp] theorem mem_holders_addEntry (e : Entry I) :
    other ∈ (d.addEntry id e).holders ↔ other = id ∨ other ∈ d.holders := AList.mem_insert _

@[simp] theorem mem_holders_dropHolder :
    other ∈ (d.dropHolder id).holders ↔ other ≠ id ∧ other ∈ d.holders := AList.mem_erase

@[simp] theorem mem_records_writeRecord :
    other ∈ (d.writeRecord id r).records ↔ other = id ∨ other ∈ d.records := AList.mem_insert _

@[simp] theorem mem_records_dropRecord :
    other ∈ (d.dropRecord id).records ↔ other ≠ id ∧ other ∈ d.records := AList.mem_erase

theorem mem_records_iff : id ∈ d.records ↔ ∃ r, d.records.lookup id = some r := by
  rw [← AList.lookup_isSome, Option.isSome_iff_exists]

theorem load_ok (h : d.load id = .ok r) : d.records.lookup id = some r := by
  unfold Disk.load at h
  split at h
  · cases h
  · cases h
    assumption

theorem load_of_lookup (h : d.records.lookup id = some r) : d.load id = .ok r := by
  unfold Disk.load
  rw [h]

/-- A status change leaves a record to its repository. -/
theorem transition_ok {status : Status} {changes : Option Evidence}
    {hready : status = .ready → changes.isSome} {r' : Record I}
    (h : d.transition id status changes hready = .ok r') :
    ∃ r, d.records.lookup id = some r ∧ r'.repoId = r.repoId := by
  unfold Disk.transition at h
  cases hload : d.load id with
  | error message =>
    rw [hload] at h
    cases h
  | ok r =>
    rw [hload] at h
    replace h : (if status ∈ r.status.allowed then _ else _) = Except.ok r' := h
    split_ifs at h
    cases h
    exact ⟨r, load_ok hload, rfl⟩

end

/-- Whether the holder of a workspace is there in a stage of its call. -/
def Holds [DecidableEq I] (d : Disk I) (id : I) : Stage → Prop
  | .advancing => True
  | .making => True
  | .judging _ cleaned => cleaned = false → id ∈ d.holders
  | .dropping _ => id ∉ d.holders
  | .unlinking => id ∉ d.holders
  | .materialising _ _ => id ∈ d.holders
  | .comparing => id ∈ d.holders
  | .marking _ => id ∈ d.holders
  | .inspecting _ => id ∈ d.holders
  | .finishing _ => id ∈ d.holders
  | .clearing _ => id ∈ d.holders
  | .failing _ => id ∈ d.holders
  | .deleting => id ∈ d.holders

/-- The stages in which a record may be there without its holder. -/
def Stage.exposed : Stage → Bool
  | .advancing => true
  | .making => true
  | .judging _ _ => true
  | .dropping _ => true
  | .unlinking => true
  | _ => false

/-- The stages whose step unlinks the record. -/
def Stage.unlinks : Stage → Bool
  | .dropping _ => true
  | .unlinking => true
  | _ => false

theorem holder_of_covered [DecidableEq I] {d : Disk I} {id : I} {stage : Stage}
    (h : Holds d id stage) (hs : stage.exposed = false) : id ∈ d.holders := by
  cases stage <;> first | exact h | cases hs

/-- What a step leaves of other workspaces, and of the owner of its own. -/
structure Frame [DecidableEq I] (d d' : Disk I) (id : I) : Prop where
  records : ∀ other, other ≠ id → d'.records.lookup other = d.records.lookup other
  holders : ∀ other, other ≠ id → (other ∈ d'.holders ↔ other ∈ d.holders)
  owner : ∀ r', d'.records.lookup id = some r' →
    ∃ r, d.records.lookup id = some r ∧ r'.repoId = r.repoId

section
variable [DecidableEq I] {d : Disk I} {id : I}

theorem Frame.refl : Frame d d id :=
  ⟨fun _ _ => rfl, fun _ _ => Iff.rfl, fun r' h => ⟨r', h, rfl⟩⟩

theorem frame_setHolder (l : List (Entry I)) : Frame d (d.setHolder id l) id :=
  ⟨fun _ _ => rfl, fun _ ho => by simp [ho], fun r' h => ⟨r', h, rfl⟩⟩

theorem frame_dropHolder : Frame d (d.dropHolder id) id :=
  ⟨fun _ _ => rfl, fun _ ho => by simp [ho], fun r' h => ⟨r', h, rfl⟩⟩

theorem frame_dropRecord : Frame d (d.dropRecord id) id where
  records other ho := AList.lookup_erase_ne ho
  holders _ _ := Iff.rfl
  owner r' h := by simp [Disk.dropRecord] at h

theorem frame_writeRecord {r r' : Record I} (hr : d.records.lookup id = some r)
    (ho : r'.repoId = r.repoId) : Frame d (d.writeRecord id r') id where
  records other h := AList.lookup_insert_ne h
  holders _ _ := Iff.rfl
  owner r'' h := by
    have heq : r' = r'' := by simpa [Disk.writeRecord] using h
    exact ⟨r, hr, heq ▸ ho⟩

theorem records_rmtreeStep (entry : ℕ) : (rmtreeStep d id entry).records = d.records := by
  unfold rmtreeStep
  split <;> rfl

theorem gone_rmtreeStep {entry : ℕ} (h : d.entries id = []) :
    id ∉ (rmtreeStep d id entry).holders := by
  simp [rmtreeStep, h]

theorem holder_rmtreeStep {entry : ℕ} {e : Entry I} {rest : List (Entry I)}
    (h : d.entries id = e :: rest) : id ∈ (rmtreeStep d id entry).holders := by
  simp [rmtreeStep, h]

theorem frame_rmtreeStep (entry : ℕ) : Frame d (rmtreeStep d id entry) id := by
  unfold rmtreeStep
  split
  · exact frame_dropHolder
  · exact frame_setHolder _

end

/-- How a step ends for its workspace: it goes on, or both its record and its
holder are there, or neither, or the unlink of the record has failed. -/
inductive Left [DecidableEq I] (choice : Choice I) (stage : Stage) (d' : Disk I) (id : I)
    (c' : Call I P) : Prop where
  | on (stage' : Stage) (phase : c'.phase = .under id stage') (record : id ∈ d'.records)
      (holds : Holds d' id stage')
  | kept (e : Ending I) (phase : c'.phase = .ended e) (record : id ∈ d'.records)
      (holder : id ∈ d'.holders) (stays : stage.unlinks = false)
  | gone (e : Ending I) (phase : c'.phase = .ended e) (record : id ∉ d'.records)
      (holder : id ∉ d'.holders) (done : choice.ok = true)
  | lost (e : Ending I) (phase : c'.phase = .ended e) (record : id ∈ d'.records)
      (holder : id ∉ d'.holders) (unlinks : stage.unlinks = true) (failed : choice.ok = false)

section
variable [LinearOrder I] {place : Place I P} {choice : Choice I} {d d' : Disk I}
  {c c' : Call I P} {id : I} {stage : Stage}

/-- A change of status, whatever comes of it. -/
theorem withStatus_cases (ok : Bool) (status : Status) (changes : Option Evidence)
    (hready : status = .ready → changes.isSome) (next : Call I P) (failed : String → Call I P)
    (hr : id ∈ d.records) :
    ∃ d' c', withStatus d id ok (d.transition id status changes hready) next failed = (d', c') ∧
      Frame d d' id ∧ (∀ other, other ∈ d'.holders ↔ other ∈ d.holders) ∧ id ∈ d'.records ∧
        (c' = next ∨ ∃ message, c' = failed message) := by
  unfold withStatus
  cases h : d.transition id status changes hready with
  | error message =>
    exact ⟨d, _, rfl, .refl, fun _ => Iff.rfl, hr, .inr ⟨message, rfl⟩⟩
  | ok record =>
    obtain ⟨r, hlookup, howner⟩ := transition_ok h
    cases ok with
    | false => exact ⟨d, _, rfl, .refl, fun _ => Iff.rfl, hr, .inr ⟨_, rfl⟩⟩
    | true =>
      exact ⟨_, _, rfl, frame_writeRecord hlookup howner, fun _ => Iff.rfl, by simp, .inl rfl⟩

/-- A failure past the `mkdir` goes on to the removal of the tree. -/
theorem left_owner {message : String} (hr : id ∈ d.records) (hh : id ∈ d.holders) :
    Frame d d id ∧ Left choice stage d id (c.owner id message) :=
  ⟨.refl, .on (.clearing message) rfl hr hh⟩

theorem advanceStage_left (hr : id ∈ d.records) (hh : Holds d id stage)
    (h : advanceStage place choice d c id stage = (d', c')) :
    Frame d d' id ∧ Left choice stage d' id c' := by
  cases stage with
  | advancing =>
    obtain ⟨d₁, c₁, heq, hf, -, hr', hc⟩ := withStatus_cases choice.ok .materializing none
      (fun h => by cases h) (c.at id .making) (c.stranger id) hr
    simp only [advanceStage, heq, Prod.mk.injEq] at h
    obtain ⟨rfl, rfl⟩ := h
    rcases hc with rfl | ⟨message, rfl⟩
    · exact ⟨hf, .on .making rfl hr' trivial⟩
    · exact ⟨hf, .on (.judging message true) rfl hr' (by simp [Holds])⟩
  | making =>
    simp only [advanceStage] at h
    split_ifs at h with hthere hok
    · cases h
      exact ⟨.refl, .on (.judging _ true) rfl hr (by simp [Holds])⟩
    · cases h
      exact ⟨frame_setHolder _, .on (.materialising _ 0) rfl hr (by simp [Holds])⟩
    · cases h
      exact ⟨.refl, .on (.judging _ true) rfl hr (by simp [Holds])⟩
  | materialising rest toplam =>
    cases rest with
    | nil =>
      cases h
      exact ⟨.refl, .on .comparing rfl hr hh⟩
    | cons work rest =>
      cases work with
      | mkdir side =>
        simp only [advanceStage] at h
        split_ifs at h with hok
        · cases h
          exact ⟨frame_setHolder _, .on (.materialising rest toplam) rfl hr (by simp [Holds])⟩
        · cases h
          exact left_owner hr hh
      | blob side b =>
        cases side with
        | reference =>
          simp only [advanceStage] at h
          split_ifs at h with hok hfile htotal
          · cases h
            exact left_owner hr hh
          · cases h
            exact left_owner hr hh
          · cases h
            exact ⟨frame_setHolder _, .on (.materialising rest _) rfl hr (by simp [Holds])⟩
          · cases h
            exact left_owner hr hh
        | implementer =>
          simp only [advanceStage] at h
          split_ifs at h with hok
          · cases h
            exact ⟨frame_setHolder _, .on (.materialising rest toplam) rfl hr (by simp [Holds])⟩
          · cases h
            exact left_owner hr hh
  | comparing =>
    simp only [advanceStage] at h
    cases hcompare : compareRoots place d id with
    | error message =>
      rw [hcompare] at h
      cases h
      exact left_owner hr hh
    | ok answer =>
      rw [hcompare] at h
      obtain ⟨kanit, reference, implementer⟩ := answer
      dsimp only at h
      split_ifs at h with hok
      · cases h
        exact ⟨.refl, .on (.marking _) rfl hr hh⟩
      · cases h
        exact left_owner hr hh
  | marking e =>
    simp only [advanceStage] at h
    split at h
    · cases h
      exact ⟨frame_setHolder _, .on (.inspecting e) rfl hr (by simp [Holds])⟩
    · cases h
      exact left_owner hr hh
  | inspecting e =>
    simp only [advanceStage] at h
    cases hinspect : inspectHolder d id with
    | error message =>
      rw [hinspect] at h
      cases h
      exact left_owner hr hh
    | ok answer =>
      rw [hinspect] at h
      dsimp only at h
      split_ifs at h with hok
      · cases h
        exact ⟨.refl, .on (.finishing e) rfl hr hh⟩
      · cases h
        exact left_owner hr hh
  | finishing e =>
    obtain ⟨d₁, c₁, heq, hf, hmem, hr', hc⟩ := withStatus_cases choice.ok .ready (some e) (fun _ => rfl)
      (c.finish (.workspace ⟨id, c.baselineSha, e.baselineDigest⟩))
      (fun message => c.finish (.refused message false)) hr
    simp only [advanceStage, heq, Prod.mk.injEq] at h
    obtain ⟨rfl, rfl⟩ := h
    rcases hc with rfl | ⟨message, rfl⟩
    · exact ⟨hf, .kept _ rfl hr' ((hmem id).2 hh) rfl⟩
    · exact ⟨hf, .kept _ rfl hr' ((hmem id).2 hh) rfl⟩
  | clearing message =>
    simp only [advanceStage] at h
    split_ifs at h with hok
    · split at h
      · cases h
        exact ⟨frame_rmtreeStep _, .on (.judging message true) rfl (by rwa [records_rmtreeStep])
          (by simp [Holds])⟩
      · cases h
        exact ⟨frame_rmtreeStep _, .on (.clearing message) rfl (by rwa [records_rmtreeStep])
          (holder_rmtreeStep ‹_›)⟩
    · cases h
      exact ⟨.refl, .on (.judging message false) rfl hr fun _ => hh⟩
  | judging message cleaned =>
    simp only [advanceStage] at h
    split_ifs at h with hclean
    · cases h
      exact ⟨.refl, .on (.dropping message) rfl hr hclean.2⟩
    · cases h
      refine ⟨.refl, .on (.failing message) rfl hr ?_⟩
      by_contra hgone
      cases cleaned with
      | false => exact hgone (hh rfl)
      | true => exact hclean ⟨rfl, hgone⟩
  | dropping message =>
    simp only [advanceStage] at h
    split_ifs at h with hok
    · cases h
      exact ⟨frame_dropRecord, .gone _ rfl (by simp) hh hok⟩
    · cases h
      exact ⟨.refl, .lost _ rfl hr hh rfl (Bool.eq_false_iff.2 hok)⟩
  | failing message =>
    obtain ⟨d₁, c₁, heq, hf, hmem, hr', hc⟩ := withStatus_cases choice.ok .failed none
      (fun h => by cases h) (c.finish (.refused message true))
      (fun _ => c.finish (.refused message true)) hr
    simp only [advanceStage, heq, Prod.mk.injEq] at h
    obtain ⟨rfl, rfl⟩ := h
    rcases hc with rfl | ⟨_, rfl⟩
    · exact ⟨hf, .kept _ rfl hr' ((hmem id).2 hh) rfl⟩
    · exact ⟨hf, .kept _ rfl hr' ((hmem id).2 hh) rfl⟩
  | deleting =>
    simp only [advanceStage] at h
    split_ifs at h with hok
    · split at h
      · cases h
        exact ⟨frame_rmtreeStep _, .on .unlinking rfl (by rwa [records_rmtreeStep])
          (gone_rmtreeStep ‹_›)⟩
      · cases h
        exact ⟨frame_rmtreeStep _, .on .deleting rfl (by rwa [records_rmtreeStep])
          (holder_rmtreeStep ‹_›)⟩
    · cases h
      exact ⟨.refl, .kept _ rfl hr hh rfl⟩
  | unlinking =>
    simp only [advanceStage] at h
    split_ifs at h with hok
    · cases h
      exact ⟨frame_dropRecord, .gone _ rfl (by simp) hh hok⟩
    · cases h
      exact ⟨.refl, .lost _ rfl hr hh rfl (Bool.eq_false_iff.2 hok)⟩

end

end RagPipeline.Workspace
