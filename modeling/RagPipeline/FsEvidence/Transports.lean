import RagPipeline.FsEvidence.Whole

/-! # Scans through any transport

A frame is closed as soon as its last child is dealt with, so at most as many
directories are open at once as the depth allows. And a transport is asked only about
what it has listed: two that answer alike there are one to the scan. -/

set_option autoImplicit false

namespace RagPipeline.FsEvidence
open Guard
open DepthFirst (Outcome)

section
variable [Host] {call : Call} {ρ δ : Type} {T : Transport ρ δ} {p p' : Progress}

/-! ## The peak of one record -/

theorem visitContent_peak {path : Text} {record : Record} {opened : Except Fault Descriptor}
    (h : visitContent call p path record opened = .ok p') : p'.peak = p.peak := by
  obtain ⟨-, -, d, -, -, rfl⟩ := visitContent_ok.1 h
  rfl

theorem visitFile_peak {path : Text} {record : Record} {opened : Except Fault Descriptor}
    (h : visitFile call p path record opened = .ok p') : p'.peak = p.peak := by
  obtain ⟨-, -, hclass⟩ := visitFile_ok.1 h
  cases hevidence : evidenceClass path call.metadataOnly call.exactContent with
  | content =>
    simp only [hevidence] at hclass
    have hpeak := visitContent_peak hclass
    exact hpeak
  | metadata =>
    simp only [hevidence] at hclass
    rw [hclass.2]

theorem visitLink_peak {path : Text} {record : Record} {kanit : Except Fault Bytes}
    (h : visitLink call p path record kanit = .ok p') : p'.peak = p.peak := by
  obtain ⟨target, -, rfl⟩ := visitLink_ok.1 h
  rfl

omit [Host] in
theorem descend_parts {directory : δ} {record : Record} {childParts : List Text} {frame : Frame δ}
    (h : descend T directory record childParts = .ok frame) : frame.parts = childParts := by
  simp only [descend, bind_ok, pure_ok] at h
  obtain ⟨alt, -, kayitlar, -, rfl⟩ := h
  rfl

/-- The peak is left to the loop. -/
theorem visit_peak {directory : δ} {parts : List Text} {record : Record} {opened : Option (Frame δ)}
    (h : visit call T p directory parts record = .ok (p', opened)) : p'.peak = p.peak := by
  obtain ⟨path, -, h⟩ := bind_ok.1 h
  cases hkind : record.kind with
  | link =>
    simp only [hkind, bind_ok, pure_ok, Prod.mk.injEq] at h
    obtain ⟨q, hq, rfl, -⟩ := h
    exact visitLink_peak hq
  | dir =>
    simp only [hkind, bind_ok, pure_ok, Prod.mk.injEq, visitDirectory_ok] at h
    obtain ⟨q, ⟨-, rfl⟩, alt, -, rfl, -⟩ := h
    rfl
  | file =>
    simp only [hkind, bind_ok, pure_ok, Prod.mk.injEq] at h
    obtain ⟨q, hq, rfl, -⟩ := h
    exact visitFile_peak hq
  | other =>
    rw [hkind] at h
    cases h

/-- A directory is opened only where its depth is allowed. -/
theorem visit_opened {directory : δ} {parts : List Text} {record : Record} {frame : Frame δ}
    (h : visit call T p directory parts record = .ok (p', some frame)) :
    (parts ++ [record.name]).length ≤ call.limits.maxDepth ∧
      descend T directory record (parts ++ [record.name]) = .ok frame := by
  obtain ⟨path, -, h⟩ := bind_ok.1 h
  cases hkind : record.kind with
  | link =>
    simp only [hkind, bind_ok, pure_ok, Prod.mk.injEq] at h
    obtain ⟨q, -, -, hnone⟩ := h
    cases hnone
  | dir =>
    simp only [hkind, bind_ok, pure_ok, Prod.mk.injEq, visitDirectory_ok] at h
    obtain ⟨q, ⟨hdepth, -⟩, alt, halt, -, hsome⟩ := h
    obtain rfl := Option.some.inj hsome
    exact ⟨hdepth, halt⟩
  | file =>
    simp only [hkind, bind_ok, pure_ok, Prod.mk.injEq] at h
    obtain ⟨q, -, -, hnone⟩ := h
    cases hnone
  | other =>
    rw [hkind] at h
    cases h

/-! ## The stack -/

/-- Every frame lies on those it was reached through, and none is deeper than allowed. -/
def Held (call : Call) : List (Frame δ) → Prop
  | [] => True
  | f :: outer => outer.length = f.parts.length ∧ f.parts.length ≤ call.limits.maxDepth ∧ Held call outer

omit [Host] in
theorem Held.length {frames : List (Frame δ)} (h : Held call frames) :
    frames.length ≤ call.limits.maxDepth + 1 := by
  cases frames with
  | nil => exact Nat.zero_le _
  | cons f outer =>
    obtain ⟨hlength, hdepth, -⟩ := h
    rw [List.length_cons, hlength]
    exact Nat.add_le_add_right hdepth 1

def Bounded (call : Call) (state : List (Frame δ) × Progress) : Prop :=
  Held call state.1 ∧ state.2.peak ≤ call.limits.maxDepth + 1

/-- What one turn can do: the innermost frame is closed, a record is dealt with, or a
directory is opened on top. -/
theorem step_next {frames : List (Frame δ)} {state : List (Frame δ) × Progress}
    (h : step call T (frames, p) = .next state) : ∃ f outer, frames = f :: outer ∧
      (state = (outer, p) ∨ ∃ record p' opened,
        visit call T p f.directory f.parts record = .ok (p', opened) ∧
          state = match opened with
            | none => ({ f with index := f.index + 1 } :: outer, p')
            | some alt => (alt :: { f with index := f.index + 1 } :: outer,
                { p' with peak := max p'.peak (outer.length + 2) })) := by
  cases frames with
  | nil => cases h
  | cons f outer =>
    refine ⟨f, outer, rfl, ?_⟩
    unfold step at h
    dsimp only at h
    cases hrecord : f.records[f.index]? with
    | none =>
      rw [hrecord] at h
      dsimp only at h
      cases hclose : guard (T.closeDirectory f.directory) "dizin kapatilamadi" evidenceError with
      | ok u =>
        rw [hclose] at h
        exact .inl (Outcome.next.inj h).symm
      | error e =>
        rw [hclose] at h
        cases h
    | some record =>
      rw [hrecord] at h
      dsimp only at h
      cases hvisit : visit call T p f.directory f.parts record with
      | error e =>
        rw [hvisit] at h
        cases h
      | ok result =>
        obtain ⟨p', opened⟩ := result
        rw [hvisit] at h
        refine .inr ⟨record, p', opened, hvisit, ?_⟩
        cases opened with
        | none => exact (Outcome.next.inj h).symm
        | some alt => exact (Outcome.next.inj h).symm

theorem step_bounded {state state' : List (Frame δ) × Progress} (hs : Bounded call state)
    (h : step call T state = .next state') : Bounded call state' := by
  obtain ⟨frames, p⟩ := state
  obtain ⟨hheld, hpeak⟩ := hs
  obtain ⟨f, outer, rfl, hcases⟩ := step_next h
  obtain ⟨hlength, hdepth, hunder⟩ := hheld
  cases hcases with
  | inl hclosed =>
    rw [hclosed]
    exact ⟨hunder, hpeak⟩
  | inr hvisited =>
    obtain ⟨record, p', opened, hvisit, rfl⟩ := hvisited
    have hsame := visit_peak hvisit
    cases opened with
    | none => exact ⟨⟨hlength, hdepth, hunder⟩, hsame.trans_le hpeak⟩
    | some alt =>
      obtain ⟨hallowed, halt⟩ := visit_opened hvisit
      rw [List.length_append] at hallowed
      have hdeeper : alt.parts.length = f.parts.length + 1 := by
        rw [descend_parts halt, List.length_append]
        rfl
      refine ⟨⟨?_, hdeeper.trans_le hallowed, hlength, hdepth, hunder⟩, ?_⟩
      · rw [hdeeper, List.length_cons, hlength]
      · have hwas : p'.peak ≤ call.limits.maxDepth + 1 := hsame.trans_le hpeak
        have hnow : outer.length + 2 ≤ call.limits.maxDepth + 1 := by
          rw [hlength]
          exact Nat.succ_le_succ hallowed
        exact max_le hwas hnow

/-- However wide a tree is, no more directories are open at once than its depth allows,
and the peak that is published counts them. -/
theorem open_bounded {root : δ} {records : List Record} {n : ℕ} {frames : List (Frame δ)}
    (h : DepthFirst.after (step call T) n ([⟨root, [], records, 0⟩], .start) = some (frames, p)) :
    frames.length ≤ call.limits.maxDepth + 1 ∧ p.peak ≤ call.limits.maxDepth + 1 := by
  have hstart : Bounded call ([(⟨root, [], records, 0⟩ : Frame δ)], .start) :=
    ⟨⟨rfl, Nat.zero_le _, trivial⟩, Nat.le_add_left 1 _⟩
  have hbounded := DepthFirst.after_preserves (fun s s' hs hnext => step_bounded hs hnext) hstart h
  exact ⟨hbounded.1.length, hbounded.2⟩

end

section
attribute [local instance] sampleHost

theorem open_bounded_sample : ∃ frames p,
    DepthFirst.after (step sampleCall shown) 1 ([rootFrame (sampleRoot 1)], .start) =
      some (frames, p) ∧
      frames.length = 2 ∧ frames.length ≤ sampleCall.limits.maxDepth + 1 := by
  have hlength : (DepthFirst.after (step sampleCall shown) 1
      ([rootFrame (sampleRoot 1)], .start)).map (fun state => state.1.length) = some 2 := by decide +kernel
  obtain ⟨⟨frames, p⟩, hafter, htwo⟩ := Option.map_eq_some_iff.1 hlength
  exact ⟨frames, p, hafter, htwo, (open_bounded hafter).1⟩

end

/-! ## Transports that answer alike -/

variable {ρ δ ρ' δ' : Type}

/-- Transports of the same answers, what they hold of a directory apart. -/
structure Alike (T : Transport ρ δ) (T' : Transport ρ' δ') (f : ρ → ρ') (g : δ → δ') : Prop where
  openRoot : ∀ root, T'.openRoot (f root) = (T.openRoot root).map g
  identity : ∀ d, T'.identity (g d) = T.identity d
  listDirectory : ∀ d, T'.listDirectory (g d) = T.listDirectory d
  openChildDirectory : ∀ {d records record}, T.listDirectory d = .ok records → record ∈ records →
    record.kind = .dir → T'.openChildDirectory (g d) record = (T.openChildDirectory d record).map g
  openChildFile : ∀ {d records record}, T.listDirectory d = .ok records → record ∈ records →
    record.kind = .file → T'.openChildFile (g d) record = T.openChildFile d record
  linkEvidence : ∀ {d records record}, T.listDirectory d = .ok records → record ∈ records →
    record.kind = .link → T'.linkEvidence (g d) record = T.linkEvidence d record
  closeDirectory : ∀ d, T'.closeDirectory (g d) = T.closeDirectory d

def Frame.map (g : δ → δ') (f : Frame δ) : Frame δ' := ⟨g f.directory, f.parts, f.records, f.index⟩

/-- Every frame has the records that its directory lists. -/
def Listed (T : Transport ρ δ) (state : List (Frame δ) × Progress) : Prop :=
  ∀ f ∈ state.1, T.listDirectory f.directory = .ok f.records

variable {T : Transport ρ δ} {T' : Transport ρ' δ'} {f : ρ → ρ'} {g : δ → δ'}

theorem guard_map {α β : Type} (answer : Except Fault α) (k : α → β) (message : String)
    (kind : String → EvidenceError) :
    guard (answer.map k) message kind = (guard answer message kind).map k := by
  cases answer with
  | ok a => rfl
  | error fault => cases fault <;> rfl

theorem descend_listed {d : δ} {record : Record} {childParts : List Text} {frame : Frame δ}
    (h : descend T d record childParts = .ok frame) :
    T.listDirectory frame.directory = .ok frame.records := by
  simp only [descend, list, bind_ok, mapError_ok, guard_ok, pure_ok] at h
  obtain ⟨alt, -, kayitlar, hlist, rfl⟩ := h
  exact hlist

theorem Alike.list_eq (h : Alike T T' f g) (d : δ) : list T' (g d) = list T d := by
  unfold list
  rw [h.listDirectory]

theorem Alike.closeQuietly_eq (h : Alike T T' f g) (d : δ) :
    closeQuietly T' (g d) = closeQuietly T d := by
  unfold closeQuietly
  rw [h.closeDirectory]

theorem Alike.descend_eq (h : Alike T T' f g) {d : δ} {records : List Record} {record : Record}
    (hlist : T.listDirectory d = .ok records) (hmem : record ∈ records) (hkind : record.kind = .dir)
    (childParts : List Text) :
    descend T' (g d) record childParts = (descend T d record childParts).map (Frame.map g) := by
  unfold descend
  rw [h.openChildDirectory hlist hmem hkind, guard_map]
  cases guard (T.openChildDirectory d record) "alt dizin acilamadi" unsupportedEntry with
  | error e => rfl
  | ok alt =>
    dsimp only [Except.map]
    rw [ok_bind, ok_bind, h.list_eq, h.closeQuietly_eq]
    cases list T alt <;> rfl

section
variable [Host] {call : Call} {p p' : Progress}

theorem Alike.visit_eq (h : Alike T T' f g) {d : δ} {records : List Record} {record : Record}
    (hlist : T.listDirectory d = .ok records) (hmem : record ∈ records) (parts : List Text) :
    visit call T' p (g d) parts record =
      (visit call T p d parts record).map (Prod.map id (Option.map (Frame.map g))) := by
  unfold visit
  dsimp only
  rw [Guard.map_bind]
  congr 1
  funext path
  cases hkind : record.kind with
  | link =>
    dsimp only
    rw [h.linkEvidence hlist hmem hkind]
    cases visitLink call p path record (T.linkEvidence d record) <;> rfl
  | dir =>
    dsimp only
    rw [Guard.map_bind]
    congr 1
    funext q
    rw [h.descend_eq hlist hmem hkind]
    cases descend T d record (parts ++ [record.name]) <;> rfl
  | file =>
    dsimp only
    rw [h.openChildFile hlist hmem hkind]
    cases visitFile call p path record (T.openChildFile d record) <;> rfl
  | other => rfl

theorem step_listed {state state' : List (Frame δ) × Progress} (hs : Listed T state)
    (h : step call T state = .next state') : Listed T state' := by
  obtain ⟨frames, p⟩ := state
  obtain ⟨frame, outer, rfl, hcases⟩ := step_next h
  obtain ⟨hframe, houter⟩ := List.forall_mem_cons.1 hs
  cases hcases with
  | inl hclosed =>
    rw [hclosed]
    exact houter
  | inr hvisited =>
    obtain ⟨record, p', opened, hvisit, rfl⟩ := hvisited
    cases opened with
    | none => exact List.forall_mem_cons.2 ⟨hframe, houter⟩
    | some alt =>
      have halt := descend_listed (visit_opened hvisit).2
      exact List.forall_mem_cons.2 ⟨halt, List.forall_mem_cons.2 ⟨hframe, houter⟩⟩

/-- One turn of the loop. -/
theorem Alike.step_eq (h : Alike T T' f g) {state : List (Frame δ) × Progress}
    (hs : Listed T state) :
    step call T' (Prod.map (List.map (Frame.map g)) id state) =
      (step call T state).map (Prod.map (List.map (Frame.map g)) id) (List.map (Frame.map g)) := by
  obtain ⟨frames, p⟩ := state
  cases frames with
  | nil => rfl
  | cons frame outer =>
    have hframe : T.listDirectory frame.directory = .ok frame.records := hs frame List.mem_cons_self
    show step call T' (⟨g frame.directory, frame.parts, frame.records, frame.index⟩ ::
      outer.map (Frame.map g), p) = _
    unfold step
    dsimp only
    cases hrecord : frame.records[frame.index]? with
    | none =>
      dsimp only
      rw [h.closeDirectory]
      cases guard (T.closeDirectory frame.directory) "dizin kapatilamadi" evidenceError <;> rfl
    | some record =>
      dsimp only
      rw [h.visit_eq hframe (List.mem_of_getElem? hrecord)]
      cases visit call T p frame.directory frame.parts record with
      | error e => rfl
      | ok result =>
        obtain ⟨p', opened⟩ := result
        cases opened with
        | none => rfl
        | some alt =>
          dsimp only [Except.map, Prod.map, Option.map, Outcome.map, id]
          rw [List.length_cons, List.length_cons, List.length_map]
          rfl

omit [Host] in
theorem Alike.closeFrames_eq (h : Alike T T' f g) (frames : List (Frame δ)) :
    closeFrames T' (frames.map (Frame.map g)) = closeFrames T frames := by
  have hquiet : (fun frame : Frame δ' => !closeQuietly T' frame.directory) ∘ Frame.map g =
      fun frame => !closeQuietly T frame.directory := by
    funext frame
    show (!closeQuietly T' (g frame.directory)) = _
    rw [h.closeQuietly_eq]
  unfold closeFrames
  rw [List.filter_map, List.length_map, hquiet]

omit [Host] in
theorem Alike.cleanUp_eq (h : Alike T T' f g) (birincil : EvidenceError) (frames : List (Frame δ)) :
    cleanUp T' birincil (frames.map (Frame.map g)) = cleanUp T birincil frames := by
  unfold cleanUp
  rw [h.closeFrames_eq]

omit [Host] in
theorem Alike.openFrame_eq (h : Alike T T' f g) (root : ρ) :
    openFrame call T' (f root) = (openFrame call T root).map (Frame.map g) := by
  unfold openFrame
  rw [Guard.map_bind]
  congr 1
  funext u
  rw [h.openRoot, guard_map]
  cases guard (T.openRoot root) "kok dizin acilamadi" evidenceError with
  | error e => rfl
  | ok kok =>
    dsimp only [Except.map]
    rw [ok_bind, ok_bind, h.list_eq]
    cases list T kok <;> rfl

omit [Host] in
theorem openFrame_listed {root : ρ} {frame : Frame δ} (h : openFrame call T root = .ok frame) :
    T.listDirectory frame.directory = .ok frame.records := by
  simp only [openFrame, list, bind_ok, guard_ok, pure_ok] at h
  obtain ⟨u, -, kok, -, records, hlist, rfl⟩ := h
  exact hlist

/-- What answers alike is scanned alike. -/
theorem Alike.scan_eq (h : Alike T T' f g) (fuel : ℕ) (root : ρ) :
    scan call T' fuel (f root) = scan call T fuel root := by
  unfold scan
  rw [h.openFrame_eq]
  cases hopen : openFrame call T root with
  | error e => rfl
  | ok frame =>
    have hstart : Listed T ([frame], .start) := by
      intro f hf
      obtain rfl := List.mem_singleton.1 hf
      exact openFrame_listed hopen
    have hturn : ∀ s, Listed T s → step call T' (Prod.map (List.map (Frame.map g)) id s) =
        (step call T s).map (Prod.map (List.map (Frame.map g)) id) (List.map (Frame.map g)) :=
      fun s hs => h.step_eq hs
    have hloop := DepthFirst.loop_map hturn (fun s s' hs hnext => step_listed hs hnext) hstart fuel
    dsimp only [Except.map]
    show (DepthFirst.loop (step call T') fuel
      (Prod.map (List.map (Frame.map g)) id ([frame], .start))).map _ = _
    rw [hloop, Option.map_map]
    congr 1
    funext result
    cases result with
    | ok p =>
      show manifestOf (T'.identity (g frame.directory)) p = _
      rw [h.identity]
      rfl
    | error failed =>
      obtain ⟨birincil, frames⟩ := failed
      show (Except.error (Raised.evidence (cleanUp T' birincil (frames.map (Frame.map g)))) >>= _) = _
      rw [h.cleanUp_eq]
      rfl

end

end RagPipeline.FsEvidence
