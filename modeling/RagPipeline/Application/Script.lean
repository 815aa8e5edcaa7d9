import RagPipeline.Application.Moves

/-! # The script of a candidate

The moves of a plan act on the names of their own change and slot only, and
the names of two changes never meet. So wherever the script stands, its next
move is recognisably not done yet, and an undo from any announced prefix gives
back the map the script started from. -/

set_option autoImplicit false

namespace RagPipeline.Application
open UndoLog

def BlockPlace (slot : ℕ) (change : Change) (p : Place) : Prop :=
  p = .repo change.path ∨ p = .hold (stagedSlot slot) ∨ p = .hold (backupSlot slot)

def Apart (c d : Change) : Prop := ¬ c.path <+: d.path ∧ ¬ d.path <+: c.path

theorem staged_accepted {slot : ℕ} (h : slot < 10000) : (stagedSlot slot).accepted = true := by
  simp [stagedSlot, Slot.accepted, h]

theorem backup_accepted {slot : ℕ} (h : slot < 10000) : (backupSlot slot).accepted = true := by
  simp [backupSlot, Slot.accepted, h]

theorem blockPlace_canonical {slot : ℕ} {change : Change} {p : Place} (hs : slot < 10000)
    (hc : Canonical change.path) (h : BlockPlace slot change p) : p.Canonical := by
  obtain rfl | rfl | rfl := h
  · exact hc
  · exact staged_accepted hs
  · exact backup_accepted hs

/-- A question about one change's target looks at no name of another block. -/
theorem reads_ne {slot : ℕ} {c d : Change} {p q : Place} (ha : ¬ c.path <+: d.path)
    (hp : BlockPlace slot c p) (hq : (Place.repo d.path).Reads q) : q ≠ p := by
  obtain rfl | rfl | rfl := hp
  · rintro rfl
    exact ha hq
  · rintro rfl
    exact hq
  · rintro rfl
    exact hq

theorem hold_ne {slot : ℕ} {c : Change} {p : Place} {s : Slot} (hs : slot < s.number)
    (hp : BlockPlace slot c p) : Place.hold s ≠ p := by
  obtain rfl | rfl | rfl := hp
  · simp
  · rintro h
    obtain rfl : s = stagedSlot slot := by simpa using h
    simp [stagedSlot] at hs
  · rintro h
    obtain rfl : s = backupSlot slot := by simpa using h
    simp [backupSlot] at hs

section
variable [Host]
variable {main reference t t' : FileTree} {slot index : ℕ} {change : Change}
  {changes : List Change} {here p : Plan}

theorem planChange_places (hc : Canonical change.path)
    (h : planChange main reference slot index change = .ok here) {m : Move}
    (hm : m ∈ here.moves) :
    BlockPlace slot change m.fromPlace ∧ BlockPlace slot change m.toPlace := by
  obtain ⟨-, -, rfl⟩ | ⟨current, -, -, rfl⟩ | ⟨current, -, -, rfl⟩ := planChange_cases hc h
  · obtain rfl : m = _ := by simpa using hm
    exact ⟨.inr (.inl rfl), .inl rfl⟩
  · obtain rfl | rfl : m = _ ∨ m = _ := by simpa using hm
    · exact ⟨.inl rfl, .inr (.inr rfl)⟩
    · exact ⟨.inr (.inl rfl), .inl rfl⟩
  · obtain rfl : m = _ := by simpa using hm
    exact ⟨.inl rfl, .inr (.inr rfl)⟩

theorem planChange_staged (hc : Canonical change.path)
    (h : planChange main reference slot index change = .ok here) {s : Slot} {c : Change}
    (hm : (s, c) ∈ here.staged) : s = stagedSlot slot ∧ c = change := by
  obtain ⟨-, -, rfl⟩ | ⟨current, -, -, rfl⟩ | ⟨current, -, -, rfl⟩ := planChange_cases hc h
  · simpa using hm
  · simpa using hm
  · simp at hm

theorem planFrom_places (hc : ∀ c ∈ changes, Canonical c.path)
    (h : planFrom main reference slot index changes = .ok p) {m : Move} (hm : m ∈ p.moves) :
    ∃ i c, changes[i]? = some c ∧ BlockPlace (slot + i) c m.fromPlace ∧
      BlockPlace (slot + i) c m.toPlace := by
  induction changes generalizing slot index p with
  | nil =>
    cases Except.ok.inj h
    simp at hm
  | cons change rest ih =>
    obtain ⟨here, later, hhere, hlater, rfl⟩ := planFrom_cons h
    rcases List.mem_append.1 hm with hm | hm
    · exact ⟨0, change, rfl, planChange_places (hc change (by simp)) hhere hm⟩
    · obtain ⟨i, c, hi, hp⟩ := ih (fun c hm => hc c (by simp [hm])) hlater hm
      exact ⟨i + 1, c, hi, by simpa [Nat.add_assoc, Nat.add_comm 1] using hp⟩

theorem planFrom_staged (hc : ∀ c ∈ changes, Canonical c.path)
    (h : planFrom main reference slot index changes = .ok p) {s : Slot} {c : Change}
    (hm : (s, c) ∈ p.staged) : ∃ i, changes[i]? = some c ∧ s = stagedSlot (slot + i) := by
  induction changes generalizing slot index p with
  | nil =>
    cases Except.ok.inj h
    simp at hm
  | cons change rest ih =>
    obtain ⟨here, later, hhere, hlater, rfl⟩ := planFrom_cons h
    rcases List.mem_append.1 hm with hm | hm
    · obtain ⟨rfl, rfl⟩ := planChange_staged (hc change (by simp)) hhere hm
      exact ⟨0, rfl, rfl⟩
    · obtain ⟨i, hi, hs⟩ := ih (fun c hm => hc c (by simp [hm])) hlater hm
      exact ⟨i + 1, hi, by simpa [Nat.add_assoc, Nat.add_comm 1] using hs⟩

theorem planFrom_staged_distinct (hc : ∀ c ∈ changes, Canonical c.path)
    (h : planFrom main reference slot index changes = .ok p) :
    p.staged.Pairwise fun x y => x.1 ≠ y.1 := by
  induction changes generalizing slot index p with
  | nil =>
    cases Except.ok.inj h
    exact List.Pairwise.nil
  | cons change rest ih =>
    obtain ⟨here, later, hhere, hlater, rfl⟩ := planFrom_cons h
    have hrest : ∀ c ∈ rest, Canonical c.path := fun c hm => hc c (by simp [hm])
    refine List.pairwise_append.2 ⟨?_, ih hrest hlater, fun x hx y hy => ?_⟩
    · obtain ⟨-, -, rfl⟩ | ⟨current, -, -, rfl⟩ | ⟨current, -, -, rfl⟩ :=
        planChange_cases (hc change (by simp)) hhere <;> simp
    · obtain ⟨hs, -⟩ := planChange_staged (hc change (by simp)) hhere (s := x.1) (c := x.2) hx
      obtain ⟨i, -, hs'⟩ := planFrom_staged hrest hlater (s := y.1) (c := y.2) hy
      rw [hs, hs']
      simp [stagedSlot]
      omega

/-- `index=len(moves)`: a move carries its own place in the list. -/
theorem planFrom_index (hc : ∀ c ∈ changes, Canonical c.path)
    (h : planFrom main reference slot index changes = .ok p) (i : ℕ) {m : Move}
    (hm : p.moves[i]? = some m) : m.index = index + i := by
  induction changes generalizing slot index p i with
  | nil =>
    cases Except.ok.inj h
    simp at hm
  | cons change rest ih =>
    obtain ⟨here, later, hhere, hlater, rfl⟩ := planFrom_cons h
    rcases Nat.lt_or_ge i here.moves.length with hi | hi
    · rw [List.getElem?_append_left hi] at hm
      obtain ⟨-, -, rfl⟩ | ⟨current, -, -, rfl⟩ | ⟨current, -, -, rfl⟩ :=
        planChange_cases (hc change (by simp)) hhere
      · obtain rfl : i = 0 := by simpa using hi
        exact (congrArg Move.index (Option.some.inj hm)).symm
      · rcases i with _ | _ | i
        · exact (congrArg Move.index (Option.some.inj hm)).symm
        · exact (congrArg Move.index (Option.some.inj hm)).symm
        · simp only [List.length_cons, List.length_nil] at hi
          omega
      · obtain rfl : i = 0 := by simpa using hi
        exact (congrArg Move.index (Option.some.inj hm)).symm
    · rw [List.getElem?_append_right hi] at hm
      have hindex := ih (fun c hm => hc c (by simp [hm])) hlater _ hm
      omega

/-- The slots a plan counts on: staged content under its recorded digest, and
free names for the backups. -/
structure SlotsReady (t : FileTree) (p : Plan) : Prop where
  staged : ∀ s c, (s, c) ∈ p.staged →
    ∃ e, childEvidence t (.hold s) = .ok (some e) ∧ e.sha256 = c.sha256
  vacant : ∀ m ∈ p.moves, ∀ s, m.toPlace = .hold s → t.lookup (.hold s) = none

theorem childEvidence_none {q : Place} (h : t.lookup q = none) :
    childEvidence t q = .ok none := by
  simp [childEvidence, h]

theorem childEvidence_congr {q : Place} (h : t'.lookup q = t.lookup q) :
    childEvidence t' q = childEvidence t q := by
  simp [childEvidence, h]

theorem pending_place (hs : slot < 10000) (hnone : evidenceOf t (.repo change.path) = .ok none)
    (hslot : ∃ e, childEvidence t (.hold (stagedSlot slot)) = .ok (some e) ∧
      e.sha256 = change.sha256) : Pending (placeMove slot index change) t := by
  obtain ⟨e, he, hsha⟩ := hslot
  have hseen : evidenceOf t (.hold (stagedSlot slot)) = .ok (some e) :=
    (evidenceOf_open (p := .hold (stagedSlot slot)) (staged_accepted hs)
      (staged_accepted hs)).trans he
  exact ⟨⟨e, hseen, hsha⟩, hnone⟩

theorem pending_park {current : Evidence} (hs : slot < 10000)
    (hseen : evidenceOf t (.repo change.path) = .ok (some current))
    (hfree : t.lookup (.hold (backupSlot slot)) = none) :
    Pending (parkMove slot index change current) t := by
  have hnone : evidenceOf t (.hold (backupSlot slot)) = .ok none :=
    (evidenceOf_open (p := .hold (backupSlot slot)) (backup_accepted hs)
      (backup_accepted hs)).trans (childEvidence_none hfree)
  exact ⟨⟨current, hseen, rfl⟩, hnone⟩

theorem planChange_announceable (hc : Canonical change.path) (hs : slot < 10000)
    (h : planChange main reference slot index change = .ok here)
    (hsame : ∀ r, evidenceOf main (.repo change.path) = .ok r →
      evidenceOf t (.repo change.path) = .ok r)
    (hready : SlotsReady t here) : Announceable execute Pending here.moves t := by
  have hstaged := hready.staged (stagedSlot slot) change
  have hcanon : ∀ {q}, BlockPlace slot change q → q.Canonical := blockPlace_canonical hs hc
  obtain ⟨-, hnone, rfl⟩ | ⟨current, -, hsome, rfl⟩ | ⟨current, -, hsome, rfl⟩ :=
    planChange_cases hc h
  · exact ⟨pending_place hs (hsame _ hnone) (hstaged (by simp)), fun _ _ => trivial⟩
  · have hfree := hready.vacant (parkMove slot index change current) (by simp) _ rfl
    refine ⟨pending_park hs (hsame _ hsome) hfree, fun t₁ ht₁ => ⟨?_, fun _ _ => trivial⟩⟩
    have hpark : (parkMove slot index change current).Canonical :=
      ⟨hcanon (.inl rfl), hcanon (.inr (.inr rfl))⟩
    -- the parked name is free now, and the staged slot is not one of the two ends
    obtain ⟨e, -, -, -, -, rfl, hopen, -⟩ := executed_ends hpark ht₁
    refine pending_place hs ?_ ?_
    · refine (evidenceOf_open (p := .repo change.path) hc hopen).trans (childEvidence_none ?_)
      exact Finmap.lookup_erase _ _
    · obtain ⟨e', he', hsha⟩ := hstaged (by simp)
      refine ⟨e', (childEvidence_congr ?_).trans he', hsha⟩
      exact execute_frame hpark ht₁ (by simp [parkMove]) (by simp [parkMove, stagedSlot, backupSlot])
  · have hfree := hready.vacant (parkMove slot index change current) (by simp) _ rfl
    exact ⟨pending_park hs (hsame _ hsome) hfree, fun _ _ => trivial⟩

/-- The moves of one change touch its own three names only. -/
theorem planChange_frame (hc : Canonical change.path) (hs : slot < 10000)
    (h : planChange main reference slot index change = .ok here)
    (hrun : runAll execute here.moves t = .ok t') {q : Place}
    (hq : ∀ r, BlockPlace slot change r → q ≠ r) : t'.lookup q = t.lookup q := by
  have hplaces := fun m hm => planChange_places hc h (m := m) hm
  exact runAll_frame
    (fun m hm => ⟨blockPlace_canonical hs hc (hplaces m hm).1,
      blockPlace_canonical hs hc (hplaces m hm).2⟩) hrun
    (fun m hm => ⟨hq _ (hplaces m hm).1, hq _ (hplaces m hm).2⟩)

theorem planFrom_announceable (hc : ∀ c ∈ changes, Canonical c.path)
    (ha : changes.Pairwise Apart) (hs : slot + changes.length ≤ 10000)
    (h : planFrom main reference slot index changes = .ok p)
    (hsame : ∀ c ∈ changes, ∀ r, evidenceOf main (.repo c.path) = .ok r →
      evidenceOf t (.repo c.path) = .ok r)
    (hready : SlotsReady t p) : Announceable execute Pending p.moves t := by
  induction changes generalizing slot index p t with
  | nil =>
    cases Except.ok.inj h
    trivial
  | cons change rest ih =>
    obtain ⟨here, later, hhere, hlater, rfl⟩ := planFrom_cons h
    have hcanon := hc change (by simp)
    have hrest : ∀ c ∈ rest, Canonical c.path := fun c hm => hc c (by simp [hm])
    have hslot : slot < 10000 := by
      simp at hs
      omega
    rw [announceable_append]
    refine ⟨planChange_announceable hcanon hslot hhere (hsame change (by simp))
      ⟨fun s c hm => hready.staged s c (by simp [hm]),
        fun m hm => hready.vacant m (by simp [hm])⟩, fun t' ht' => ?_⟩
    have hframe : ∀ q, (∀ r, BlockPlace slot change r → q ≠ r) → t'.lookup q = t.lookup q :=
      fun q hq => planChange_frame hcanon hslot hhere ht' hq
    refine ih hrest (List.pairwise_cons.1 ha).2 (by simp at hs; omega) hlater ?_ ⟨?_, ?_⟩
    · intro d hd r hr
      rw [← hsame d (by simp [hd]) r hr]
      exact evidenceOf_congr (hrest d hd) fun q hq =>
        hframe q fun r hr => reads_ne ((List.pairwise_cons.1 ha).1 d hd).1 hr hq
    · intro s c hm
      obtain ⟨i, -, rfl⟩ := planFrom_staged hrest hlater hm
      obtain ⟨e, he, hsha⟩ := hready.staged _ c (List.mem_append_right _ hm)
      refine ⟨e, (childEvidence_congr (hframe _ fun r hr => hold_ne ?_ hr)).trans he, hsha⟩
      simp [stagedSlot]
      omega
    · intro m hm s hto
      rw [hframe _ fun r hr => hold_ne ?_ hr]
      · exact hready.vacant m (by simp [hm]) s hto
      · obtain ⟨i, c, -, -, hp⟩ := planFrom_places hrest hlater hm
        rw [hto] at hp
        obtain hp | hp | hp := hp
        · cases hp
        · obtain rfl : s = _ := by simpa using hp
          simp [stagedSlot]
          omega
        · obtain rfl : s = _ := by simpa using hp
          simp [backupSlot]
          omega

theorem planFrom_backup (hc : ∀ c ∈ changes, Canonical c.path)
    (h : planFrom main reference slot index changes = .ok p) {m : Move} (hm : m ∈ p.moves)
    {s : Slot} (hs : m.toPlace = .hold s) : s.letter = 'b' := by
  induction changes generalizing slot index p with
  | nil =>
    cases Except.ok.inj h
    simp at hm
  | cons change rest ih =>
    obtain ⟨here, later, hhere, hlater, rfl⟩ := planFrom_cons h
    rcases List.mem_append.1 hm with hm | hm
    · obtain ⟨-, -, rfl⟩ | ⟨current, -, -, rfl⟩ | ⟨current, -, -, rfl⟩ :=
        planChange_cases (hc change (by simp)) hhere
      · obtain rfl : m = _ := by simpa using hm
        cases hs
      · obtain rfl | rfl : m = _ ∨ m = _ := by simpa using hm
        · obtain rfl := Place.hold.inj hs
          rfl
        · cases hs
      · obtain rfl : m = _ := by simpa using hm
        obtain rfl := Place.hold.inj hs
        rfl
    · exact ih (fun c hm => hc c (by simp [hm])) hlater hm

theorem planFrom_wanted (hc : ∀ c ∈ changes, Canonical c.path)
    (h : planFrom main reference slot index changes = .ok p) {w : Path} (hw : w ∈ p.wanted) :
    ∃ c ∈ changes, w = c.path.dropLast := by
  induction changes generalizing slot index p with
  | nil =>
    cases Except.ok.inj h
    simp at hw
  | cons change rest ih =>
    obtain ⟨here, later, hhere, hlater, rfl⟩ := planFrom_cons h
    rcases List.mem_append.1 hw with hw | hw
    · obtain ⟨-, -, rfl⟩ | ⟨current, -, -, rfl⟩ | ⟨current, -, -, rfl⟩ :=
        planChange_cases (hc change (by simp)) hhere
      · exact ⟨change, by simp, by simpa using hw⟩
      · simp at hw
      · simp at hw
    · obtain ⟨c, hmem, hw⟩ := ih (fun c hm => hc c (by simp [hm])) hlater hw
      exact ⟨c, by simp [hmem], hw⟩

/-- A target that the plan saw free is an added one, and its parents are
wanted. -/
theorem planFrom_seen_none (hc : ∀ c ∈ changes, Canonical c.path)
    (h : planFrom main reference slot index changes = .ok p) {c : Change} (hm : c ∈ changes)
    (hnone : fileEvidence main c.path = .ok none) : c.path.dropLast ∈ p.wanted := by
  induction changes generalizing slot index p with
  | nil => simp at hm
  | cons change rest ih =>
    obtain ⟨here, later, hhere, hlater, rfl⟩ := planFrom_cons h
    rcases List.mem_cons.1 hm with rfl | hm
    · obtain ⟨-, -, rfl⟩ | ⟨current, -, hsome, -⟩ | ⟨current, -, hsome, -⟩ :=
        planChange_cases (hc c (by simp)) hhere
      · simp
      · cases hnone.symm.trans hsome
      · cases hnone.symm.trans hsome
    · exact List.mem_append_right _ (ih (fun c hm => hc c (by simp [hm])) hlater hm)

theorem planFrom_open (hc : ∀ c ∈ changes, Canonical c.path)
    (hs : slot + changes.length ≤ 10000)
    (h : planFrom main reference slot index changes = .ok p)
    (hwanted : ∀ w ∈ p.wanted, ∀ q, q ≠ [] → q <+: w → t.lookup (.repo q) = some .dir)
    (hkept : ∀ q, main.lookup (.repo q) = some .dir → t.lookup (.repo q) = some .dir)
    {m : Move} (hm : m ∈ p.moves) : Open t m.toPlace := by
  induction changes generalizing slot index p with
  | nil =>
    cases Except.ok.inj h
    simp at hm
  | cons change rest ih =>
    obtain ⟨here, later, hhere, hlater, rfl⟩ := planFrom_cons h
    have hcanon := hc change (by simp)
    have hslot : slot < 10000 := by
      simp at hs
      omega
    have hseen : ∀ {e}, fileEvidence main change.path = .ok (some e) →
        Open t (.repo change.path) := fun he q hq hp =>
      hkept q ((evidenceOf_some (p := .repo change.path) hcanon he).1 q hq hp)
    rcases List.mem_append.1 hm with hm | hm
    · obtain ⟨-, -, rfl⟩ | ⟨current, -, hsome, rfl⟩ | ⟨current, -, -, rfl⟩ :=
        planChange_cases hcanon hhere
      · obtain rfl : m = _ := by simpa using hm
        exact fun q hq hp => hwanted change.path.dropLast (by simp) q hq hp
      · obtain rfl | rfl : m = _ ∨ m = _ := by simpa using hm
        · exact backup_accepted hslot
        · exact hseen hsome
      · obtain rfl : m = _ := by simpa using hm
        exact backup_accepted hslot
    · exact ih (fun c hm => hc c (by simp [hm])) (by simp at hs; omega) hlater
        (fun w hw => hwanted w (List.mem_append_right _ hw)) hm

/-- `for move in reversed(moves[:done])`. -/
def undoFrom (appliedIndex : ℕ) (moves : List Move) : FileTree → Except ApplicationError FileTree :=
  undoAll undo (moves.take appliedIndex)

theorem plan_canonical {candidate : Candidate} (h : plan candidate main reference = .ok p)
    {m : Move} (hm : m ∈ p.moves) : m.Canonical := by
  obtain ⟨i, c, hi, hf, ht⟩ := planFrom_places candidate.canonical h hm
  have hlt := (List.getElem?_eq_some_iff.1 hi).1
  have hb := candidate.slots_bounded
  have hs : 0 + i < 10000 := by omega
  have hc := candidate.canonical c (List.mem_of_getElem? hi)
  exact ⟨blockPlace_canonical hs hc hf, blockPlace_canonical hs hc ht⟩

theorem plan_announceable {candidate : Candidate} (h : plan candidate main reference = .ok p)
    (hsame : ∀ c ∈ candidate.changes, ∀ r, evidenceOf main (.repo c.path) = .ok r →
      evidenceOf t (.repo c.path) = .ok r)
    (hready : SlotsReady t p) : Announceable execute Pending p.moves t :=
  planFrom_announceable candidate.canonical candidate.apart candidate.slots_bounded h hsame hready

theorem plan_reverses {candidate : Candidate} (h : plan candidate main reference = .ok p)
    {m : Move} (hm : m ∈ p.moves) : Reverses execute undo m :=
  fun _ _ hrun => (undo_execute (plan_canonical h hm) hrun).2

end

end RagPipeline.Application
