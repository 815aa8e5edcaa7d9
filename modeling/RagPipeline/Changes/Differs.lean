import RagPipeline.Changes.Semantic

/-! # When the change set is a given list

The walk over two projections finds exactly the given changes where each is what
the two sides say at its path, where every other path is the same or structural,
and where the list is in the order of its paths. -/

set_option autoImplicit false

namespace RagPipeline.Changes
open Guard Patch

variable {before after : Projection} {changes : List Change} {paths : List String}

/-- Nothing to report at the path: the same on both sides, or a directory that
came or went with a change under it. -/
def Quiet (before after : Projection) (changes : List Change) (path : String) : Prop :=
  classify path (before.get path) (after.get path) = .ok .same ∨
    classify path (before.get path) (after.get path) = .ok .structural ∧
      ∃ c ∈ changes, (path ++ "/").toList <+: c.path.toList

/-- What the walk collects of the given changes, path by path. -/
theorem walk_given (hn : paths.Nodup)
    (hfound : ∀ c ∈ changes,
      classify c.path (before.get c.path) (after.get c.path) = .ok (.change c))
    (hquiet : ∀ path ∈ paths, path ∉ changes.map Change.path → Quiet before after changes path) :
    ∃ cs structural, walk before after paths = .ok (cs, structural) ∧
      (cs.map Change.path).Sublist paths ∧
      (∀ c, c ∈ cs ↔ c ∈ changes ∧ c.path ∈ paths) ∧
      ∀ path ∈ structural, ∃ c ∈ changes, (path ++ "/").toList <+: c.path.toList := by
  induction paths with
  | nil => exact ⟨[], [], rfl, List.Sublist.refl _, by simp, by simp⟩
  | cons path rest ih =>
    obtain ⟨hnew, hrest⟩ := List.nodup_cons.1 hn
    obtain ⟨cs, structural, hwalk, hsub, hmem, hstructural⟩ :=
      ih hrest fun p hp => hquiet p (List.mem_cons_of_mem _ hp)
    have hother (hpath : path ∉ changes.map Change.path) (c : Change) :
        c ∈ cs ↔ c ∈ changes ∧ c.path ∈ path :: rest := by
      rw [hmem, List.mem_cons]
      refine and_congr_right fun hc => ⟨.inr, fun h => h.resolve_left ?_⟩
      rintro rfl
      exact hpath (List.mem_map_of_mem hc)
    by_cases hpath : path ∈ changes.map Change.path
    · obtain ⟨c, hc, rfl⟩ := List.mem_map.1 hpath
      refine ⟨c :: cs, structural, ?_, hsub.cons_cons _, fun d => ?_, hstructural⟩
      · simp only [walk, hfound c hc, hwalk, ok_bind]
        rfl
      · have hsame : d ∈ changes → d.path = c.path → d = c := by
          intro hd he
          have hd' := hfound d hd
          rw [he, hfound c hc] at hd'
          exact (Found.change.inj (Except.ok.inj hd')).symm
        rw [List.mem_cons, List.mem_cons, hmem]
        constructor
        · rintro (rfl | ⟨hd, hdp⟩)
          · exact ⟨hc, .inl rfl⟩
          · exact ⟨hd, .inr hdp⟩
        · rintro ⟨hd, hdp | hdp⟩
          · exact .inl (hsame hd hdp)
          · exact .inr ⟨hd, hdp⟩
    · rcases hquiet path List.mem_cons_self hpath with h | ⟨h, c, hc, hp⟩
      · refine ⟨cs, structural, ?_, hsub.cons _, hother hpath, hstructural⟩
        simp only [walk, h, hwalk, ok_bind]
        rfl
      · refine ⟨cs, path :: structural, ?_, hsub.cons _, hother hpath, ?_⟩
        · simp only [walk, h, hwalk, ok_bind]
          rfl
        · rintro p (_ | ⟨_, hp'⟩)
          · exact ⟨c, hc, hp⟩
          · exact hstructural p hp'

theorem semantic_given (hsorted : (changes.map Change.path).Pairwise (· < ·))
    (hfound : ∀ c ∈ changes,
      classify c.path (before.get c.path) (after.get c.path) = .ok (.change c))
    (hquiet : ∀ path, path ∉ changes.map Change.path → Quiet before after changes path) :
    semanticChanges before after = .ok changes := by
  have hboth := (bothPaths_sorted before after).pairwise
  obtain ⟨cs, structural, hwalk, hsub, hmem, hstructural⟩ :=
    walk_given (bothPaths_sorted before after).nodup hfound fun path _ => hquiet path
  have hsame : ∀ c, c ∈ cs ↔ c ∈ changes := by
    intro c
    rw [hmem, mem_bothPaths]
    refine and_iff_left_of_imp fun hc => ?_
    obtain ⟨-, ⟨-, r, hr, -⟩ | ⟨-, l, hl, -⟩ | ⟨l, r, hl, -⟩⟩ := classify_change (hfound c hc)
    · exact .inr (hr ▸ rfl)
    · exact .inl (hl ▸ rfl)
    · exact .inl (hl ▸ rfl)
  have hnodup : ∀ {l : List Change}, (l.map Change.path).Pairwise (· < ·) → l.Nodup :=
    fun h => List.Nodup.of_map Change.path (h.imp ne_of_lt)
  have hcs : (cs.map Change.path).Pairwise (· < ·) := hboth.sublist hsub
  have hperm : cs.Perm changes := (List.perm_ext_iff_of_nodup (hnodup hcs) (hnodup hsorted)).2 hsame
  obtain rfl : cs = changes := by
    have hanti : ∀ a b : Change, a ∈ cs → b ∈ changes → a.path < b.path → b.path < a.path → a = b :=
      fun a b _ _ hab hba => absurd hba (not_lt_of_gt hab)
    exact hperm.eq_of_pairwise hanti (List.pairwise_map.1 hcs) (List.pairwise_map.1 hsorted)
  have hle : cs.Pairwise fun a b => a.path ≤ b.path := (List.pairwise_map.1 hcs).imp le_of_lt
  simp only [semanticChanges, hwalk, ok_bind, assertStructural, require_true hstructural,
    hle.insertionSort_eq]
  rfl

theorem walk_structural {structural : List String}
    (h : walk before after paths = .ok (changes, structural)) {path : String} (hp : path ∈ paths)
    (hc : classify path (before.get path) (after.get path) = .ok .structural) :
    path ∈ structural := by
  induction paths generalizing changes structural with
  | nil => cases hp
  | cons first rest ih =>
    simp only [walk, bind_ok] at h
    obtain ⟨found, hfound, ⟨cs, ss⟩, hrest, h⟩ := h
    rcases List.mem_cons.1 hp with rfl | hp
    · obtain rfl := Except.ok.inj (hfound.symm.trans hc)
      cases h
      exact List.mem_cons_self
    · have hmem := ih hrest hp
      cases found with
      | same =>
        cases h
        exact hmem
      | change c =>
        cases h
        exact hmem
      | structural =>
        cases h
        exact List.mem_cons_of_mem _ hmem

/-- What the change set does not list is quiet. -/
theorem semantic_quiet (h : semanticChanges before after = .ok changes) {path : String}
    (hpath : path ∉ changes.map Change.path) : Quiet before after changes path := by
  by_cases hb : path ∈ bothPaths before after
  · obtain ⟨found, hfound, hn⟩ := (semantic_walked h).quiet path hb hpath
    cases found with
    | same => exact .inl hfound
    | change c => exact absurd rfl (hn c)
    | structural =>
      simp only [semanticChanges, bind_ok, assertStructural, exists_unit, require_ok, pure_ok] at h
      obtain ⟨⟨cs, ss⟩, hwalk, hstructural, rfl⟩ := h
      obtain ⟨c, hc, hunder⟩ := hstructural path (walk_structural hwalk hb hfound)
      exact .inr ⟨hfound, c, (List.perm_insertionSort _ _).mem_iff.2 hc, hunder⟩
  · rw [mem_bothPaths, not_or, Option.not_isSome_iff_eq_none, Option.not_isSome_iff_eq_none] at hb
    rw [Quiet, hb.1, hb.2]
    exact .inl rfl

/-- The change set is this list, and nothing is refused, exactly where the list is in the order
of its paths, says of each what the two sides say there, and where every other path is quiet. -/
theorem semantic_changes_iff : semanticChanges before after = .ok changes ↔
    (changes.map Change.path).Pairwise (· < ·) ∧
      (∀ c ∈ changes, classify c.path (before.get c.path) (after.get c.path) = .ok (.change c)) ∧
      ∀ path, path ∉ changes.map Change.path → Quiet before after changes path := by
  constructor
  · intro h
    exact ⟨(semantic_walked h).sorted, (semantic_walked h).found, fun path => semantic_quiet h⟩
  · rintro ⟨hsorted, hfound, hquiet⟩
    exact semantic_given hsorted hfound hquiet

end RagPipeline.Changes
