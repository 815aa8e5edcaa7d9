import RagPipeline.Application.Script

/-! # Directories made and taken away

The parents that `_missing_directories` lists are made outermost first, and a
rollback removes them in the other order. What a reader of the checkout sees
is its view, the map without the slots; making the listed directories and
removing them again leaves the view as it was. -/

set_option autoImplicit false

namespace RagPipeline.Application
open UndoLog

abbrev View := Path → Option Node

def view (t : FileTree) : View := fun path => t.lookup (.repo path)

@[simp] theorem view_apply (t : FileTree) (path : Path) :
    view t path = t.lookup (.repo path) := rfl

/-- Nothing stands beneath a name that is not a directory. -/
structure Closed (f : View) : Prop where
  root : f [] = none
  parent : ∀ path name, f (path ++ [name]) ≠ none → path ≠ [] → f path = some .dir

def Place.isChild (path : Path) : Place → Bool
  | .repo q => q ≠ [] ∧ q.dropLast = path
  | .hold _ => false

def hasChild (t : FileTree) (path : Path) : Bool := decide (∃ q ∈ t.keys, q.isChild path)

/-- `remove_child_directory`, with the answer `_rollback` gives to each of its
refusals: a directory that is not empty stays. -/
def removeDirectory (relative : Path) (t : FileTree) : Except ApplicationError FileTree := do
  let parts ← split relative
  directory t parts.dropLast
  match t.lookup (.repo parts) with
  | some .dir => return if hasChild t parts then t else t.erase (.repo parts)
  | _ => throw (.rollbackFailed "geri alma dizini kaldiramadi")

def addDirectories (directories : List Path) (f : View) : View :=
  directories.foldl (fun f d => Function.update f d (some .dir)) f

/-- A list of missing directories in an order they can be made in. -/
inductive Outermost (f : View) : List Path → Prop where
  | nil : Outermost f []
  | snoc {l : List Path} {d : Path} : Outermost f l → d ≠ [] → f d = none → d ∉ l →
      (d.dropLast = [] ∨ f d.dropLast = some .dir ∨ d.dropLast ∈ l) → Outermost f (l ++ [d])

theorem addDirectories_concat (l : List Path) (d : Path) (f : View) :
    addDirectories (l ++ [d]) f = Function.update (addDirectories l f) d (some .dir) := by
  simp [addDirectories]

theorem addDirectories_apply (l : List Path) (f : View) (q : Path) :
    addDirectories l f q = if q ∈ l then some .dir else f q := by
  induction l using List.reverseRecOn with
  | nil => rfl
  | append_singleton l d ih =>
    rw [addDirectories_concat]
    by_cases hq : q = d
    · simp [hq]
    · simp [ih, hq]

theorem outermost_take {f : View} {l : List Path} (h : Outermost f l) (k : ℕ) :
    Outermost f (l.take k) := by
  induction h with
  | nil => simpa using Outermost.nil
  | @snoc l d hl hne hnone hnew hparent ih =>
    rcases Nat.lt_or_ge l.length k with hk | hk
    · rw [List.take_of_length_le (by simp; omega)]
      exact .snoc hl hne hnone hnew hparent
    · rwa [List.take_append_of_le_length hk]

theorem outermost_mem {f : View} {l : List Path} (h : Outermost f l) {d : Path} (hd : d ∈ l) :
    d ≠ [] ∧ f d = none ∧
      (d.dropLast = [] ∨ f d.dropLast = some .dir ∨ d.dropLast ∈ l) := by
  induction h with
  | nil => simp at hd
  | @snoc l c hl hne hnone hnew hparent ih =>
    rcases List.mem_append.1 hd with hd | hd
    · obtain ⟨h₁, h₂, h₃⟩ := ih hd
      exact ⟨h₁, h₂, h₃.imp_right (Or.imp_right (List.mem_append_left _))⟩
    · obtain rfl : d = c := by simpa using hd
      exact ⟨hne, hnone, hparent.imp_right (Or.imp_right (List.mem_append_left _))⟩

theorem outermost_nodup {f : View} {l : List Path} (h : Outermost f l) : l.Nodup := by
  induction h with
  | nil => simp
  | @snoc l d hl hne hnone hnew hparent ih =>
    rw [List.nodup_append]
    refine ⟨ih, by simp, fun a ha b hb => ?_⟩
    obtain rfl : b = d := by simpa using hb
    rintro rfl
    exact hnew ha

theorem closed_addDirectories {f : View} {l : List Path} (hf : Closed f) (hl : Outermost f l) :
    Closed (addDirectories l f) := by
  constructor
  · rw [addDirectories_apply, if_neg, hf.root]
    exact fun h => (outermost_mem hl h).1 rfl
  · intro path name hne hpath
    rw [addDirectories_apply] at hne ⊢
    split at hne
    · rename_i hmem
      obtain ⟨-, -, h⟩ := outermost_mem hl hmem
      simp only [List.dropLast_concat, hpath, false_or] at h
      rcases h with h | h <;> simp [h]
    · simp [hf.parent path name hne hpath]

theorem closed_above {f : View} (hf : Closed f) {q : Path} (hq : q = [] ∨ f q = some .dir)
    (r : Path) (hr : r ≠ []) (hp : r <+: q) : f r = some .dir := by
  induction q using List.reverseRecOn with
  | nil => exact absurd (List.prefix_nil.1 hp) hr
  | append_singleton q n ih =>
    rcases hq with hq | hq
    · simp at hq
    rcases List.prefix_concat_iff.1 hp with rfl | hp
    · exact hq
    · by_cases hnil : q = []
      · exact ih (.inl hnil) hp
      · exact ih (.inr (hf.parent q n (by simp [hq]) hnil)) hp

/-- Nothing stands at a path at which nothing was seen. -/
theorem lookup_of_seen_none [Host] {t : FileTree} (ht : Closed (view t)) {path : Path}
    (hc : Canonical path) (h : evidenceOf t (.repo path) = .ok none) :
    t.lookup (.repo path) = none := by
  by_contra hthere
  have hne := canonical_ne_nil hc
  have hopen : Open t (.repo path) := by
    refine closed_above ht ?_
    by_cases hnil : path.dropLast = []
    · exact .inl hnil
    · refine .inr (ht.parent path.dropLast (path.getLast hne) ?_ hnil)
      rwa [List.dropLast_concat_getLast hne]
  exact hthere (lookup_of_evidence_none (p := .repo path) hc hopen h)

theorem directory_closed {t : FileTree} (ht : Closed (view t)) {q : Path}
    (hq : q = [] ∨ view t q = some .dir) : directory t q = .ok () :=
  directory_ok.2 (walk_root.2 (closed_above ht hq))

theorem canonical_iff {path : Path} :
    Canonical path ↔ path ≠ [] ∧ ∀ n ∈ path, validateChildName n = .ok () := by
  have hforM : ∀ l : Path, (l.forM validateChildName = .ok ()) ↔
      ∀ n ∈ l, validateChildName n = .ok () := by
    intro l
    induction l with
    | nil => simp [pure, Except.pure]
    | cons n l ih =>
      rw [List.forM_eq_forM, List.forM_cons, bind_eq_ok]
      simp only [List.mem_cons, forall_eq_or_imp, ← ih, List.forM_eq_forM]
      exact ⟨fun ⟨_, h, h'⟩ => ⟨h, h'⟩, fun ⟨h, h'⟩ => ⟨_, h, h'⟩⟩
  have hvalid : ∀ n, validateChildName n = .ok () → n ≠ "" ∧ n ≠ "." ∧ n ≠ ".." := by
    intro n hn
    unfold validateChildName at hn
    split at hn
    · cases hn
    · rename_i h
      simpa using h
  constructor
  · intro h
    refine ⟨canonical_ne_nil h, ?_⟩
    unfold Canonical split at h
    dsimp only at h
    split at h
    · cases h
    · obtain ⟨_, hall, heq⟩ := bind_eq_ok.1 h
      rw [Except.ok.inj heq] at hall
      exact (hforM path).1 hall
  · rintro ⟨hne, hall⟩
    have hfilter : path.filter (fun part => decide (part ≠ "" ∧ part ≠ ".")) = path := by
      rw [List.filter_eq_self]
      intro n hn
      have := hvalid n (hall n hn)
      simp [this.1, this.2.1]
    have hdots : ".." ∉ path := fun h => (hvalid _ (hall _ h)).2.2 rfl
    have hloop := (hforM path).2 hall
    simp only [Canonical, split, hfilter, hne, hdots, or_self, if_false]
    exact bind_eq_ok.2 ⟨(), hloop, rfl⟩

theorem canonical_above {path q : Path} (h : Canonical path) (hq : q <+: path) (hne : q ≠ []) :
    Canonical q := by
  rw [canonical_iff] at h ⊢
  exact ⟨hne, fun n hn => h.2 n (hq.subset hn)⟩

/-- What `_missing_directories` has settled about a list it returns. -/
structure Missing (f : View) (missing : List Path) (wanted : List Path) : Prop where
  outermost : Outermost f missing
  wanted_of_mem : ∀ d ∈ missing, ∃ w ∈ wanted, d <+: w
  covers : ∀ w ∈ wanted, ∀ r, r ≠ [] → r <+: w → r ∈ missing ∨ f r = some .dir

theorem missingParents_ok {main : FileTree} (hmain : Closed (view main))
    {missing missing' : List Path} {walked rest : Path} (ho : Outermost (view main) missing)
    (hw : walked = [] ∨ walked ∈ missing ∨ view main walked = some .dir)
    (h : missingParents main missing walked rest = .ok missing') :
    Outermost (view main) missing' ∧ (∀ d ∈ missing, d ∈ missing') ∧
      (∀ d ∈ missing', d ∈ missing ∨ d <+: walked ++ rest) ∧
      ∀ r, r ≠ [] → r <+: rest → walked ++ r ∈ missing' ∨ view main (walked ++ r) = some .dir := by
  induction rest generalizing missing walked with
  | nil =>
    obtain rfl := Except.ok.inj h
    refine ⟨ho, fun d hd => hd, fun d hd => .inl hd, fun r hr hp => ?_⟩
    exact absurd (List.prefix_nil.1 hp) hr
  | cons name rest ih =>
    have hhere : (walked ++ [name]).dropLast = walked := List.dropLast_concat
    -- one more component is settled, as missing or as a directory
    have step : ∀ missing₁, Outermost (view main) missing₁ → (∀ d ∈ missing, d ∈ missing₁) →
        (∀ d ∈ missing₁, d ∈ missing ∨ d = walked ++ [name]) →
        (walked ++ [name] ∈ missing₁ ∨ view main (walked ++ [name]) = some .dir) →
        missingParents main missing₁ (walked ++ [name]) rest = .ok missing' →
        Outermost (view main) missing' ∧ (∀ d ∈ missing, d ∈ missing') ∧
        (∀ d ∈ missing', d ∈ missing ∨ d <+: walked ++ name :: rest) ∧
        ∀ r, r ≠ [] → r <+: name :: rest →
          walked ++ r ∈ missing' ∨ view main (walked ++ r) = some .dir := by
      intro missing₁ ho₁ hsub hnew hset hrun
      obtain ⟨h₁, h₂, h₃, h₄⟩ := ih ho₁ (.inr hset) hrun
      refine ⟨h₁, fun d hd => h₂ d (hsub d hd), fun d hd => ?_, fun r hr hp => ?_⟩
      · rcases h₃ d hd with hd | hd
        · rcases hnew d hd with hd | rfl
          · exact .inl hd
          · exact .inr (by simp)
        · exact .inr (by simpa using hd)
      · cases r with
        | nil => exact absurd rfl hr
        | cons n r =>
          obtain ⟨rfl, hp'⟩ := List.cons_prefix_cons.1 hp
          by_cases hr' : r = []
          · rw [hr']
            exact hset.imp_left (h₂ _)
          · rw [List.append_cons]
            exact h₄ r hr' hp'
    have hne : walked ++ [name] ≠ [] := by simp
    rw [missingParents] at h
    split at h
    · rename_i hmem
      exact step missing ho (fun d hd => hd) (fun d hd => .inl hd) (.inl hmem) h
    rename_i hnew
    have hsnoc : ∀ d ∈ missing ++ [walked ++ [name]], d ∈ missing ∨ d = walked ++ [name] :=
      fun d hd => by simpa using hd
    split at h
    · rename_i hparent
      have hgone : view main walked = none := (outermost_mem ho hparent).2.1
      have hnone : view main (walked ++ [name]) = none := by
        by_contra hthere
        have hdir := hmain.parent walked name hthere (outermost_mem ho hparent).1
        rw [hgone] at hdir
        cases hdir
      exact step _ (.snoc ho hne hnone hnew (by simp [hhere, hparent]))
        (fun d hd => List.mem_append_left _ hd) hsnoc (.inl (by simp)) h
    · rename_i hparent
      have hdir : walked = [] ∨ view main walked = some .dir :=
        hw.imp_right fun h => h.resolve_left hparent
      obtain ⟨_, -, h⟩ := bind_eq_ok.1 h
      split at h
      · rename_i hnone
        exact step _ (.snoc ho hne hnone hnew (by rw [hhere]; tauto))
          (fun d hd => List.mem_append_left _ hd) hsnoc (.inl (by simp)) h
      · rename_i hthere
        exact step missing ho (fun d hd => hd) (fun d hd => .inl hd) (.inr hthere) h
      · cases h

theorem missingDirectoriesFrom_ok {main : FileTree} (hmain : Closed (view main))
    {missing missing' wanted done : List Path} (hm : Missing (view main) missing done)
    (h : missingDirectoriesFrom main missing wanted = .ok missing') :
    Missing (view main) missing' (done ++ wanted) := by
  induction wanted generalizing missing done with
  | nil =>
    obtain rfl := Except.ok.inj h
    simpa using hm
  | cons parts rest ih =>
    obtain ⟨missing₁, h₁, h⟩ := bind_eq_ok.1 h
    obtain ⟨ho, hsub, hnew, hcov⟩ := missingParents_ok hmain hm.outermost (.inl rfl) h₁
    have hstep : Missing (view main) missing₁ (done ++ [parts]) := by
      refine ⟨ho, fun d hd => ?_, fun w hw r hr hp => ?_⟩
      · rcases hnew d hd with hd | hd
        · obtain ⟨w, hw, hp⟩ := hm.wanted_of_mem d hd
          exact ⟨w, List.mem_append_left _ hw, hp⟩
        · exact ⟨parts, by simp, by simpa using hd⟩
      · rcases List.mem_append.1 hw with hw | hw
        · exact (hm.covers w hw r hr hp).imp_left (hsub r)
        · obtain rfl : w = parts := by simpa using hw
          exact hcov r hr hp
    simpa using ih hstep h

theorem missingDirectories_ok {main : FileTree} (hmain : Closed (view main))
    {wanted missing : List Path} (h : missingDirectories main wanted = .ok missing) :
    Missing (view main) missing wanted := by
  have hstart : Missing (view main) [] [] := ⟨.nil, by simp, by simp⟩
  simpa using missingDirectoriesFrom_ok hmain hstart h

theorem outermost_new {f : View} {l : List Path} {d : Path} (ho : Outermost f (l ++ [d])) :
    d ∉ l := by
  have hnodup := outermost_nodup ho
  rw [List.nodup_append] at hnodup
  exact fun h => hnodup.2.2 d h d (by simp) rfl

theorem dropLast_ne {d : Path} (hne : d ≠ []) : d.dropLast ≠ d := by
  intro h
  have h₁ := congrArg List.length h
  have h₂ := List.length_pos_iff.2 hne
  simp at h₁
  omega

/-- The parent of a directory that is next in the order is there. -/
theorem outermost_parent {f : View} {l : List Path} {d : Path} (ho : Outermost f (l ++ [d])) :
    d.dropLast = [] ∨ addDirectories l f d.dropLast = some .dir := by
  obtain ⟨hne, -, hparent⟩ := outermost_mem ho (d := d) (by simp)
  rw [addDirectories_apply]
  rcases hparent with h | h | h
  · exact .inl h
  · exact .inr (by rw [h, ite_self])
  · rcases List.mem_append.1 h with h | h
    · exact .inr (if_pos h)
    · exact absurd (List.mem_singleton.1 h) (dropLast_ne hne)

/-- The directory that is next in the order is missing, its parents are there,
and making it is one step in the view. -/
theorem next_directory {f : View} {l : List Path} {d : Path} {t : FileTree} (hf : Closed f)
    (ho : Outermost f (l ++ [d])) (ht : view t = addDirectories l f) :
    t.lookup (.repo d) = none ∧
      (∀ q, q ≠ [] → q <+: d → q ≠ d → t.lookup (.repo q) = some .dir) ∧
      view (t.insert (.repo d) .dir) = addDirectories (l ++ [d]) f := by
  obtain ⟨hne, hnone, -⟩ := outermost_mem ho (d := d) (by simp)
  have hl : Outermost f l := by simpa using outermost_take ho l.length
  have hclosed : Closed (view t) := ht ▸ closed_addDirectories hf hl
  refine ⟨?_, fun q hq hp hqd => ?_, ?_⟩
  · rw [← view_apply, ht, addDirectories_apply, if_neg (outermost_new ho), hnone]
  · refine closed_above hclosed (ht ▸ outermost_parent ho) q hq ?_
    rw [← List.dropLast_concat_getLast hne] at hp
    exact (List.prefix_concat_iff.1 hp).resolve_left (by rwa [List.dropLast_concat_getLast hne])
  · rw [addDirectories_concat, ← ht]
    funext q
    by_cases hq : q = d
    · subst hq
      simp
    · rw [Function.update_of_ne hq, view_apply, Finmap.lookup_insert_of_ne _ (by simpa using hq)]
      rfl

theorem hasChild_iff {t : FileTree} {path : Path} :
    hasChild t path = true ↔ ∃ q, q ≠ [] ∧ q.dropLast = path ∧ view t q ≠ none := by
  simp only [hasChild, decide_eq_true_eq, Finmap.mem_keys]
  constructor
  · rintro ⟨q, hq, hc⟩
    cases q with
    | hold s => simp [Place.isChild] at hc
    | repo q =>
      obtain ⟨hne, hlast⟩ : q ≠ [] ∧ q.dropLast = path := by simpa [Place.isChild] using hc
      exact ⟨q, hne, hlast, fun h => Finmap.lookup_eq_none.1 h hq⟩
  · rintro ⟨q, hne, hlast, hthere⟩
    refine ⟨.repo q, ?_, by simp [Place.isChild, hne, hlast]⟩
    by_contra h
    exact hthere (Finmap.lookup_eq_none.2 h)

/-- The last directory that was made is empty and can be removed, which gives
back the view before it was made. -/
theorem removeDirectory_last {f : View} {l : List Path} {d : Path} {t : FileTree} (hf : Closed f)
    (ho : Outermost f (l ++ [d])) (hc : Canonical d)
    (ht : view t = addDirectories (l ++ [d]) f) :
    ∃ t', removeDirectory d t = .ok t' ∧ view t' = addDirectories l f := by
  obtain ⟨hne, hnone, -⟩ := outermost_mem ho (d := d) (by simp)
  have hnew := outermost_new ho
  have hl : Outermost f l := by simpa using outermost_take ho l.length
  have hsplit : split d = .ok d := hc
  have hdir : directory t d.dropLast = .ok () := by
    refine directory_closed (ht ▸ closed_addDirectories hf ho) ((outermost_parent ho).imp_right ?_)
    intro h
    rw [ht, addDirectories_concat, Function.update_of_ne (dropLast_ne hne), h]
  have hthere : t.lookup (.repo d) = some .dir := by
    rw [← view_apply, ht, addDirectories_apply]
    simp
  have hempty : hasChild t d = false := by
    rw [← Bool.not_eq_true, hasChild_iff]
    rintro ⟨q, hq, hlast, hin⟩
    rw [ht, addDirectories_apply] at hin
    split at hin
    · rename_i hmem
      rcases List.mem_append.1 hmem with hmem | hmem
      · obtain ⟨-, -, h⟩ := outermost_mem hl hmem
        rw [hlast, hnone] at h
        simp [hne, hnew] at h
      · obtain rfl : q = d := by simpa using hmem
        exact dropLast_ne hne hlast
    · rw [← List.dropLast_concat_getLast hq, hlast] at hin
      have := hf.parent d _ hin hne
      rw [hnone] at this
      cases this
  refine ⟨t.erase (.repo d), ?_, ?_⟩
  · simp [removeDirectory, hsplit, hdir, hthere, hempty, bind, Except.bind, pure, Except.pure]
  · funext q
    by_cases hq : q = d
    · rw [hq, view_apply, Finmap.lookup_erase, addDirectories_apply, if_neg hnew, hnone]
    · rw [view_apply, Finmap.lookup_erase_ne (by simpa using hq), ← view_apply, ht,
        addDirectories_concat, Function.update_of_ne hq]

theorem removeDirectory_cases {t t' : FileTree} {d : Path} (hc : Canonical d)
    (h : removeDirectory d t = .ok t') :
    view t d = some .dir ∧ (t' = t ∨ t' = t.erase (.repo d)) := by
  have hsplit : split d = .ok d := hc
  simp only [removeDirectory, hsplit] at h
  obtain ⟨_, hparts, h⟩ := bind_eq_ok.1 h
  obtain rfl := Except.ok.inj hparts
  obtain ⟨_, -, h⟩ := bind_eq_ok.1 h
  split at h
  · rename_i hdir
    refine ⟨hdir, ?_⟩
    obtain rfl := Except.ok.inj h
    split
    · exact .inl rfl
    · exact .inr rfl
  · cases h

end RagPipeline.Application
