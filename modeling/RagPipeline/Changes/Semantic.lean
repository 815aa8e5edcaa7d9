import RagPipeline.Runner.Contract
import RagPipeline.Lib.Guard
import Mathlib.Data.List.AList
import RagPipeline.Lib.Patch
import Mathlib.Data.List.Sort
import Mathlib.Data.List.Dedup
import Mathlib.Data.String.Basic

/-! # The projection of a tree

A manifest is what the walker saw. Its semantic content is a map from canonical
paths to what each entry is and what it is compared by: `_project` for the two
flat trees, `_project_main` for the operator's checkout, which may hold links. -/

set_option autoImplicit false

namespace RagPipeline.Changes
open Guard
open Runner (StopReason)

inductive ChangeSetError where
  | evidenceUnavailable (message : String)
  | unsafeChange (message : String) (reason : StopReason)
  | declarationMismatch (message : String)
deriving DecidableEq, Repr

def ChangeSetError.reason : ChangeSetError → StopReason
  | .evidenceUnavailable _ => .preflightFailed
  | .unsafeChange _ reason => reason
  | .declarationMismatch _ => .schemaViolation

inductive EntryKind where
  | file
  | dir
  | link
deriving DecidableEq, Repr

def EntryKind.text : EntryKind → String
  | .file => "file"
  | .dir => "dir"
  | .link => "link"

structure Entry where
  path : String
  kind : EntryKind
  mode : String
  size : ℕ
  nlink : ℤ
  attributes : ℕ
  reparseTag : ℕ
  linkTargetMac : String
  sha256 : String
deriving DecidableEq, Repr

structure Manifest where
  rootIdentity : String
  entries : List Entry

/-- `_FILE_FIELDS` of an entry, as text. -/
def Entry.fileFields (e : Entry) : List String :=
  [e.mode, toString e.size, e.sha256, toString e.attributes, toString e.reparseTag,
    toString e.nlink, e.linkTargetMac]

/-- `_DIR_FIELDS`: size and link count of a directory follow from what is in
it. -/
def Entry.dirFields (e : Entry) : List String :=
  [e.mode, toString e.attributes, toString e.reparseTag, e.linkTargetMac]

structure Snap where
  kind : EntryKind
  mode : String
  sha256 : String
  compare : List String
deriving DecidableEq, Repr

def Snap.of (e : Entry) : Snap where
  kind := e.kind
  mode := e.mode
  sha256 := e.sha256
  compare := e.kind.text :: if e.kind = .file then e.fileFields else e.dirFields

/-- A mapping of paths to entries. Nothing is in it but what an entry of the
manifest projects to. -/
structure Projection where
  snaps : AList fun _ : String => Snap
  read : ∀ path snap, snaps.lookup path = some snap → ∃ e, snap = Snap.of e

namespace Projection

def empty : Projection := ⟨∅, fun _ _ h => by simp at h⟩

def get (p : Projection) (path : String) : Option Snap := p.snaps.lookup path

def paths (p : Projection) : List String := p.snaps.keys

def insert (p : Projection) (e : Entry) : Projection where
  snaps := p.snaps.insert e.path (Snap.of e)
  read path snap h := by
    by_cases hp : path = e.path
    · subst hp
      rw [AList.lookup_insert] at h
      exact ⟨e, (Option.some.inj h).symm⟩
    · rw [AList.lookup_insert_ne hp] at h
      exact p.read path snap h

theorem mem_paths {p : Projection} {path : String} : path ∈ p.paths ↔ (p.get path).isSome :=
  (AList.mem_keys.symm.trans AList.lookup_isSome.symm)

theorem get_insert (p : Projection) (e : Entry) (path : String) :
    (p.insert e).get path = if path = e.path then some (Snap.of e) else p.get path := by
  by_cases hp : path = e.path
  · subst hp
    simp [get, insert]
  · simp [get, insert, AList.lookup_insert_ne hp, hp]

end Projection

/-- The type gate: anything but a file or a directory, and anything the walker
fingerprinted as a link, has no place in a change set. -/
def representable (e : Entry) : Bool :=
  (e.kind = .file ∨ e.kind = .dir) ∧ e.reparseTag = 0 ∧ e.linkTargetMac = ""

def projectEntry (gate : Entry → Bool) (snapshot : Projection) (e : Entry) :
    Except ChangeSetError Projection := do
  require (gate e) (.unsafeChange "calisma alaninda temsil edilemeyen giris" .pathNotAllowed)
  require (e.path ∉ snapshot.paths) (.evidenceUnavailable "ayni yol iki kez listelendi")
  return snapshot.insert e

def project (manifest : Manifest) : Except ChangeSetError Projection :=
  manifest.entries.foldlM (projectEntry representable) .empty

def projectMain (manifest : Manifest) : Except ChangeSetError Projection :=
  manifest.entries.foldlM (projectEntry fun _ => true) .empty

theorem project_from {gate : Entry → Bool} {l : List Entry} {p q : Projection}
    (h : l.foldlM (projectEntry gate) p = .ok q) :
    (l.map Entry.path).Nodup ∧ (∀ e ∈ l, e.path ∉ p.paths) ∧
      ∀ path, q.get path =
        ((l.find? fun e => e.path = path).map Snap.of).or (p.get path) := by
  induction l generalizing p with
  | nil =>
    cases pure_ok.1 h
    simp
  | cons e rest ih =>
    simp only [List.foldlM_cons, bind_ok, projectEntry, require_ok, pure_ok] at h
    obtain ⟨next, ⟨_, -, _, hnew, rfl⟩, hrest⟩ := h
    obtain ⟨hn, hout, hget⟩ := ih hrest
    have hfresh : ∀ d ∈ rest, d.path ≠ e.path ∧ d.path ∉ p.paths := by
      intro d hd
      have := hout d hd
      rw [Projection.mem_paths, Projection.get_insert] at this
      by_cases hde : d.path = e.path
      · simp [hde] at this
      · rw [if_neg hde, ← Projection.mem_paths] at this
        exact ⟨hde, this⟩
    refine ⟨?_, ?_, fun path => ?_⟩
    · rw [List.map_cons, List.nodup_cons]
      refine ⟨fun hmem => ?_, hn⟩
      obtain ⟨d, hd, hpath⟩ := List.mem_map.1 hmem
      exact (hfresh d hd).1 hpath
    · rintro d (_ | ⟨_, hd⟩)
      · exact hnew
      · exact (hfresh d hd).2
    · rw [hget, Projection.get_insert]
      by_cases hp : path = e.path
      · subst hp
        have hnone : rest.find? (fun d => decide (d.path = e.path)) = none := by
          rw [List.find?_eq_none]
          intro d hd
          simpa using (hfresh d hd).1
        simp [hnone]
      · simp [hp, Ne.symm hp]

/-- The projection holds what the manifest lists, path by path. -/
theorem project_get {gate : Entry → Bool} {l : List Entry} {q : Projection}
    (h : l.foldlM (projectEntry gate) .empty = .ok q) (path : String) :
    q.get path = (l.find? fun e => e.path = path).map Snap.of := by
  rw [(project_from h).2.2 path]
  simp [Projection.get, Projection.empty]

theorem project_reads {manifest : Manifest} {p : Projection} (h : project manifest = .ok p)
    (path : String) : p.get path = (manifest.entries.find? fun e => e.path = path).map Snap.of :=
  project_get h path

theorem project_main_reads {manifest : Manifest} {p : Projection}
    (h : projectMain manifest = .ok p) (path : String) :
    p.get path = (manifest.entries.find? fun e => e.path = path).map Snap.of :=
  project_get h path

/-- Two equal comparisons of files are two equal modes and two equal digests. -/
theorem Snap.of_compare {d e : Entry} (h : (Snap.of d).compare = (Snap.of e).compare) :
    d.kind = e.kind ∧ d.mode = e.mode ∧ (d.kind = .file → d.sha256 = e.sha256) := by
  simp only [Snap.of, List.cons.injEq] at h
  have hk : d.kind = e.kind := by
    cases hd : d.kind <;> cases he : e.kind <;> simp [hd, he, EntryKind.text] at h ⊢
  by_cases hf : d.kind = .file
  · simp [← hk, hf, Entry.fileFields] at h
    exact ⟨hk, h.1, fun _ => h.2.2.1⟩
  · simp [← hk, hf, Entry.dirFields] at h
    exact ⟨hk, h.1, fun hf' => absurd hf' hf⟩

end RagPipeline.Changes

/-! # The semantic change set

`_semantic_changes` walks the paths of two projections in their order and keeps
what changed in a file; a changed kind, a directory's own metadata and a
directory that comes or goes with nothing in it are refused. What it returns is
a patch from the one map of files to the other. -/

set_option autoImplicit false

namespace RagPipeline.Changes
open Guard Patch

inductive ChangeKind where
  | added
  | modified
  | deleted
deriving DecidableEq, Repr

structure Change where
  path : String
  kind : ChangeKind
  mode : String
  sha256 : String
deriving DecidableEq, Repr

/-- What the walk finds at one path. -/
inductive Found where
  | same
  | change (c : Change)
  | structural
deriving DecidableEq, Repr

def classify (path : String) : Option Snap → Option Snap → Except ChangeSetError Found
  | some left, some right =>
    if left.compare = right.compare then .ok .same
    else if left.kind ≠ right.kind then
      .error (.unsafeChange "yol turu degistirildi" .pathNotAllowed)
    else if right.kind ≠ .file then
      .error (.unsafeChange "dizin ust verisi degisikligi desteklenmiyor" .pathNotAllowed)
    else .ok (.change ⟨path, .modified, right.mode, right.sha256⟩)
  | none, some right =>
    if right.kind = .file then .ok (.change ⟨path, .added, right.mode, right.sha256⟩)
    else .ok .structural
  | some left, none =>
    -- the baseline's mode, so that two deletions can be told apart
    if left.kind = .file then .ok (.change ⟨path, .deleted, left.mode, ""⟩)
    else .ok .structural
  | none, none => .ok .same

/-- The loop over the paths, with its changes and its structural paths. -/
def walk (before after : Projection) : List String → Except ChangeSetError (List Change × List String)
  | [] => .ok ([], [])
  | path :: rest => do
    let found ← classify path (before.get path) (after.get path)
    let (changes, structural) ← walk before after rest
    match found with
    | .same => return (changes, structural)
    | .change c => return (c :: changes, structural)
    | .structural => return (changes, path :: structural)

def assertStructural (directories : List String) (changes : List Change) :
    Except ChangeSetError Unit :=
  require (∀ path ∈ directories, ∃ c ∈ changes, (path ++ "/").toList <+: c.path.toList)
    (.unsafeChange "bos dizin degisikligi desteklenmiyor" .pathNotAllowed)

/-- `sorted(set(before) | set(after))`. -/
def bothPaths (before after : Projection) : List String :=
  (before.paths ++ after.paths).dedup.insertionSort (· ≤ ·)

def semanticChanges (before after : Projection) : Except ChangeSetError (List Change) := do
  let (changes, structural) ← walk before after (bothPaths before after)
  assertStructural structural changes
  return changes.insertionSort fun a b => a.path ≤ b.path

theorem mem_bothPaths {before after : Projection} {path : String} :
    path ∈ bothPaths before after ↔ (before.get path).isSome ∨ (after.get path).isSome := by
  simp [bothPaths, Projection.mem_paths]

theorem bothPaths_sorted (before after : Projection) : (bothPaths before after).SortedLT :=
  List.sortedLE_insertionSort.sortedLT_of_nodup
    ((List.perm_insertionSort _ _).nodup_iff.2 (List.nodup_dedup _))

/-- A change the walk finds sits at the path it looked at, and is what the two
sides say there. -/
theorem classify_change {path : String} {left right : Option Snap} {c : Change}
    (h : classify path left right = .ok (.change c)) :
    c.path = path ∧
      ((left = none ∧ ∃ r, right = some r ∧ r.kind = .file ∧
          c.kind = .added ∧ c.mode = r.mode ∧ c.sha256 = r.sha256) ∨
        (right = none ∧ ∃ l, left = some l ∧ l.kind = .file ∧ c.kind = .deleted) ∨
        ∃ l r, left = some l ∧ right = some r ∧ l.kind = .file ∧ r.kind = .file ∧
          l.compare ≠ r.compare ∧ c.kind = .modified ∧ c.mode = r.mode ∧ c.sha256 = r.sha256) := by
  cases left with
  | none =>
    cases right with
    | none => simp [classify] at h
    | some r =>
      simp only [classify] at h
      split at h <;> simp only [Except.ok.injEq, Found.change.injEq, reduceCtorEq] at h
      subst h
      exact ⟨rfl, .inl ⟨rfl, r, rfl, ‹_›, rfl, rfl, rfl⟩⟩
  | some l =>
    cases right with
    | none =>
      simp only [classify] at h
      split at h <;> simp only [Except.ok.injEq, Found.change.injEq, reduceCtorEq] at h
      subst h
      exact ⟨rfl, .inr (.inl ⟨rfl, l, rfl, ‹_›, rfl⟩)⟩
    | some r =>
      simp only [classify] at h
      split_ifs at h with hc hk hf <;>
        simp only [Except.ok.injEq, Found.change.injEq, reduceCtorEq] at h
      subst h
      rw [not_not] at hk hf
      exact ⟨rfl, .inr (.inr ⟨l, r, rfl, rfl, hk.trans hf, hf, hc, rfl, rfl, rfl⟩)⟩

/-- Where the walk finds no change, no file came, went or changed. -/
theorem classify_quiet {path : String} {left right : Option Snap} {found : Found}
    (h : classify path left right = .ok found) (hn : ∀ c, found ≠ .change c) :
    (∃ l r, left = some l ∧ right = some r ∧ l.compare = r.compare) ∨
      (∀ l, left = some l → l.kind ≠ .file) ∧ ∀ r, right = some r → r.kind ≠ .file := by
  cases left with
  | none =>
    cases right with
    | none => exact .inr ⟨by simp, by simp⟩
    | some r =>
      simp only [classify] at h
      split at h
      · exact absurd (Except.ok.inj h).symm (hn _)
      · exact .inr ⟨by simp, fun r' hr => by cases hr; assumption⟩
  | some l =>
    cases right with
    | none =>
      simp only [classify] at h
      split at h
      · exact absurd (Except.ok.inj h).symm (hn _)
      · exact .inr ⟨fun l' hl => by cases hl; assumption, by simp⟩
    | some r =>
      simp only [classify] at h
      split_ifs at h with hc hk hf
      · exact .inl ⟨l, r, rfl, rfl, hc⟩
      · exact absurd (Except.ok.inj h).symm (hn _)

/-- What the walk returns, path by path. -/
structure Walked (before after : Projection) (paths : List String) (changes : List Change) :
    Prop where
  sub : (changes.map Change.path).Sublist paths
  found : ∀ c ∈ changes,
    classify c.path (before.get c.path) (after.get c.path) = .ok (.change c)
  quiet : ∀ path ∈ paths, path ∉ changes.map Change.path →
    ∃ found, classify path (before.get path) (after.get path) = .ok found ∧ ∀ c, found ≠ .change c

theorem walk_walked {before after : Projection} {paths : List String} {changes : List Change}
    {structural : List String} (hn : paths.Nodup)
    (h : walk before after paths = .ok (changes, structural)) :
    Walked before after paths changes := by
  induction paths generalizing changes structural with
  | nil =>
    cases h
    exact ⟨List.Sublist.refl _, by simp, by simp⟩
  | cons path rest ih =>
    rw [List.nodup_cons] at hn
    simp only [walk, bind_ok] at h
    obtain ⟨found, hfound, ⟨cs, ss⟩, hrest, h⟩ := h
    have hw := ih hn.2 hrest
    have hskip (hc : ∀ c, found ≠ .change c) : Walked before after (path :: rest) cs :=
      ⟨hw.sub.cons path, hw.found, by
        rintro p (_ | ⟨_, hp⟩) hpc
        · exact ⟨found, hfound, hc⟩
        · exact hw.quiet p hp hpc⟩
    cases found with
    | same =>
      cases h
      exact hskip (by simp)
    | structural =>
      cases h
      exact hskip (by simp)
    | change c =>
      cases h
      obtain rfl := (classify_change hfound).1
      refine ⟨hw.sub.cons_cons _, ?_, ?_⟩
      · rintro d (_ | ⟨_, hd⟩)
        · exact hfound
        · exact hw.found d hd
      · rintro p (_ | ⟨_, hp⟩) hpc
        · simp at hpc
        · exact hw.quiet p hp fun hm => hpc (by simp [hm])

theorem Walked.sorted {before after : Projection} {changes : List Change}
    (h : Walked before after (bothPaths before after) changes) :
    (changes.map Change.path).Pairwise (· < ·) :=
  (bothPaths_sorted before after).pairwise.sublist h.sub

/-- The walk leaves its changes in order, so that the last sort moves nothing. -/
theorem semantic_walked {before after : Projection} {changes : List Change}
    (h : semanticChanges before after = .ok changes) :
    Walked before after (bothPaths before after) changes := by
  simp only [semanticChanges, bind_ok] at h
  obtain ⟨⟨cs, ss⟩, hwalk, _, -, h⟩ := h
  have hw := walk_walked (bothPaths_sorted before after).nodup hwalk
  have hs : cs.Pairwise fun a b => a.path ≤ b.path :=
    (List.pairwise_map.1 hw.sorted).imp le_of_lt
  cases pure_ok.1 h
  rwa [hs.insertionSort_eq]

/-- What a file is to a patch: its executable mode and the digest of its
bytes. -/
abbrev FileState := String × String

def Snap.file (s : Snap) : Option FileState :=
  if s.kind = .file then some (s.mode, s.sha256) else none

def Projection.files (p : Projection) (path : String) : Option FileState :=
  (p.get path).bind Snap.file

def Change.edit (c : Change) : String × Option FileState :=
  (c.path, if c.kind = .deleted then none else some (c.mode, c.sha256))

theorem map_edit (changes : List Change) :
    (changes.map Change.edit).map Prod.fst = changes.map Change.path := by
  simp [Function.comp_def, Change.edit]

theorem classify_edit {before after : Projection} {c : Change}
    (h : classify c.path (before.get c.path) (after.get c.path) = .ok (.change c)) :
    after.files c.path = c.edit.2 := by
  obtain ⟨-, ⟨-, r, hr, hf, hk, hm, hs⟩ | ⟨hr, l, -, -, hk⟩ |
    ⟨l, r, -, hr, -, hf, -, hk, hm, hs⟩⟩ := classify_change h
  · simp [Projection.files, hr, Snap.file, hf, Change.edit, hk, hm, hs]
  · simp [Projection.files, hr, Change.edit, hk]
  · simp [Projection.files, hr, Snap.file, hf, Change.edit, hk, hm, hs]

theorem classify_keeps {before after : Projection} {path : String} {found : Found}
    (h : classify path (before.get path) (after.get path) = .ok found)
    (hn : ∀ c, found ≠ .change c) : before.files path = after.files path := by
  rcases classify_quiet h hn with ⟨l, r, hl, hr, hc⟩ | ⟨hl, hr⟩
  · obtain ⟨d, rfl⟩ := before.read path l hl
    obtain ⟨e, rfl⟩ := after.read path r hr
    obtain ⟨hk, hm, hs⟩ := Snap.of_compare hc
    by_cases hf : d.kind = .file
    · simp [Projection.files, hl, hr, Snap.file, Snap.of, ← hk, hf, hm, hs hf]
    · simp [Projection.files, hl, hr, Snap.file, Snap.of, ← hk, hf]
  · have hnone {p : Projection} (hp : ∀ s, p.get path = some s → s.kind ≠ .file) :
        p.files path = none := by
      cases hs : p.get path with
      | none => simp [Projection.files, hs]
      | some s => simp [Projection.files, hs, Snap.file, hp s hs]
    rw [hnone hl, hnone hr]

/-- The changes lead from the one map of files to the other. -/
theorem Walked.patch {before after : Projection} {changes : List Change}
    (h : Walked before after (bothPaths before after) changes) :
    Patch.patch (changes.map Change.edit) before.files = after.files := by
  refine patch_eq ?_ ?_ fun path hpath => ?_
  · rw [map_edit]
    exact h.sorted.imp ne_of_lt
  · intro e he
    obtain ⟨c, hc, rfl⟩ := List.mem_map.1 he
    exact classify_edit (h.found c hc)
  · rw [map_edit] at hpath
    by_cases hb : path ∈ bothPaths before after
    · obtain ⟨found, hfound, hn⟩ := h.quiet path hb hpath
      exact classify_keeps hfound hn
    · rw [mem_bothPaths] at hb
      simp only [not_or, Option.not_isSome_iff_eq_none] at hb
      simp [Projection.files, hb.1, hb.2]

/-- A listed change is a difference in what the two entries are compared by. -/
theorem classify_differs {path : String} {left right : Option Snap} {c : Change}
    (h : classify path left right = .ok (.change c)) :
    left.map Snap.compare ≠ right.map Snap.compare := by
  obtain ⟨-, ⟨rfl, r, rfl, -⟩ | ⟨rfl, l, rfl, -⟩ | ⟨l, r, rfl, rfl, -, -, hc, -⟩⟩ :=
    classify_change h
  · simp
  · simp
  · simpa using hc

/-- Two readings of a file that agree in all that the walker reports of it
except the bytes and the mode. -/
def Entry.SameSetting (d e : Entry) : Prop :=
  d.size = e.size ∧ d.attributes = e.attributes ∧ d.reparseTag = e.reparseTag ∧
    d.nlink = e.nlink ∧ d.linkTargetMac = e.linkTargetMac

/-- A change that leaves the file's mode and digest alone is one of its size,
attributes, reparse tag, link count or link fingerprint. -/
theorem classify_real {before after : Projection} {c : Change}
    (h : classify c.path (before.get c.path) (after.get c.path) = .ok (.change c)) :
    before.files c.path ≠ after.files c.path ∨
      ∃ d e, before.get c.path = some (Snap.of d) ∧ after.get c.path = some (Snap.of e) ∧
        d.kind = .file ∧ e.kind = .file ∧ ¬ d.SameSetting e := by
  obtain ⟨-, ⟨hl, r, hr, hf, -⟩ | ⟨hr, l, hl, hf, -⟩ | ⟨l, r, hl, hr, hfl, hfr, hc, -⟩⟩ :=
    classify_change h
  · exact .inl (by simp [Projection.files, hl, hr, Snap.file, hf])
  · exact .inl (by simp [Projection.files, hl, hr, Snap.file, hf])
  · obtain ⟨d, rfl⟩ := before.read _ l hl
    obtain ⟨e, rfl⟩ := after.read _ r hr
    by_cases hs : d.SameSetting e
    · left
      intro hfiles
      have hd : d.kind = .file := hfl
      have he : e.kind = .file := hfr
      simp only [Projection.files, hl, hr, Option.bind_some, Snap.file, hfl, hfr, if_true,
        Option.some.injEq, Prod.mk.injEq] at hfiles
      obtain ⟨hsize, hattributes, htag, hnlink, hmac⟩ := hs
      have hmode : d.mode = e.mode := hfiles.1
      have hsha : d.sha256 = e.sha256 := hfiles.2
      exact hc (by simp [Snap.of, hd, he, Entry.fileFields, hsize, hattributes, htag, hnlink,
        hmac, hmode, hsha])
    · exact .inr ⟨d, e, hl, hr, hfl, hfr, hs⟩

section Order
variable {before before' after after' : Projection}

theorem get_perm {p p' : Projection} (hp : p.snaps.entries.Perm p'.snaps.entries) :
    p.get = p'.get :=
  funext fun _ => AList.perm_lookup hp

theorem bothPaths_perm (hb : before.snaps.entries.Perm before'.snaps.entries)
    (ha : after.snaps.entries.Perm after'.snaps.entries) :
    bothPaths before after = bothPaths before' after' := by
  refine (bothPaths_sorted _ _).eq_of_mem_iff (bothPaths_sorted _ _) fun path => ?_
  rw [mem_bothPaths, mem_bothPaths, get_perm hb, get_perm ha]

theorem walk_perm (hb : before.get = before'.get) (ha : after.get = after'.get)
    (paths : List String) : walk before after paths = walk before' after' paths := by
  induction paths with
  | nil => rfl
  | cons path rest ih => simp only [walk, hb, ha, ih]

theorem semantic_perm (hb : before.snaps.entries.Perm before'.snaps.entries)
    (ha : after.snaps.entries.Perm after'.snaps.entries) :
    semanticChanges before after = semanticChanges before' after' := by
  simp only [semanticChanges, bothPaths_perm hb ha, walk_perm (get_perm hb) (get_perm ha)]

end Order

/-- A change set that is not refused takes the files of the one tree to those
of the other. Each change is a difference of what its path is compared by, and
one of its mode or digest unless the file's setting moved; the changes stand in
the order of their paths, none twice, whatever order the projections have. -/
theorem semantic_changes_patch {before after : Projection} {changes : List Change}
    (h : semanticChanges before after = .ok changes) :
    patch (changes.map Change.edit) before.files = after.files ∧
      (∀ c ∈ changes,
        (before.get c.path).map Snap.compare ≠ (after.get c.path).map Snap.compare ∧
          (before.files c.path ≠ after.files c.path ∨
            ∃ d e, before.get c.path = some (Snap.of d) ∧ after.get c.path = some (Snap.of e) ∧
              d.kind = .file ∧ e.kind = .file ∧ ¬ d.SameSetting e)) ∧
      (changes.map Change.path).Nodup ∧
      (changes.map Change.path).Pairwise (· < ·) ∧
      ∀ before' after' : Projection, before.snaps.entries.Perm before'.snaps.entries →
        after.snaps.entries.Perm after'.snaps.entries →
        semanticChanges before' after' = .ok changes := by
  have hw := semantic_walked h
  refine ⟨hw.patch, fun c hc => ?_, hw.sorted.imp ne_of_lt, hw.sorted, ?_⟩
  · have hfound := hw.found c hc
    exact ⟨classify_differs hfound, classify_real hfound⟩
  · intro before' after' hb ha
    rw [← semantic_perm hb ha, h]

/-- A file as a walker lists it, in an operator's tree. -/
def plainFile (path mode sha256 : String) (attributes : ℕ) : Entry where
  path := path
  kind := .file
  mode := mode
  size := 3
  nlink := 1
  attributes := attributes
  reparseTag := 0
  linkTargetMac := ""
  sha256 := sha256

def plainDir (path : String) : Entry where
  path := path
  kind := .dir
  mode := "0o755"
  size := 0
  nlink := 2
  attributes := 0
  reparseTag := 0
  linkTargetMac := ""
  sha256 := ""

def twoFiles : Projection :=
  (Projection.empty.insert (plainFile "b" "0o644" "1f" 0)).insert (plainFile "a" "0o644" "2e" 0)

/-- The file `b` has become executable, `a` is gone and a directory came with
a file in it. -/
def reworked : Projection :=
  ((Projection.empty.insert (plainFile "b" "0o755" "1f" 0)).insert (plainDir "d")).insert
    (plainFile "d/c" "0o644" "3d" 0)

theorem semantic_changes_patch_reworked :
    semanticChanges twoFiles reworked =
        .ok [⟨"a", .deleted, "0o644", ""⟩, ⟨"b", .modified, "0o755", "1f"⟩,
          ⟨"d/c", .added, "0o644", "3d"⟩] ∧
      patch (([⟨"a", .deleted, "0o644", ""⟩, ⟨"b", .modified, "0o755", "1f"⟩,
          ⟨"d/c", .added, "0o644", "3d"⟩] : List Change).map Change.edit) twoFiles.files =
        reworked.files :=
  have h : semanticChanges twoFiles reworked =
      .ok [⟨"a", .deleted, "0o644", ""⟩, ⟨"b", .modified, "0o755", "1f"⟩,
        ⟨"d/c", .added, "0o644", "3d"⟩] := by decide +kernel
  ⟨h, (semantic_changes_patch h).1⟩

/-- One file with the attribute `hidden` set in the second reading: the change
set names it, and there is nothing to patch. -/
theorem attribute_listed :
    ∃ before after changes, semanticChanges before after = .ok changes ∧
      ∃ c ∈ changes, before.files c.path = after.files c.path ∧
        patch ((changes.erase c).map Change.edit) before.files = after.files := by
  refine ⟨Projection.empty.insert (plainFile "a" "0o666" "1f" 32),
    Projection.empty.insert (plainFile "a" "0o666" "1f" 34),
    [⟨"a", .modified, "0o666", "1f"⟩], by decide +kernel, ⟨"a", .modified, "0o666", "1f"⟩,
    List.mem_singleton_self _, by decide +kernel, ?_⟩
  funext path
  by_cases hp : path = "a"
  · subst hp
    decide +kernel
  · simp [Projection.files, Projection.get_insert, plainFile, hp]

end RagPipeline.Changes
