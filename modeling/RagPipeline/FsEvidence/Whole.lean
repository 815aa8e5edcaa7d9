import RagPipeline.FsEvidence.Walked
import Mathlib.Data.List.Sort

/-! # The scan is the listing

A scan comes to an end, and it returns a manifest exactly where the tree is let
through. At every turn of its loop the entries it has met and those its frames still
hold are together the full recursive listing, so the manifest has the evidence of each
entry, once. Two manifests differ where their evidence or their roots do. -/

set_option autoImplicit false

namespace RagPipeline.FsEvidence
open Guard
open Changes (utf8Bytes)
open DepthFirst (Event)

/-- The frame that the loop begins with. -/
def rootFrame (root : Root) : Frame Directory := ⟨⟨root.answers, root.children⟩, [], root.children.map recordOf, 0⟩

def rootStack (root : Root) : List (DepthFirst.Frame Leaf Door) := [⟨[], root.children⟩]

/-- More turns than the scan of a tree takes. -/
def turns (root : Root) : ℕ := 2 * (listing root).length + 1

theorem pending_root (root : Root) :
    DepthFirst.pending (rootStack root) = DepthFirst.tours [] root.children ++ [.leave []] := rfl

theorem pending_length (root : Root) : (DepthFirst.pending (rootStack root)).length ≤ turns root := by
  have hlength := DepthFirst.tours_length [] root.children
  rw [pending_root, List.length_append, turns, listing]
  exact Nat.add_le_add_right hlength 1

theorem pending_found (root : Root) :
    (DepthFirst.pending (rootStack root)).filterMap Event.found = listing root := by
  rw [pending_root, List.filterMap_append, DepthFirst.tours_found, listing]
  exact List.append_nil _

theorem shows_root (root : Root) : Shows root ([rootFrame root], .start) (rootStack root) .start where
  frames := .cons ⟨rfl, rfl, rfl, root.distinct, rfl⟩ .nil
  stacked := ⟨rfl, trivial⟩
  progress := rfl

/-! ## When a tree is let through -/

/-- A tree that is let through: one that can be read throughout, each of its entries let
through, and the limits kept. -/
structure Admitted [Host] (call : Call) (root : Root) : Prop where
  key : call.key.length = keyBytes
  opens : root.opens = none ∧ root.answers.lists = none
  closes : root.answers.closes = none ∧
    ∀ path door, (path, .inr door) ∈ listing root → door.answers.closes = none
  entries : (listing root).length ≤ call.limits.maxEntries
  logical : ((listing root).map Found.size).sum ≤ call.limits.maxLogicalTotalBytes
  content : (((listing root).filter (hashed call)).map Found.size).sum ≤ call.limits.maxContentTotalBytes
  fine : ∀ f ∈ listing root, Fine call f

/-- Every path has an encoding in UTF-8. -/
def Encodable (root : Root) : Prop := ∀ f ∈ listing root, ∀ c ∈ Found.path f, surrogate c = false

section
variable [Host] {call : Call} {root : Root} {p : Progress} {m : Manifest} {fuel : ℕ}

theorem fine_events : (∀ e ∈ DepthFirst.pending (rootStack root), FineEvent call root e) ↔
    (∀ f ∈ listing root, Fine call f) ∧ root.answers.closes = none ∧
      ∀ path door, (path, .inr door) ∈ listing root → door.answers.closes = none := by
  rw [pending_root]
  constructor
  · intro h
    refine ⟨?_, ?_, ?_⟩
    · intro f hf
      obtain ⟨e, he, hfound⟩ := DepthFirst.mem_listing_iff.1 hf
      have hfine := h e (List.mem_append_left _ he)
      cases e with
      | leaf path a =>
        obtain rfl := Option.some.inj hfound
        exact hfine
      | enter path door =>
        obtain rfl := Option.some.inj hfound
        exact hfine
      | leave path => cases hfound
    · exact h (.leave []) (List.mem_append_right _ List.mem_cons_self)
    · intro path door hmem
      have hleave : .leave (path ++ [door]) ∈ DepthFirst.tours [] root.children :=
        DepthFirst.leave_mem_iff.2 ⟨path, door, rfl, hmem⟩
      have hcloses : closesAt root (path ++ [door]) = none := h _ (List.mem_append_left _ hleave)
      rw [closesAt, List.getLast?_concat] at hcloses
      exact hcloses
  · rintro ⟨hfine, hroot, hcloses⟩ e he
    cases e with
    | leaf path a =>
      have htour := (List.mem_append.1 he).resolve_right (by simp)
      exact hfine _ (DepthFirst.mem_listing_iff.2 ⟨_, htour, rfl⟩)
    | enter path door =>
      have htour := (List.mem_append.1 he).resolve_right (by simp)
      exact hfine _ (DepthFirst.mem_listing_iff.2 ⟨_, htour, rfl⟩)
    | leave path =>
      show closesAt root path = none
      cases List.mem_append.1 he with
      | inl htour =>
        obtain ⟨above, door, rfl, hmem⟩ := DepthFirst.leave_mem_iff.1 htour
        rw [closesAt, List.getLast?_concat]
        exact hcloses above door hmem
      | inr hlast =>
        obtain rfl := Event.leave.inj (List.mem_singleton.1 hlast)
        exact hroot

omit [Host] in
theorem within_start : Within call .start := ⟨Nat.zero_le _, Nat.zero_le _, Nat.zero_le _⟩

theorem walk_ok : (DepthFirst.pending (rootStack root)).foldlM (act call root) .start = .ok p ↔
    ((∀ f ∈ listing root, Fine call f) ∧ root.answers.closes = none ∧
      ∀ path door, (path, .inr door) ∈ listing root → door.answers.closes = none) ∧
    Within call (total call .start (listing root)) ∧ p = total call .start (listing root) := by
  rw [fold_ok _ within_start, pending_found, foldl_gain, fine_events]

omit [Host] in
theorem openFrame_ok {frame : Frame Directory} : openFrame call shown root = .ok frame ↔
    call.key.length = keyBytes ∧ (root.opens = none ∧ root.answers.lists = none) ∧ frame = rootFrame root := by
  simp only [openFrame, bind_ok, exists_unit, require_ok, guard_ok, pure_ok, list, shown, answer_ok]
  constructor
  · rintro ⟨hkey, kok, ⟨hopens, rfl⟩, records, ⟨hlists, rfl⟩, rfl⟩
    exact ⟨hkey, ⟨hopens, hlists⟩, rfl⟩
  · rintro ⟨hkey, ⟨hopens, hlists⟩, rfl⟩
    exact ⟨hkey, _, ⟨hopens, rfl⟩, _, ⟨hlists, rfl⟩, rfl⟩

theorem admitted_walk (hkey : call.key.length = keyBytes)
    (hopens : root.opens = none ∧ root.answers.lists = none) :
    (DepthFirst.pending (rootStack root)).foldlM (act call root) .start = .ok p ↔
      Admitted call root ∧ p = total call .start (listing root) := by
  rw [walk_ok]
  constructor
  · rintro ⟨⟨hfine, hcloses⟩, hwithin, rfl⟩
    refine ⟨⟨hkey, hopens, hcloses, ?_, ?_, ?_, hfine⟩, rfl⟩
    · have hentries := hwithin.entries
      simpa [total, Progress.start] using hentries
    · have hlogical := hwithin.logical
      simpa [total, Progress.start] using hlogical
    · have hcontent := hwithin.content
      simpa [total, Progress.start] using hcontent
  · rintro ⟨h, rfl⟩
    refine ⟨⟨h.fine, h.closes⟩, ⟨?_, ?_, ?_⟩, rfl⟩
    · simpa [total, Progress.start] using h.entries
    · simpa [total, Progress.start] using h.logical
    · simpa [total, Progress.start] using h.content

/-- The loop of the scan comes to what the recursion comes to. -/
theorem loop_root (hfuel : turns root < fuel) :
    (DepthFirst.loop (step call shown) fuel ([rootFrame root], .start)).map (·.mapError Prod.fst) =
      some ((DepthFirst.pending (rootStack root)).foldlM (act call root) .start) :=
  step_worksOff.loop_eq (shows_root root) (Nat.lt_of_le_of_lt (pending_length root) hfuel)

theorem scan_ends (hfuel : turns root < fuel) : ∃ result, scan call shown fuel root = some result := by
  unfold scan
  cases hopen : openFrame call shown root with
  | error e => exact ⟨_, rfl⟩
  | ok frame =>
    obtain ⟨-, -, rfl⟩ := openFrame_ok.1 hopen
    obtain ⟨result, hloop, -⟩ := Option.map_eq_some_iff.1 (loop_root hfuel)
    dsimp only
    rw [hloop]
    exact ⟨_, rfl⟩

/-- A manifest is returned exactly where the tree is let through and its paths can be
encoded, and it is that of the whole listing. -/
theorem scan_ok_iff (hfuel : turns root < fuel) : scan call shown fuel root = some (.ok m) ↔
    Admitted call root ∧ manifestOf root.answers.identity (total call .start (listing root)) = .ok m := by
  unfold scan
  cases hopen : openFrame call shown root with
  | error e =>
    constructor
    · intro h
      cases h
    · rintro ⟨hadmitted, -⟩
      rw [openFrame_ok.2 ⟨hadmitted.key, hadmitted.opens, rfl⟩] at hopen
      cases hopen
  | ok frame =>
    obtain ⟨hkey, hopens, rfl⟩ := openFrame_ok.1 hopen
    have hwalk : (DepthFirst.loop (step call shown) fuel ([rootFrame root], .start)).map
        (·.mapError Prod.fst) = _ := loop_root hfuel
    obtain ⟨result, hloop, hresult⟩ := Option.map_eq_some_iff.1 hwalk
    have hok : ∀ p, result = .ok p ↔ Admitted call root ∧ p = total call .start (listing root) := by
      intro p
      rw [← admitted_walk hkey hopens, ← hresult, mapError_ok]
    dsimp only
    rw [hloop, Option.map_some, Option.some_inj, bind_ok]
    simp only [mapError_ok, hok]
    constructor
    · rintro ⟨p, ⟨hadmitted, rfl⟩, hmanifest⟩
      exact ⟨hadmitted, hmanifest⟩
    · rintro ⟨hadmitted, hmanifest⟩
      exact ⟨_, ⟨hadmitted, rfl⟩, hmanifest⟩

end

/-! ## Manifests -/

section
variable [Host] {call : Call} {root : Root} {p : Progress} {m : Manifest} {identity : String}

theorem manifestOf_ok (h : manifestOf identity p = .ok m) :
    m.entries = p.entries.insertionSort (fun a b => a.path ≤ b.path) ∧ m.rootIdentity = identity ∧
      m.peakDirectories = p.peak := by
  obtain ⟨bytes, -, h⟩ := bind_ok.1 h
  obtain rfl := pure_ok.1 h
  exact ⟨rfl, rfl, rfl⟩

omit [Host] in
theorem row_exists {e : Entry} (h : ∀ c ∈ e.path, surrogate c = false) : ∃ row, e.row = .ok row := by
  have hpath : (e.path.all fun c => !surrogate c) = true := by
    rw [List.all_eq_true]
    intro c hc
    rw [h c hc]
    rfl
  unfold Entry.row encode
  rw [require_true hpath]
  exact ⟨_, rfl⟩

theorem manifestOf_exists (h : ∀ e ∈ p.entries, ∀ c ∈ e.path, surrogate c = false) :
    ∃ m, manifestOf identity p = .ok m := by
  have hrows : ∃ rows, (p.entries.insertionSort fun a b => a.path ≤ b.path).mapM Entry.row = .ok rows := by
    apply mapM_exists.2
    intro e he
    exact row_exists (h e ((List.mem_insertionSort _).1 he))
  obtain ⟨rows, hrows⟩ := hrows
  unfold manifestOf stream
  dsimp only
  rw [hrows]
  exact ⟨_, rfl⟩

theorem evidenceOf_path (f : Found) : (evidenceOf call f).path = Found.path f := by
  unfold evidenceOf
  split
  · split <;> rfl
  · rfl
  · rfl

theorem total_entries (found : List Found) :
    (total call .start found).entries = found.map (evidenceOf call) := List.nil_append _

/-! ## Paths -/

omit [Host] in
theorem named_root (root : Root) : DepthFirst.Named (fun a : Leaf => a.record.name)
    (fun door : Door => door.status.name) root.children := by
  have hdistinct : Distinct = fun children : List Node => (children.map (DepthFirst.Tree.name
      (fun a : Leaf => a.record.name) (fun door : Door => door.status.name))).Nodup := by
    funext children
    have hname : (fun node : Node => (recordOf node).name) = DepthFirst.Tree.name
        (fun a : Leaf => a.record.name) (fun door : Door => door.status.name) := by
      funext node
      cases node <;> rfl
    rw [Distinct, hname]
  have h := root.distinct
  rw [hdistinct] at h
  exact h

omit [Host] in
theorem parts_nodup (root : Root) : ((listing root).map Found.parts).Nodup :=
  DepthFirst.places_nodup (named_root root)

theorem paths_nodup (h : ∀ f ∈ listing root, Fine call f) : ((listing root).map Found.path).Nodup := by
  have hmap : (listing root).map Found.path = ((listing root).map Found.parts).map joined := by
    rw [List.map_map]
    rfl
  rw [hmap]
  apply List.Nodup.map_on ?_ (parts_nodup root)
  intro parts hparts parts' hparts' heq
  obtain ⟨f, hf, rfl⟩ := List.mem_map.1 hparts
  obtain ⟨g, hg, rfl⟩ := List.mem_map.1 hparts'
  exact joined_injective (h f hf).admissible.canonical (h g hg).admissible.canonical
    (parts_ne_nil f) (parts_ne_nil g) heq

omit [Host] in
/-- Where no path stands twice, the evidence map has every entry. -/
theorem byPath_mem {entries : List Entry} {e : Entry} (h : (entries.map Entry.path).Nodup) (he : e ∈ entries) :
    byPath entries e.path = some e := by
  have hreverse : (entries.reverse.map Entry.path).Nodup := by
    rw [List.map_reverse]
    exact List.nodup_reverse.2 h
  exact Table.find_key Entry.path hreverse (List.mem_reverse.2 he)

/-! ## What is described -/

/-- A manifest of a tree: the evidence of every entry of the full recursive listing and of
nothing else, each entry once and under a path of its own; bytes that were read and hashed
for every regular file outside the metadata prefixes; and no entry of a kind unknown. -/
structure Describes (call : Call) (root : Root) (m : Manifest) : Prop where
  identity : m.rootIdentity = root.answers.identity
  entries : m.entries.Perm ((listing root).map (evidenceOf call))
  paths : (m.entries.map Entry.path).Nodup
  maps : ∀ f ∈ listing root, byPath m.entries (Found.path f) = some (evidenceOf call f)
  content : ∀ path status opened, (path, .inl (.file status opened)) ∈ listing root →
    coveredBy (Found.path (path, .inl (.file status opened))) call.metadataOnly = false →
      ∃ d, opened = .ok d ∧ ∃ e ∈ m.entries, e.path = Found.path (path, .inl (.file status opened)) ∧
        e.kind = .file ∧ e.size = status.size ∧ e.sha256 = Host.sha256 d.content
  known : ∀ path status, (path, .inl (.other status)) ∉ listing root

theorem evidence_content {path : List Door} {status : Status} {opened : Except Fault Descriptor} {f : Found}
    (hf : f = (path, .inl (.file status opened))) (hfine : Fine call f)
    (houtside : coveredBy (Found.path f) call.metadataOnly = false) :
    ∃ d, opened = .ok d ∧
      evidenceOf call f = entryFrom (Found.path f) (status.record .file) (Host.sha256 d.content) "" (some 1) := by
  subst hf
  have hclass : classOf call (path, .inl (.file status opened)) = .content := by
    simp [classOf, evidenceClass, houtside]
  obtain ⟨-, hasked⟩ := hfine
  obtain ⟨-, hcontent⟩ := hasked
  rw [hclass] at hcontent
  obtain ⟨-, d, rfl, -⟩ := hcontent
  refine ⟨d, rfl, ?_⟩
  simp only [evidenceOf, hashed_file.2 hclass, if_true]
  rfl

theorem describes_manifest (h : Admitted call root)
    (hm : manifestOf root.answers.identity (total call .start (listing root)) = .ok m) :
    Describes call root m := by
  obtain ⟨hentries, hidentity, -⟩ := manifestOf_ok hm
  rw [total_entries] at hentries
  have hperm : m.entries.Perm ((listing root).map (evidenceOf call)) := by
    rw [hentries]
    exact List.perm_insertionSort _ _
  have hpaths : (m.entries.map Entry.path).Nodup := by
    have hpath : Entry.path ∘ evidenceOf call = Found.path := funext evidenceOf_path
    rw [(hperm.map Entry.path).nodup_iff, List.map_map, hpath]
    exact paths_nodup h.fine
  refine ⟨hidentity, hperm, hpaths, ?_, ?_, ?_⟩
  · intro f hf
    have hmap := byPath_mem hpaths (hperm.mem_iff.2 (List.mem_map_of_mem hf))
    rwa [evidenceOf_path] at hmap
  · intro path status opened hmem houtside
    obtain ⟨d, hopened, hevidence⟩ := evidence_content rfl (h.fine _ hmem) houtside
    refine ⟨d, hopened, _, hperm.mem_iff.2 (List.mem_map_of_mem hmem), ?_⟩
    rw [hevidence]
    exact ⟨rfl, rfl, rfl, rfl⟩
  · intro path status hmem
    exact (h.fine _ hmem).asked

end

/-! ## Differences -/

theorem byPath_none {entries : List Entry} {path : Text} :
    byPath entries path = none ↔ path ∉ entries.map Entry.path := by
  simp [byPath]

/-- Maps that agree wherever one of the two has an entry are the same. -/
theorem byPath_eq_iff {before after : List Entry} : byPath before = byPath after ↔
    ∀ path ∈ (before ++ after).map Entry.path, byPath before path = byPath after path := by
  constructor
  · intro h path _
    rw [h]
  · intro h
    funext path
    by_cases hmem : path ∈ (before ++ after).map Entry.path
    · exact h path hmem
    · rw [List.map_append, List.mem_append, not_or] at hmem
      rw [byPath_none.2 hmem.1, byPath_none.2 hmem.2]

theorem sortedTexts_nil {texts : List Text} : sortedTexts texts = [] ↔ texts = [] := by
  rw [sortedTexts, ← List.length_eq_zero_iff, List.length_insertionSort, List.length_eq_zero_iff]

theorem diff_nil_iff {before after : Manifest} : diff before after = [] ↔
    byPath before.entries = byPath after.entries ∧ before.rootIdentity = after.rootIdentity := by
  unfold diff
  dsimp only
  rw [sortedTexts_nil, List.append_eq_nil_iff, List.filter_eq_nil_iff, byPath_eq_iff]
  apply and_congr
  · simp only [List.mem_dedup, decide_eq_true_eq, ne_eq, not_not]
  · by_cases hroot : before.rootIdentity = after.rootIdentity
    · simp [hroot]
    · simp [hroot]

/-! ## What the frames still hold -/

/-- The places from where a frame stands to the end of its directory, in the order of a
recursive walk. -/
def Frame.left (f : Frame Directory) : List (List Text) :=
  (DepthFirst.listing [] (f.directory.children.drop f.index)).map fun found => f.parts ++ Found.parts found

/-- The same of a stack, the innermost frame first. -/
def left (frames : List (Frame Directory)) : List (List Text) := frames.flatMap Frame.left

theorem FrameShows.left_eq {root : Root} {f : Frame Directory} {g : DepthFirst.Frame Leaf Door}
    (h : FrameShows root f g) : f.left = (DepthFirst.listing g.path g.rest).map Found.parts := by
  have hunder := DepthFirst.places_under (fun a : Leaf => a.record.name) (fun door : Door => door.status.name)
    g.path [] g.rest
  rw [List.append_nil] at hunder
  rw [Frame.left, h.parts, ← h.rest]
  exact hunder.symm

theorem left_eq {root : Root} {frames : List (Frame Directory)} {stack : List (DepthFirst.Frame Leaf Door)}
    (h : List.Forall₂ (FrameShows root) frames stack) :
    left frames = ((DepthFirst.pending stack).filterMap Event.found).map Found.parts := by
  rw [DepthFirst.pending_found]
  induction h with
  | nil => rfl
  | cons hf _ ih =>
    rw [left, List.flatMap_cons, List.flatMap_cons, List.map_append, ← hf.left_eq]
    exact congrArg _ ih

section
variable [Host] {call : Call} {root : Root}

/-- After any number of turns, what was met is an initial part of the listing and what the
frames hold is the rest of it. -/
theorem after_turns {n : ℕ} {frames : List (Frame Directory)} {p : Progress}
    (h : DepthFirst.after (step call shown) n ([rootFrame root], .start) = some (frames, p)) :
    ∃ met rest, listing root = met ++ rest ∧ p.entries = met.map (evidenceOf call) ∧
      left frames = rest.map Found.parts := by
  obtain ⟨events, stack, q, hshows, hpending, hfold⟩ := step_worksOff.after_eq (shows_root root) h
  obtain ⟨hframes, -, rfl⟩ := hshows
  obtain ⟨-, -, htotal⟩ := (fold_ok events within_start).1 hfold
  refine ⟨events.filterMap Event.found, (DepthFirst.pending stack).filterMap Event.found, ?_, ?_, left_eq hframes⟩
  · rw [← List.filterMap_append, ← hpending, pending_found]
  · rw [foldl_gain] at htotal
    show (frames, p).2.entries = _
    rw [htotal, total_entries]

theorem manifest_exists (call : Call) (h : Encodable root) :
    ∃ m, manifestOf root.answers.identity (total call .start (listing root)) = .ok m := by
  apply manifestOf_exists
  intro e he
  rw [total_entries] at he
  obtain ⟨f, hf, rfl⟩ := List.mem_map.1 he
  rw [evidenceOf_path]
  exact h f hf

end

/-! ## The whole scan -/

/-- Whatever the shape of a tree, a scan of it meets every entry once and loses none. It
comes to an end, with a manifest of the full recursive listing where the tree is let
through, and with an error where the kind of an entry is not known. Two manifests have
no difference exactly where their evidence and their roots are the same. -/
theorem scan_is_listing [Host] (call : Call) (root : Root) :
    ((listing root).map Found.parts).Nodup ∧
    (∀ n frames p, DepthFirst.after (step call shown) n ([rootFrame root], .start) = some (frames, p) →
      ∃ met rest, listing root = met ++ rest ∧ p.entries = met.map (evidenceOf call) ∧
        left frames = rest.map Found.parts) ∧
    (∀ fuel, turns root < fuel → ∃ result, scan call shown fuel root = some result ∧
      (Admitted call root → Encodable root → ∃ m, result = .ok m) ∧
      (∀ m, result = .ok m → Admitted call root ∧ Describes call root m) ∧
      ((∃ path status, (path, .inl (.other status)) ∈ listing root) → ∃ raised, result = .error raised)) ∧
    ∀ before after : Manifest, diff before after = [] ↔
      byPath before.entries = byPath after.entries ∧ before.rootIdentity = after.rootIdentity := by
  refine ⟨parts_nodup root, fun n frames p h => after_turns h, ?_, fun before after => diff_nil_iff⟩
  intro fuel hfuel
  obtain ⟨result, hscan⟩ := (scan_ends hfuel : ∃ result, scan call shown fuel root = some result)
  have hdescribes : ∀ m, result = .ok m → Admitted call root ∧ Describes call root m := by
    rintro m rfl
    obtain ⟨hadmitted, hmanifest⟩ := (scan_ok_iff hfuel).1 hscan
    exact ⟨hadmitted, describes_manifest hadmitted hmanifest⟩
  refine ⟨result, hscan, ?_, hdescribes, ?_⟩
  · intro hadmitted hencodable
    obtain ⟨m, hmanifest⟩ := manifest_exists call hencodable
    have hok := (scan_ok_iff hfuel).2 ⟨hadmitted, hmanifest⟩
    exact ⟨m, Option.some.inj (hscan.symm.trans hok)⟩
  · rintro ⟨path, status, hmem⟩
    cases hresult : result with
    | ok m => exact absurd hmem ((hdescribes m hresult).2.known path status)
    | error raised => exact ⟨raised, rfl⟩

/-! ## A sample -/

/-- The digests of the samples, and ASCII letters. -/
@[reducible] def sampleHost : Host where
  sha256 bytes :=
    if bytes = utf8Bytes "abc" then "ba7816bf8f01cfea414140de5dae2223b00361a396177a9cb410ff61f20015ad"
    else if bytes = utf8Bytes "1:1\n" then "a18736e88910bc168ddfd39a413f4b9323802c5a4303d33f74dd50dd5cfca72a"
    else if bytes = utf8Bytes "1:2\n" then "fa186b3f41f78c3c3ea46b78beedee11e22bf75b9ba6dd8bdda19b74fd238e12"
    else "b9bcd820d755b73ae365d14d43a7af594f1834c0f7eb23867dbb94217d7c90ab"
  hmacSha256 _ _ := "d9c4181026f94113dbd779cdbf42dffbc1ff55f240547b63c4ef590b1eebbd3d"
  category _ := "Ll"
  nfc t := t

attribute [local instance] sampleHost

def sampleCall : Call := ⟨List.replicate 32 0, [], [], {}, 1700000001000000000⟩

def sampleStatus (name : String) (mode size : ℕ) (fileId : String) (nlink : ℕ) : Status :=
  ⟨text name, 0, 0, mode, size, 1700000000000000000, fileId, some nlink⟩

/-- The three letters `abc`, on a file with so many links. -/
def sampleFile (nlink : ℕ) : Leaf :=
  .file (sampleStatus "a" 0o100644 3 "1:3" nlink)
    (.ok ⟨.ok ⟨0o100644, 1, 3, 3, 1700000000000000000, nlink, 0⟩, [⟨utf8Bytes "abc", by decide⟩], true,
      .ok ⟨0o100644, 1, 3, 3, 1700000000000000000, nlink, 0⟩, true⟩)

def sampleDoor : Door := ⟨sampleStatus "d" 0o40755 4096 "1:2" 2, none, ⟨"1:2", none, none⟩⟩

/-- A directory with a file in it, and a link to the file next to it. -/
def sampleChildren (nlink : ℕ) : List Node :=
  [.branch sampleDoor [.leaf (sampleFile nlink)],
    .leaf (.link (sampleStatus "l" 0o120777 3 "1:4" 1) (.ok (utf8Bytes "d/a")))]

theorem sampleChildren_distinct (nlink : ℕ) : DepthFirst.Everywhere Distinct (sampleChildren nlink) := by
  constructor
  · show [text "d", text "l"].Nodup
    decide
  · intro door below hmem
    obtain ⟨rfl, rfl⟩ : door = sampleDoor ∧ below = [.leaf (sampleFile nlink)] := by
      simpa [sampleChildren] using hmem
    constructor
    · exact List.nodup_singleton _
    · intro door below hmem
      simp at hmem

def sampleRoot (nlink : ℕ) : Root := ⟨none, ⟨"1:1", none, none⟩, sampleChildren nlink, sampleChildren_distinct nlink⟩

def emptyRoot (identity : String) : Root := ⟨none, ⟨identity, none, none⟩, [], .nil List.nodup_nil⟩

theorem sample_admitted : Admitted sampleCall (sampleRoot 1) := by
  have hwalk : ((DepthFirst.pending (rootStack (sampleRoot 1))).foldlM (act sampleCall (sampleRoot 1)) .start).isOk =
      true := by decide +kernel
  cases hresult : (DepthFirst.pending (rootStack (sampleRoot 1))).foldlM (act sampleCall (sampleRoot 1)) .start with
  | ok p => exact ((admitted_walk (by decide) ⟨rfl, rfl⟩).1 hresult).1
  | error e =>
    rw [hresult] at hwalk
    cases hwalk

theorem sample_encodable : Encodable (sampleRoot 1) := by
  intro f hf c hc
  have hplain : ((listing (sampleRoot 1)).all fun f => (Found.path f).all fun c => !surrogate c) = true := by
    decide +kernel
  have hpath := List.all_eq_true.1 (List.all_eq_true.1 hplain f hf) c hc
  simpa using hpath

/-- Two empty directories have the same evidence and are told apart, and a file with a
second link is refused within every limit. -/
theorem same_evidence_other_root :
    (∃ m m', scan sampleCall shown 2 (emptyRoot "1:1") = some (.ok m) ∧
      scan sampleCall shown 2 (emptyRoot "1:2") = some (.ok m') ∧
      byPath m.entries = byPath m'.entries ∧ diff m m' ≠ []) ∧
    scan sampleCall shown 8 (sampleRoot 2) =
      some (.error (.evidence (unsupportedEntry "sert baglantili dosya temsil edilemiyor"))) := by
  constructor
  · refine ⟨_, _, rfl, rfl, rfl, ?_⟩
    decide +kernel
  · decide +kernel

/-- The three entries of the sample, each in its manifest. -/
theorem scan_is_listing_sample : ∃ m, scan sampleCall shown 8 (sampleRoot 1) = some (.ok m) ∧
    Describes sampleCall (sampleRoot 1) m ∧ diff m m = [] := by
  obtain ⟨-, -, hscan, hdiff⟩ := scan_is_listing sampleCall (sampleRoot 1)
  obtain ⟨result, hresult, hok, hdescribes, -⟩ := hscan 8 (by decide)
  obtain ⟨m, rfl⟩ := hok sample_admitted sample_encodable
  exact ⟨m, hresult, (hdescribes m rfl).2, (hdiff m m).2 ⟨rfl, rfl⟩⟩

end RagPipeline.FsEvidence
