import RagPipeline.Mirror.Written

/-! # When the mirror gate passes

The two projections are equal exactly when the two trees are alike path by path
and say the same of their directories. After an accepted change set that is a
condition on the baseline and the candidate: a directory that the candidate
gave up with the last of its files is still in the mirror. -/

set_option autoImplicit false

namespace RagPipeline.Mirror
open Guard
open Application (Bytes Path Plain pathText modeText pathText_injective)
open Changes (Entry Manifest)

/-! ## The projection -/

theorem int_repr_injective {a b : ℤ} (h : a.repr = b.repr) : a = b := by
  have hhead : ∀ m k : ℕ, m.repr ≠ "-" ++ k.repr := fun m k heq => by
    have hlist := congrArg String.toList heq
    rw [String.toList_append, Nat.toList_repr] at hlist
    have hmem : '-' ∈ Nat.toDigits 10 m := by
      rw [hlist]
      exact List.mem_append_left _ (by decide)
    have hdigit : '-'.isDigit = true := Nat.isDigit_of_mem_toDigits (by decide) (by decide) hmem
    exact absurd hdigit (by decide)
  cases a with
  | ofNat m =>
    cases b with
    | ofNat k => rw [repr_injective h]
    | negSucc k => exact absurd h (hhead m _)
  | negSucc m =>
    cases b with
    | ofNat k => exact absurd h.symm (hhead k _)
    | negSucc k =>
      have htail : (m + 1).repr = (k + 1).repr := by
        have hlist := congrArg String.toList h
        simp only [Int.repr, String.toList_append, List.append_cancel_left_eq] at hlist
        exact String.toList_inj.1 hlist
      rw [Nat.succ_injective (repr_injective htail)]

theorem kind_text_injective {k k' : Changes.EntryKind} (h : k.text = k'.text) : k = k' := by
  revert h
  cases k <;> cases k' <;> decide

theorem projected_injective : Function.Injective projected := by
  rintro ⟨path, kind, mode, size, nlink, attributes, reparse, mac, sha⟩
    ⟨path', kind', mode', size', nlink', attributes', reparse', mac', sha'⟩ h
  simp only [projected, List.cons.injEq, and_true] at h
  obtain ⟨rfl, hkind, rfl, hsize, rfl, hattributes, hreparse, hlink, rfl⟩ := h
  obtain rfl := kind_text_injective hkind
  obtain rfl := repr_injective hsize
  obtain rfl := repr_injective hattributes
  obtain rfl := repr_injective hreparse
  obtain rfl := int_repr_injective hlink
  rfl

theorem insertionSort_eq_iff {α : Type*} [LinearOrder α] {l l' : List α} :
    l.insertionSort (· ≤ ·) = l'.insertionSort (· ≤ ·) ↔ l.Perm l' := by
  constructor
  · intro h
    have hleft := List.perm_insertionSort (· ≤ ·) l
    rw [h] at hleft
    exact hleft.symm.trans (List.perm_insertionSort _ l')
  · intro h
    refine List.Perm.eq_of_pairwise' (List.pairwise_insertionSort _ l)
      (List.pairwise_insertionSort _ l') ?_
    exact ((List.perm_insertionSort _ l).trans h).trans (List.perm_insertionSort _ l').symm

section
variable [Host] {n n' : Nodes} {facts facts' : Path → DirFacts} {reference candidate : Tree}
  {changes : List Changes.Change} {path : Path} {m : Manifest} {root : String}

theorem entry_regular (facts : Path → DirFacts) (path : Path) (node : Node) :
    ((entry facts path node).kind = .file ∨ (entry facts path node).kind = .dir) ∧
      (entry facts path node).reparseTag = 0 ∧ (entry facts path node).linkTargetMac = "" := by
  cases node <;> simp [entry]

theorem projection_scan (hm : scan n facts root = .ok m) :
    projection m = .ok ((m.entries.map projected).insertionSort (· ≤ ·)) := by
  obtain ⟨-, rfl⟩ := scan_ok.1 hm
  have hall : ∀ e ∈ (entries n facts).insertionSort (fun a b => a.path ≤ b.path),
      (e.kind = .file ∨ e.kind = .dir) ∧ e.reparseTag = 0 ∧ e.linkTargetMac = "" := by
    intro e he
    obtain ⟨path, node, -, rfl⟩ := mem_entries.1 ((List.perm_insertionSort _ _).mem_iff.1 he)
    exact entry_regular facts path node
  simp only [projection, bind_ok, exists_unit, pure_ok, forM_ok, require_ok]
  exact ⟨fun e he => hall e he, trivial⟩

/-- The walker's limits see the entries in any order. -/
theorem withinLimits_perm {l l' : List Entry} (h : l.Perm l') : withinLimits l = withinLimits l' := by
  have hsizes : (fileSizes l).Perm (fileSizes l') := (h.filter _).map _
  simp only [withinLimits, h.length_eq, hsizes.sum_eq, h.all_eq, hsizes.all_eq]

theorem compareTrees_ok : compareTrees candidate n = .ok () ↔
    withinLimits (entries candidate.nodes candidate.facts) = true ∧
      (entries candidate.nodes candidate.facts).Perm (entries n (Host.facts (kinds n))) ∧
      candidate.rootIdentity ≠ Host.rootIdentity := by
  have hrows : ∀ {t : Nodes} {f : Path → DirFacts} {root : String} {m : Manifest},
      scan t f root = .ok m → (m.entries.map projected).Perm ((entries t f).map projected) := by
    intro t f root m hm
    obtain ⟨-, rfl⟩ := scan_ok.1 hm
    exact (List.perm_insertionSort _ _).map projected
  have hequal : ∀ {left right : Manifest}, candidate.scan = .ok left →
      scan n (Host.facts (kinds n)) Host.rootIdentity = .ok right →
      (compareRoots left right = .ok () ↔
        (entries candidate.nodes candidate.facts).Perm (entries n (Host.facts (kinds n))) ∧
          candidate.rootIdentity ≠ Host.rootIdentity) := by
    intro left right hleft hright
    have hroots : left.rootIdentity = candidate.rootIdentity ∧
        right.rootIdentity = Host.rootIdentity := by
      rw [(scan_ok.1 hleft).2, (scan_ok.1 hright).2]
      exact ⟨rfl, rfl⟩
    simp only [compareRoots, projection_scan hleft, projection_scan hright, ok_bind, bind_ok,
      exists_unit, require_ok, insertionSort_eq_iff, hroots]
    refine and_congr_left fun _ => ?_
    rw [(hrows hleft).congr_left, (hrows hright).congr_right,
      List.map_perm_map_iff projected_injective]
  simp only [compareTrees, bind_ok, mapError_ok]
  constructor
  · rintro ⟨left, hleft, right, hright, hcompare⟩
    exact ⟨(scan_ok.1 hleft).1, (hequal hleft hright).1 hcompare⟩
  · rintro ⟨hlimits, hperm, hapart⟩
    refine ⟨_, scan_ok.2 ⟨hlimits, rfl⟩, _, scan_ok.2 ⟨?_, rfl⟩, ?_⟩
    · rw [← withinLimits_perm hperm]
      exact hlimits
    · exact (hequal (scan_ok.2 ⟨hlimits, rfl⟩)
        (scan_ok.2 ⟨by rw [← withinLimits_perm hperm]; exact hlimits, rfl⟩)).2 ⟨hperm, hapart⟩

/-! ## Path by path -/

def PlainNodes (n : Nodes) : Prop := ∀ path, n.lookup path ≠ none → path ≠ [] ∧ Plain path

theorem entries_eq_filterMap (n : Nodes) (facts : Path → DirFacts) :
    entries n facts = n.keys.filterMap fun path => (n.lookup path).map (entry facts path) := by
  have hmap : entries n facts = n.entries.filterMap fun e => some (entry facts e.1 e.2) := by
    simp [entries]
  rw [hmap, AList.keys, List.keys, List.filterMap_map]
  refine List.filterMap_congr fun e he => ?_
  have hlookup : n.lookup e.1 = some e.2 := AList.mem_lookup_iff.2 he
  simp [hlookup]

/-- Two trees list the same entries exactly when they say the same of every path. -/
theorem entries_perm (hn : PlainNodes n) (hn' : PlainNodes n') :
    (entries n facts).Perm (entries n' facts') ↔
      ∀ path, (n.lookup path).map (entry facts path) = (n'.lookup path).map (entry facts' path) := by
  constructor
  · intro hperm path
    have hforward : ∀ {t t' : Nodes} {f f' : Path → DirFacts} {node : Node}, PlainNodes t →
        PlainNodes t' → (entries t f).Perm (entries t' f') → t.lookup path = some node →
        (t'.lookup path).map (entry f' path) = some (entry f path node) := by
      intro t t' f f' node ht ht' hperm hlookup
      obtain ⟨path', node', hlookup', heq⟩ :=
        mem_entries.1 (hperm.mem_iff.1 (mem_entries.2 ⟨path, node, hlookup, rfl⟩))
      have htext := congrArg Entry.path heq
      rw [entry_path, entry_path] at htext
      obtain ⟨hne, hplain⟩ := ht path (by simp [hlookup])
      obtain ⟨hne', hplain'⟩ := ht' path' (by simp [hlookup'])
      obtain rfl : path = path' := pathText_injective hplain hplain' hne hne' htext
      simp [hlookup', heq]
    cases hl : n.lookup path with
    | some node => exact (hforward hn hn' hperm hl).symm
    | none =>
      cases hr : n'.lookup path with
      | none => rfl
      | some node => simpa [hl] using hforward hn' hn hperm.symm hr
  · intro hsame
    have hkeys : n.keys.Perm n'.keys := by
      refine (List.perm_ext_iff_of_nodup n.keys_nodup n'.keys_nodup).2 fun path => ?_
      rw [← AList.mem_keys, ← AList.mem_keys, ← AList.lookup_isSome, ← AList.lookup_isSome]
      have hsome := congrArg Option.isSome (hsame path)
      rw [Option.isSome_map, Option.isSome_map] at hsome
      rw [hsome]
    rw [entries_eq_filterMap, entries_eq_filterMap, funext hsame]
    exact hkeys.filterMap _

theorem entry_eq {l r : Node} : entry facts path l = entry facts' path r ↔
    SameNode l r ∧ (l.isDir = true → facts path = facts' path) := by
  have hmode : ∀ {a b : ℕ}, modeText a = modeText b ↔ a = b := ⟨modeText_injective, congrArg _⟩
  cases l with
  | file b m a =>
    cases r with
    | file b' m' a' =>
      simp only [entry, SameNode, Node.isDir, Entry.mk.injEq, hmode, true_and, Bool.false_eq_true,
        false_implies, and_true]
      tauto
    | dir m' a' => simp [entry, SameNode]
  | dir m a =>
    cases r with
    | file b' m' a' => simp [entry, SameNode]
    | dir m' a' =>
      cases hf : facts path with
      | mk size links =>
        cases hf' : facts' path with
        | mk size' links' =>
          simp [entry, SameNode, Node.isDir, hmode, hf, hf']
          tauto

/-! ## After the change set -/

/-- What the mirror can carry. The candidate keeps every directory of the
baseline; its new directories are as the host makes them; its files have the
attributes, and where there are no permission bits the mode, of what they were
written over; its directories say of themselves what the host says; and it
stands at another object. -/
structure Mirrorable (reference candidate : Tree) : Prop where
  kept : ∀ path m a, reference.nodes.lookup path = some (.dir m a) →
    candidate.nodes.lookup path ≠ none
  directory : ∀ path m a, reference.nodes.lookup path = none →
    candidate.nodes.lookup path = some (.dir m a) → m = Host.dirMode ∧ a = Host.dirAttributes
  file : ∀ path b m a, candidate.nodes.lookup path = some (.file b m a) →
    a = (carried (reference.nodes.lookup path)).2 ∧
      (m = 0 → (carried (reference.nodes.lookup path)).1 = 0)
  facts : ∀ path m a, candidate.nodes.lookup path = some (.dir m a) →
    candidate.facts path = Host.facts (kinds candidate.nodes) path
  apart : candidate.rootIdentity ≠ Host.rootIdentity

/-- Two nodes or none. -/
def Alike (l r : Option Node) : Prop := Option.Rel SameNode l r

theorem SameNode.isDir {l r : Node} (h : SameNode l r) : l.isDir = r.isDir := by
  cases l <;> cases r <;> first | rfl | exact h.elim

theorem SameNode.symm {l r : Node} (h : SameNode l r) : SameNode r l := by
  cases l <;> cases r <;> simp_all [SameNode]

theorem map_entry_eq : (∀ path, (n.lookup path).map (entry facts path) =
      (n'.lookup path).map (entry facts' path)) ↔
    (∀ path, Alike (n.lookup path) (n'.lookup path)) ∧
      ∀ path m a, n.lookup path = some (.dir m a) → facts path = facts' path := by
  constructor
  · intro h
    have hnode : ∀ path, Alike (n.lookup path) (n'.lookup path) ∧
        ∀ m a, n.lookup path = some (.dir m a) → facts path = facts' path := by
      intro path
      have hpath := h path
      cases hl : n.lookup path with
      | none =>
        rw [hl] at hpath
        rw [Option.map_eq_none_iff.1 hpath.symm]
        exact ⟨.none, fun m a hdir => nomatch hdir⟩
      | some l =>
        rw [hl] at hpath
        obtain ⟨r, hr, heq⟩ := Option.map_eq_some_iff.1 hpath.symm
        obtain ⟨hsame, hfacts⟩ := entry_eq.1 heq.symm
        rw [hr]
        refine ⟨.some hsame, fun m a hdir => hfacts ?_⟩
        rw [Option.some.inj hdir]
        rfl
    exact ⟨fun path => (hnode path).1, fun path => (hnode path).2⟩
  · rintro ⟨halike, hfacts⟩ path
    have hpath := halike path
    unfold Alike at hpath
    cases hl : n.lookup path with
    | none =>
      rw [hl] at hpath
      cases hr : n'.lookup path with
      | none => rfl
      | some r => rw [hr] at hpath; cases hpath
    | some l =>
      cases hr : n'.lookup path with
      | none => rw [hl, hr] at hpath; cases hpath
      | some r =>
        rw [hl, hr] at hpath
        cases hpath with
        | some hsame =>
          refine congrArg some (entry_eq.2 ⟨hsame, fun hdir => ?_⟩)
          cases l with
          | file b m a => exact absurd hdir Bool.false_ne_true
          | dir m a => exact hfacts path m a hl

theorem kinds_eq (h : ∀ path, Alike (n.lookup path) (n'.lookup path)) : kinds n = kinds n' := by
  funext path
  have hpath := h path
  unfold Alike at hpath
  unfold kinds
  revert hpath
  cases n.lookup path <;> cases n'.lookup path <;> intro hpath
  · rfl
  · cases hpath
  · cases hpath
  · cases hpath with
    | some hsame => simp [hsame.isDir]

/-- Where the change set does nothing. -/
theorem settled_untouched (hne : path ≠ []) (hplain : Plain path)
    (hnot : ∀ c ∈ changes, components c.path ≠ path) :
    settled reference.nodes candidate.nodes changes path =
        opened (reference.nodes.lookup path) (Opened changes path) ∧
      pathText path ∉ changes.map Changes.Change.path := by
  have herased : ¬ Erased changes path := fun ⟨c, hc, _, heq⟩ => hnot c hc heq
  have hwrote : ¬ Wrote changes path := fun ⟨c, hc, _, heq⟩ => hnot c hc heq
  refine ⟨by rw [settled, if_neg herased, if_neg hwrote], fun hmem => ?_⟩
  obtain ⟨c, hc, heq⟩ := List.mem_map.1 hmem
  exact hnot c hc (by rw [heq, components_pathText hplain hne])

/-- What an accepted change set makes of a path: what the baseline has there,
what the candidate has, and what the mirror ends with. -/
inductive Outcome : Option Node → Option Node → Option Node → Prop where
  | gone {l : Option Node} (hl : ∀ m a, l ≠ some (.dir m a)) : Outcome l none none
  | abandoned (m a : ℕ) : Outcome (some (.dir m a)) none (some (.dir m a))
  | written {l : Option Node} (hl : ∀ m a, l ≠ some (.dir m a)) (b : Bytes) (m a : ℕ) :
    Outcome l (some (.file b m a)) (some (Node.over l (.file b m a)))
  | same {l r : Node} (h : SameNode l r) : Outcome (some l) (some r) (some l)
  | made (m a : ℕ) : Outcome none (some (.dir m a)) (some freshDir)

theorem Gated.settled_plain (hg : Gated reference candidate changes) {path : Path}
    (h : settled reference.nodes candidate.nodes changes path ≠ none) :
    path ≠ [] ∧ Plain path := by
  unfold settled at h
  split_ifs at h with herased hwrote
  · exact absurd rfl h
  · obtain ⟨c, hc, -, rfl⟩ := hwrote
    exact ⟨(hg.asks hc).1, (hg.asks hc).2.1⟩
  · cases hl : reference.nodes.lookup path with
    | some l => exact reference.plain path (by simp [hl])
    | none =>
      by_cases ho : Opened changes path
      · obtain ⟨c, hc, -, hne, hpre, -⟩ := ho
        exact ⟨hne, fun part hpart => (hg.asks hc).2.1 part (hpre.subset hpart)⟩
      · simp [opened, hl, ho] at h

theorem Gated.outcome (hg : Gated reference candidate changes) (path : Path) :
    Outcome (reference.nodes.lookup path) (candidate.nodes.lookup path)
      (settled reference.nodes candidate.nodes changes path) := by
  by_cases hplain : path ≠ [] ∧ Plain path
  · obtain ⟨hne, hplain⟩ := hplain
    by_cases htouched : ∃ c ∈ changes, components c.path = path
    · obtain ⟨c, hc, rfl⟩ := htouched
      obtain ⟨-, -, -, ⟨hkind, hnone, b, m, a, hfile⟩ | ⟨hkind, hover, b, m, a, hcand, -, -⟩⟩ :=
        hg.asks hc
      · have herased : Erased changes (components c.path) := ⟨c, hc, hkind, rfl⟩
        rw [settled, if_pos herased, hnone]
        exact .gone (by simp [hfile])
      · have hnot : ¬ Erased changes (components c.path) := by
          rintro ⟨c', hc', hkind', heq⟩
          obtain ⟨-, -, -, ⟨-, hnone, -⟩ | ⟨hkind'', -⟩⟩ := hg.asks hc'
          · rw [heq, hcand] at hnone
            cases hnone
          · exact hkind'' hkind'
        rw [settled, if_neg hnot, if_pos ⟨c, hc, hkind, rfl⟩, hcand]
        refine .written (fun m a hdir => ?_) b m a
        obtain hnone | ⟨b', m', a', hfile⟩ := hover
        · simp [hnone] at hdir
        · simp [hfile] at hdir
    · have hnot : ∀ c ∈ changes, components c.path ≠ path := fun c hc heq => htouched ⟨c, hc, heq⟩
      obtain ⟨hsettled, htext⟩ : settled reference.nodes candidate.nodes changes path =
            opened (reference.nodes.lookup path) (Opened changes path) ∧
          pathText path ∉ changes.map Changes.Change.path := settled_untouched hne hplain hnot
      rw [hsettled]
      obtain ⟨hl, hr⟩ | ⟨l, r, hl, hr, hsame⟩ | ⟨m, a, hl, hr, c, hc, q, hq, hqne, hqplain, habove⟩ |
        ⟨m, a, hl, hr⟩ := hg.quiet path hne hplain htext
      · have hclosed : ¬ Opened changes path := by
          rintro ⟨c, hc, hkind, habove⟩
          obtain ⟨-, -, -, ⟨hdel, -⟩ | ⟨-, -, b, m, a, hfile, -⟩⟩ := hg.asks hc
          · exact hkind hdel
          · obtain ⟨m', a', hdir⟩ := candidate.dir_above habove (by simp [hfile])
            simp [hr] at hdir
        rw [opened_false _ hclosed, hl, hr]
        apply Outcome.gone
        intro m a h
        cases h
      · rw [hl, hr]
        exact .same hsame
      · have hopened : Opened changes path := by
          have hcomponents : components c.path = q := by rw [hq, components_pathText hqplain hqne]
          refine ⟨c, hc, fun hdel => ?_, hcomponents ▸ habove⟩
          -- a file deleted under it would have had the baseline hold the directory
          obtain ⟨-, -, -, ⟨-, -, b, m', a', hfile⟩ | ⟨hkind, -⟩⟩ := hg.asks hc
          · rw [hcomponents] at hfile
            obtain ⟨m₁, a₁, hdir⟩ := reference.dir_above habove (by simp [hfile])
            simp [hl] at hdir
          · exact hkind hdel
        rw [opened, hl, hr, if_pos hopened]
        exact .made m a
      · rw [hl, hr]
        exact .abandoned m a
  · have hnone : ∀ t : Tree, t.nodes.lookup path = none := fun t =>
      not_not.1 fun h => hplain (t.plain path h)
    have hsettled : settled reference.nodes candidate.nodes changes path = none :=
      not_not.1 fun h => hplain (hg.settled_plain h)
    rw [hnone, hnone, hsettled]
    apply Outcome.gone
    intro m a h
    cases h

theorem Outcome.alike_iff {l r s : Option Node} (h : Outcome l r s) :
    Alike r s ↔ (∀ m a, l = some (.dir m a) → r ≠ none) ∧
      (∀ m a, l = none → r = some (.dir m a) → m = Host.dirMode ∧ a = Host.dirAttributes) ∧
      ∀ b m a, r = some (.file b m a) → a = (carried l).2 ∧ (m = 0 → (carried l).1 = 0) := by
  cases h with
  | gone hl => exact iff_of_true .none ⟨fun m a h => absurd h (hl m a), by simp, by simp⟩
  | abandoned m a => exact iff_of_false (fun h => nomatch h) fun h => h.1 m a rfl rfl
  | written hl b m a =>
    have hrel : Alike (some (.file b m a)) (some (Node.over l (.file b m a))) ↔
        SameNode (.file b m a) (Node.over l (.file b m a)) := Option.rel_some_some
    rw [hrel]
    by_cases hm : m = 0
    · simp [SameNode, Node.over, hm, eq_comm, and_comm]
    · simp [SameNode, Node.over, hm]
  | @same l r hsame =>
    refine iff_of_true (.some hsame.symm) ⟨by simp, by simp, fun b m a hr => ?_⟩
    obtain rfl := Option.some.inj hr
    cases l with
    | file b' m' a' =>
      obtain ⟨rfl, -, -, rfl⟩ := hsame
      exact ⟨rfl, id⟩
    | dir m' a' => exact hsame.elim
  | made m a =>
    have hrel : Alike (some (.dir m a)) (some freshDir) ↔ SameNode (.dir m a) freshDir :=
      Option.rel_some_some
    rw [hrel]
    simp [SameNode, freshDir]

/-- From the nodes that the baseline was written to, the mirror gate passes
exactly for a candidate that the mirror can carry. -/
theorem Gated.passes_iff (hg : Gated reference candidate changes)
    (hn : Reached reference.nodes candidate.nodes changes n) :
    compareTrees candidate n = .ok () ↔ Mirrorable reference candidate := by
  have hplain : PlainNodes n := fun path h => hg.settled_plain (by rwa [← hn path])
  have hcandidate : PlainNodes candidate.nodes := candidate.plain
  have halike : (∀ path, Alike (candidate.nodes.lookup path) (n.lookup path)) ↔
      ∀ path, (∀ m a, reference.nodes.lookup path = some (.dir m a) →
          candidate.nodes.lookup path ≠ none) ∧
        (∀ m a, reference.nodes.lookup path = none → candidate.nodes.lookup path = some (.dir m a) →
          m = Host.dirMode ∧ a = Host.dirAttributes) ∧
        ∀ b m a, candidate.nodes.lookup path = some (.file b m a) →
          a = (carried (reference.nodes.lookup path)).2 ∧
            (m = 0 → (carried (reference.nodes.lookup path)).1 = 0) := by
    refine forall_congr' fun path => ?_
    rw [hn path]
    exact (hg.outcome path).alike_iff
  rw [compareTrees_ok, entries_perm hcandidate hplain, map_entry_eq]
  constructor
  · rintro ⟨-, ⟨hsame, hfacts⟩, hapart⟩
    have hpaths := halike.1 hsame
    rw [← kinds_eq hsame] at hfacts
    exact ⟨fun path => (hpaths path).1, fun path => (hpaths path).2.1, fun path => (hpaths path).2.2,
      hfacts, hapart⟩
  · intro hm
    have hsame := halike.2 fun path => ⟨hm.kept path, hm.directory path, hm.file path⟩
    rw [← kinds_eq hsame]
    exact ⟨hg.limits, ⟨hsame, hm.facts⟩, hm.apart⟩

/-- The mirror gate passes exactly for a candidate that the mirror can carry. -/
theorem mirror_reproduces_iff {blobs : List Blob}
    (hbase : materialise blobs = .ok reference.nodes)
    (hgate : gate reference candidate = .ok changes) :
    create blobs candidate changes = .ok () ↔ Mirrorable reference candidate := by
  have hg := gate_gated hgate
  obtain ⟨n, happly, hn⟩ := hg.applyChanges_reached (List.nil_append changes).symm reached_nil
  rw [← hg.passes_iff hn, create, hbase, ok_bind, happly, ok_bind]
  exact mapError_ok

end

/-! ## A directory that is given up with its last file -/

/-- What the two trees need, read off their paths. -/
def wellPlaced (n : Nodes) : Bool :=
  n.keys.all fun path => path ≠ [] && path.all (fun part => part ≠ "" && !part.toList.contains '/') &&
    (path.dropLast = [] || kinds n path.dropLast = some true)

def Tree.ofNodes (n : Nodes) (facts : Path → DirFacts) (root : String) (h : wellPlaced n = true) :
    Tree where
  nodes := n
  facts := facts
  rootIdentity := root
  plain path hpath := by
    have hkey : path ∈ n.keys :=
      AList.mem_keys.1 (AList.lookup_isSome.1 (Option.isSome_iff_ne_none.2 hpath))
    have hall := List.all_eq_true.1 h path hkey
    simp only [Bool.and_eq_true, decide_eq_true_eq, List.all_eq_true] at hall
    refine ⟨hall.1.1, fun part hpart => ?_⟩
    simpa using hall.1.2 part hpart
  closed path name hne hpath := by
    have hkey : path ++ [name] ∈ n.keys :=
      AList.mem_keys.1 (AList.lookup_isSome.1 (Option.isSome_iff_ne_none.2 hpath))
    have hall := List.all_eq_true.1 h _ hkey
    rw [List.dropLast_concat] at hall
    simp only [Bool.and_eq_true, Bool.or_eq_true, decide_eq_true_eq, hne, false_or] at hall
    obtain ⟨node, hnode, hdir⟩ := Option.map_eq_some_iff.1 hall.2
    cases node with
    | file b m a => exact absurd hdir Bool.false_ne_true
    | dir m a => exact ⟨m, a, hnode⟩

@[reducible] def linuxHost : Host where
  sha256 := fun bytes =>
    if bytes = [97, 10] then "87428fc522803d31065e7bce3cf03fe475096631e5e07bbd7a0fde60c4cf25c7"
    else if bytes = [98, 10] then "0263829989b6fd954f72baaf2fc64bc2e2f01d692d4de72986ea808f6e99813f"
    else ""
  fileMode := 420
  execMode := 493
  fileAttributes := 0
  dirMode := 493
  dirAttributes := 0
  facts := fun _ _ => ⟨4096, 2⟩
  named := fun _ => true
  rootIdentity := "2053:41"

def sampleBlobs : List Blob := [⟨["d", "x"], false, [97, 10]⟩, ⟨["k"], false, [97, 10]⟩]

def sampleNodes : Nodes :=
  ((AList.insert ["d"] (.dir 493 0) ∅).insert ["d", "x"] (.file [97, 10] 420 0)).insert ["k"]
    (.file [97, 10] 420 0)

def sampleFacts : Path → DirFacts := fun _ => ⟨4096, 2⟩

def sampleReference : Tree := .ofNodes sampleNodes sampleFacts "2053:40" (by decide)

/-- `d/x` is edited. -/
def editedCandidate : Tree :=
  .ofNodes (sampleNodes.insert ["d", "x"] (.file [98, 10] 420 0)) sampleFacts "2053:39" (by decide)

/-- `d` is gone, with the one file in it. -/
def prunedCandidate : Tree :=
  .ofNodes (AList.insert ["k"] (.file [97, 10] 420 0) ∅) sampleFacts "2053:39" (by decide)

def editedChanges : List Changes.Change :=
  [⟨"d/x", .modified, "0o644", "0263829989b6fd954f72baaf2fc64bc2e2f01d692d4de72986ea808f6e99813f"⟩]

def prunedChanges : List Changes.Change := [⟨"d/x", .deleted, "0o644", ""⟩]

theorem sample_materialised : @materialise linuxHost sampleBlobs = .ok sampleReference.nodes := rfl

theorem sample_gates :
    @gate linuxHost sampleReference editedCandidate = .ok editedChanges ∧
      @gate linuxHost sampleReference prunedCandidate = .ok prunedChanges := by
  decide +kernel

theorem sample_creates :
    @create linuxHost sampleBlobs editedCandidate editedChanges = .ok () ∧
      @create linuxHost sampleBlobs prunedCandidate prunedChanges ≠ .ok () := by
  decide +kernel

theorem mirror_reproduces_sample : @Mirrorable linuxHost sampleReference editedCandidate ∧
    ¬ @Mirrorable linuxHost sampleReference prunedCandidate :=
  ⟨(@mirror_reproduces_iff linuxHost _ _ _ _ sample_materialised sample_gates.1).1 sample_creates.1,
    fun hm => sample_creates.2
      ((@mirror_reproduces_iff linuxHost _ _ _ _ sample_materialised sample_gates.2).2 hm)⟩

/-- The gate takes the candidate, and the mirror refuses it. -/
theorem pruned_directory_refused : ∃ host blobs, ∃ reference candidate : Tree, ∃ changes,
    @materialise host blobs = .ok reference.nodes ∧ @gate host reference candidate = .ok changes ∧
      @create host blobs candidate changes ≠ .ok () :=
  ⟨linuxHost, sampleBlobs, sampleReference, prunedCandidate, prunedChanges,
    sample_materialised, sample_gates.2, sample_creates.2⟩

end RagPipeline.Mirror
