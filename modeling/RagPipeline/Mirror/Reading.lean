import RagPipeline.Application.Directories
import RagPipeline.Changes.Differs
import Mathlib.Data.Finset.Sort
import Mathlib.Data.List.Lex
import Mathlib.Algebra.Ring.Nat
import Mathlib.Order.Lex

/-! # The acceptance mirror

`create` writes the baseline into a new directory, applies the candidate's
change set to it, and compares the result with the implementer's tree entry by
entry. A tree is a map from paths to files and directories, its root left out.
What a directory says of its own size and links is the host's. -/

set_option autoImplicit false

namespace RagPipeline.Application
open Changes (ChangeSetError)

/-! ## Limits of the walker, and paths as texts -/

def maxEntries : ℕ := 400000
def maxMetadataFileBytes : ℕ := 8 * 2 ^ 30
def maxContentTotalBytes : ℕ := 1024 * 2 ^ 20
def maxLogicalTotalBytes : ℕ := 64 * 2 ^ 30
def maxDepth : ℕ := 128

def sentence : ChangeSetError → String
  | .evidenceUnavailable message => message
  | .unsafeChange message _ => message
  | .declarationMismatch message => message

/-- A path whose components are names. -/
def Plain (path : Path) : Prop := ∀ part ∈ path, part ≠ "" ∧ '/' ∉ part.toList

theorem pathText_toList (path : Path) :
    (pathText path).toList = ['/'].intercalate (path.map String.toList) := by
  rw [pathText, String.toList_intercalate]
  rfl

theorem pathText_injective {p q : Path} (hp : Plain p) (hq : Plain q) (hpne : p ≠ [])
    (hqne : q ≠ []) (h : pathText p = pathText q) : p = q := by
  have hsplit : ∀ {path : Path}, Plain path → path ≠ [] →
      List.splitOn '/' (pathText path).toList = path.map String.toList := by
    intro path hpath hne
    rw [pathText_toList]
    refine List.splitOn_intercalate _ (fun l hl => ?_) (by simpa using hne)
    obtain ⟨part, hpart, rfl⟩ := List.mem_map.1 hl
    exact (hpath part hpart).2
  have hmap : p.map String.toList = q.map String.toList := by
    rw [← hsplit hp hpne, ← hsplit hq hqne, h]
  exact List.map_injective_iff.2 (fun _ _ => String.toList_inj.1) hmap

end RagPipeline.Application

namespace RagPipeline.Mirror
open Guard
open Application (Bytes Path Plain pathText modeText maxEntries maxContentFileBytes
  maxContentTotalBytes maxLogicalTotalBytes maxDepth)
open Changes (ChangeSetError Entry Manifest)

inductive Node where
  | file (bytes : Bytes) (mode attributes : ℕ)
  | dir (mode attributes : ℕ)
deriving DecidableEq

abbrev Nodes := AList fun _ : Path => Node

structure DirFacts where
  size : ℕ
  links : ℤ
deriving DecidableEq

/-- Whether a directory or a file stands at a path. -/
abbrev Kinds := Path → Option Bool

def Node.isDir : Node → Bool
  | .dir _ _ => true
  | .file _ _ _ => false

def kinds (n : Nodes) : Kinds := fun path => (n.lookup path).map Node.isDir

/-- A tree on the disk: its names are names, and what stands in it stands in a
directory. -/
structure Tree where
  nodes : Nodes
  facts : Path → DirFacts
  rootIdentity : String
  plain : ∀ path, nodes.lookup path ≠ none → path ≠ [] ∧ Plain path
  closed : ∀ path name, path ≠ [] → nodes.lookup (path ++ [name]) ≠ none →
    ∃ mode attributes, nodes.lookup path = some (.dir mode attributes)

/-- What the mirror asks of the host: the digest, what a new file, an executable
one and a new directory are made with, what a new directory with these entries
says of itself, which names the walker lists, and the object of the new root. -/
class Host where
  sha256 : Bytes → String
  fileMode : ℕ
  execMode : ℕ
  fileAttributes : ℕ
  dirMode : ℕ
  dirAttributes : ℕ
  facts : Kinds → Path → DirFacts
  named : String → Bool
  rootIdentity : String

inductive MirrorError where
  | refused (message : String)
  | containment (message : String)
  /-- An error of the operating system that the code lets through. -/
  | os
deriving DecidableEq

section
variable [Host]

def entry (facts : Path → DirFacts) (path : Path) : Node → Entry
  | .file bytes mode attributes =>
    ⟨pathText path, .file, modeText mode, bytes.length, 1, attributes, 0, "", Host.sha256 bytes⟩
  | .dir mode attributes =>
    ⟨pathText path, .dir, modeText mode, (facts path).size, (facts path).links, attributes, 0, "", ""⟩

def entries (n : Nodes) (facts : Path → DirFacts) : List Entry :=
  n.entries.map fun e => entry facts e.1 e.2

def fileSizes (l : List Entry) : List ℕ := (l.filter fun e => e.kind = .file).map Entry.size

/-- The limits of the walker, over everything it lists. -/
def withinLimits (l : List Entry) : Bool :=
  l.all (fun e => Host.named e.path && e.path.toList.count '/' < maxDepth) &&
    l.length ≤ maxEntries && (fileSizes l).all (· ≤ maxContentFileBytes) &&
    (fileSizes l).sum ≤ maxContentTotalBytes && (fileSizes l).sum ≤ maxLogicalTotalBytes

def scan (n : Nodes) (facts : Path → DirFacts) (root : String) :
    Except ChangeSetError Manifest := do
  require (withinLimits (entries n facts) = true)
    (.evidenceUnavailable "dosya sistemi kaniti alinamadi")
  return ⟨root, (entries n facts).insertionSort fun a b => a.path ≤ b.path⟩

def Tree.scan (t : Tree) : Except ChangeSetError Manifest := Mirror.scan t.nodes t.facts t.rootIdentity

/-- The change gate on the reference and the implementer's tree. -/
def gate (reference implementer : Tree) : Except ChangeSetError (List Changes.Change) := do
  let left ← reference.scan
  let right ← implementer.scan
  require (left.rootIdentity ≠ right.rootIdentity)
    (.unsafeChange "iki kok ayni nesne" .pathNotAllowed)
  let before ← Changes.project left
  let after ← Changes.project right
  Changes.semanticChanges before after

/-! ## Writing -/

/-- `mkdir(parents=True, exist_ok=True)`, from the top. -/
def makeParents (walked : Path) : Path → Nodes → Except MirrorError Nodes
  | [], n => .ok n
  | name :: rest, n =>
    match n.lookup (walked ++ [name]) with
    | some (.dir _ _) => makeParents (walked ++ [name]) rest n
    | some (.file _ _ _) => .error .os
    | none => makeParents (walked ++ [name]) rest
        (n.insert (walked ++ [name]) (.dir Host.dirMode Host.dirAttributes))

/-- `_write_bytes`: a file that is there keeps its mode. -/
def writeBytes (path : Path) (data : Bytes) (n : Nodes) : Except MirrorError Nodes := do
  let n ← makeParents [] path.dropLast n
  match n.lookup path with
  | some (.file _ mode attributes) => return n.insert path (.file data mode attributes)
  | some (.dir _ _) => throw .os
  | none => return n.insert path (.file data Host.fileMode Host.fileAttributes)

def setMode (path : Path) (mode : ℕ) (n : Nodes) : Nodes :=
  match n.lookup path with
  | some (.file bytes _ attributes) => n.insert path (.file bytes mode attributes)
  | _ => n

def octalDigit (c : Char) : Option ℕ :=
  if '0' ≤ c ∧ c ≤ '7' then some (c.toNat - '0'.toNat) else none

/-- `int(text, 8)` of digits. -/
def octal (digits : List Char) : Option ℕ :=
  if digits = [] then none
  else digits.foldlM (fun value c => (octalDigit c).map fun d => 8 * value + d) 0

/-- `_apply_mode`. Where there are no permission bits the mode reads `0o0`, and
nothing is set. -/
def applyMode (path : Path) (mode : String) (n : Nodes) : Except MirrorError Nodes :=
  match mode.toList with
  | '0' :: 'o' :: digits => do
    let bits ← demand (octal digits) (.refused "aday modu cozumlenemedi")
    return if bits = 0 then n else setMode path bits n
  | _ => .ok n

/-- A blob of the baseline. -/
structure Blob where
  path : Path
  exec : Bool
  bytes : Bytes

/-- `_write_blob`. -/
def writeBlob (n : Nodes) (blob : Blob) : Except MirrorError Nodes := do
  let n ← writeBytes blob.path blob.bytes n
  return if blob.exec then setMode blob.path Host.execMode n else n

def materialise (blobs : List Blob) : Except MirrorError Nodes := blobs.foldlM writeBlob ∅

/-- The components of a path's text. -/
def components (text : String) : Path := (text.toList.splitOn '/').map String.ofList

/-- `_entry_bytes`. -/
def entryBytes (implementer : Nodes) (path : Path) : Except MirrorError Bytes :=
  match implementer.lookup path with
  | some (.file bytes _ _) =>
    if bytes.length ≤ maxContentFileBytes then .ok bytes
    else .error (.refused "aday dosyasi sozlesme tavanini asiyor")
  | some (.dir _ _) => .error (.containment "aday girdisi siradan bir dosya degil")
  | none => .error (.refused "aday girdisi bulunamadi")

def applyChange (implementer : Nodes) (n : Nodes) (change : Changes.Change) :
    Except MirrorError Nodes :=
  let path := components change.path
  match change.kind with
  | .deleted =>
    match n.lookup path with
    | some (.file _ _ _) => .ok (n.erase path)
    | _ => .error (.refused "aday silmesi aynada uygulanamadi")
  | _ => do
    let data ← entryBytes implementer path
    require (Host.sha256 data = change.sha256)
      (.containment "aday dosyasi kanitla ayni degil")
    let n ← writeBytes path data n
    applyMode path change.mode n

/-- `_apply_changes`. -/
def applyChanges (implementer : Nodes) (changes : List Changes.Change) (n : Nodes) :
    Except MirrorError Nodes :=
  changes.foldlM (applyChange implementer) n

/-! ## The gate of the mirror -/

/-- `_PROJECTED` of an entry, as text. -/
def projected (e : Entry) : List String :=
  [e.path, e.kind.text, e.mode, toString e.size, e.sha256, toString e.attributes,
    toString e.reparseTag, toString e.nlink, e.linkTargetMac]

def projection (m : Manifest) : Except String (List (List String)) := do
  forM m.entries fun e => do
    require (e.kind = .file ∨ e.kind = .dir) "calisma alaninda beklenmeyen giris turu"
    require (e.reparseTag = 0 ∧ e.linkTargetMac = "")
      "calisma alaninda beklenmeyen ayrisma noktasi"
  return (m.entries.map projected).insertionSort (· ≤ ·)

def compareRoots (reference implementer : Manifest) : Except String Unit := do
  let left ← projection reference
  let right ← projection implementer
  require (left = right) "iki agac ayni icerikle baslamiyor"
  require (reference.rootIdentity ≠ implementer.rootIdentity) "iki kok ayni nesne"

def compareTrees (implementer : Tree) (n : Nodes) : Except String Unit := do
  let left ← implementer.scan.mapError Application.sentence
  let right ← (scan n (Host.facts (kinds n)) Host.rootIdentity).mapError Application.sentence
  compareRoots left right

/-- `create`, as far as the gate: the baseline, the change set, the comparison. -/
def create (blobs : List Blob) (implementer : Tree) (changes : List Changes.Change) :
    Except MirrorError Unit := do
  let n ← materialise blobs
  let n ← applyChanges implementer.nodes changes n
  (compareTrees implementer n).mapError fun _ => .containment "ayna aday agacla ayni degil"

end

end RagPipeline.Mirror

/-! # What the gate has read of the two trees

The texts of paths and modes read back, and what the change gate lists is what
the two trees say, path by path. -/

namespace RagPipeline.Mirror
open Guard
open Application (Bytes Path Plain pathText modeText pathText_toList pathText_injective)
open Changes (ChangeSetError Entry Manifest Projection Snap)

/-! ## Texts -/

theorem octalDigit_digitChar {d : ℕ} (hd : d < 8) : octalDigit d.digitChar = some d := by
  have hall : ∀ d < 8, octalDigit d.digitChar = some d := by decide
  exact hall d hd

theorem octal_fold (m : ℕ) :
    (Nat.toDigits 8 m).foldlM (fun value c => (octalDigit c).map fun d => 8 * value + d) 0 =
      some m := by
  induction m using Nat.strongRecOn with
  | ind m ih =>
    by_cases hm : m < 8
    · rw [Nat.toDigits_of_lt_base hm]
      simp [octalDigit_digitChar hm]
    · have hle : 8 ≤ m := Nat.not_lt.1 hm
      have hlast : m % 8 < 8 := Nat.mod_lt _ (by decide)
      rw [Nat.toDigits_of_base_le (by decide) hle, List.foldlM_append,
        ih (m / 8) (Nat.div_lt_self (by omega) (by decide))]
      simp only [Option.bind_eq_bind, Option.bind_some, List.foldlM_cons, List.foldlM_nil,
        octalDigit_digitChar hlast, Option.map_some, Option.pure_def, Option.some.injEq]
      omega

theorem modeText_toList (m : ℕ) : (modeText m).toList = '0' :: 'o' :: Nat.toDigits 8 m := by
  have hpos : 0 < (Nat.toDigits 8 m).length := List.length_pos_of_ne_nil Nat.toDigits_ne_nil
  have hzero : 1 - (Nat.toDigits 8 m).length = 0 := by omega
  simp [modeText, Application.digits, hzero]

theorem octal_toDigits (m : ℕ) : octal (Nat.toDigits 8 m) = some m := by
  rw [octal, if_neg Nat.toDigits_ne_nil, octal_fold]

theorem modeText_injective {m m' : ℕ} (h : modeText m = modeText m') : m = m' := by
  have hlist := congrArg String.toList h
  rw [modeText_toList, modeText_toList] at hlist
  have hdigits : Nat.toDigits 8 m = Nat.toDigits 8 m' := by simpa using hlist
  have hoctal := congrArg octal hdigits
  rw [octal_toDigits, octal_toDigits] at hoctal
  exact Option.some.inj hoctal

theorem splitOn_pathText {path : Path} (hplain : Plain path) (hne : path ≠ []) :
    (pathText path).toList.splitOn '/' = path.map String.toList := by
  rw [pathText_toList]
  refine List.splitOn_intercalate _ (fun l hl => ?_) (by simpa using hne)
  obtain ⟨part, hpart, rfl⟩ := List.mem_map.1 hl
  exact (hplain part hpart).2

theorem components_pathText {path : Path} (hplain : Plain path) (hne : path ≠ []) :
    components (pathText path) = path := by
  rw [components, splitOn_pathText hplain hne, List.map_map]
  exact (List.map_congr_left fun part _ => String.ofList_toList).trans (List.map_id' _)

/-- `q` stands above `path`. -/
def Above (q path : Path) : Prop := q ≠ [] ∧ q <+: path ∧ q ≠ path

/-- A text that begins with a directory's and a separator is a path under it. -/
theorem above_of_text {q path : Path} (hq : Plain q) (hpath : Plain path) (hqne : q ≠ [])
    (hne : path ≠ []) (h : (pathText q ++ "/").toList <+: (pathText path).toList) :
    Above q path := by
  obtain ⟨rest, hrest⟩ := h
  rw [String.toList_append] at hrest
  have hslash : "/".toList = ['/'] := rfl
  rw [hslash] at hrest
  have hsplit := splitOn_pathText hpath hne
  rw [← hrest, List.append_assoc, List.singleton_append, List.splitOn_append_cons_self,
    splitOn_pathText hq hqne] at hsplit
  have hmap : path.map String.toList = q.map String.toList ++ rest.splitOn '/' := hsplit.symm
  have hlength : q.length < path.length := by
    have hlen := congrArg List.length hmap
    have hpos : 0 < (rest.splitOn '/').length := List.length_pos_of_ne_nil (List.splitOn_ne_nil _ _)
    simp only [List.length_map, List.length_append] at hlen
    omega
  refine ⟨hqne, ?_, fun heq => by simp [heq] at hlength⟩
  have htake : (path.take q.length).map String.toList = q.map String.toList := by
    rw [List.map_take, hmap]
    simp
  have heq : path.take q.length = q :=
    List.map_injective_iff.2 (fun _ _ => String.toList_inj.1) htake
  exact heq ▸ List.take_prefix _ _

/-! ## The projections -/

section
variable [Host] {n : Nodes} {facts facts' : Path → DirFacts} {root : String} {m : Manifest}
  {path : Path} {t reference candidate : Tree} {p : Projection} {changes : List Changes.Change}

theorem entry_path (facts : Path → DirFacts) (path : Path) (node : Node) :
    (entry facts path node).path = pathText path := by
  cases node <;> rfl

theorem mem_entries {e : Entry} :
    e ∈ entries n facts ↔ ∃ path node, n.lookup path = some node ∧ e = entry facts path node := by
  unfold entries
  rw [List.mem_map]
  constructor
  · rintro ⟨⟨path, node⟩, hmem, rfl⟩
    exact ⟨path, node, AList.mem_lookup_iff.2 hmem, rfl⟩
  · rintro ⟨path, node, hlookup, rfl⟩
    exact ⟨⟨path, node⟩, AList.mem_lookup_iff.1 hlookup, rfl⟩

theorem scan_ok : scan n facts root = .ok m ↔
    withinLimits (entries n facts) = true ∧
      m = ⟨root, (entries n facts).insertionSort fun a b => a.path ≤ b.path⟩ := by
  simp only [scan, bind_ok, exists_unit, require_ok, pure_ok]
  exact and_congr_right fun _ => eq_comm

theorem tree_get (hm : t.scan = .ok m) (hp : Changes.project m = .ok p) (hplain : Plain path)
    (hne : path ≠ []) :
    p.get (pathText path) = (t.nodes.lookup path).map fun node => Snap.of (entry t.facts path node) := by
  obtain ⟨-, rfl⟩ := scan_ok.1 hm
  have hmem : ∀ {e : Entry}, e ∈ (entries t.nodes t.facts).insertionSort
      (fun a b => a.path ≤ b.path) ↔
        ∃ path node, t.nodes.lookup path = some node ∧ e = entry t.facts path node :=
    (List.perm_insertionSort _ _).mem_iff.trans mem_entries
  rw [Changes.project_reads hp]
  cases hfind : List.find? (fun e : Entry => e.path = pathText path)
      ((entries t.nodes t.facts).insertionSort fun a b => a.path ≤ b.path) with
  | some e =>
    obtain ⟨u, node, hu, rfl⟩ := hmem.1 (List.mem_of_find?_eq_some hfind)
    have htext : (entry t.facts u node).path = pathText path := by
      simpa using List.find?_some hfind
    rw [entry_path] at htext
    obtain ⟨hune, huplain⟩ := t.plain u (by simp [hu])
    obtain rfl : u = path := pathText_injective huplain hplain hune hne htext
    rw [hu]
    rfl
  | none =>
    rw [List.find?_eq_none] at hfind
    cases hlookup : t.nodes.lookup path with
    | none => rfl
    | some node =>
      exact absurd (by simpa using entry_path t.facts path node)
        (hfind _ (hmem.2 ⟨path, node, hlookup, rfl⟩))

/-- Every text in the projection is the text of a path of the tree. -/
theorem path_of_get (hm : t.scan = .ok m) (hp : Changes.project m = .ok p) {text : String}
    {snap : Snap} (h : p.get text = some snap) :
    ∃ path, text = pathText path ∧ path ≠ [] ∧ Plain path := by
  rw [Changes.project_reads hp] at h
  obtain ⟨e, he, -⟩ := Option.map_eq_some_iff.1 h
  have htext : e.path = text := by simpa using List.find?_some he
  obtain ⟨-, rfl⟩ := scan_ok.1 hm
  obtain ⟨path, node, hlookup, rfl⟩ := mem_entries.1
    ((List.perm_insertionSort _ _).mem_iff.1 (List.mem_of_find?_eq_some he))
  rw [entry_path] at htext
  exact ⟨path, htext.symm, t.plain path (by simp [hlookup])⟩

/-! ## The change set -/

/-- Two nodes that the change gate cannot tell apart. -/
def SameNode : Node → Node → Prop
  | .file b m a, .file b' m' a' =>
    m = m' ∧ b.length = b'.length ∧ Host.sha256 b = Host.sha256 b' ∧ a = a'
  | .dir m a, .dir m' a' => m = m' ∧ a = a'
  | _, _ => False

omit [Host] in
theorem repr_injective {m m' : ℕ} (h : m.repr = m'.repr) : m = m' := by
  have hdigits : Nat.toDigits 10 m = Nat.toDigits 10 m' := by
    rw [← Nat.toList_repr, h, Nat.toList_repr]
  rw [← @Nat.ofDigitChars_ten_toDigits m, hdigits, Nat.ofDigitChars_ten_toDigits]

theorem compare_entry (facts facts' : Path → DirFacts) (path : Path) {l r : Node} :
    (Snap.of (entry facts path l)).compare = (Snap.of (entry facts' path r)).compare ↔
      SameNode l r := by
  have hrepr : ∀ {a b : ℕ}, a.repr = b.repr ↔ a = b := ⟨repr_injective, congrArg _⟩
  have hmode : ∀ {a b : ℕ}, modeText a = modeText b ↔ a = b := ⟨modeText_injective, congrArg _⟩
  cases l with
  | file b m a =>
    cases r with
    | file b' m' a' =>
      simp [Snap.of, entry, Entry.fileFields, SameNode, hrepr, hmode]
    | dir m' a' => simp [Snap.of, entry, SameNode, Changes.EntryKind.text]
  | dir m a =>
    cases r with
    | file b' m' a' => simp [Snap.of, entry, SameNode, Changes.EntryKind.text]
    | dir m' a' => simp [Snap.of, entry, Entry.dirFields, SameNode, hrepr, hmode]

theorem entry_kind {node : Node} :
    (Snap.of (entry facts path node)).kind = .file ↔
      ∃ bytes mode attributes, node = .file bytes mode attributes := by
  cases node with
  | file b m a => simp [Snap.of, entry]
  | dir m a => simp [Snap.of, entry]

/-- What an accepted change set says of the two trees, path by path. -/
structure Gated (reference candidate : Tree) (changes : List Changes.Change) : Prop where
  limits : withinLimits (entries candidate.nodes candidate.facts) = true
  nodup : (changes.map Changes.Change.path).Nodup
  path : ∀ c ∈ changes, ∃ path, c.path = pathText path ∧ path ≠ [] ∧ Plain path
  change : ∀ c ∈ changes, ∀ path, c.path = pathText path → path ≠ [] → Plain path →
    (c.kind = .deleted ∧ candidate.nodes.lookup path = none ∧
      ∃ b m a, reference.nodes.lookup path = some (.file b m a)) ∨
    c.kind ≠ .deleted ∧
      (reference.nodes.lookup path = none ∨
        ∃ b m a, reference.nodes.lookup path = some (.file b m a)) ∧
      ∃ b m a, candidate.nodes.lookup path = some (.file b m a) ∧
        c.mode = modeText m ∧ c.sha256 = Host.sha256 b
  quiet : ∀ path, path ≠ [] → Plain path → pathText path ∉ changes.map Changes.Change.path →
    (reference.nodes.lookup path = none ∧ candidate.nodes.lookup path = none) ∨
    (∃ l r, reference.nodes.lookup path = some l ∧ candidate.nodes.lookup path = some r ∧
      SameNode l r) ∨
    (∃ m a, reference.nodes.lookup path = none ∧ candidate.nodes.lookup path = some (.dir m a) ∧
      ∃ c ∈ changes, ∃ q, c.path = pathText q ∧ q ≠ [] ∧ Plain q ∧ Above path q) ∨
    ∃ m a, reference.nodes.lookup path = some (.dir m a) ∧ candidate.nodes.lookup path = none

theorem gate_gated (h : gate reference candidate = .ok changes) :
    Gated reference candidate changes := by
  simp only [gate, bind_ok, exists_unit, require_ok] at h
  obtain ⟨left, hleft, right, hright, -, before, hbefore, after, hafter, hsemantic⟩ := h
  have hwalked := Changes.semantic_walked hsemantic
  have hget : ∀ path, path ≠ [] → Plain path →
      before.get (pathText path) =
        (reference.nodes.lookup path).map (fun node => Snap.of (entry reference.facts path node)) ∧
      after.get (pathText path) =
        (candidate.nodes.lookup path).map (fun node => Snap.of (entry candidate.facts path node)) :=
    fun path hne hplain => ⟨tree_get hleft hbefore hplain hne, tree_get hright hafter hplain hne⟩
  have hpath : ∀ c ∈ changes, ∃ path, c.path = pathText path ∧ path ≠ [] ∧ Plain path := by
    intro c hc
    obtain ⟨-, ⟨-, r, hr, -⟩ | ⟨-, l, hl, -⟩ | ⟨l, -, hl, -⟩⟩ :=
      Changes.classify_change (hwalked.found c hc)
    · exact path_of_get hright hafter hr
    · exact path_of_get hleft hbefore hl
    · exact path_of_get hleft hbefore hl
  refine ⟨(scan_ok.1 hright).1, hwalked.sorted.imp ne_of_lt, hpath, ?_, ?_⟩
  · intro c hc path htext hne hplain
    have hfound := hwalked.found c hc
    obtain ⟨hgetl, hgetr⟩ := hget path hne hplain
    rw [htext, hgetl, hgetr] at hfound
    obtain ⟨-, ⟨hl, r, hr, hf, hk, hm, hs⟩ | ⟨hr, l, hl, hf, hk⟩ |
      ⟨l, r, hl, hr, hfl, hfr, -, hk, hm, hs⟩⟩ := Changes.classify_change hfound
    · obtain ⟨node, hnode, rfl⟩ := Option.map_eq_some_iff.1 hr
      obtain ⟨b, m, a, rfl⟩ := entry_kind.1 hf
      exact .inr ⟨by simp [hk], .inl (Option.map_eq_none_iff.1 hl), b, m, a, hnode, hm, hs⟩
    · obtain ⟨node, hnode, rfl⟩ := Option.map_eq_some_iff.1 hl
      obtain ⟨b, m, a, rfl⟩ := entry_kind.1 hf
      exact .inl ⟨hk, Option.map_eq_none_iff.1 hr, b, m, a, hnode⟩
    · obtain ⟨node, hnode, rfl⟩ := Option.map_eq_some_iff.1 hl
      obtain ⟨node', hnode', rfl⟩ := Option.map_eq_some_iff.1 hr
      obtain ⟨b, m, a, rfl⟩ := entry_kind.1 hfl
      obtain ⟨b', m', a', rfl⟩ := entry_kind.1 hfr
      exact .inr ⟨by simp [hk], .inr ⟨b, m, a, hnode⟩, b', m', a', hnode', hm, hs⟩
  · intro path hne hplain hnot
    obtain ⟨hgetl, hgetr⟩ := hget path hne hplain
    have hquiet := Changes.semantic_quiet hsemantic hnot
    rw [Changes.Quiet, hgetl, hgetr] at hquiet
    cases hl : reference.nodes.lookup path with
    | none =>
      cases hr : candidate.nodes.lookup path with
      | none => exact .inl ⟨rfl, rfl⟩
      | some r =>
        rw [hl, hr] at hquiet
        cases r with
        | file b m a => simp [Changes.classify, Snap.of, entry] at hquiet
        | dir m a =>
          obtain hsame | ⟨-, c, hc, hunder⟩ := hquiet
          · simp [Changes.classify, Snap.of, entry] at hsame
          · obtain ⟨q, htext, hqne, hqplain⟩ := hpath c hc
            rw [htext] at hunder
            exact .inr (.inr (.inl ⟨m, a, rfl, rfl, c, hc, q, htext, hqne, hqplain,
              above_of_text hplain hqplain hne hqne hunder⟩))
    | some l =>
      cases hr : candidate.nodes.lookup path with
      | none =>
        rw [hl, hr] at hquiet
        cases l with
        | file b m a => simp [Changes.classify, Snap.of, entry] at hquiet
        | dir m a => exact .inr (.inr (.inr ⟨m, a, rfl, rfl⟩))
      | some r =>
        rw [hl, hr] at hquiet
        refine .inr (.inl ⟨l, r, rfl, rfl, ?_⟩)
        rw [← compare_entry reference.facts candidate.facts path]
        by_contra hne
        simp only [Option.map_some, Changes.classify, if_neg hne] at hquiet
        split_ifs at hquiet <;> simp at hquiet

end

end RagPipeline.Mirror
