import RagPipeline.Runner.Contract
import RagPipeline.Lib.Guard
import Mathlib.Data.List.Nodup
import Mathlib.Data.List.TakeWhile
import RagPipeline.Mirror.Reading

/-! # Raw tree objects

`git_objects.py` reads a tree object byte by byte: a mode, a name and a binary id,
with a blank, a zero byte and a fixed length for separators. -/

set_option autoImplicit false

namespace RagPipeline.Baseline
open Runner (StopReason)

abbrev Bytes := List UInt8

/-- `FlatWorkspaceError`. -/
structure FlatWorkspaceError where
  message : String
  reason : StopReason := .preflightFailed
deriving DecidableEq, Repr

/-- The parts of an entry, before its mode and its id are spelled as text. -/
structure RawEntry where
  mode : Bytes
  name : Bytes
  oid : Bytes
deriving DecidableEq, Repr

structure TreeEntry where
  mode : String
  name : Bytes
  oid : String
deriving DecidableEq, Repr

/-- `bytes.decode("ascii", "replace")`. -/
def decodeAscii (b : Bytes) : String :=
  String.ofList (b.map fun c => if c.toNat < 128 then Char.ofNat c.toNat else '\uFFFD')

def hexDigit (n : ℕ) : Char := Nat.digitChar n

/-- `bytes.hex`. -/
def hex (b : Bytes) : String :=
  String.ofList (b.flatMap fun c => [hexDigit (c.toNat / 16), hexDigit (c.toNat % 16)])

def RawEntry.decode (e : RawEntry) : TreeEntry := ⟨decodeAscii e.mode, e.name, hex e.oid⟩

/-- The entries of what is left of the object, in as many steps as it has bytes;
`seen` are the names before. -/
def parseFrom : ℕ → List Bytes → Bytes → Except FlatWorkspaceError (List RawEntry)
  | 0, _, rest => if rest = [] then .ok [] else .error ⟨"agac nesnesi cozumlenemedi", .preflightFailed⟩
  | steps + 1, seen, rest =>
    if rest = [] then .ok []
    else
      let mode := rest.takeWhile (· ≠ 32)
      let behind := (rest.dropWhile (· ≠ 32)).drop 1
      let name := behind.takeWhile (· ≠ 0)
      let tail := (behind.dropWhile (· ≠ 0)).drop 1
      if 32 ∉ rest then .error ⟨"agac nesnesi cozumlenemedi", .preflightFailed⟩
      else if 0 ∉ behind ∨ tail.length < 20 then
        .error ⟨"agac nesnesi cozumlenemedi", .preflightFailed⟩
      else if name = [] then .error ⟨"agac girdisinde bos ad", .preflightFailed⟩
      else if name ∈ seen then .error ⟨"agac nesnesinde yinelenen ham ad", .pathNotAllowed⟩
      else (parseFrom steps (name :: seen) (tail.drop 20)).map fun more =>
        ⟨mode, name, tail.take 20⟩ :: more

/-- `_parse_tree`. -/
def parseTree (data : Bytes) : Except FlatWorkspaceError (List TreeEntry) := do
  let entries ← parseFrom data.length [] data
  if entries = [] then throw ⟨"agac nesnesi bos", .preflightFailed⟩
  return entries.map RawEntry.decode

/-! ## Entries and their bytes -/

/-- An entry as it is stored. -/
def RawEntry.encode (e : RawEntry) : Bytes := e.mode ++ 32 :: (e.name ++ 0 :: e.oid)

/-- A mode has no blank, a name has a byte and no zero byte, an id is twenty bytes. -/
structure RawEntry.Formed (e : RawEntry) : Prop where
  mode : 32 ∉ e.mode
  name_ne : e.name ≠ []
  name : 0 ∉ e.name
  oid : e.oid.length = 20

theorem span_append {b : UInt8} {front : Bytes} (tail : Bytes) (h : b ∉ front) :
    (front ++ b :: tail).takeWhile (· ≠ b) = front ∧
      (front ++ b :: tail).dropWhile (· ≠ b) = b :: tail := by
  have hall : ∀ c ∈ front, decide (c ≠ b) = true := by
    intro c hc
    have hne : c ≠ b := fun heq => h (heq ▸ hc)
    simpa using hne
  rw [List.takeWhile_append_of_pos hall, List.dropWhile_append_of_pos hall]
  simp

theorem span_split {b : UInt8} {l : Bytes} (h : b ∈ l) :
    l = l.takeWhile (· ≠ b) ++ b :: (l.dropWhile (· ≠ b)).drop 1 ∧ b ∉ l.takeWhile (· ≠ b) := by
  obtain ⟨front, tail, rfl, hfront⟩ := List.eq_append_cons_of_mem h
  obtain ⟨htake, hdrop⟩ := span_append tail hfront
  rw [htake, hdrop]
  exact ⟨rfl, hfront⟩

theorem encode_length {e : RawEntry} (h : e.Formed) : 22 < e.encode.length := by
  have hname := List.length_pos_iff.2 h.name_ne
  have hoid := h.oid
  simp only [RawEntry.encode, List.length_append, List.length_cons]
  omega

/-- The remaining bytes are entries with names that were not seen, exactly where
they are read as these. -/
theorem parseFrom_iff {steps : ℕ} (seen : List Bytes) {rest : Bytes} (entries : List RawEntry)
    (hsteps : rest.length ≤ steps) :
    parseFrom steps seen rest = .ok entries ↔
      (∀ e ∈ entries, e.Formed ∧ e.name ∉ seen) ∧ (entries.map RawEntry.name).Nodup ∧
        rest = entries.flatMap RawEntry.encode := by
  induction steps generalizing seen rest entries with
  | zero =>
    have hrest : rest = [] := List.length_eq_zero_iff.1 (Nat.le_zero.1 hsteps)
    rw [hrest]
    constructor
    · intro h
      obtain rfl := Except.ok.inj h
      exact ⟨fun _ he => absurd he List.not_mem_nil, .nil, rfl⟩
    · rintro ⟨hformed, -, hbytes⟩
      cases entries with
      | nil => rfl
      | cons e entries =>
        have hlen := encode_length (hformed e List.mem_cons_self).1
        have hzero := congrArg List.length hbytes
        simp only [List.length_nil, List.flatMap_cons, List.length_append] at hzero
        omega
  | succ steps ih =>
    constructor
    · intro h
      unfold parseFrom at h
      dsimp only at h
      split_ifs at h with hnil hblank hzero hname hseen
      · obtain rfl := Except.ok.inj h
        exact ⟨fun _ he => absurd he List.not_mem_nil, .nil, hnil⟩
      · obtain ⟨hrest, hmode⟩ := span_split hblank
        push Not at hzero
        obtain ⟨hbehind, hnameNul⟩ := span_split hzero.1
        generalize rest.takeWhile (· ≠ 32) = mode at h hrest hmode
        generalize (rest.dropWhile (· ≠ 32)).drop 1 = behind at h hrest hzero hbehind hnameNul hname hseen
        generalize behind.takeWhile (· ≠ 0) = name at h hbehind hnameNul hname hseen
        generalize (behind.dropWhile (· ≠ 0)).drop 1 = tail at h hbehind hzero
        have hshort : (tail.drop 20).length ≤ steps := by
          rw [hrest, hbehind] at hsteps
          simp only [List.length_append, List.length_cons, List.length_drop] at hsteps ⊢
          omega
        cases hmore : parseFrom steps (name :: seen) (tail.drop 20) with
        | error e =>
          rw [hmore] at h
          cases h
        | ok more =>
          rw [hmore] at h
          obtain rfl := Except.ok.inj h
          obtain ⟨hformed, hnodup, hbytes⟩ := (ih _ _ hshort).1 hmore
          refine ⟨?_, ?_, ?_⟩
          · intro e he
            obtain rfl | he := List.mem_cons.1 he
            · refine ⟨⟨hmode, hname, hnameNul, ?_⟩, hseen⟩
              show (tail.take 20).length = 20
              rw [List.length_take]
              omega
            · have hboth := hformed e he
              exact ⟨hboth.1, fun hmem => hboth.2 (List.mem_cons_of_mem name hmem)⟩
          · rw [List.map_cons, List.nodup_cons]
            refine ⟨?_, hnodup⟩
            intro hmem
            obtain ⟨e, he, heq⟩ := List.mem_map.1 hmem
            apply (hformed e he).2
            rw [heq]
            exact List.mem_cons_self
          · rw [List.flatMap_cons, ← hbytes, hrest, hbehind]
            simp [RawEntry.encode]
    · rintro ⟨hformed, hnodup, hbytes⟩
      cases entries with
      | nil =>
        unfold parseFrom
        exact if_pos hbytes
      | cons e entries =>
        obtain ⟨he, hunseen⟩ := hformed e List.mem_cons_self
        obtain ⟨hfirst, hnodup⟩ := List.nodup_cons.1 hnodup
        have hrest : rest = e.mode ++ 32 :: (e.name ++ 0 :: (e.oid ++ entries.flatMap RawEntry.encode)) := by
          rw [hbytes]
          simp [RawEntry.encode]
        obtain ⟨htake, hdrop⟩ := span_append
          (e.name ++ 0 :: (e.oid ++ entries.flatMap RawEntry.encode)) he.mode
        obtain ⟨htake', hdrop'⟩ := span_append (e.oid ++ entries.flatMap RawEntry.encode) he.name
        have hshort : (entries.flatMap RawEntry.encode).length ≤ steps := by
          rw [hrest] at hsteps
          simp only [List.length_append, List.length_cons] at hsteps
          omega
        have hmore : parseFrom steps (e.name :: seen) (entries.flatMap RawEntry.encode) = .ok entries := by
          apply (ih _ _ hshort).2
          refine ⟨?_, hnodup, rfl⟩
          intro e' he'
          obtain ⟨hform, hnot⟩ := hformed e' (List.mem_cons_of_mem e he')
          refine ⟨hform, ?_⟩
          intro hmem
          obtain heq | hmem := List.mem_cons.1 hmem
          · apply hfirst
            rw [← heq]
            exact List.mem_map.2 ⟨e', he', rfl⟩
          · exact hnot hmem
        unfold parseFrom
        dsimp only
        rw [hrest, htake, hdrop, List.drop_one, List.tail_cons, htake', hdrop', List.drop_one,
          List.tail_cons, List.drop_left' he.oid, List.take_left' he.oid]
        rw [if_neg (by simp), if_neg (by simp), if_neg (by simp [he.oid]), if_neg he.name_ne,
          if_neg hunseen, hmore]
        rfl

/-- A tree object is read exactly where it is a sequence of formed entries, at
least one, with names that differ, and it is read as these. -/
theorem parseTree_iff {data : Bytes} {entries : List TreeEntry} :
    parseTree data = .ok entries ↔ ∃ raw : List RawEntry, raw ≠ [] ∧ (∀ e ∈ raw, e.Formed) ∧
      (raw.map RawEntry.name).Nodup ∧ data = raw.flatMap RawEntry.encode ∧
        entries = raw.map RawEntry.decode := by
  have hparse := fun raw => parseFrom_iff [] raw (le_refl data.length)
  constructor
  · intro h
    obtain ⟨raw, hraw, h⟩ := Guard.bind_ok.1 h
    obtain ⟨hformed, hnodup, hbytes⟩ := (hparse raw).1 hraw
    by_cases hne : raw = []
    · rw [if_pos hne] at h
      cases h
    · rw [if_neg hne] at h
      exact ⟨raw, hne, fun e he => (hformed e he).1, hnodup, hbytes, (Except.ok.inj h).symm⟩
  · rintro ⟨raw, hne, hformed, hnodup, hbytes, rfl⟩
    apply Guard.bind_ok.2
    refine ⟨raw, (hparse raw).2 ⟨fun e he => ⟨hformed e he, List.not_mem_nil⟩, hnodup, hbytes⟩, ?_⟩
    rw [if_neg hne]
    rfl

/-! ## Spelled again -/

def encodeAscii (s : String) : Bytes := s.toList.map fun c => c.toNat.toUInt8

def hexValue (c : Char) : ℕ := if c.isDigit then c.toNat - 48 else c.toNat - 87

def unhex : List Char → Bytes
  | a :: b :: rest => (16 * hexValue a + hexValue b).toUInt8 :: unhex rest
  | _ => []

/-- An entry as it was read, stored again. -/
def TreeEntry.encode (e : TreeEntry) : Bytes :=
  encodeAscii e.mode ++ 32 :: (e.name ++ 0 :: unhex e.oid.toList)

theorem unhex_hex (b : Bytes) : unhex (hex b).toList = b := by
  have hdigit : ∀ n < 16, hexValue (hexDigit n) = n := by decide
  unfold hex
  rw [String.toList_ofList]
  induction b with
  | nil => rfl
  | cons c b ih =>
    show (16 * hexValue (hexDigit (c.toNat / 16)) + hexValue (hexDigit (c.toNat % 16))).toUInt8 ::
      unhex (b.flatMap fun c => [hexDigit (c.toNat / 16), hexDigit (c.toNat % 16)]) = c :: b
    have hlt : c.toNat < 256 := c.toNat_lt
    rw [ih, hdigit _ (by omega), hdigit _ (Nat.mod_lt _ (by decide)), Nat.div_add_mod]
    simp

theorem encodeAscii_decodeAscii {b : Bytes} (h : ∀ c ∈ b, c.toNat < 128) :
    encodeAscii (decodeAscii b) = b := by
  unfold encodeAscii decodeAscii
  rw [String.toList_ofList, List.map_map]
  refine (List.map_congr_left fun c hc => ?_).trans (List.map_id b)
  have hlt := h c hc
  have hvalid : (Char.ofNat c.toNat).toNat = c.toNat := by
    have hall : ∀ n < 128, (Char.ofNat n).toNat = n := by decide
    exact hall _ hlt
  simp [hlt, hvalid]

/-- What was read is stored as the bytes it was read from, where the modes are ASCII. -/
theorem encode_decode {e : RawEntry} (h : ∀ c ∈ e.mode, c.toNat < 128) :
    e.decode.encode = e.encode := by
  unfold TreeEntry.encode RawEntry.decode RawEntry.encode
  rw [encodeAscii_decodeAscii h, unhex_hex]

end RagPipeline.Baseline

/-! # The tree of the baseline

`_walk_tree` goes through raw tree objects depth first. What it lists are files
with paths of their own, none of them a directory of another. -/

set_option autoImplicit false

namespace RagPipeline.Baseline
open Guard
open Application (Path Plain pathText pathText_injective)

/-- What the interpreter knows of names: the category of a character, canonical
composition, case folding, and whether the platform folds case in paths. -/
structure Names where
  category : Char → String
  nfc : String → String
  casefold : String → String
  nt : Bool

def forbiddenCategories : List String := ["Cc", "Cf", "Zl", "Zp"]

section
variable (N : Names)

/-- The first character a name may not have. -/
def checkCharacters : List Char → Except FlatWorkspaceError Unit
  | [] => .ok ()
  | c :: rest =>
    if N.category c ∈ forbiddenCategories then
      .error ⟨"yol gorunmez ya da kontrol karakteri tasiyor", .pathNotAllowed⟩
    else if N.category c = "Zs" ∧ c ≠ ' ' then
      .error ⟨"yol siradan olmayan bosluk karakteri tasiyor", .pathNotAllowed⟩
    else checkCharacters rest

/-- `_canonical_component`. -/
def canonicalComponent (raw : Bytes) : Except FlatWorkspaceError String :=
  match String.fromUTF8? ⟨raw.toArray⟩ with
  | none => .error ⟨"yol gecerli UTF-8 degil", .pathNotAllowed⟩
  | some text =>
    if text = "" ∨ '/' ∈ text.toList ∨ '\\' ∈ text.toList then
      .error ⟨"yol kanonik degil", .pathNotAllowed⟩
    else if text = "." ∨ text = ".." then .error ⟨"yol kanonik degil", .pathNotAllowed⟩
    else if N.casefold text = ".git" then
      .error ⟨"yol git denetim duzlemini adliyor", .pathNotAllowed⟩
    else do
      checkCharacters N text.toList
      require (N.nfc text = text) ⟨"yol NFC biciminde degil", .pathNotAllowed⟩
      return text

/-- `_FULL_SHA`. -/
def fullSha (oid : String) : Bool :=
  oid.length = 40 && oid.toList.all fun c => c ∈ "0123456789abcdef".toList

def allowedBlobModes : List String := ["100644", "100755"]

/-- The key of a path: spellings that a platform takes for one path have one. -/
def keyOf (yol : String) : String := if N.nt then N.casefold yol else yol

structure Listed where
  path : String
  mode : String
  oid : String
deriving DecidableEq, Repr

/-- `girisler`, and the keys in `gorulen` and `dizinler`. -/
structure Found where
  entries : List Listed := []
  files : List String := []
  dirs : List String := []
deriving DecidableEq, Repr

variable (maxEntries : ℕ)

/-- The entries of one tree; `descend` walks a tree under it. -/
def walkEntries (descend : String → Path → Found → Except FlatWorkspaceError Found)
    (parents : Path) : List TreeEntry → Found → Except FlatWorkspaceError Found
  | [], found => .ok found
  | e :: rest, found => do
    require (fullSha e.oid = true) ⟨"nesne kimligi tam SHA degil", .preflightFailed⟩
    let component ← canonicalComponent N e.name
    let key := keyOf N (pathText (parents ++ [component]))
    require (key ∉ found.files ∧ key ∉ found.dirs) ⟨"agacta yinelenen kanonik yol", .pathNotAllowed⟩
    if e.mode = "40000" then do
      let found ← descend e.oid (parents ++ [component]) { found with dirs := found.dirs ++ [key] }
      walkEntries descend parents rest found
    else do
      require (e.mode ∈ allowedBlobModes)
        ⟨"agac girdisi sozlesme disi bir mod tasiyor", .pathNotAllowed⟩
      require (found.entries.length + 1 ≤ maxEntries)
        ⟨"giris sayisi sozlesme tavanini asiyor", .preflightFailed⟩
      walkEntries descend parents rest { found with
        entries := found.entries ++ [⟨pathText (parents ++ [component]), e.mode, e.oid⟩]
        files := found.files ++ [key] }

variable (object : String → Except FlatWorkspaceError Bytes)

/-- `_walk_tree`, with the levels that may still be entered. -/
def walkTree : ℕ → String → Path → Found → Except FlatWorkspaceError Found
  | 0, _, _, _ => .error ⟨"agac derinligi sozlesme tavanini asiyor", .preflightFailed⟩
  | levels + 1, oid, parents, found => do
    let data ← object oid
    let entries ← parseTree data
    walkEntries N maxEntries (walkTree levels) parents entries found

/-- Depths 0 to 128 may be entered. -/
def maxLevels : ℕ := 129

/-- `_read_tree`, from the tree of the commit on. -/
def readTree (root : String) : Except FlatWorkspaceError (List Listed) := do
  let found ← walkTree N maxEntries object maxLevels root [] {}
  require (found.entries ≠ []) ⟨"taban surumu bos", .preflightFailed⟩
  return found.entries

end

/-! ## Names -/

/-- A component that names something under the directory it stands in. -/
structure Component (N : Names) (part : String) : Prop where
  ne : part ≠ ""
  separators : '/' ∉ part.toList ∧ '\\' ∉ part.toList
  dots : part ≠ "." ∧ part ≠ ".."
  control : N.casefold part ≠ ".git"
  characters : ∀ c ∈ part.toList, N.category c ∉ forbiddenCategories ∧
    (N.category c = "Zs" → c = ' ')
  composed : N.nfc part = part

section
variable {N : Names}

theorem checkCharacters_ok {l : List Char} (h : checkCharacters N l = .ok ()) :
    ∀ c ∈ l, N.category c ∉ forbiddenCategories ∧ (N.category c = "Zs" → c = ' ') := by
  induction l with
  | nil =>
    intro c hc
    cases hc
  | cons d rest ih =>
    unfold checkCharacters at h
    split_ifs at h with hcategory hspace
    intro c hc
    obtain rfl | hc := List.mem_cons.1 hc
    · refine ⟨hcategory, fun hzs => ?_⟩
      by_contra hne
      exact hspace ⟨hzs, hne⟩
    · exact ih h c hc

theorem canonicalComponent_ok {raw : Bytes} {text : String}
    (h : canonicalComponent N raw = .ok text) : Component N text := by
  unfold canonicalComponent at h
  split at h
  case h_1 => cases h
  case h_2 text' _ =>
    split_ifs at h with hsep hdots hgit
    obtain ⟨_, hchars, h⟩ := Guard.bind_ok.1 h
    obtain ⟨_, hnfc, h⟩ := Guard.bind_ok.1 h
    obtain rfl := Except.ok.inj h
    push Not at hsep hdots
    exact ⟨hsep.1, hsep.2, hdots, hgit, checkCharacters_ok hchars, require_ok.1 hnfc⟩

/-- A path of such components, below the root. -/
def Contained (N : Names) (path : Path) : Prop := path ≠ [] ∧ ∀ part ∈ path, Component N part

theorem Contained.plain {path : Path} (h : Contained N path) : Plain path :=
  fun part hpart => ⟨(h.2 part hpart).ne, (h.2 part hpart).separators.1⟩

/-! ## The walk -/

/-- What holds of what was found: files have paths of their own, a key of theirs
among the files, and every directory above them a key among the directories. -/
structure Apart (N : Names) (found : Found) : Prop where
  paths : (found.entries.map Listed.path).Nodup
  files : ∀ e ∈ found.entries, keyOf N e.path ∈ found.files
  kinds : ∀ k ∈ found.files, k ∉ found.dirs
  above : ∀ e ∈ found.entries, ∃ path, Contained N path ∧ e.path = pathText path ∧
    ∀ q, q ≠ [] → q <+: path → q ≠ path → keyOf N (pathText q) ∈ found.dirs

/-- The directories above the place of the walk are known. -/
def Known (N : Names) (parents : Path) (found : Found) : Prop :=
  (∀ part ∈ parents, Component N part) ∧
    ∀ q, q ≠ [] → q <+: parents → keyOf N (pathText q) ∈ found.dirs

/-- Nothing that was found is lost, and what is true of it stays. -/
def Keeps (N : Names) (found found' : Found) : Prop :=
  Apart N found → Apart N found' ∧ found.dirs ⊆ found'.dirs

theorem Apart.directory {found : Found} {k : String} (h : Apart N found)
    (hk : k ∉ found.files ∧ k ∉ found.dirs) :
    Apart N { found with dirs := found.dirs ++ [k] } := by
  refine ⟨h.paths, h.files, ?_, ?_⟩
  · intro k' hk' hmem
    obtain hmem | hmem := List.mem_append.1 hmem
    · exact h.kinds k' hk' hmem
    · rw [List.mem_singleton.1 hmem] at hk'
      exact hk.1 hk'
  · intro e he
    obtain ⟨path, hpath, htext, hdirs⟩ := h.above e he
    exact ⟨path, hpath, htext, fun q hq hle hne => List.mem_append_left _ (hdirs q hq hle hne)⟩

theorem Apart.file {found : Found} {parents : Path} {component mode oid : String}
    (h : Apart N found) (hknown : Known N parents found) (hcomponent : Component N component)
    (hk : keyOf N (pathText (parents ++ [component])) ∉ found.files ∧
      keyOf N (pathText (parents ++ [component])) ∉ found.dirs) :
    Apart N { found with
      entries := found.entries ++ [⟨pathText (parents ++ [component]), mode, oid⟩]
      files := found.files ++ [keyOf N (pathText (parents ++ [component]))] } := by
  constructor
  · rw [List.map_append]
    apply List.nodup_append.2
    refine ⟨h.paths, List.nodup_singleton _, ?_⟩
    intro p hp q hq heq
    rw [List.map_singleton, List.mem_singleton] at hq
    obtain ⟨e, he, rfl⟩ := List.mem_map.1 hp
    apply hk.1
    have hkey := h.files e he
    rw [heq, hq] at hkey
    exact hkey
  · intro e he
    obtain he | he := List.mem_append.1 he
    · exact List.mem_append_left _ (h.files e he)
    · rw [List.mem_singleton.1 he]
      exact List.mem_append_right _ (List.mem_singleton_self _)
  · intro k hmem
    obtain hmem | hmem := List.mem_append.1 hmem
    · exact h.kinds k hmem
    · rw [List.mem_singleton.1 hmem]
      exact hk.2
  · intro e he
    obtain he | he := List.mem_append.1 he
    · exact h.above e he
    · refine ⟨parents ++ [component], ⟨by simp, ?_⟩, by rw [List.mem_singleton.1 he], ?_⟩
      · intro part hpart
        obtain hpart | hpart := List.mem_append.1 hpart
        · exact hknown.1 part hpart
        · rw [List.mem_singleton.1 hpart]
          exact hcomponent
      · intro q hq hle hne
        obtain heq | hle := List.prefix_concat_iff.1 hle
        · exact absurd heq hne
        · exact hknown.2 q hq hle

variable {maxEntries : ℕ}

theorem walkEntries_keeps {descend : String → Path → Found → Except FlatWorkspaceError Found}
    (hdescend : ∀ oid parents found found', Known N parents found →
      descend oid parents found = .ok found' → Keeps N found found')
    {parents : Path} {entries : List TreeEntry} {found found' : Found}
    (hknown : Known N parents found)
    (h : walkEntries N maxEntries descend parents entries found = .ok found') :
    Keeps N found found' := by
  induction entries generalizing found with
  | nil =>
    obtain rfl := Except.ok.inj h
    exact fun happart => ⟨happart, List.Subset.refl _⟩
  | cons e rest ih =>
    intro happart
    rw [walkEntries] at h
    obtain ⟨_, -, h⟩ := Guard.bind_ok.1 h
    obtain ⟨component, hname, h⟩ := Guard.bind_ok.1 h
    have hcomponent := canonicalComponent_ok hname
    obtain ⟨_, hnew, h⟩ := Guard.bind_ok.1 h
    have hnew := require_ok.1 hnew
    by_cases hmode : e.mode = "40000"
    · rw [if_pos hmode] at h
      obtain ⟨inner, hinner, h⟩ := Guard.bind_ok.1 h
      have hinside : Known N (parents ++ [component]) { found with
          dirs := found.dirs ++ [keyOf N (pathText (parents ++ [component]))] } := by
        constructor
        · intro part hpart
          obtain hpart | hpart := List.mem_append.1 hpart
          · exact hknown.1 part hpart
          · rw [List.mem_singleton.1 hpart]
            exact hcomponent
        · intro q hq hle
          obtain heq | hle := List.prefix_concat_iff.1 hle
          · rw [heq]
            exact List.mem_append_right _ (List.mem_singleton_self _)
          · exact List.mem_append_left _ (hknown.2 q hq hle)
      obtain ⟨hapart, hmore⟩ := hdescend _ _ _ _ hinside hinner (happart.directory hnew)
      have hdirs : found.dirs ⊆ inner.dirs := List.Subset.trans (List.subset_append_left _ _) hmore
      have hknown' : Known N parents inner :=
        ⟨hknown.1, fun q hq hle => hdirs (hknown.2 q hq hle)⟩
      obtain ⟨hapart', hmore'⟩ := ih hknown' h hapart
      exact ⟨hapart', List.Subset.trans hdirs hmore'⟩
    · rw [if_neg hmode] at h
      obtain ⟨_, -, h⟩ := Guard.bind_ok.1 h
      obtain ⟨_, -, h⟩ := Guard.bind_ok.1 h
      have hkeeps := ih (by exact hknown) h
      exact hkeeps (happart.file hknown hcomponent hnew)

theorem walkTree_keeps {object : String → Except FlatWorkspaceError Bytes} {levels : ℕ}
    {oid : String} {parents : Path} {found found' : Found} (hknown : Known N parents found)
    (h : walkTree N maxEntries object levels oid parents found = .ok found') :
    Keeps N found found' := by
  induction levels generalizing oid parents found found' with
  | zero => cases h
  | succ levels ih =>
    rw [walkTree] at h
    obtain ⟨data, -, h⟩ := Guard.bind_ok.1 h
    obtain ⟨entries, -, h⟩ := Guard.bind_ok.1 h
    exact walkEntries_keeps (fun oid parents found found' hin hok => ih hin hok) hknown h

/-- The listed paths are those of a tree: they differ, none stands above another,
and each is a path below the root. -/
structure Listing (N : Names) (entries : List Listed) : Prop where
  distinct : (entries.map Listed.path).Nodup
  files : ∀ e ∈ entries, ∀ e' ∈ entries, ¬ (e.path ++ "/").toList <+: e'.path.toList
  contained : ∀ e ∈ entries, ∃ path, Contained N path ∧ e.path = pathText path

theorem readTree_listing {object : String → Except FlatWorkspaceError Bytes} {root : String}
    {entries : List Listed} (h : readTree N maxEntries object root = .ok entries) :
    Listing N entries := by
  obtain ⟨found, hwalk, h⟩ := Guard.bind_ok.1 h
  obtain ⟨_, -, h⟩ := Guard.bind_ok.1 h
  obtain rfl := Except.ok.inj h
  have hknown : Known N [] {} := by
    refine ⟨fun _ hp => absurd hp List.not_mem_nil, ?_⟩
    intro q hq hle
    exact absurd (List.prefix_nil.1 hle) hq
  have hstart : Apart N {} := ⟨.nil, fun _ he => absurd he List.not_mem_nil,
    fun _ hk => absurd hk List.not_mem_nil, fun _ he => absurd he List.not_mem_nil⟩
  have hapart := (walkTree_keeps hknown hwalk hstart).1
  refine ⟨hapart.paths, ?_, ?_⟩
  · intro e he e' he' hle
    obtain ⟨p, hp, hptext, -⟩ := hapart.above e he
    obtain ⟨q, hq, hqtext, hdirs⟩ := hapart.above e' he'
    rw [hptext, hqtext] at hle
    have habove := Mirror.above_of_text hp.plain hq.plain hp.1 hq.1 hle
    apply hapart.kinds _ (hapart.files e he)
    rw [hptext]
    exact hdirs p habove.1 habove.2.1 habove.2.2
  · intro e he
    obtain ⟨path, hpath, htext, -⟩ := hapart.above e he
    exact ⟨path, hpath, htext⟩

end

/-! ## Reading is exact -/

/-- A tree object is read exactly where it is a nonempty sequence of formed entries
with names that differ, as these entries, and ASCII modes make them the same bytes
again; and the listing of a whole tree is one of files in directories. -/
theorem baseline_reading (data : Bytes) (N : Names) (maxEntries : ℕ)
    (object : String → Except FlatWorkspaceError Bytes) (root : String) :
    (∀ entries, parseTree data = .ok entries ↔ ∃ raw : List RawEntry, raw ≠ [] ∧
      (∀ e ∈ raw, e.Formed) ∧ (raw.map RawEntry.name).Nodup ∧
        data = raw.flatMap RawEntry.encode ∧ entries = raw.map RawEntry.decode) ∧
    (∀ raw : List RawEntry, (∀ e ∈ raw, ∀ c ∈ e.mode, c.toNat < 128) →
      data = raw.flatMap RawEntry.encode →
        (raw.map RawEntry.decode).flatMap TreeEntry.encode = data) ∧
    ∀ entries, readTree N maxEntries object root = .ok entries → Listing N entries := by
  refine ⟨fun entries => parseTree_iff, ?_, fun entries h => readTree_listing h⟩
  intro raw hascii hdata
  rw [hdata, List.flatMap_map]
  apply List.flatMap_congr
  intro e he
  exact encode_decode (hascii e he)

/-- A file in the root directory, by its mode and its name. -/
def oneEntry (mode name : Bytes) : RawEntry := ⟨mode, name, List.replicate 20 0⟩

/-- The empty sequence of entries is no tree; a name that names no file is read;
and a mode that is not ASCII is not the same bytes again. -/
theorem readings_apart :
    (∀ entries, parseTree [] ≠ .ok entries) ∧
    parseTree (oneEntry [49] [46]).encode = .ok [(oneEntry [49] [46]).decode] ∧
    parseTree (oneEntry [200] [97]).encode = .ok [(oneEntry [200] [97]).decode] ∧
      [(oneEntry [200] [97]).decode].flatMap TreeEntry.encode ≠ (oneEntry [200] [97]).encode := by
  refine ⟨?_, rfl, rfl, by decide +kernel⟩
  intro entries h
  cases h

end RagPipeline.Baseline
