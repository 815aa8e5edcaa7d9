import RagPipeline.Lib.Regex
import Mathlib.Data.List.DropRight
import Mathlib.Data.List.Infix

/-! # The control plane and the three that guard it

`contract.py` freezes which paths belong to the loop itself. The task schema
refuses an entry by a regular expression, preflight by comparing text, and the
runtime by folded spellings. Text is a list of characters here. -/

set_option autoImplicit false

namespace RagPipeline.Changes

abbrev Text := List Char

def controlPlanePaths : List Text :=
  ["tools/agent_loop/".toList, "tests/test_agent_loop_contract.py".toList,
    "scripts/p0_gate.sh".toList, "eval/tools/leak_scan.py".toList]

def controlPlaneGlobs : List Text := ["tests/test_agent_loop*.py".toList]

/-- `str.rstrip("/")`. -/
def rstripSlash (s : Text) : Text := s.rdropWhile (· = '/')

/-- Every proper `"/".join(parts[:depth])`. -/
def ancestors (trimmed : Text) : List Text :=
  let parts := trimmed.splitOn '/'
  ((List.range parts.length).drop 1).map fun depth => ['/'].intercalate (parts.take depth)

def withAncestors (entries : List Text) : List Text :=
  entries.flatMap (fun entry =>
    (rstripSlash entry :: ancestors (rstripSlash entry)).flatMap fun s => [s, s ++ ['/']]) ++
  [".".toList, "./".toList, []]

def controlPlaneBlockedPaths : List Text := withAncestors controlPlanePaths

/-- How a platform folds case: character by character, as `str.casefold` does.
Text without capitals stays, and no separator or dot comes of anything else. -/
structure CaseFolding where
  char : Char → List Char
  plain : ∀ c : Char, c.toNat < 128 → c.isUpper = false → char c = [c]
  ne_nil : ∀ c, char c ≠ []
  mark : ∀ c, ∀ d ∈ char c, d ∈ ['/', '.', '\\'] → c = d
  stable : ∀ c, ∀ d ∈ char c, char d = [d]

def CaseFolding.apply (f : CaseFolding) (s : Text) : Text := s.flatMap f.char

/-- What `os.name` decides: whether spellings fold case, and how `fnmatch`
normalises its two arguments. -/
structure Platform where
  casing : CaseFolding
  normcase : Text → Text

def posix : Platform where
  casing :=
    { char := fun c => [c]
      plain := fun _ _ _ => rfl
      ne_nil := fun _ => List.cons_ne_nil _ _
      mark := fun _ _ hd _ => (List.mem_singleton.1 hd).symm
      stable := fun _ _ _ => rfl }
  normcase := id

/-- `str(text).replace("\\", "/")`. -/
def unify (text : Text) : Text := text.map fun c => if c = '\\' then '/' else c

def segments (text : Text) : List Text :=
  ((unify text).splitOn '/').filter fun part => part ≠ [] ∧ part ≠ ['.']

def joinSlash (parts : List Text) : Text := ['/'].intercalate parts

def fnmatchcase (name pattern : Text) : Bool := (Regex.glob (fun _ => true) pattern).fullMatch name

section
variable (P : Platform)

def fold (text : Text) : Text := P.casing.apply (joinSlash (segments text))

/-- The path is the entry, or stands under it. -/
def within (folded trimmed : Text) : Bool :=
  folded = trimmed || (trimmed ++ ['/']).isPrefixOf folded

def covered (path : Text) (entries : List Text) : Bool :=
  entries.any fun entry => fold P entry ≠ [] && within (fold P path) (fold P entry)

def isControlPlane (path : Text) : Bool :=
  (controlPlanePaths.any fun entry => within (fold P path) (fold P entry)) ||
    controlPlaneGlobs.any fun pattern => fnmatchcase (fold P path) (fold P pattern)

def fnmatch (name pattern : Text) : Bool := fnmatchcase (P.normcase name) (P.normcase pattern)

def touchesControlPlane (entries : List Text) : Bool :=
  let blocked := controlPlaneBlockedPaths ++ controlPlanePaths
  entries.any fun entry =>
    let normalised := rstripSlash (unify entry)
    blocked.contains normalised || blocked.contains (normalised ++ ['/']) ||
      (controlPlanePaths.any fun path =>
        normalised = rstripSlash path || path.isPrefixOf normalised) ||
      controlPlaneGlobs.any fun pattern => fnmatch P normalised pattern

end

open Regex in
/-- `_RELATIVE_PATH["pattern"]`: no root, no drive, no `..` segment, and no
control character or backslash. -/
def relativePath : Regex :=
  let slash := (· == '/')
  let parent := lit "..".toList
  let ordinary := fun c : Char => !(c.toNat < 32) && c != '\\'
  seqAll [.bos, .noneAhead (.char fun c => c == '/' || c == '\\'),
    .noneAhead (seqAll [.char fun c => c.isAlpha, .char (· == ':')]),
    .noneAhead (seqAll [.star (· != '\n'), .alt .bos (.char slash), parent,
      .alt (.char slash) .eos]),
    plus ordinary, .eos]

/-- `_glob_to_regex`: `*` spans separators, and a newline does not pass. -/
def globToRegex (pattern : Text) : Regex := .glob (· != '\n') pattern

open Regex in
/-- `_control_plane_pattern`: a protected prefix and what is under it, a broad
ancestor exactly, and the glob family. -/
def controlPlanePattern : Regex :=
  let exact := controlPlanePaths.map rstripSlash
  let broad := ((controlPlaneBlockedPaths.map rstripSlash).filter fun entry =>
    !entry.isEmpty && !exact.contains entry)
  altAll <|
    controlPlanePaths.flatMap (fun entry =>
      [seqAll [.bos, lit entry, .star (· != '\n'), .eos],
        seqAll [.bos, lit (rstripSlash entry), .eos]]) ++
    [seqAll [.bos, altAll (broad.map lit), opt (.char (· == '/')), .eos],
      seqAll [.bos, altAll (controlPlaneGlobs.map globToRegex), .eos]]

/-- An item of `allowed_paths`, as the task schema has it. -/
def allowedPathItem (s : Text) : Bool :=
  1 ≤ s.length && s.length ≤ 400 && relativePath.search s && !controlPlanePattern.search s

/-- What the schema and preflight both let through. -/
def Admitted (P : Platform) (s : Text) : Prop :=
  allowedPathItem s = true ∧ touchesControlPlane P [s] = false

instance (P : Platform) (s : Text) : Decidable (Admitted P s) := inferInstanceAs (Decidable (_ ∧ _))

end RagPipeline.Changes

/-! # What an admitted entry can reach

An entry that the schema and preflight let through may still cover a path of
the control plane: through a spelling that only `_fold` sees through, or as a
directory whose name opens the way the protected test family does. -/

namespace RagPipeline.Changes

namespace CaseFolding
variable (f : CaseFolding)

theorem apply_append (a b : Text) : f.apply (a ++ b) = f.apply a ++ f.apply b :=
  List.flatMap_append

theorem apply_stable (s : Text) : f.apply (f.apply s) = f.apply s := by
  induction s with
  | nil => rfl
  | cons c rest ih =>
    have hc : f.apply (f.char c) = f.char c := by
      have hchar : ∀ l : Text, (∀ d ∈ l, f.char d = [d]) → f.apply l = l := by
        intro l hl
        induction l with
        | nil => rfl
        | cons d l ih =>
          rw [List.forall_mem_cons] at hl
          simpa [apply, hl.1] using ih hl.2
      exact hchar _ (f.stable c)
    rw [show f.apply (c :: rest) = f.char c ++ f.apply rest from rfl, apply_append, hc, ih]

/-- ASCII without capitals, which no folding changes. -/
def lowerAscii (s : Text) : Bool := s.all fun c => c.toNat < 128 && !c.isUpper

theorem apply_plain {s : Text} (hs : lowerAscii s = true) : f.apply s = s := by
  induction s with
  | nil => rfl
  | cons c rest ih =>
    simp only [lowerAscii, List.all_cons, Bool.and_eq_true, decide_eq_true_eq,
      Bool.not_eq_true'] at hs
    simpa [apply, f.plain c hs.1.1 hs.1.2] using ih hs.2

theorem mem_mark {s : Text} {d : Char} (hd : d ∈ ['/', '.', '\\']) (h : d ∈ f.apply s) :
    d ∈ s := by
  obtain ⟨c, hc, hdc⟩ := List.mem_flatMap.1 h
  rwa [← f.mark c d hdc hd]

theorem apply_ne_nil {s : Text} (hs : s ≠ []) : f.apply s ≠ [] := by
  obtain ⟨c, rest, rfl⟩ := List.exists_cons_of_ne_nil hs
  simp [apply, f.ne_nil c]

theorem apply_eq_dot {s : Text} (h : f.apply s = ['.']) : s = ['.'] := by
  cases s with
  | nil => simp [apply] at h
  | cons c rest =>
    obtain ⟨d, more, hd⟩ := List.exists_cons_of_ne_nil (f.ne_nil c)
    rw [show f.apply (c :: rest) = f.char c ++ f.apply rest from rfl, hd] at h
    simp only [List.cons_append, List.cons.injEq, List.append_eq_nil_iff] at h
    obtain ⟨rfl, -, hrest⟩ := h
    have hc : c = '.' := f.mark c '.' (by simp [hd]) (by simp)
    by_cases hr : rest = []
    · rw [hc, hr]
    · exact absurd hrest (f.apply_ne_nil hr)

theorem apply_join (parts : List Text) :
    f.apply (joinSlash parts) = joinSlash (parts.map f.apply) := by
  have hslash : f.apply ['/'] = ['/'] := f.apply_plain (by decide)
  induction parts with
  | nil => rfl
  | cons part rest ih =>
    cases rest with
    | nil => simp [joinSlash]
    | cons next more =>
      simp only [joinSlash, List.map_cons, List.intercalate_cons_cons, apply_append] at ih ⊢
      rw [ih, hslash]

end CaseFolding

section
variable (P : Platform)

/-- A segment as `_fold` leaves it. -/
structure Plain (part : Text) : Prop where
  ne_nil : part ≠ []
  ne_dot : part ≠ ['.']
  slash : '/' ∉ part
  backslash : '\\' ∉ part
  folded : P.casing.apply part = part

variable {P}

theorem unify_eq {s : Text} (h : '\\' ∉ s) : unify s = s := by
  induction s with
  | nil => rfl
  | cons c rest ih =>
    rw [List.mem_cons, not_or] at h
    have hrest := ih h.2
    rw [unify] at hrest ⊢
    rw [List.map_cons, hrest, if_neg (Ne.symm h.1)]

theorem backslash_notMem_unify (s : Text) : '\\' ∉ unify s := by
  intro h
  obtain ⟨c, -, hc⟩ := List.mem_map.1 h
  split_ifs at hc with hb
  · simp at hc
  · exact hb hc

theorem mem_joinSlash {parts : List Text} {c : Char} (h : c ∈ joinSlash parts) :
    c = '/' ∨ ∃ part ∈ parts, c ∈ part := by
  induction parts with
  | nil => simp [joinSlash] at h
  | cons part rest ih =>
    cases rest with
    | nil => exact .inr ⟨part, by simp, by simpa [joinSlash] using h⟩
    | cons next more =>
      simp only [joinSlash, List.intercalate_cons_cons, List.mem_append,
        List.mem_singleton] at h ih
      rcases h with (h | h) | h
      · exact .inr ⟨part, by simp, h⟩
      · exact .inl h
      · rcases ih h with h | ⟨p, hp, hc⟩
        · exact .inl h
        · exact .inr ⟨p, List.mem_cons_of_mem _ hp, hc⟩

theorem not_mem_splitOn {s part : Text} {c : Char} (h : part ∈ s.splitOn c) : c ∉ part := by
  induction s generalizing part with
  | nil => simp_all
  | cons d rest ih =>
    rw [List.splitOn_cons_eq_if_modifyHead] at h
    split at h
    · rcases List.mem_cons.1 h with rfl | h
      · simp
      · exact ih h
    · rename_i hd
      cases hs : rest.splitOn c with
      | nil => simp [hs] at h
      | cons head tail =>
        rw [hs] at h ih
        rcases List.mem_cons.1 h with rfl | h
        · have := ih (List.mem_cons_self ..)
          simp only [List.mem_cons, not_or]
          exact ⟨fun hcd => hd (by simp [hcd]), this⟩
        · exact ih (List.mem_cons_of_mem _ h)

theorem mem_of_mem_splitOn {s part : Text} {c d : Char} (h : part ∈ s.splitOn c) (hd : d ∈ part) :
    d ∈ s := by
  have hjoin : [c].intercalate (s.splitOn c) = s := List.intercalate_splitOn c
  rw [← hjoin]
  generalize s.splitOn c = parts at h
  induction parts with
  | nil => cases h
  | cons head tail ih =>
    cases tail with
    | nil => simp_all
    | cons next more =>
      rw [List.intercalate_cons_cons]
      rcases List.mem_cons.1 h with rfl | h
      · simp [hd]
      · exact List.mem_append_right _ (ih h)

theorem segment_plain {s part : Text} (h : part ∈ segments s) :
    Plain P (P.casing.apply part) := by
  simp only [segments, List.mem_filter, decide_eq_true_eq] at h
  obtain ⟨hmem, hnil, hdot⟩ := h
  refine ⟨P.casing.apply_ne_nil hnil, fun hd => hdot (P.casing.apply_eq_dot hd), fun hs => ?_,
    fun hb => ?_, P.casing.apply_stable part⟩
  · exact not_mem_splitOn hmem (P.casing.mem_mark (by simp) hs)
  · exact backslash_notMem_unify s (mem_of_mem_splitOn hmem (P.casing.mem_mark (by simp) hb))

/-- A folded spelling is a list of plain segments, joined. -/
theorem fold_parts (s : Text) :
    ∃ parts, (∀ part ∈ parts, Plain P part) ∧ fold P s = joinSlash parts := by
  refine ⟨(segments s).map P.casing.apply, fun part hpart => ?_, P.casing.apply_join _⟩
  obtain ⟨raw, hraw, rfl⟩ := List.mem_map.1 hpart
  exact segment_plain hraw

theorem segments_join {parts : List Text} (h : ∀ part ∈ parts, Plain P part) (hne : parts ≠ []) :
    segments (joinSlash parts) = parts := by
  have hb : '\\' ∉ joinSlash parts := by
    intro hm
    rcases mem_joinSlash hm with hc | ⟨part, hp, hc⟩
    · simp at hc
    · exact (h part hp).backslash hc
  rw [segments, unify_eq hb, joinSlash,
    List.splitOn_intercalate '/' (fun part hp => (h part hp).slash) hne, List.filter_eq_self]
  intro part hp
  simpa using ⟨(h part hp).ne_nil, (h part hp).ne_dot⟩

/-- Folding plain segments changes nothing. -/
theorem fold_join {parts : List Text} (h : ∀ part ∈ parts, Plain P part) :
    fold P (joinSlash parts) = joinSlash parts := by
  by_cases hne : parts = []
  · subst hne
    rfl
  · rw [fold, segments_join h hne, CaseFolding.apply_join]
    congr 1
    exact List.map_congr_left (fun part hp => (h part hp).folded) |>.trans (List.map_id' _)

theorem fold_fold (s : Text) : fold P (fold P s) = fold P s := by
  obtain ⟨parts, hplain, hs⟩ := fold_parts (P := P) s
  rw [hs, fold_join hplain]

theorem fold_under {s name : Text} (hs : fold P s ≠ []) (hn : Plain P name) :
    fold P (fold P s ++ '/' :: name) = fold P s ++ '/' :: name := by
  obtain ⟨parts, hplain, hfold⟩ := fold_parts (P := P) s
  have hne : parts ≠ [] := by
    rintro rfl
    exact hs hfold
  have hjoin : fold P s ++ '/' :: name = joinSlash (parts ++ [name]) := by
    rw [hfold]
    clear hs hfold hplain
    induction parts with
    | nil => exact absurd rfl hne
    | cons part rest ih =>
      cases rest with
      | nil => simp [joinSlash]
      | cons next more =>
        have := ih (by simp)
        simp only [joinSlash, List.cons_append, List.intercalate_cons_cons,
          List.append_assoc] at this ⊢
        rw [this]
  rw [hjoin]
  apply fold_join
  intro part hp
  rcases List.mem_append.1 hp with hp | hp
  · exact hplain part hp
  · rwa [List.mem_singleton.1 hp]

theorem within_iff {folded trimmed : Text} :
    within folded trimmed = true ↔ folded = trimmed ∨ trimmed ++ ['/'] <+: folded := by
  simp [within]

/-- One of two paths is the other or stands above it. -/
def Comparable (a b : Text) : Prop := within a b = true ∨ within b a = true

instance (a b : Text) : Decidable (Comparable a b) := inferInstanceAs (Decidable (_ ∨ _))

/-- Two paths that one path is or stands under are comparable. -/
theorem comparable_of_within {folded a b : Text} (ha : within folded a = true)
    (hb : within folded b = true) : Comparable a b := by
  rw [within_iff] at ha hb
  rcases ha with rfl | ha
  · exact .inl (within_iff.2 hb)
  · rcases hb with rfl | hb
    · exact .inr (within_iff.2 (.inr ha))
    · have hshort {x y : Text} (h : x ++ ['/'] <+: y ++ ['/']) : within y x = true := by
        rcases List.prefix_concat_iff.1 h with h | h
        · exact within_iff.2 (.inl (List.append_cancel_right h).symm)
        · exact within_iff.2 (.inr h)
      rcases List.prefix_or_prefix_of_prefix ha hb with h | h
      · exact .inr (hshort h)
      · exact .inl (hshort h)

/-- The constants are spelled the way `_fold` spells, up to a trailing slash, and
the directories above them are the blocked ones. -/
theorem paths_spelled : ∀ e ∈ controlPlanePaths, joinSlash (segments e) = rstripSlash e ∧
    CaseFolding.lowerAscii (rstripSlash e) = true ∧
      (e = rstripSlash e ∨ e = rstripSlash e ++ ['/']) ∧
        ∀ k < (rstripSlash e).length, (rstripSlash e)[k]? = some '/' →
          (rstripSlash e).take k ∈ controlPlaneBlockedPaths := by
  decide +kernel

theorem fold_constant (P : Platform) {entry : Text} (h : entry ∈ controlPlanePaths) :
    fold P entry = rstripSlash entry := by
  obtain ⟨hjoin, hchars, -⟩ := paths_spelled entry h
  rw [fold, hjoin, CaseFolding.apply_plain _ hchars]

/-- What the names of the protected tests begin with, and their extension. -/
def familyStem : Text := "tests/test_agent_loop".toList

def familyExtension : Text := ".py".toList

/-- The one glob is spelled plainly, and the contract's own test is a path of
the family. -/
theorem family_spelled :
    (controlPlaneGlobs.map (fun g => joinSlash (segments g)) =
        [familyStem ++ '*' :: familyExtension] ∧
      CaseFolding.lowerAscii (familyStem ++ '*' :: familyExtension) = true ∧
      '*' ∉ familyStem ∧ '*' ∉ familyExtension) ∧
      familyStem.getLast? ≠ some '/' ∧
        "tests/test_agent_loop_contract.py".toList ∈ controlPlanePaths ∧
          familyStem <+: rstripSlash "tests/test_agent_loop_contract.py".toList := by
  decide +kernel

theorem fold_family (P : Platform) :
    controlPlaneGlobs.map (fold P) = [familyStem ++ '*' :: familyExtension] := by
  obtain ⟨hjoin, hchars, -⟩ := family_spelled.1
  have hmap : controlPlaneGlobs.map (fold P) =
      (controlPlaneGlobs.map fun g => joinSlash (segments g)).map P.casing.apply := by
    rw [List.map_map]
    rfl
  rw [hmap, hjoin, List.map_singleton, CaseFolding.apply_plain _ hchars]

theorem control_plane_iff {P : Platform} {path : Text} :
    isControlPlane P path = true ↔
      (∃ entry ∈ controlPlanePaths, within (fold P path) (rstripSlash entry) = true) ∨
        ∃ m, fold P path = familyStem ++ m ++ familyExtension := by
  have hglob : (controlPlaneGlobs.any fun g => fnmatchcase (fold P path) (fold P g)) =
      fnmatchcase (fold P path) (familyStem ++ '*' :: familyExtension) := by
    have : (controlPlaneGlobs.any fun g => fnmatchcase (fold P path) (fold P g)) =
        (controlPlaneGlobs.map (fold P)).any fun g => fnmatchcase (fold P path) g := by
      rw [List.any_map]
      rfl
    rw [this, fold_family, List.any_cons, List.any_nil, Bool.or_false]
  rw [isControlPlane, Bool.or_eq_true, hglob, fnmatchcase,
    Regex.fullMatch_glob family_spelled.1.2.2.1 family_spelled.1.2.2.2, List.any_eq_true]
  apply or_congr _ Iff.rfl
  refine exists_congr fun entry => and_congr_right fun hentry => ?_
  rw [fold_constant P hentry]

/-- Preflight knows a protected path, what is under one and every directory
above one, where the entry is spelled plainly. -/
theorem touches_of_comparable {P : Platform} {s entry : Text} (hentry : entry ∈ controlPlanePaths)
    (hc : Comparable (rstripSlash (unify s)) (rstripSlash entry)) :
    touchesControlPlane P [s] = true := by
  obtain ⟨-, -, hfile, hblocked⟩ := paths_spelled entry hentry
  simp only [touchesControlPlane, List.any_cons, List.any_nil, Bool.or_false, Bool.or_eq_true,
    List.contains_iff_mem, List.mem_append, List.any_eq_true, decide_eq_true_eq,
    List.isPrefixOf_iff_prefix]
  rcases hc with h | h
  · rcases within_iff.1 h with h | h
    · exact .inl (.inr ⟨entry, hentry, .inl h⟩)
    · refine .inl (.inr ⟨entry, hentry, .inr ?_⟩)
      rcases hfile with he | he
      · rw [he]
        exact (List.prefix_append _ _).trans h
      · rwa [he]
  · rcases within_iff.1 h with h | ⟨more, h⟩
    · exact .inl (.inr ⟨entry, hentry, .inl h.symm⟩)
    · refine .inl (.inl (.inl (.inl ?_)))
      have htake : (rstripSlash entry).take (rstripSlash (unify s)).length =
          rstripSlash (unify s) := by
        rw [← h, List.append_assoc, List.take_left']
        rfl
      rw [← htake]
      refine hblocked _ ?_ ?_
      · rw [← h]
        simp
      · rw [← h]
        simp

/-- The entry folds to something that is comparable with a protected path,
though it is not spelled so, or that opens like the protected family. -/
def Reaches (P : Platform) (s : Text) : Prop :=
  fold P s ≠ [] ∧
    ((rstripSlash (unify s) ≠ fold P s ∧
        ∃ entry ∈ controlPlanePaths, Comparable (fold P s) (rstripSlash entry)) ∨
      familyStem <+: fold P s)

theorem covered_single {P : Platform} {path s : Text} :
    covered P path [s] = true ↔ fold P s ≠ [] ∧ within (fold P path) (fold P s) = true := by
  simp [covered]

/-- What an entry reaches is a path of the control plane that it covers. -/
theorem covers_of_reaches {P : Platform} {s : Text} (h : Reaches P s) :
    ∃ path, isControlPlane P path = true ∧ covered P path [s] = true := by
  obtain ⟨hne, ⟨-, entry, hentry, hc⟩ | hstem⟩ := h
  · rcases hc with hc | hc
    · refine ⟨fold P s, control_plane_iff.2 (.inl ⟨entry, hentry, ?_⟩), covered_single.2 ⟨hne, ?_⟩⟩
      · rwa [fold_fold]
      · rw [fold_fold]
        exact within_iff.2 (.inl rfl)
    · refine ⟨entry, control_plane_iff.2 (.inl ⟨entry, hentry, ?_⟩), covered_single.2 ⟨hne, ?_⟩⟩
      · rw [fold_constant P hentry]
        exact within_iff.2 (.inl rfl)
      · rwa [fold_constant P hentry]
  · obtain ⟨more, hmore⟩ := hstem
    have hplain : Plain P ['x', '.', 'p', 'y'] :=
      ⟨by decide, by decide, by decide, by decide, CaseFolding.apply_plain _ (by decide)⟩
    have hx : ['x', '.', 'p', 'y'] = 'x' :: familyExtension := by simp [familyExtension]
    refine ⟨fold P s ++ '/' :: ['x', '.', 'p', 'y'],
      control_plane_iff.2 (.inr ⟨more ++ ['/', 'x'], ?_⟩), covered_single.2 ⟨hne, ?_⟩⟩
    · rw [fold_under hne hplain, ← hmore, hx]
      simp
    · rw [fold_under hne hplain]
      exact within_iff.2 (.inr ⟨['x', '.', 'p', 'y'], by simp⟩)

/-- A path that is, or stands under, an admitted entry and belongs to the
control plane gives the entry away. -/
theorem reaches_of_covers {P : Platform} {s path : Text} (hs : Admitted P s)
    (hpath : isControlPlane P path = true) (hcov : covered P path [s] = true) : Reaches P s := by
  obtain ⟨hne, hwithin⟩ := covered_single.1 hcov
  refine ⟨hne, ?_⟩
  have hspelled {entry : Text} (hentry : entry ∈ controlPlanePaths)
      (hc : Comparable (fold P s) (rstripSlash entry)) : rstripSlash (unify s) ≠ fold P s := by
    intro heq
    rw [← heq] at hc
    exact absurd ((touches_of_comparable hentry hc).symm.trans hs.2) (by decide)
  rcases control_plane_iff.1 hpath with ⟨entry, hentry, hw⟩ | ⟨m, hm⟩
  · have hc := comparable_of_within hwithin hw
    exact .inl ⟨hspelled hentry hc, entry, hentry, hc⟩
  · have hstem : familyStem <+: fold P path := ⟨m ++ familyExtension, by rw [hm, List.append_assoc]⟩
    rcases within_iff.1 hwithin with heq | hunder
    · exact .inr (heq ▸ hstem)
    · rcases List.prefix_or_prefix_of_prefix hstem hunder with h | h
      · rcases List.prefix_concat_iff.1 h with h | h
        · have hlast : familyStem.getLast? = some '/' := by rw [h]; simp
          exact absurd hlast family_spelled.2.1
        · exact .inr h
      · -- a directory above the family is above the contract's own test
        obtain ⟨-, htest, hfamily⟩ := family_spelled.2
        have hc : Comparable (fold P s)
            (rstripSlash "tests/test_agent_loop_contract.py".toList) :=
          .inr (within_iff.2 (.inr (h.trans hfamily)))
        exact .inl ⟨hspelled htest hc, _, htest, hc⟩

/-- An admitted entry covers no path of the control plane exactly when it is
written as `_fold` writes it, or folds to something apart from every protected
path, and does not open like the protected family. -/
theorem unreachable_iff {P : Platform} {s : Text} (hs : Admitted P s) :
    (∀ path, isControlPlane P path = true → covered P path [s] = false) ↔ ¬ Reaches P s := by
  constructor
  · intro h hr
    obtain ⟨path, hpath, hcov⟩ := covers_of_reaches hr
    rw [h path hpath] at hcov
    exact Bool.noConfusion hcov
  · intro h path hpath
    rw [Bool.eq_false_iff]
    exact fun hcov => h (reaches_of_covers hs hpath hcov)

theorem unreachable_docs :
    (∀ path, isControlPlane posix path = true → covered posix path ["./docs//".toList] = false) ↔
      ¬ Reaches posix "./docs//".toList :=
  unreachable_iff (by decide +kernel)

/-- `./tools` is admitted, and the loop's own code stands under it; so is a
directory of the protected family's name. -/
theorem dot_tools_covers :
    (Admitted posix "./tools".toList ∧
        isControlPlane posix "tools/agent_loop/runner.py".toList = true ∧
        covered posix "tools/agent_loop/runner.py".toList ["./tools".toList] = true) ∧
      Admitted posix "tests/test_agent_loop_data".toList ∧
        isControlPlane posix "tests/test_agent_loop_data/a.py".toList = true ∧
        covered posix "tests/test_agent_loop_data/a.py".toList
          ["tests/test_agent_loop_data".toList] = true := by
  decide +kernel

end

end RagPipeline.Changes
