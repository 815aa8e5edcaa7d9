import RagPipeline.FsEvidence.Tree
import Mathlib.Algebra.Ring.Nat

/-! # What a scan lets through

Each check of the scan, as the condition on the entry that it is. What is let through
is counted, and a limit that holds of the whole tree holds on the way. -/

set_option autoImplicit false

namespace RagPipeline.FsEvidence
open Guard
open DepthFirst (Event)

/-! ## Names and paths -/

theorem joined_cons (part : Text) (parts : List Text) :
    ∃ more, joined (part :: parts) = part ++ more := by
  cases parts with
  | nil => exact ⟨[], by simp [joined]⟩
  | cons next rest => exact ⟨slash :: joined (next :: rest), by simp [joined]⟩

section
variable [Host]

/-- A name that is let through in a path. -/
structure CanonicalPart (part : Text) : Prop where
  ordinary : part ∉ [text "", text ".", text ".."]
  separators : backslash ∉ part ∧ slash ∉ part
  characters : ∀ c ∈ part, Host.category c ∉ forbiddenCategories ∧
    (Host.category c = "Zs" → c = codePoint ' ')
  composed : Host.nfc part = part

theorem checkCharacters_ok {part : Text} :
    checkCharacters part = .ok () ↔ ∀ c ∈ part, Host.category c ∉ forbiddenCategories ∧
      (Host.category c = "Zs" → c = codePoint ' ') := by
  induction part with
  | nil => simp [checkCharacters]
  | cons c rest ih =>
    rw [checkCharacters, List.forall_mem_cons, ← ih]
    by_cases hforbidden : Host.category c ∈ forbiddenCategories
    · rw [if_pos hforbidden]
      exact ⟨fun h => (nomatch h), fun h => absurd hforbidden h.1.1⟩
    · rw [if_neg hforbidden]
      by_cases hspace : Host.category c = "Zs" ∧ c ≠ codePoint ' '
      · rw [if_pos hspace]
        exact ⟨fun h => (nomatch h), fun h => absurd (h.1.2 hspace.1) hspace.2⟩
      · rw [if_neg hspace]
        have hordinary : Host.category c = "Zs" → c = codePoint ' ' := by
          intro hzs
          by_contra hne
          exact hspace ⟨hzs, hne⟩
        exact (and_iff_right ⟨hforbidden, hordinary⟩).symm

theorem canonicalPart_ok {part : Text} : canonicalPart part = .ok () ↔ CanonicalPart part := by
  simp only [canonicalPart, bind_ok, exists_unit, require_ok, checkCharacters_ok]
  constructor
  · rintro ⟨⟨hordinary, hseparators⟩, hcharacters, hcomposed⟩
    exact ⟨hordinary, hseparators, hcharacters, hcomposed⟩
  · intro h
    exact ⟨⟨h.ordinary, h.separators⟩, h.characters, h.composed⟩

theorem CanonicalPart.ne_nil {part : Text} (h : CanonicalPart part) : part ≠ [] := by
  intro heq
  apply h.ordinary
  rw [heq]
  exact List.mem_cons_self

theorem canonical_ok {parts : List Text} (hne : parts ≠ []) {path : Text} :
    canonical parts = .ok path ↔ (∀ part ∈ parts, CanonicalPart part) ∧ path = joined parts := by
  simp only [canonical, bind_ok, exists_unit, require_ok, pure_ok]
  have hparts : parts.forM canonicalPart = .ok () ↔ ∀ part ∈ parts, CanonicalPart part := by
    have hpart : ∀ part ∈ parts, (canonicalPart part = .ok () ↔ CanonicalPart part) :=
      fun _ _ => canonicalPart_ok
    rw [← forall₂_congr hpart]
    exact forM_ok
  rw [hparts]
  constructor
  · rintro ⟨hall, -, rfl⟩
    exact ⟨hall, rfl⟩
  · rintro ⟨hall, rfl⟩
    refine ⟨hall, ?_, rfl⟩
    -- the path begins with the first name, which is not empty and has no slash
    cases parts with
    | nil => exact absurd rfl hne
    | cons part rest =>
      obtain ⟨more, hjoined⟩ := joined_cons part rest
      have hpart := hall part List.mem_cons_self
      cases part with
      | nil => exact absurd rfl hpart.ne_nil
      | cons c part =>
        rw [hjoined]
        refine ⟨List.cons_ne_nil _ _, ?_⟩
        intro hslash
        apply hpart.separators.2
        rw [← Option.some.inj hslash]
        exact List.mem_cons_self

theorem joined_injective {parts parts' : List Text} (h : ∀ part ∈ parts, CanonicalPart part)
    (h' : ∀ part ∈ parts', CanonicalPart part) (hne : parts ≠ []) (hne' : parts' ≠ [])
    (heq : joined parts = joined parts') : parts = parts' := by
  have hsplit : (joined parts).splitOn slash = parts :=
    List.splitOn_intercalate _ (fun part hpart => (h part hpart).separators.2) hne
  rw [← hsplit, heq]
  exact List.splitOn_intercalate _ (fun part hpart => (h' part hpart).separators.2) hne'

end

/-! ## Answers -/

theorem guard_ok {α : Type} {reply : Except Fault α} {message : String}
    {kind : String → EvidenceError} {a : α} : guard reply message kind = .ok a ↔ reply = .ok a := by
  cases reply with
  | ok b => simp [guard]
  | error fault => cases fault <;> simp [guard]

theorem answer_ok {α : Type} {fault : Option Fault} {a b : α} :
    answer fault a = .ok b ↔ fault = none ∧ a = b := by
  cases fault <;> simp [answer]

theorem openDoor_ok {door : Door} :
    openDoor door = .ok () ↔ door.opens = none ∧ door.answers.lists = none := by
  simp only [openDoor, bind_ok, exists_unit, mapError_ok, guard_ok, answer_ok, and_true]

/-- What is read of a file. -/
def Descriptor.content (d : Descriptor) : Bytes := d.blocks.flatMap Block.bytes

theorem readBlocks_ok {ceiling : ℕ} {ends : Bool} {blocks : List Block} {data read : Bytes}
    (hdata : data.length ≤ ceiling) :
    readBlocks ceiling ends data blocks = .ok read ↔
      ends = true ∧ (data ++ blocks.flatMap Block.bytes).length ≤ ceiling ∧
        read = data ++ blocks.flatMap Block.bytes := by
  induction blocks generalizing data with
  | nil => cases ends <;> simp [readBlocks, hdata, eq_comm]
  | cons block rest ih =>
    rw [readBlocks, List.flatMap_cons, ← List.append_assoc]
    by_cases hover : ceiling < data.length + block.bytes.length
    · rw [if_pos hover]
      simp only [reduceCtorEq, false_iff, not_and, List.length_append]
      omega
    · rw [if_neg hover]
      apply ih
      rw [List.length_append]
      omega

/-- A file that is read to its end without a change, and closed. -/
structure Readable (d : Descriptor) (ceiling : ℕ) : Prop where
  unchanged : ∃ identity, d.before = .ok identity ∧ d.after = .ok identity ∧ identity.nlink = 1
  ends : d.ends = true
  within : d.content.length ≤ ceiling
  closes : d.closes = true

section
variable [Host]

theorem hashDescriptor_ok {d : Descriptor} {ceiling : ℕ} {digest : String} {identity : Identity} :
    hashDescriptor d ceiling = .ok (digest, identity) ↔
      d.before = .ok identity ∧ d.after = .ok identity ∧ d.ends = true ∧ d.content.length ≤ ceiling ∧
        digest = Host.sha256 d.content := by
  have hempty : ([] : Bytes).length ≤ ceiling := Nat.zero_le ceiling
  simp only [hashDescriptor, bind_ok, exists_unit, guard_ok, require_ok, pure_ok,
    readBlocks_ok hempty, List.nil_append, Prod.mk.injEq]
  constructor
  · rintro ⟨before, hbefore, data, ⟨hends, hwithin, rfl⟩, after, hafter, rfl, rfl, rfl⟩
    exact ⟨hbefore, hafter, hends, hwithin, rfl⟩
  · rintro ⟨hbefore, hafter, hends, hwithin, rfl⟩
    exact ⟨identity, hbefore, d.content, ⟨hends, hwithin, rfl⟩, identity, hafter, rfl, rfl, rfl⟩

variable {call : Call} {p p' : Progress} {path : Text} {record : Record}

theorem visitContent_ok {opened : Except Fault Descriptor} :
    visitContent call p path record opened = .ok p' ↔
      record.size ≤ call.limits.maxContentFileBytes ∧
      p.contentTotal + record.size ≤ call.limits.maxContentTotalBytes ∧
      ∃ d, opened = .ok d ∧ Readable d call.limits.maxContentFileBytes ∧
        p' = { p with
          contentTotal := p.contentTotal + record.size
          contentHashed := p.contentHashed + 1
          entries := p.entries ++ [entryFrom path record (Host.sha256 d.content) "" (some 1)] } := by
  simp only [visitContent, bind_ok, exists_unit, guard_ok, mapError_ok, require_ok, pure_ok,
    Prod.exists, hashDescriptor_ok]
  constructor
  · rintro ⟨hsize, htotal, d, hopened, digest, identity, ⟨hbefore, hafter, hends, hwithin, rfl⟩,
      hcloses, hnlink, rfl⟩
    refine ⟨hsize, htotal, d, hopened, ⟨⟨identity, hbefore, hafter, hnlink⟩, hends, hwithin, hcloses⟩, ?_⟩
    rw [hnlink]
  · rintro ⟨hsize, htotal, d, hopened, ⟨⟨identity, hbefore, hafter, hnlink⟩, hends, hwithin, hcloses⟩, rfl⟩
    refine ⟨hsize, htotal, d, hopened, Host.sha256 d.content, identity,
      ⟨hbefore, hafter, hends, hwithin, rfl⟩, hcloses, hnlink, ?_⟩
    rw [hnlink]

theorem visitFile_ok {opened : Except Fault Descriptor} :
    visitFile call p path record opened = .ok p' ↔
      (record.nlink = none ∨ record.nlink = some 1) ∧
      p.logical + record.size ≤ call.limits.maxLogicalTotalBytes ∧
      match evidenceClass path call.metadataOnly call.exactContent with
      | .content => visitContent call { p with logical := p.logical + record.size } path record opened = .ok p'
      | .metadata => record.size ≤ call.limits.maxMetadataFileBytes ∧
          p' = { p with
            logical := p.logical + record.size
            metadataCount := p.metadataCount + 1
            entries := p.entries ++ [entryFrom path record "" "" none] } := by
  simp only [visitFile, bind_ok, exists_unit, require_ok]
  cases evidenceClass path call.metadataOnly call.exactContent with
  | content => exact Iff.rfl
  | metadata => simp only [bind_ok, exists_unit, require_ok, pure_ok, @eq_comm _ _ p']

theorem visitLink_ok {kanit : Except Fault Bytes} :
    visitLink call p path record kanit = .ok p' ↔
      ∃ target, kanit = .ok target ∧ p' = { p with
        reparseCount := p.reparseCount + 1
        entries := p.entries ++ [entryFrom path record "" (linkMac target call.key) none] } := by
  simp only [visitLink, bind_ok, guard_ok, pure_ok, @eq_comm _ _ p']

omit [Host] in
theorem visitDirectory_ok {childParts : List Text} :
    visitDirectory call p childParts path record = .ok p' ↔
      childParts.length ≤ call.limits.maxDepth ∧
        p' = { p with entries := p.entries ++ [entryFrom path record "" "" none] } := by
  simp only [visitDirectory, bind_ok, exists_unit, require_ok, pure_ok, @eq_comm _ _ p']

/-- A record that is let through whatever its kind. -/
structure Admissible (call : Call) (parts : List Text) (record : Record) : Prop where
  canonical : ∀ part ∈ parts, CanonicalPart part
  past : record.mtimeNs ≤ call.nowNs + quiescenceNs

theorem checkRecord_ok {parts : List Text} (hne : parts ≠ []) :
    checkRecord call p parts record = .ok path ↔
      Admissible call parts record ∧ p.entries.length < call.limits.maxEntries ∧ path = joined parts := by
  simp only [checkRecord, bind_ok, exists_unit, require_ok, pure_ok, canonical_ok hne]
  constructor
  · rintro ⟨q, ⟨hcanonical, rfl⟩, hpast, hroom, rfl⟩
    exact ⟨⟨hcanonical, hpast⟩, hroom, rfl⟩
  · rintro ⟨⟨hcanonical, hpast⟩, hroom, rfl⟩
    exact ⟨joined parts, ⟨hcanonical, rfl⟩, hpast, hroom, rfl⟩

end

end RagPipeline.FsEvidence

/-! # The walk of a whole tree

The evidence of an entry follows from where it stands, and the walk of a tree is let
through exactly where every entry is and the limits hold of their number and sizes. -/

set_option autoImplicit false

namespace RagPipeline.FsEvidence
open Guard
open DepthFirst (Event)

/-! ## What stands in a tree -/

/-- A leaf or a directory, with the directories above it. -/
abbrev Found := DepthFirst.Found Leaf Door

/-- The full recursive listing of a tree. -/
def listing (root : Root) : List Found := DepthFirst.listing [] root.children

namespace Found

def record (f : Found) : Record := f.2.elim Leaf.record Door.record

def parts (f : Found) : List Text :=
  DepthFirst.Found.place (fun a : Leaf => a.record.name) (fun door : Door => door.status.name) f

def path (f : Found) : Text := joined (parts f)

/-- The logical size that counts: that of a file. -/
def size (f : Found) : ℕ := if (record f).kind = .file then (record f).size else 0

end Found

theorem parts_ne_nil (f : Found) : Found.parts f ≠ [] := List.append_ne_nil_of_right_ne_nil _ (List.cons_ne_nil _ _)

section
variable [Host] (call : Call)

def classOf (f : Found) : EvidenceClass :=
  evidenceClass (Found.path f) call.metadataOnly call.exactContent

/-- Whether a file is found whose bytes are evidence. -/
def hashed (f : Found) : Bool := (Found.record f).kind = .file && classOf call f = .content

/-- The evidence of what stands at a place. -/
def evidenceOf (f : Found) : Entry :=
  match f.2 with
  | .inl (.file _ (.ok descriptor)) =>
    if hashed call f then
      entryFrom (Found.path f) (Found.record f) (Host.sha256 descriptor.content) "" (some 1)
    else entryFrom (Found.path f) (Found.record f) "" "" none
  | .inl (.link _ (.ok target)) =>
    entryFrom (Found.path f) (Found.record f) "" (linkMac target call.key) none
  | _ => entryFrom (Found.path f) (Found.record f) "" "" none

/-- What a file has to be. -/
def FineFile (call : Call) (f : Found) (opened : Except Fault Descriptor) : Prop :=
  ((Found.record f).nlink = none ∨ (Found.record f).nlink = some 1) ∧
    match classOf call f with
    | .content => (Found.record f).size ≤ call.limits.maxContentFileBytes ∧
        ∃ d, opened = .ok d ∧ Readable d call.limits.maxContentFileBytes
    | .metadata => (Found.record f).size ≤ call.limits.maxMetadataFileBytes

/-- What an entry has to be, for a scan to let it through. -/
structure Fine (f : Found) : Prop where
  admissible : Admissible call (Found.parts f) (Found.record f)
  asked : match f.2 with
    | .inl (.file _ opened) => FineFile call f opened
    | .inl (.link _ kanit) => ∃ target, kanit = .ok target
    | .inl (.other _) => False
    | .inr door => (Found.parts f).length ≤ call.limits.maxDepth ∧ door.opens = none ∧
        door.answers.lists = none

/-- The limits on numbers. -/
structure Within (p : Progress) : Prop where
  entries : p.entries.length ≤ call.limits.maxEntries
  logical : p.logical ≤ call.limits.maxLogicalTotalBytes
  content : p.contentTotal ≤ call.limits.maxContentTotalBytes

/-- How an entry counts. -/
def gain (p : Progress) (f : Found) : Progress where
  entries := p.entries ++ [evidenceOf call f]
  logical := p.logical + Found.size f
  contentTotal := p.contentTotal + if hashed call f then Found.size f else 0
  contentHashed := p.contentHashed + if hashed call f then 1 else 0
  metadataCount := p.metadataCount +
    if (Found.record f).kind = .file && classOf call f = .metadata then 1 else 0
  reparseCount := p.reparseCount + if (Found.record f).kind = .link then 1 else 0
  peak := if (Found.record f).kind = .dir then max p.peak (f.1.length + 2) else p.peak

def plus (p : Progress) (e : Event Leaf Door) : Progress :=
  match e.found with
  | some f => gain call p f
  | none => p

def FineEvent (root : Root) (e : Event Leaf Door) : Prop :=
  match e with
  | .leaf path a => Fine call (path, .inl a)
  | .enter path door => Fine call (path, .inr door)
  | .leave path => closesAt root path = none

variable {call} {p p' : Progress}

/-! ## What each kind gains -/

section
variable {path : List Door} {status : Status}

theorem gain_content {opened : Except Fault Descriptor} {d : Descriptor} (hopened : opened = .ok d)
    (hclass : classOf call (path, .inl (.file status opened)) = .content) :
    gain call p (path, .inl (.file status opened)) = { p with
      entries := p.entries ++ [entryFrom (Found.path (path, .inl (.file status opened)))
        (status.record .file) (Host.sha256 d.content) "" (some 1)]
      logical := p.logical + status.size
      contentTotal := p.contentTotal + status.size
      contentHashed := p.contentHashed + 1 } := by
  subst hopened
  have hhashed : hashed call (path, .inl (.file status (.ok d))) = true := by
    simp [hashed, hclass, Found.record, Leaf.record, Status.record]
  simp only [gain, evidenceOf, hhashed, hclass]
  simp [Found.size, Found.record, Leaf.record, Status.record]

theorem gain_metadata {opened : Except Fault Descriptor}
    (hclass : classOf call (path, .inl (.file status opened)) = .metadata) :
    gain call p (path, .inl (.file status opened)) = { p with
      entries := p.entries ++ [entryFrom (Found.path (path, .inl (.file status opened)))
        (status.record .file) "" "" none]
      logical := p.logical + status.size
      metadataCount := p.metadataCount + 1 } := by
  have hhashed : hashed call (path, .inl (.file status opened)) = false := by
    simp [hashed, hclass]
  have hevidence : evidenceOf call (path, .inl (.file status opened)) =
      entryFrom (Found.path (path, .inl (.file status opened))) (status.record .file) "" "" none := by
    cases opened with
    | ok d =>
      simp only [evidenceOf, hhashed]
      rfl
    | error fault => rfl
  simp only [gain, hevidence, hhashed, hclass]
  simp [Found.size, Found.record, Leaf.record, Status.record]

theorem gain_link {target : Bytes} :
    gain call p (path, .inl (.link status (.ok target))) = { p with
      entries := p.entries ++ [entryFrom (Found.path (path, .inl (.link status (.ok target))))
        (status.record .link) "" (linkMac target call.key) none]
      reparseCount := p.reparseCount + 1 } := by
  simp [gain, evidenceOf, hashed, Found.size, Found.record, Leaf.record, Status.record]

theorem gain_directory {door : Door} :
    gain call p (path, .inr door) = { p with
      entries := p.entries ++ [entryFrom (Found.path (path, .inr door)) door.record "" "" none]
      peak := max p.peak (path.length + 2) } := by
  simp [gain, evidenceOf, hashed, Found.size, Found.record, Door.record, Status.record]

end

/-! ## One entry -/

theorem within_gain (f : Found) : Within call (gain call p f) ↔
    p.entries.length < call.limits.maxEntries ∧
    p.logical + Found.size f ≤ call.limits.maxLogicalTotalBytes ∧
    p.contentTotal + (if hashed call f then Found.size f else 0) ≤ call.limits.maxContentTotalBytes := by
  constructor
  · intro h
    have hentries := h.entries
    simp only [gain, List.length_append, List.length_singleton] at hentries
    exact ⟨hentries, h.logical, h.content⟩
  · rintro ⟨hentries, hlogical, hcontent⟩
    refine ⟨?_, hlogical, hcontent⟩
    simp only [gain, List.length_append, List.length_singleton]
    exact hentries

theorem within_shrinks (f : Found) (h : Within call (gain call p f)) : Within call p := by
  obtain ⟨hentries, hlogical, hcontent⟩ := (within_gain f).1 h
  exact ⟨Nat.le_of_lt hentries, by omega, by omega⟩

omit [Host] in
theorem hashed_file {path : List Door} {status : Status} {opened : Except Fault Descriptor} :
    hashed call (path, .inl (.file status opened)) = true ↔
      classOf call (path, .inl (.file status opened)) = .content := by
  simp [hashed, Found.record, Leaf.record, Status.record]

theorem file_ok {path : List Door} {status : Status} {opened : Except Fault Descriptor} {f : Found}
    (hf : f = (path, .inl (.file status opened))) (hw : Within call p) :
    visitFile call p (Found.path f) (status.record .file) opened = .ok p' ↔
      FineFile call f opened ∧
      p.logical + Found.size f ≤ call.limits.maxLogicalTotalBytes ∧
      p.contentTotal + (if hashed call f then Found.size f else 0) ≤ call.limits.maxContentTotalBytes ∧
      p' = gain call p f := by
  subst hf
  have hrecord : Found.record (path, .inl (.file status opened)) = status.record .file := rfl
  have hsize : Found.size (path, .inl (.file status opened)) = status.size := if_pos rfl
  have hclassOf : evidenceClass (Found.path (path, .inl (.file status opened))) call.metadataOnly
      call.exactContent = classOf call (path, .inl (.file status opened)) := rfl
  rw [visitFile_ok, hclassOf, FineFile, hrecord, hsize]
  cases hclass : classOf call (path, .inl (.file status opened)) with
  | content =>
    rw [if_pos (hashed_file.2 hclass)]
    simp only [visitContent_ok]
    constructor
    · rintro ⟨hnlink, hlogical, hsize, htotal, d, hopened, hread, rfl⟩
      exact ⟨⟨hnlink, hsize, d, hopened, hread⟩, hlogical, htotal, (gain_content hopened hclass).symm⟩
    · rintro ⟨⟨hnlink, hsize, d, hopened, hread⟩, hlogical, htotal, rfl⟩
      exact ⟨hnlink, hlogical, hsize, htotal, d, hopened, hread, gain_content hopened hclass⟩
  | metadata =>
    rw [if_neg (fun h => by simp [hashed_file.1 h] at hclass), gain_metadata hclass]
    constructor
    · rintro ⟨hnlink, hlogical, hsize, rfl⟩
      exact ⟨⟨hnlink, hsize⟩, hlogical, hw.content, rfl⟩
    · rintro ⟨⟨hnlink, hsize⟩, hlogical, -, rfl⟩
      exact ⟨hnlink, hlogical, hsize, rfl⟩

theorem link_ok {path : List Door} {status : Status} {kanit : Except Fault Bytes} {f : Found}
    (hf : f = (path, .inl (.link status kanit))) :
    visitLink call p (Found.path f) (status.record .link) kanit = .ok p' ↔
      (∃ target, kanit = .ok target) ∧ p' = gain call p f := by
  subst hf
  rw [visitLink_ok]
  constructor
  · rintro ⟨target, rfl, rfl⟩
    exact ⟨⟨target, rfl⟩, gain_link.symm⟩
  · rintro ⟨⟨target, rfl⟩, rfl⟩
    exact ⟨target, rfl, gain_link⟩

theorem meet_ok (path : List Door) (a : Leaf) (hw : Within call p) :
    meet call p path a = .ok p' ↔
      Fine call (path, .inl a) ∧ Within call (gain call p (path, .inl a)) ∧ p' = gain call p (path, .inl a) := by
  have hparts : names path ++ [a.record.name] = Found.parts (path, .inl a) := rfl
  rw [meet, bind_ok, hparts, within_gain]
  simp only [checkRecord_ok (parts_ne_nil _)]
  cases a with
  | file status opened =>
    constructor
    · rintro ⟨text, ⟨hadmissible, hroom, rfl⟩, h⟩
      obtain ⟨hfine, hlogical, hcontent, hgain⟩ := (file_ok rfl hw).1 h
      exact ⟨⟨hadmissible, hfine⟩, ⟨hroom, hlogical, hcontent⟩, hgain⟩
    · rintro ⟨⟨hadmissible, hfine⟩, ⟨hroom, hlogical, hcontent⟩, hgain⟩
      exact ⟨_, ⟨hadmissible, hroom, rfl⟩, (file_ok rfl hw).2 ⟨hfine, hlogical, hcontent, hgain⟩⟩
  | link status kanit =>
    constructor
    · rintro ⟨text, ⟨hadmissible, hroom, rfl⟩, h⟩
      obtain ⟨htarget, hgain⟩ := (link_ok rfl).1 h
      exact ⟨⟨hadmissible, htarget⟩, ⟨hroom, hw.logical, hw.content⟩, hgain⟩
    · rintro ⟨⟨hadmissible, htarget⟩, ⟨hroom, -, -⟩, hgain⟩
      exact ⟨_, ⟨hadmissible, hroom, rfl⟩, (link_ok rfl).2 ⟨htarget, hgain⟩⟩
  | other status =>
    constructor
    · rintro ⟨text, -, h⟩
      cases h
    · rintro ⟨⟨-, hasked⟩, -⟩
      exact hasked.elim

/-- The count of a directory that is entered, before it is on the stack. -/
theorem enter_ok (path : List Door) (door : Door) (hw : Within call p) :
    (enter call p path door).map (fun p => { p with peak := max p.peak (path.length + 2) }) = .ok p' ↔
      Fine call (path, .inr door) ∧ Within call (gain call p (path, .inr door)) ∧
        p' = gain call p (path, .inr door) := by
  have hparts : names path ++ [door.status.name] = Found.parts (path, .inr door) := rfl
  have hsize : Found.size (path, .inr door) = 0 := rfl
  rw [enter, hparts, within_gain, gain_directory, map_ok]
  simp only [bind_ok, exists_unit, checkRecord_ok (parts_ne_nil _), visitDirectory_ok, openDoor_ok, pure_ok,
    hsize, ite_self, Nat.add_zero]
  constructor
  · rintro ⟨q, ⟨text, ⟨hadmissible, hroom, rfl⟩, q', ⟨hdepth, rfl⟩, hdoor, rfl⟩, rfl⟩
    exact ⟨⟨hadmissible, hdepth, hdoor⟩, ⟨hroom, hw.logical, hw.content⟩, rfl⟩
  · rintro ⟨⟨hadmissible, hdepth, hdoor⟩, ⟨hroom, -, -⟩, rfl⟩
    exact ⟨_, ⟨_, ⟨hadmissible, hroom, rfl⟩, _, ⟨hdepth, rfl⟩, hdoor, rfl⟩, rfl⟩

theorem act_ok {root : Root} (e : Event Leaf Door) (hw : Within call p) :
    act call root p e = .ok p' ↔ FineEvent call root e ∧ Within call (plus call p e) ∧ p' = plus call p e := by
  cases e with
  | leaf path a => exact meet_ok path a hw
  | enter path door => exact enter_ok path door hw
  | leave path =>
    have hplus : plus call p (.leave path) = p := rfl
    rw [hplus, act, map_ok]
    simp only [guard_ok, answer_ok, FineEvent]
    constructor
    · rintro ⟨u, ⟨hcloses, -⟩, rfl⟩
      exact ⟨hcloses, hw, rfl⟩
    · rintro ⟨hcloses, -, rfl⟩
      exact ⟨(), ⟨hcloses, trivial⟩, rfl⟩

/-! ## The whole walk -/

/-- Everything on the way is let through exactly where every entry is, the directories
close, and the limits hold of the whole. -/
theorem fold_ok {root : Root} (events : List (Event Leaf Door)) (hw : Within call p) :
    events.foldlM (act call root) p = .ok p' ↔ (∀ e ∈ events, FineEvent call root e) ∧
      Within call ((events.filterMap Event.found).foldl (gain call) p) ∧
        p' = (events.filterMap Event.found).foldl (gain call) p := by
  have hplus : events.foldl (plus call) p = (events.filterMap Event.found).foldl (gain call) p := by
    rw [List.foldl_filterMap]
    congr 1
    funext p e
    cases e <;> rfl
  rw [← hplus]
  apply DepthFirst.foldlM_budget (fun p e p' hp => act_ok e hp) ?_ hw
  intro p e h
  cases e with
  | leaf path a => exact within_shrinks _ h
  | enter path door => exact within_shrinks _ h
  | leave path => exact h

/-- The counts of a listing, taken together. -/
def total (call : Call) (p : Progress) (found : List Found) : Progress where
  entries := p.entries ++ found.map (evidenceOf call)
  logical := p.logical + (found.map Found.size).sum
  contentTotal := p.contentTotal + ((found.filter (hashed call)).map Found.size).sum
  contentHashed := p.contentHashed + found.countP (hashed call)
  metadataCount := p.metadataCount +
    found.countP fun f => (Found.record f).kind = .file && classOf call f = .metadata
  reparseCount := p.reparseCount + found.countP fun f => (Found.record f).kind = .link
  peak := found.foldl (fun peak f => if (Found.record f).kind = .dir then max peak (f.1.length + 2) else peak) p.peak

theorem foldl_gain (found : List Found) : found.foldl (gain call) p = total call p found := by
  induction found generalizing p with
  | nil => simp [total]
  | cons f rest ih =>
    rw [List.foldl_cons, ih]
    cases hhashed : hashed call f <;>
      simp [total, gain, List.countP_cons, hhashed, List.append_assoc, Nat.add_assoc, Nat.add_comm,
        Nat.add_left_comm]

end

end RagPipeline.FsEvidence
