import RagPipeline.Changes.Fingerprint
import RagPipeline.Lib.Guard
import RagPipeline.Lib.DepthFirst

/-! # Records of the file system

What a directory says of its children, the evidence that is kept of them, and the
spelling of their paths. A name is what the interpreter makes of it: a sequence of
code points, unpaired surrogates included, since a name need not be UTF-8. -/

set_option autoImplicit false

namespace RagPipeline.FsEvidence
open Guard
open Changes (utf8Bytes oct)
open Runner (StopReason)

abbrev Bytes := List UInt8

abbrev CodePoint := Fin 0x110000

/-- `str`. -/
abbrev Text := List CodePoint

def codePoint (c : Char) : CodePoint := Fin.ofNat 0x110000 c.toNat

def text (s : String) : Text := s.toList.map codePoint

def slash : CodePoint := codePoint '/'

def backslash : CodePoint := codePoint '\\'

/-- The hashes, and what `unicodedata` knows of a character and of a text. -/
class Host where
  sha256 : Bytes → String
  hmacSha256 : Bytes → Bytes → String
  category : CodePoint → String
  nfc : Text → Text

def quiescenceNs : ℤ := 10000000

def keyBytes : ℕ := 32

structure Limits where
  maxEntries : ℕ := 400000
  maxContentFileBytes : ℕ := 64 * 2 ^ 20
  maxMetadataFileBytes : ℕ := 8 * 2 ^ 30
  maxContentTotalBytes : ℕ := 1024 * 2 ^ 20
  maxLogicalTotalBytes : ℕ := 64 * 2 ^ 30
  maxDepth : ℕ := 128

/-- `other` is what neither platform has a word for: a device, a FIFO, a socket. -/
inductive Kind where
  | file
  | dir
  | link
  | other
deriving DecidableEq, Repr

def Kind.text : Kind → String
  | .file => "file"
  | .dir => "dir"
  | .link => "link"
  | .other => "other"

/-- One child, as the directory that lists it reports it. -/
structure Record where
  name : Text
  kind : Kind
  attributes : ℕ
  reparseTag : ℕ
  mode : ℕ
  size : ℕ
  mtimeNs : ℤ
  fileId : String
  nlink : Option ℕ
deriving DecidableEq

structure Entry where
  path : Text
  kind : Kind
  mode : String
  size : ℕ
  mtimeNs : ℤ
  fileId : String
  /-- -1 where the listing cannot say. -/
  nlink : ℤ
  attributes : ℕ
  reparseTag : ℕ
  linkTargetMac : String
  /-- Empty in the metadata class. -/
  sha256 : String
deriving DecidableEq

/-- Without the duration of the scan, which is the clock's. -/
structure Manifest where
  rootIdentity : String
  entries : List Entry
  digest : String
  fileCount : ℕ
  totalBytes : ℕ
  contentHashed : ℕ
  metadataOnly : ℕ
  reparseCount : ℕ
  peakDirectories : ℕ
deriving DecidableEq

/-! ## Errors -/

/-- `EvidenceError`, with the flag and the notes a failed cleanup leaves on it. -/
structure EvidenceError where
  message : String
  reason : StopReason
  cleanupFailed : Bool := false
  notes : List String := []
deriving DecidableEq, Repr

def evidenceError (message : String) : EvidenceError := ⟨message, .preflightFailed, false, []⟩

/-- `UnsupportedEntry`. -/
def unsupportedEntry (message : String) : EvidenceError := ⟨message, .pathNotAllowed, false, []⟩

def cleanupNote : String := "temizlik basarisiz: nesne kapatilamadi"

def markCleanupFailed (e : EvidenceError) : EvidenceError :=
  { e with
    cleanupFailed := true
    notes := if cleanupNote ∈ e.notes then e.notes else e.notes ++ [cleanupNote] }

/-- What a call of the transport raises: its own error, or one of the operating system. -/
inductive Fault where
  | transport (message : String) (cleanupFailed : Bool)
  | os
deriving DecidableEq, Repr

/-- `_guard`. -/
def guard {α : Type} (answer : Except Fault α) (message : String) (kind : String → EvidenceError) :
    Except EvidenceError α :=
  match answer with
  | .ok a => .ok a
  | .error (.transport own failed) =>
    .error (if failed then markCleanupFailed (kind own) else kind own)
  | .error .os => .error (kind message)

/-! ## Paths -/

def forbiddenCategories : List String := ["Cc", "Cf", "Zl", "Zp"]

section
variable [Host]

def checkCharacters : Text → Except EvidenceError Unit
  | [] => .ok ()
  | c :: rest =>
    if Host.category c ∈ forbiddenCategories then
      .error (unsupportedEntry "yol gorunmez ya da kontrol karakteri tasiyor")
    else if Host.category c = "Zs" ∧ c ≠ codePoint ' ' then
      .error (unsupportedEntry "yol siradan olmayan bosluk karakteri tasiyor")
    else checkCharacters rest

def canonicalPart (part : Text) : Except EvidenceError Unit := do
  require (part ∉ [text "", text ".", text ".."] ∧ backslash ∉ part ∧ slash ∉ part)
    (unsupportedEntry "yol kanonik degil")
  checkCharacters part
  require (Host.nfc part = part) (unsupportedEntry "yol NFC biciminde degil")

def joined (parts : List Text) : Text := [slash].intercalate parts

/-- `_canonical`. -/
def canonical (parts : List Text) : Except EvidenceError Text := do
  parts.forM canonicalPart
  -- a `PurePosixPath` is absolute where it begins with a slash
  require (joined parts ≠ [] ∧ (joined parts).head? ≠ some slash)
    (unsupportedEntry "yol kanonik degil")
  return joined parts

end

/-! ## Classes -/

/-- `str(item).replace("\\", "/").strip("/")`. -/
def trimmed (item : Text) : Text :=
  let forward := item.map fun c => if c = backslash then slash else c
  ((forward.dropWhile (· = slash)).reverse.dropWhile (· = slash)).reverse

/-- `_covered_by`. -/
def coveredBy (path : Text) (prefixes : List Text) : Bool :=
  prefixes.any fun item =>
    trimmed item ≠ [] && (path = trimmed item || (trimmed item ++ [slash]).isPrefixOf path)

inductive EvidenceClass where
  | content
  | metadata
deriving DecidableEq, Repr

/-- `_evidence_class`: an exact path outranks a prefix. -/
def evidenceClass (path : Text) (metadataOnly exactContent : List Text) : EvidenceClass :=
  if path ∈ exactContent then .content
  else if coveredBy path metadataOnly then .metadata else .content

def entryFrom (path : Text) (record : Record) (sha256 linkMac : String) (nlink : Option ℕ) : Entry where
  path := path
  kind := record.kind
  mode := oct (record.mode % 0o10000)
  size := record.size
  mtimeNs := record.mtimeNs
  fileId := record.fileId
  nlink := match nlink.or record.nlink with
    | some n => n
    | none => -1
  attributes := record.attributes
  reparseTag := record.reparseTag
  linkTargetMac := linkMac
  sha256 := sha256

/-! ## The digest of a manifest -/

/-- What leaves `scan`: an error of its own, or the one that `str.encode` raises on
an unpaired surrogate. -/
inductive Raised where
  | evidence (e : EvidenceError)
  | unicodeEncode
deriving DecidableEq, Repr

def surrogate (c : CodePoint) : Bool := 0xD800 ≤ c.val && c.val ≤ 0xDFFF

/-- `text.encode("utf-8")`. -/
def encode (t : Text) : Except Raised Bytes := do
  require (t.all fun c => !surrogate c) .unicodeEncode
  return utf8Bytes (String.ofList (t.map fun c => Char.ofNat c.val))

def Entry.row (e : Entry) : Except Raised Bytes := do
  let path ← encode e.path
  let rest := [e.kind.text, e.mode, toString e.size, toString e.mtimeNs, e.fileId, toString e.nlink,
    toString e.attributes, toString e.reparseTag, e.linkTargetMac, e.sha256]
  return [0].intercalate (path :: rest.map utf8Bytes) ++ [10]

/-- The bytes the digest of a manifest is taken of. -/
def stream (identity : String) (entries : List Entry) : Except Raised Bytes := do
  let rows ← entries.mapM Entry.row
  return utf8Bytes identity ++ [10] ++ rows.flatten

/-! ## Differences -/

/-- `{entry.path: entry for entry in entries}`: the last of a path stands. -/
def byPath (entries : List Entry) (path : Text) : Option Entry :=
  entries.reverse.find? fun entry => entry.path = path

def sortedTexts (texts : List Text) : List Text := texts.insertionSort (· ≤ ·)

def diff (before after : Manifest) : List Text :=
  let paths := ((before.entries ++ after.entries).map Entry.path).dedup
  let changed := paths.filter fun path => byPath before.entries path ≠ byPath after.entries path
  sortedTexts (changed ++ if before.rootIdentity ≠ after.rootIdentity then [text "."] else [])

end RagPipeline.FsEvidence

/-! # The iterative scan

`scan` opens the root and goes down depth first, with a stack of the directories that
are open and the place in each listing where it stands. Everything it asks of the file
system goes through a transport. -/

set_option autoImplicit false

namespace RagPipeline.FsEvidence
open Guard
open DepthFirst (Outcome)

/-! ## The transport -/

/-- What a read returned: nothing only at the end of the file. -/
structure Block where
  bytes : Bytes
  nonempty : bytes ≠ []

/-- `descriptor_identity`. -/
structure Identity where
  mode : ℕ
  device : ℕ
  inode : ℕ
  size : ℕ
  mtimeNs : ℤ
  nlink : ℕ
  attributes : ℕ
deriving DecidableEq, Repr

/-- An open file: what it is before and after it is read, the blocks of the reads, whether
they come to the end or to an error, and whether it can be closed. -/
structure Descriptor where
  before : Except Fault Identity
  blocks : List Block
  ends : Bool
  after : Except Fault Identity
  closes : Bool

/-- `fs_transport`, over what it opens a root by and what it holds of a directory. -/
structure Transport (ρ δ : Type) where
  openRoot : ρ → Except Fault δ
  identity : δ → String
  listDirectory : δ → Except Fault (List Record)
  openChildDirectory : δ → Record → Except Fault δ
  openChildFile : δ → Record → Except Fault Descriptor
  linkEvidence : δ → Record → Except Fault Bytes
  closeDirectory : δ → Except Fault Unit

/-- The arguments of a scan, and the clock when it began. -/
structure Call where
  key : Bytes
  metadataOnly : List Text
  contentAlways : List Text
  limits : Limits
  nowNs : ℤ

def Call.exactContent (call : Call) : List Text := call.contentAlways.map trimmed

structure Frame (δ : Type) where
  directory : δ
  parts : List Text
  records : List Record
  index : ℕ

/-- What the scan has counted, its entries in the order it met them. -/
structure Progress where
  entries : List Entry
  logical : ℕ
  contentTotal : ℕ
  contentHashed : ℕ
  metadataCount : ℕ
  reparseCount : ℕ
  peak : ℕ

def Progress.start : Progress := ⟨[], 0, 0, 0, 0, 0, 1⟩

/-! ## One entry -/

section
variable [Host]

/-- The blocks a descriptor is read in. -/
def readBlocks (ceiling : ℕ) (ends : Bool) (data : Bytes) : List Block → Except EvidenceError Bytes
  | [] => if ends then .ok data else .error (evidenceError "dosya okunamadi")
  | block :: rest =>
    if ceiling < data.length + block.bytes.length then
      .error (evidenceError "dosya sozlesme tavanini asiyor")
    else readBlocks ceiling ends (data ++ block.bytes) rest

/-- `_hash_descriptor`. -/
def hashDescriptor (descriptor : Descriptor) (ceiling : ℕ) : Except EvidenceError (String × Identity) := do
  let before ← guard descriptor.before "acik nesne durumu okunamadi" evidenceError
  let data ← readBlocks ceiling descriptor.ends [] descriptor.blocks
  let after ← guard descriptor.after "acik nesne durumu okunamadi" evidenceError
  require (after = before) (evidenceError "dosya okunurken degisti")
  return (Host.sha256 data, before)

/-- `_link_mac`. -/
def linkMac (evidence key : Bytes) : String := Host.hmacSha256 key evidence

variable (call : Call)

/-- What is asked of every entry before its kind is looked at. -/
def checkRecord (p : Progress) (childParts : List Text) (record : Record) : Except EvidenceError Text := do
  let path ← canonical childParts
  require (record.mtimeNs ≤ call.nowNs + quiescenceNs) (evidenceError "dosya zaman damgasi gelecekte")
  require (p.entries.length < call.limits.maxEntries)
    (evidenceError "giris sayisi sozlesme tavanini asiyor")
  return path

def visitLink (p : Progress) (path : Text) (record : Record) (kanit : Except Fault Bytes) :
    Except EvidenceError Progress := do
  let kanit ← guard kanit "baglanti kaniti alinamadi" evidenceError
  return { p with
    reparseCount := p.reparseCount + 1
    entries := p.entries ++ [entryFrom path record "" (linkMac kanit call.key) none] }

def visitContent (p : Progress) (path : Text) (record : Record) (opened : Except Fault Descriptor) :
    Except EvidenceError Progress := do
  require (record.size ≤ call.limits.maxContentFileBytes) (evidenceError "dosya sozlesme tavanini asiyor")
  let contentTotal := p.contentTotal + record.size
  require (contentTotal ≤ call.limits.maxContentTotalBytes)
    (evidenceError "icerik toplami sozlesme tavanini asiyor")
  let descriptor ← guard opened "dosya acilamadi" unsupportedEntry
  -- the descriptor is closed whether or not the file could be hashed
  let (digest, acikKimlik) ← (hashDescriptor descriptor call.limits.maxContentFileBytes).mapError
    fun e => if descriptor.closes then e else markCleanupFailed e
  require (descriptor.closes = true) (evidenceError "tanimlayici kapatilamadi")
  require (acikKimlik.nlink = 1) (unsupportedEntry "sert baglantili dosya temsil edilemiyor")
  return { p with
    contentTotal := contentTotal
    contentHashed := p.contentHashed + 1
    entries := p.entries ++ [entryFrom path record digest "" (some acikKimlik.nlink)] }

def visitFile (p : Progress) (path : Text) (record : Record) (opened : Except Fault Descriptor) :
    Except EvidenceError Progress := do
  require (record.nlink = none ∨ record.nlink = some 1)
    (unsupportedEntry "sert baglantili dosya temsil edilemiyor")
  let p := { p with logical := p.logical + record.size }
  require (p.logical ≤ call.limits.maxLogicalTotalBytes)
    (evidenceError "toplam boyut sozlesme tavanini asiyor")
  match evidenceClass path call.metadataOnly call.exactContent with
  | .content => visitContent call p path record opened
  | .metadata => do
    require (record.size ≤ call.limits.maxMetadataFileBytes)
      (evidenceError "dosya sozlesme tavanini asiyor")
    return { p with
      metadataCount := p.metadataCount + 1
      entries := p.entries ++ [entryFrom path record "" "" none] }

def visitDirectory (p : Progress) (childParts : List Text) (path : Text) (record : Record) :
    Except EvidenceError Progress := do
  require (childParts.length ≤ call.limits.maxDepth) (evidenceError "derinlik sozlesme tavanini asiyor")
  return { p with entries := p.entries ++ [entryFrom path record "" "" none] }

/-! ## The loop -/

variable {ρ δ : Type} (T : Transport ρ δ)

/-- `_list`. -/
def list (directory : δ) : Except EvidenceError (List Record) :=
  guard (T.listDirectory directory) "dizin listelenemedi" unsupportedEntry

def closeQuietly (directory : δ) : Bool := (T.closeDirectory directory).isOk

/-- `_close_frames`: every frame is tried, and those that refuse are counted. -/
def closeFrames (frames : List (Frame δ)) : ℕ :=
  (frames.filter fun frame => !closeQuietly T frame.directory).length

/-- A child directory, opened and listed. -/
def descend (directory : δ) (record : Record) (childParts : List Text) :
    Except EvidenceError (Frame δ) := do
  let alt ← guard (T.openChildDirectory directory record) "alt dizin acilamadi" unsupportedEntry
  -- it is not on the stack yet: where it cannot be listed it is closed here
  let kayitlar ← (list T alt).mapError fun e => if closeQuietly T alt then e else markCleanupFailed e
  return ⟨alt, childParts, kayitlar, 0⟩

/-- One record, and the frame of a directory that was opened. -/
def visit (p : Progress) (directory : δ) (parts : List Text) (record : Record) :
    Except EvidenceError (Progress × Option (Frame δ)) := do
  let childParts := parts ++ [record.name]
  let path ← checkRecord call p childParts record
  match record.kind with
  | .link => return (← visitLink call p path record (T.linkEvidence directory record), none)
  | .dir => do
    let p ← visitDirectory call p childParts path record
    let frame ← descend T directory record childParts
    return (p, some frame)
  | .file => return (← visitFile call p path record (T.openChildFile directory record), none)
  | .other => throw (unsupportedEntry "siradan olmayan dosya turu")

/-- One turn of the loop. The innermost frame is the first; where the turn raises, the
frames that are left are still open. -/
def step (state : List (Frame δ) × Progress) :
    Outcome (List (Frame δ) × Progress) Progress EvidenceError (List (Frame δ)) :=
  match state with
  -- no frame is left, so nothing is left to close at the end of the scan
  | ([], p) => .done p
  | (frame :: outer, p) =>
    match frame.records[frame.index]? with
    | none =>
      match guard (T.closeDirectory frame.directory) "dizin kapatilamadi" evidenceError with
      | .ok () => .next (outer, p)
      | .error e => .raised e outer
    | some record =>
      let frames := { frame with index := frame.index + 1 } :: outer
      match visit call T p frame.directory frame.parts record with
      | .ok (p, none) => .next (frames, p)
      | .ok (p, some alt) =>
        .next (alt :: frames, { p with peak := max p.peak (alt :: frames).length })
      | .error e => .raised e frames

/-- What a failed loop leaves, closed: `birincil` goes on, with a note on what did not close. -/
def cleanUp (birincil : EvidenceError) (frames : List (Frame δ)) : EvidenceError :=
  let kalan := closeFrames T frames
  if kalan = 0 then birincil
  else { birincil with
    notes := birincil.notes ++ ["temizlik basarisiz: " ++ toString kalan ++ " dizin kapanmadi"] }

/-- The root, opened and listed. -/
def openFrame (root : ρ) : Except EvidenceError (Frame δ) := do
  require (call.key.length = keyBytes) (evidenceError "baglanti anahtari sozlesmeye uymuyor")
  let kok ← guard (T.openRoot root) "kok dizin acilamadi" evidenceError
  return ⟨kok, [], ← list T kok, 0⟩

def manifestOf (identity : String) (p : Progress) : Except Raised Manifest := do
  let ordered := p.entries.insertionSort fun a b => a.path ≤ b.path
  let bytes ← stream identity ordered
  return {
    rootIdentity := identity
    entries := ordered
    digest := Host.sha256 bytes
    fileCount := ordered.countP fun e => e.kind = .file
    totalBytes := p.logical
    contentHashed := p.contentHashed
    metadataOnly := p.metadataCount
    reparseCount := p.reparseCount
    peakDirectories := p.peak }

/-- `scan`, for as many turns of its loop as it may take. -/
def scan (fuel : ℕ) (root : ρ) : Option (Except Raised Manifest) :=
  match openFrame call T root with
  | .error e => some (.error (.evidence e))
  | .ok frame =>
    (DepthFirst.loop (step call T) fuel ([frame], .start)).map fun result => do
      let p ← result.mapError fun (birincil, frames) => .evidence (cleanUp T birincil frames)
      manifestOf (T.identity frame.directory) p

end

end RagPipeline.FsEvidence
