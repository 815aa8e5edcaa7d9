import RagPipeline.FsEvidence.Transports

/-! # The POSIX half of the transport

Everything hangs off a directory descriptor. Of an object it is written down what each
call on it returns, and nothing where the call raises `OSError`; a scan through this
transport is the scan of the tree that the answers show. -/

set_option autoImplicit false

namespace RagPipeline.FsEvidence.Posix
open Guard
open DepthFirst (Everywhere Tree)

/-- What `os.stat` and `os.fstat` return. -/
structure StatResult where
  mode : ℕ
  dev : ℕ
  ino : ℕ
  size : ℕ
  mtimeNs : ℤ
  nlink : ℕ
deriving DecidableEq, Repr

/-- `_identity_text`. -/
def identityText (info : StatResult) : String := toString info.dev ++ ":" ++ toString info.ino

/-- `_kind`, by the format bits of a mode. -/
def kindOf (mode : ℕ) : Kind :=
  if mode &&& 0o170000 = 0o120000 then .link
  else if mode &&& 0o170000 = 0o040000 then .dir
  else if mode &&& 0o170000 = 0o100000 then .file
  else .other

/-- All of a record but its kind. -/
def statusOf (name : Text) (info : StatResult) : Status :=
  ⟨name, 0, 0, info.mode, info.size, info.mtimeNs, identityText info, some info.nlink⟩

/-- `_record`. -/
def record (name : Text) (info : StatResult) : Record :=
  (statusOf name info).record (kindOf info.mode)

def transportError (message : String) : Fault := .transport message false

/-- `_fail`: the error goes on, marked where its descriptor did not close. -/
def failed (message : String) (closes : Bool) : Fault := .transport message (!closes)

def nul : CodePoint := codePoint '\x00'

/-- `validate_child_name`. -/
def validateChildName (name : Text) : Except Fault Unit := do
  require (name ≠ []) (transportError "giris adi gecersiz")
  require (name ≠ text "." ∧ name ≠ text "..") (transportError "giris adi gecersiz")
  require (¬ (name.contains backslash ∨ name.contains slash ∨ name.contains nul))
    (transportError "giris adi ayirici tasiyor")

/-- `descriptor_identity`. -/
def descriptorIdentity (info : Option StatResult) : Except Fault Identity := do
  let info ← demand info (transportError "acik nesne durumu okunamadi")
  return ⟨info.mode, info.dev, info.ino, info.size, info.mtimeNs, info.nlink, 0⟩

/-- `text.encode("utf-8", "surrogatepass")`, of one character. -/
def surrogatepass (c : CodePoint) : Bytes :=
  let tail (shift : ℕ) : UInt8 := .ofNat (0x80 + c.val / shift % 0x40)
  if c.val < 0x80 then [.ofNat c.val]
  else if c.val < 0x800 then [.ofNat (0xC0 + c.val / 0x40), tail 1]
  else if c.val < 0x10000 then [.ofNat (0xE0 + c.val / 0x1000), tail 0x40, tail 1]
  else [.ofNat (0xF0 + c.val / 0x40000), tail 0x1000, tail 0x40, tail 1]

/-! ## Objects -/

/-- An entry, and what is answered about it: by name in the directory that lists it, and
on the descriptor it is opened as. -/
structure Calls where
  name : Text
  stat : Option StatResult
  opens : Bool
  fstat : Option StatResult
  closes : Bool
  scandir : Bool
  before : Option StatResult
  blocks : List Block
  ends : Bool
  after : Option StatResult
  statBefore : Option StatResult
  readlink : Option Text
  statAfter : Option StatResult

/-- An object without entries, or one with entries of its own. -/
abbrev Object := Tree Calls Calls

def calls : Object → Calls
  | .leaf c => c
  | .branch c _ => c

def below : Object → List Object
  | .leaf _ => []
  | .branch _ objects => objects

def Distinct (objects : List Object) : Prop := (objects.map fun o => (calls o).name).Nodup

theorem distinct_below {objects : List Object} (h : Everywhere Distinct objects) {o : Object}
    (ho : o ∈ objects) :
    Everywhere Distinct (below o) := by
  cases o with
  | leaf c => exact .nil List.nodup_nil
  | branch c objects => exact h.under ho

/-- An open directory. -/
structure Directory where
  identity : String
  scandir : Bool
  closes : Bool
  objects : List Object
  distinct : Everywhere Distinct objects

/-- What the path of a root opens. -/
structure Root where
  opens : Bool
  fstat : Option StatResult
  closes : Bool
  scandir : Bool
  objects : List Object
  distinct : Everywhere Distinct objects

/-! ## The transport -/

def openRoot (root : Root) : Except Fault Directory := do
  require (root.opens = true) (transportError "kok dizin acilamadi")
  let info ← demand root.fstat (failed "kok durumu okunamadi" root.closes)
  return ⟨identityText info, root.scandir, root.closes, root.objects, root.distinct⟩

def closed (closes : Bool) : Except Fault Unit :=
  require (closes = true) (transportError "tanimlayici kapatilamadi")

def listed (o : Object) : Except Fault Record := do
  validateChildName (calls o).name
  let info ← demand (calls o).stat (transportError "giris durumu okunamadi")
  return record (calls o).name info

def listObjects (scandir : Bool) (objects : List Object) : Except Fault (List Record) := do
  require (scandir = true) (transportError "dizin listelenemedi")
  objects.mapM listed

/-- `_bind`. -/
def bound (c : Calls) (record : Record) : Except Fault StatResult := do
  let info ← demand c.fstat (failed "acik nesne durumu okunamadi" c.closes)
  require (identityText info = record.fileId) (failed "acilan nesne listelenen nesne degil" c.closes)
  return info

/-- The identity of a directory that is opened by its name. -/
def openDirectory (c : Calls) (record : Record) : Except Fault String := do
  require (c.opens = true) (transportError "alt dizin acilamadi")
  let info ← bound c record
  require (kindOf info.mode = .dir) (failed "alt dizin bir dizin degil" c.closes)
  return identityText info

def openFile (c : Calls) (record : Record) : Except Fault Descriptor := do
  require (c.opens = true) (transportError "dosya no-follow acilamadi")
  let info ← bound c record
  require (kindOf info.mode = .file) (failed "son bilesen siradan bir dosya degil" c.closes)
  return ⟨descriptorIdentity c.before, c.blocks, c.ends, descriptorIdentity c.after, c.closes⟩

def readLink (c : Calls) (record : Record) : Except Fault Bytes := do
  let kimlik ← demand c.statBefore (transportError "giris durumu okunamadi")
  require (identityText kimlik = record.fileId) (transportError "acilan nesne listelenen nesne degil")
  let hedef ← demand c.readlink (transportError "baglanti hedefi okunamadi")
  let kimlik ← demand c.statAfter (transportError "giris durumu okunamadi")
  require (identityText kimlik = record.fileId) (transportError "baglanti okunurken degisti")
  return hedef.flatMap surrogatepass

def Directory.find (d : Directory) (name : Text) : Option {o // o ∈ d.objects} :=
  d.objects.attach.find? fun o => (calls o.1).name = name

def openChildDirectory (d : Directory) (record : Record) : Except Fault Directory := do
  require (record.kind = .dir) (transportError "giris bir dizin olarak listelenmedi")
  validateChildName record.name
  let o ← demand (d.find record.name) (transportError "alt dizin acilamadi")
  let identity ← openDirectory (calls o.1) record
  return ⟨identity, (calls o.1).scandir, (calls o.1).closes, below o.1, distinct_below d.distinct o.2⟩

def openChildFile (d : Directory) (record : Record) : Except Fault Descriptor := do
  require (record.kind = .file) (transportError "giris siradan bir dosya olarak listelenmedi")
  validateChildName record.name
  let o ← demand (d.find record.name) (transportError "dosya no-follow acilamadi")
  openFile (calls o.1) record

def linkEvidence (d : Directory) (record : Record) : Except Fault Bytes := do
  require (record.kind = .link) (transportError "giris bir baglanti olarak listelenmedi")
  validateChildName record.name
  let o ← demand (d.find record.name) (transportError "giris durumu okunamadi")
  readLink (calls o.1) record

def posix : Transport Root Directory where
  openRoot := openRoot
  identity d := d.identity
  listDirectory d := listObjects d.scandir d.objects
  openChildDirectory := openChildDirectory
  openChildFile := openChildFile
  linkEvidence := linkEvidence
  closeDirectory d := closed d.closes

/-! ## The tree that is shown -/

/-- The error of a call that raises. -/
def fault {α : Type} : Except Fault α → Option Fault
  | .ok _ => none
  | .error e => some e

theorem answer_fault {α β : Type} (x : Except Fault α) (b : β) :
    answer (fault x) b = x.map fun _ => b := by
  cases x <;> rfl

/-- What an entry is seen as, with what is seen of the entries below it. -/
def seenAs (c : Calls) (objects : List Object) (nodes : List Node) : Node :=
  match c.stat with
  | none => .leaf (.other ⟨c.name, 0, 0, 0, 0, 0, "", none⟩)
  | some info =>
    let status := statusOf c.name info
    match kindOf info.mode with
    | .file => .leaf (.file status (openFile c (status.record .file)))
    | .link => .leaf (.link status (readLink c (status.record .link)))
    | .dir =>
      let opened := openDirectory c (status.record .dir)
      .branch ⟨status, fault opened, ⟨opened.toOption.getD "", fault (listObjects c.scandir objects),
        fault (closed c.closes)⟩⟩ nodes
    | .other => .leaf (.other status)

mutual

def seen : Object → Node
  | .leaf c => seenAs c [] []
  | .branch c objects => seenAs c objects (seenAll objects)

def seenAll : List Object → List Node
  | [] => []
  | o :: rest => seen o :: seenAll rest

end

theorem seenAll_eq (objects : List Object) : seenAll objects = objects.map seen := by
  induction objects with
  | nil => rfl
  | cons o rest ih => rw [seenAll, ih, List.map_cons]

theorem seen_eq (o : Object) : seen o = seenAs (calls o) (below o) (seenAll (below o)) := by
  cases o <;> rfl

theorem seen_name (o : Object) : (recordOf (seen o)).name = (calls o).name := by
  rw [seen_eq, seenAs]
  cases (calls o).stat with
  | none => rfl
  | some info =>
    dsimp only
    cases kindOf info.mode <;> rfl

theorem seen_record {o : Object} {info : StatResult} (h : (calls o).stat = some info) :
    recordOf (seen o) = record (calls o).name info := by
  rw [seen_eq, seenAs, record, h]
  dsimp only
  cases kindOf info.mode <;> rfl

theorem seen_below {o : Object} {door : Door} {nodes : List Node}
    (h : seen o = .branch door nodes) :
    nodes = seenAll (below o) := by
  rw [seen_eq, seenAs] at h
  cases hstat : (calls o).stat with
  | none =>
    rw [hstat] at h
    cases h
  | some info =>
    simp only [hstat] at h
    cases hkind : kindOf info.mode with
    | dir =>
      simp only [hkind] at h
      exact (Tree.branch.inj h).2.symm
    | file => simp [hkind] at h
    | link => simp [hkind] at h
    | other => simp [hkind] at h

theorem distinct_seen {objects : List Object} (h : Everywhere Distinct objects) :
    Everywhere FsEvidence.Distinct (seenAll objects) := by
  induction h with
  | @mk objects hhere hinside ih =>
    constructor
    · rw [FsEvidence.Distinct, seenAll_eq, List.map_map]
      have hname : (fun node => (recordOf node).name) ∘ seen = fun o => (calls o).name :=
        funext seen_name
      rw [hname]
      exact hhere
    · intro door nodes hmem
      rw [seenAll_eq] at hmem
      obtain ⟨o, ho, hseen⟩ := List.mem_map.1 hmem
      rw [seen_below hseen]
      cases o with
      | leaf c => exact .nil List.nodup_nil
      | branch c objects => exact ih c objects ho

/-- What is seen of an open directory. -/
def Directory.seen (d : Directory) : FsEvidence.Directory :=
  ⟨⟨d.identity, fault (listObjects d.scandir d.objects), fault (closed d.closes)⟩, seenAll d.objects⟩

def Root.seen (root : Root) : FsEvidence.Root :=
  ⟨fault (openRoot root), ⟨((openRoot root).toOption.map Directory.identity).getD "",
    fault (listObjects root.scandir root.objects), fault (closed root.closes)⟩, seenAll root.objects,
    distinct_seen root.distinct⟩

/-! ## The scan of what is shown -/

theorem listed_ok {o : Object} {r : Record} (h : listed o = .ok r) :
    validateChildName (calls o).name = .ok () ∧
      ∃ info, (calls o).stat = some info ∧ r = record (calls o).name info := by
  simp only [listed, bind_ok, exists_unit, demand_ok, pure_ok, @eq_comm _ _ r] at h
  exact h

theorem listObjects_ok {scandir : Bool} {objects : List Object} {records : List Record}
    (h : listObjects scandir objects = .ok records) :
    (∀ o ∈ objects, ∃ r, listed o = .ok r) ∧ records = (seenAll objects).map recordOf := by
  obtain ⟨u, -, hobjects⟩ := bind_ok.1 h
  refine ⟨mapM_exists.1 ⟨records, hobjects⟩, ?_⟩
  rw [seenAll_eq, List.map_map]
  clear h
  induction objects generalizing records with
  | nil => exact (pure_ok.1 hobjects).symm
  | cons o rest ih =>
    simp only [List.mapM_cons, bind_ok, pure_ok] at hobjects
    obtain ⟨r, hr, records, hrest, rfl⟩ := hobjects
    obtain ⟨-, info, hstat, rfl⟩ := listed_ok hr
    rw [List.map_cons, ← ih hrest, Function.comp_apply, seen_record hstat]

theorem list_seen (d : Directory) : shown.listDirectory d.seen = posix.listDirectory d := by
  show answer (fault (listObjects d.scandir d.objects)) ((seenAll d.objects).map recordOf) = _
  rw [answer_fault]
  show _ = listObjects d.scandir d.objects
  cases hlist : listObjects d.scandir d.objects with
  | ok records =>
    rw [(listObjects_ok hlist).2]
    rfl
  | error e => rfl

/-- What is listed stands under its name, as an object and as it is seen. -/
theorem found {d : Directory} {records : List Record} {r : Record}
    (hlist : posix.listDirectory d = .ok records)
    (hmem : r ∈ records) : ∃ o, ∃ ho : o ∈ d.objects, ∃ info, (calls o).stat = some info ∧
      kindOf info.mode = r.kind ∧ (statusOf (calls o).name info).record r.kind = r ∧
      validateChildName r.name = .ok () ∧ d.find r.name = some ⟨o, ho⟩ ∧
      d.seen.find r = some (seen o) := by
  obtain ⟨hlisted, rfl⟩ := listObjects_ok hlist
  rw [seenAll_eq, List.map_map] at hmem
  obtain ⟨o, ho, rfl⟩ := List.mem_map.1 hmem
  obtain ⟨r, hr⟩ := hlisted o ho
  obtain ⟨hvalid, info, hstat, -⟩ := listed_ok hr
  have hname : (recordOf (seen o)).name = (calls o).name := seen_name o
  have hrecord := seen_record hstat
  have hkind : kindOf info.mode = (recordOf (seen o)).kind := by rw [hrecord, record, Status.record]
  refine ⟨o, ho, info, hstat, hkind, ?_, ?_, ?_, ?_⟩
  · show (statusOf (calls o).name info).record (recordOf (seen o)).kind = recordOf (seen o)
    rw [← hkind, hrecord, record]
  · show validateChildName (recordOf (seen o)).name = _
    rw [hname]
    exact hvalid
  · show d.objects.attach.find? (fun o' => (calls o'.1).name = (recordOf (seen o)).name) = _
    have hdistinct : (d.objects.attach.map fun o' => (calls o'.1).name).Nodup := by
      have hvalues : d.objects.attach.map (fun o' => (calls o'.1).name) =
          d.objects.map fun o => (calls o).name :=
        List.attach_map_val (f := fun o => (calls o).name)
      rw [hvalues]
      exact d.distinct.here
    rw [hname]
    exact Table.find_key (fun o' : {o // o ∈ d.objects} => (calls o'.1).name) hdistinct
      (List.mem_attach _ ⟨o, ho⟩)
  · have hin : seen o ∈ seenAll d.objects := by
      rw [seenAll_eq]
      exact List.mem_map_of_mem ho
    exact find_name (distinct_seen d.distinct).here hin

theorem root_seen (root : Root) :
    shown.openRoot root.seen = (posix.openRoot root).map Directory.seen := by
  show answer (fault (openRoot root)) (⟨root.seen.answers, seenAll root.objects⟩ : FsEvidence.Directory) =
    (openRoot root).map Directory.seen
  rw [answer_fault, Root.seen]
  dsimp only
  cases hopen : openRoot root with
  | error e => rfl
  | ok d =>
    simp only [openRoot, bind_ok, pure_ok] at hopen
    obtain ⟨u, -, info, -, rfl⟩ := hopen
    rfl

section
variable {d : Directory} {records : List Record} {r : Record}

theorem directory_seen (hlist : posix.listDirectory d = .ok records) (hmem : r ∈ records)
    (hkind : r.kind = .dir) :
    shown.openChildDirectory d.seen r = (posix.openChildDirectory d r).map Directory.seen := by
  obtain ⟨o, ho, info, hstat, hmode, hrecord, hvalid, hfind, hseen⟩ := found hlist hmem
  rw [hkind] at hmode hrecord
  simp only [seen_eq, seenAs, hstat, hmode, hrecord] at hseen
  have hopens : posix.openChildDirectory d r = (openDirectory (calls o) r).map fun identity =>
      ⟨identity, (calls o).scandir, (calls o).closes, below o, distinct_below d.distinct ho⟩ := by
    show openChildDirectory d r = _
    unfold openChildDirectory
    rw [require_true hkind, hvalid, hfind]
    rfl
  rw [hopens]
  simp only [shown]
  rw [hseen]
  dsimp only
  rw [answer_fault]
  cases openDirectory (calls o) r <;> rfl

theorem file_seen (hlist : posix.listDirectory d = .ok records) (hmem : r ∈ records)
    (hkind : r.kind = .file) :
    shown.openChildFile d.seen r = posix.openChildFile d r := by
  obtain ⟨o, ho, info, hstat, hmode, hrecord, hvalid, hfind, hseen⟩ := found hlist hmem
  rw [hkind] at hmode hrecord
  simp only [seen_eq, seenAs, hstat, hmode, hrecord] at hseen
  show _ = openChildFile d r
  unfold openChildFile
  rw [require_true hkind, hvalid, hfind]
  simp only [shown]
  rw [hseen]
  rfl

theorem link_seen (hlist : posix.listDirectory d = .ok records) (hmem : r ∈ records)
    (hkind : r.kind = .link) :
    shown.linkEvidence d.seen r = posix.linkEvidence d r := by
  obtain ⟨o, ho, info, hstat, hmode, hrecord, hvalid, hfind, hseen⟩ := found hlist hmem
  rw [hkind] at hmode hrecord
  simp only [seen_eq, seenAs, hstat, hmode, hrecord] at hseen
  show _ = linkEvidence d r
  unfold linkEvidence
  rw [require_true hkind, hvalid, hfind]
  simp only [shown]
  rw [hseen]
  rfl

end

theorem posix_alike : Alike posix shown Root.seen Directory.seen where
  openRoot := root_seen
  identity _ := rfl
  listDirectory := list_seen
  openChildDirectory hlist hmem hkind := directory_seen hlist hmem hkind
  openChildFile hlist hmem hkind := file_seen hlist hmem hkind
  linkEvidence hlist hmem hkind := link_seen hlist hmem hkind
  closeDirectory d := by
    show answer (fault (closed d.closes)) () = closed d.closes
    rw [answer_fault]
    cases closed d.closes <;> rfl

/-- A scan through descriptors is the scan of what they show. -/
theorem posix_scan [Host] (call : Call) (fuel : ℕ) (root : Root) :
    scan call posix fuel root = scan call shown fuel root.seen :=
  (posix_alike.scan_eq fuel root).symm

/-- A manifest describes the tree that the descriptors show. -/
theorem posix_describes [Host] {call : Call} {root : Root} {fuel : ℕ} {m : Manifest}
    (hfuel : turns root.seen < fuel) (h : scan call posix fuel root = some (.ok m)) :
    Describes call root.seen m := by
  rw [← posix_alike.scan_eq fuel root] at h
  obtain ⟨hadmitted, hmanifest⟩ := (scan_ok_iff hfuel).1 h
  exact describes_manifest hadmitted hmanifest

section
attribute [local instance] sampleHost

def sampleStat (mode ino size : ℕ) : StatResult := ⟨mode, 1, ino, size, 1700000000000000000, 1⟩

theorem abc_ne_nil : Changes.utf8Bytes "abc" ≠ [] := by decide

/-- The three letters `abc`, and nothing that moves while they are read. -/
def sampleCalls : Calls where
  name := text "a"
  stat := some (sampleStat 0o100644 3 3)
  opens := true
  fstat := some (sampleStat 0o100644 3 3)
  closes := true
  scandir := false
  before := some (sampleStat 0o100644 3 3)
  blocks := [⟨Changes.utf8Bytes "abc", abc_ne_nil⟩]
  ends := true
  after := some (sampleStat 0o100644 3 3)
  statBefore := none
  readlink := none
  statAfter := none

def sampleDirectory : Root :=
  ⟨true, some (sampleStat 0o40755 1 4096), true, true, [.leaf sampleCalls],
    .mk (List.nodup_singleton _) (by simp)⟩

theorem posix_describes_sample : ∃ m, scan sampleCall posix 4 sampleDirectory = some (.ok m) ∧
    m.entries.length = 1 ∧ Describes sampleCall sampleDirectory.seen m := by
  have hlength : (scan sampleCall posix 4 sampleDirectory).map
      (fun result => result.map fun m => m.entries.length) = some (.ok 1) := by decide +kernel
  obtain ⟨result, hscan, hresult⟩ := Option.map_eq_some_iff.1 hlength
  cases result with
  | error e => cases hresult
  | ok m => exact ⟨m, hscan, Except.ok.inj hresult, posix_describes (by decide) hscan⟩

end

end RagPipeline.FsEvidence.Posix
