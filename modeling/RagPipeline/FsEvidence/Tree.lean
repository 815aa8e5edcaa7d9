import RagPipeline.FsEvidence.Scan
import RagPipeline.Lib.Table

/-! # A tree on the disk, and what the scan sees of it

A tree is what it answers. Each question is asked of an object once at most, so an
answer for each is every pattern of answers a scan can get. Whatever the platform, a
directory is a table of names, and a child is found under its name. -/

set_option autoImplicit false

namespace RagPipeline.FsEvidence
open Guard
open DepthFirst (Event Everywhere)

/-- A record, but for the kind. -/
structure Status where
  name : Text
  attributes : ℕ
  reparseTag : ℕ
  mode : ℕ
  size : ℕ
  mtimeNs : ℤ
  fileId : String
  nlink : Option ℕ

def Status.record (s : Status) (kind : Kind) : Record :=
  ⟨s.name, kind, s.attributes, s.reparseTag, s.mode, s.size, s.mtimeNs, s.fileId, s.nlink⟩

inductive Leaf where
  | file (status : Status) (opened : Except Fault Descriptor)
  | link (status : Status) (kanit : Except Fault Bytes)
  | other (status : Status)

/-- What an open directory answers: who it is, and whether it can be listed and closed. -/
structure Answers where
  identity : String
  lists : Option Fault
  closes : Option Fault

structure Door where
  status : Status
  opens : Option Fault
  answers : Answers

abbrev Node := DepthFirst.Tree Leaf Door

def Leaf.record : Leaf → Record
  | .file status _ => status.record .file
  | .link status _ => status.record .link
  | .other status => status.record .other

def Door.record (door : Door) : Record := door.status.record .dir

def recordOf : Node → Record
  | .leaf a => a.record
  | .branch door _ => door.record

def Distinct (children : List Node) : Prop := (children.map fun node => (recordOf node).name).Nodup

structure Directory where
  answers : Answers
  children : List Node

/-- A tree, and whether its root can be opened. A name stands once in its directory. -/
structure Root where
  opens : Option Fault
  answers : Answers
  children : List Node
  distinct : Everywhere Distinct children

def answer {α : Type} (fault : Option Fault) (a : α) : Except Fault α :=
  match fault with
  | some f => .error f
  | none => .ok a

def Directory.find (directory : Directory) (record : Record) : Option Node :=
  directory.children.find? fun node => (recordOf node).name = record.name

/-- A tree through the transport. -/
def shown : Transport Root Directory where
  openRoot root := answer root.opens ⟨root.answers, root.children⟩
  identity directory := directory.answers.identity
  listDirectory directory := answer directory.answers.lists (directory.children.map recordOf)
  openChildDirectory directory record :=
    match directory.find record with
    | some (.branch door below) => answer door.opens ⟨door.answers, below⟩
    | _ => .error (.transport "giris bir dizin olarak listelenmedi" false)
  openChildFile directory record :=
    match directory.find record with
    | some (.leaf (.file _ opened)) => opened
    | _ => .error (.transport "giris siradan bir dosya olarak listelenmedi" false)
  linkEvidence directory record :=
    match directory.find record with
    | some (.leaf (.link _ kanit)) => kanit
    | _ => .error (.transport "giris bir baglanti olarak listelenmedi" false)
  closeDirectory directory := answer directory.answers.closes ()

/-! ## The recursion -/

def names (path : List Door) : List Text := path.map fun door => door.status.name

def openDoor (door : Door) : Except EvidenceError Unit := do
  guard (answer door.opens ()) "alt dizin acilamadi" unsupportedEntry
  (guard (answer door.answers.lists ()) "dizin listelenemedi" unsupportedEntry).mapError fun e =>
    if door.answers.closes = none then e else markCleanupFailed e

section
variable [Host] (call : Call)

/-- A leaf, asked where it stands. -/
def meet (p : Progress) (path : List Door) (a : Leaf) : Except EvidenceError Progress := do
  let text ← checkRecord call p (names path ++ [a.record.name]) a.record
  match a with
  | .file status opened => visitFile call p text (status.record .file) opened
  | .link status kanit => visitLink call p text (status.record .link) kanit
  | .other _ => throw (unsupportedEntry "siradan olmayan dosya turu")

/-- A directory, entered where it stands. -/
def enter (p : Progress) (path : List Door) (door : Door) : Except EvidenceError Progress := do
  let text ← checkRecord call p (names path ++ [door.status.name]) door.record
  let p ← visitDirectory call p (names path ++ [door.status.name]) text door.record
  openDoor door
  return p

/-- Whether the directory at the end of a path can be closed. -/
def closesAt (root : Root) (path : List Door) : Option Fault :=
  match path.getLast? with
  | some door => door.answers.closes
  | none => root.answers.closes

/-- What a recursive walk does at each of its points. The root and the directories of
the path are open in it. -/
def act (root : Root) (p : Progress) : Event Leaf Door → Except EvidenceError Progress
  | .leaf path a => meet call p path a
  | .enter path door => (enter call p path door).map fun p => { p with peak := max p.peak (path.length + 2) }
  | .leave path => (guard (answer (closesAt root path) ()) "dizin kapatilamadi" evidenceError).map fun _ => p

end

/-! ## The loop does what the recursion does -/

theorem find_name {children : List Node} {node : Node} (hd : Distinct children) (hmem : node ∈ children) :
    children.find? (fun other => (recordOf other).name = (recordOf node).name) = some node :=
  Table.find_key (fun node => (recordOf node).name) hd hmem

/-- A frame of the scan stands where a frame of the recursion stands. -/
structure FrameShows (root : Root) (f : Frame Directory) (g : DepthFirst.Frame Leaf Door) : Prop where
  parts : f.parts = names g.path
  records : f.records = f.directory.children.map recordOf
  rest : g.rest = f.directory.children.drop f.index
  distinct : Everywhere Distinct f.directory.children
  closes : f.directory.answers.closes = closesAt root g.path

structure Shows (root : Root) (state : List (Frame Directory) × Progress)
    (stack : List (DepthFirst.Frame Leaf Door)) (p : Progress) : Prop where
  frames : List.Forall₂ (FrameShows root) state.1 stack
  stacked : DepthFirst.Stacked stack
  progress : state.2 = p

variable {root : Root} {f : Frame Directory} {g : DepthFirst.Frame Leaf Door}

theorem FrameShows.record_none (h : FrameShows root f g) (hrest : g.rest = []) :
    f.records[f.index]? = none := by
  have hlen := List.drop_eq_nil_iff.1 (h.rest.symm.trans hrest)
  rw [h.records, List.getElem?_eq_none_iff, List.length_map]
  exact hlen

theorem FrameShows.record_some (h : FrameShows root f g) {node : Node} {rest : List Node}
    (hrest : g.rest = node :: rest) :
    f.records[f.index]? = some (recordOf node) ∧ node ∈ f.directory.children := by
  have hnode : f.directory.children[f.index]? = some node := by
    rw [← List.head?_drop, ← h.rest, hrest]
    rfl
  constructor
  · rw [h.records, List.getElem?_map, hnode]
    rfl
  · exact List.mem_of_getElem? hnode

theorem FrameShows.next (h : FrameShows root f g) {node : Node} {rest : List Node}
    (hrest : g.rest = node :: rest) :
    FrameShows root { f with index := f.index + 1 } ⟨g.path, rest⟩ where
  parts := h.parts
  records := h.records
  rest := by
    show rest = f.directory.children.drop (f.index + 1)
    rw [← List.tail_drop, ← h.rest, hrest]
    rfl
  distinct := h.distinct
  closes := h.closes

/-- The frame of a directory that was opened. -/
def frameOf (path : List Door) (door : Door) (below : List Node) : Frame Directory :=
  ⟨⟨door.answers, below⟩, names path ++ [door.status.name], below.map recordOf, 0⟩

theorem descend_shown {directory : Directory} {door : Door} {below : List Node}
    (hfind : directory.find door.record = some (.branch door below)) (path : List Door) :
    descend shown directory door.record (names path ++ [door.status.name]) =
      (openDoor door).map fun _ => frameOf path door below := by
  have hopen : shown.openChildDirectory directory door.record = answer door.opens ⟨door.answers, below⟩ := by
    simp only [shown]
    rw [hfind]
  unfold descend
  rw [hopen]
  obtain ⟨status, opens, identity, lists, closes⟩ := door
  cases opens with
  | some fault => cases fault <;> rfl
  | none =>
    cases lists with
    | none => rfl
    | some fault => cases fault <;> cases closes <;> rfl

theorem FrameShows.entered (h : FrameShows root f g) {door : Door} {below : List Node}
    (hmem : .branch door below ∈ f.directory.children) :
    FrameShows root (frameOf g.path door below) ⟨g.path ++ [door], below⟩ where
  parts := by
    show names g.path ++ [door.status.name] = names (g.path ++ [door])
    rw [names, names, List.map_append]
    rfl
  records := rfl
  rest := rfl
  distinct := h.distinct.under hmem
  closes := by
    show door.answers.closes = closesAt root (g.path ++ [door])
    rw [closesAt, List.getLast?_concat]

section
variable [Host] {call : Call} {p : Progress}

theorem visit_leaf (h : FrameShows root f g) {a : Leaf} (hmem : .leaf a ∈ f.directory.children) :
    visit call shown p f.directory f.parts a.record = (meet call p g.path a).map fun p => (p, none) := by
  have hfind : f.directory.find a.record = some (.leaf a) := find_name h.distinct.here hmem
  unfold visit meet
  dsimp only
  rw [h.parts, Guard.map_bind]
  congr 1
  funext text
  cases a with
  | file status opened =>
    show (visitFile call p text (status.record .file) (shown.openChildFile f.directory (status.record .file)) >>=
      fun q => pure (q, none)) = _
    have hopened : shown.openChildFile f.directory (status.record .file) = opened := by
      simp only [shown]
      rw [show f.directory.find (status.record .file) = _ from hfind]
    rw [hopened, bind_pure_comp]
    rfl
  | link status kanit =>
    show (visitLink call p text (status.record .link) (shown.linkEvidence f.directory (status.record .link)) >>=
      fun q => pure (q, none)) = _
    have hkanit : shown.linkEvidence f.directory (status.record .link) = kanit := by
      simp only [shown]
      rw [show f.directory.find (status.record .link) = _ from hfind]
    rw [hkanit, bind_pure_comp]
    rfl
  | other status => rfl

theorem visit_branch (h : FrameShows root f g) {door : Door} {below : List Node}
    (hmem : .branch door below ∈ f.directory.children) :
    visit call shown p f.directory f.parts door.record =
      (enter call p g.path door).map fun p => (p, some (frameOf g.path door below)) := by
  have hfind : f.directory.find door.record = some (.branch door below) := find_name h.distinct.here hmem
  unfold visit enter
  dsimp only
  rw [h.parts, Guard.map_bind]
  congr 1
  funext text
  show (visitDirectory call p (names g.path ++ [door.status.name]) text door.record >>= fun p =>
    descend shown f.directory door.record (names g.path ++ [door.status.name]) >>= fun frame => pure (p, some frame)) = _
  rw [descend_shown hfind, Guard.map_bind]
  congr 1
  funext p
  cases openDoor door <;> rfl

/-! ## One turn -/

/-- The frame after the record it stands at. -/
def Frame.advance {δ : Type} (f : Frame δ) : Frame δ := { f with index := f.index + 1 }

variable {frames : List (Frame Directory)}

theorem step_leave (h : FrameShows root f g) (hrest : g.rest = []) :
    step call shown (f :: frames, p) =
      match act call root p (.leave g.path) with
      | .ok p' => .next (frames, p')
      | .error err => .raised err frames := by
  have hclose : shown.closeDirectory f.directory = answer (closesAt root g.path) () := by
    rw [← h.closes]
    rfl
  unfold step act
  dsimp only
  rw [h.record_none hrest, hclose]
  cases guard (answer (closesAt root g.path) ()) "dizin kapatilamadi" evidenceError <;> rfl

theorem step_leaf (h : FrameShows root f g) {a : Leaf} {rest : List Node} (hrest : g.rest = .leaf a :: rest) :
    step call shown (f :: frames, p) =
      match act call root p (.leaf g.path a) with
      | .ok p' => .next (f.advance :: frames, p')
      | .error err => .raised err (f.advance :: frames) := by
  obtain ⟨hrecord, hmem⟩ := h.record_some hrest
  unfold step act
  dsimp only [recordOf]
  rw [hrecord]
  dsimp only [recordOf]
  rw [visit_leaf h hmem]
  cases meet call p g.path a <;> rfl

theorem step_enter (h : FrameShows root f g) {door : Door} {below rest : List Node}
    (hrest : g.rest = .branch door below :: rest) (hlength : frames.length = g.path.length) :
    step call shown (f :: frames, p) =
      match act call root p (.enter g.path door) with
      | .ok p' => .next (frameOf g.path door below :: f.advance :: frames, p')
      | .error err => .raised err (f.advance :: frames) := by
  obtain ⟨hrecord, hmem⟩ := h.record_some hrest
  unfold step act
  dsimp only
  rw [hrecord]
  dsimp only [recordOf]
  rw [visit_branch h hmem]
  cases enter call p g.path door with
  | error err => rfl
  | ok p' =>
    dsimp only [Except.map]
    rw [List.length_cons, List.length_cons, hlength]
    rfl

theorem step_takes {state : List (Frame Directory) × Progress} {stack outer : List (DepthFirst.Frame Leaf Door)}
    {e : Event Leaf Door} (h : Shows root state stack p) (hturn : DepthFirst.turn stack = some (e, outer)) :
    (step call shown state).Agrees (Shows root) outer (act call root p e) := by
  obtain ⟨frames, q⟩ := state
  obtain ⟨hframes, hstacked, hprogress⟩ := h
  have hstacked' := DepthFirst.turn_stacked hstacked hturn
  obtain rfl : q = p := hprogress
  cases hframes with
  | nil => cases hturn
  | @cons f g frames stack hf hframes =>
    obtain ⟨path, rest⟩ := g
    cases rest with
    | nil =>
      obtain ⟨rfl, rfl⟩ := Prod.mk.inj (Option.some.inj hturn)
      rw [step_leave hf rfl]
      cases act call root q (.leave path) with
      | ok p' => exact ⟨hframes, hstacked', rfl⟩
      | error err => exact rfl
    | cons node rest =>
      have hnext := hf.next rfl
      cases node with
      | leaf a =>
        obtain ⟨rfl, rfl⟩ := Prod.mk.inj (Option.some.inj hturn)
        rw [step_leaf hf rfl]
        cases act call root q (.leaf path a) with
        | ok p' => exact ⟨.cons hnext hframes, hstacked', rfl⟩
        | error err => exact rfl
      | branch door below =>
        obtain ⟨rfl, rfl⟩ := Prod.mk.inj (Option.some.inj hturn)
        have hlength : frames.length = path.length := hframes.length_eq.trans hstacked.1
        have hentered := hf.entered (hf.record_some rfl).2
        rw [step_enter hf rfl hlength]
        cases act call root q (.enter path door) with
        | ok p' => exact ⟨.cons hentered (.cons hnext hframes), hstacked', rfl⟩
        | error err => exact rfl

/-- The scan works a tree off as the recursion goes through it. -/
theorem step_worksOff : DepthFirst.WorksOff (step call shown) (act call root) (Shows root) where
  done := by
    intro state p h
    obtain ⟨frames, q⟩ := state
    obtain ⟨hframes, -, hprogress⟩ := h
    obtain rfl : q = p := hprogress
    cases hframes
    rfl
  takes := step_takes

end

end RagPipeline.FsEvidence
