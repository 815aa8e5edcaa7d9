import RagPipeline.Lib.Transition
import Mathlib.Data.List.AList
import RagPipeline.Lib.Table
import Mathlib.Data.List.Infix

/-! # The storage of version sources

A version's directory holds `source.bin` and the temporary names of publishers.
A call goes through its phases one file-system step at a time, and may die in
any of them; `advance` is one step of one call. A hard link is made at once or
not at all, and a name that is taken is never replaced. -/

set_option autoImplicit false

namespace RagPipeline.Source

abbrev Bytes := List UInt8

abbrev Inode := ℕ

inductive Name where
  | source
  | temporary (id : ℕ)
deriving DecidableEq, Repr

abbrev Directory := AList fun _ : Name => Inode

/-- `MAX_VERSION_SOURCE_BYTES`. -/
def maxVersionSourceBytes : ℕ := 64 <<< 20

structure Storage (V : Type) where
  dirs : V → Option Directory
  data : Inode → Bytes
  next : Inode
  /-- The compatibility copy of the document. -/
  legacy : Option Bytes

/-- A read through an open handle, block by block. -/
structure Read where
  inode : Inode
  got : Bytes
deriving DecidableEq, Repr

/-- How a call ends: refused or dead, with an object it vouches for, or with
the bytes it was asked for. -/
inductive Ending (D : Type) where
  | refused
  | died
  | object (sha256 : D) (size : ℕ)
  | served (body : Bytes)
deriving DecidableEq, Repr

inductive Phase (D : Type) where
  /-- `ensure_bound_version_source` reads the row under the document's lock. -/
  | binding
  /-- `migrate_legacy_version_source` looks for the immutable object. -/
  | proving
  | proved (r : Read)
  | legacy
  /-- `publish_version_source`, from its directories on. -/
  | opening
  | looking
  | existing (r : Read)
  | creating
  | writing (id : ℕ) (inode : Inode) (written : ℕ)
  | staging (id : ℕ) (inode : Inode)
  | staged (id : ℕ) (inode : Inode) (got : Bytes)
  | linking (id : ℕ) (inode : Inode)
  | unlinking (id : ℕ) (inode : Inode)
  | confirming (inode : Inode)
  | confirmed (r : Read)
  /-- `read_version_source`. -/
  | fetching
  | fetched (r : Read)
  | ended (e : Ending D)
deriving DecidableEq, Repr

structure Call (V D : Type) where
  version : V
  expected : D
  maximum : ℕ
  /-- What the call publishes; a migration learns it from the legacy copy. -/
  body : Bytes
  phase : Phase D
deriving DecidableEq, Repr

/-- What the world decides for a step: the temporary name, how much one read or
write moves beyond the first byte, what the legacy copy holds, and whether the
row is bound to the call's version. -/
structure Choice where
  id : ℕ
  more : ℕ
  legacy : Option Bytes
  bound : Bool

namespace Storage
variable {V : Type} [DecidableEq V]

def lookup (d : Storage V) (v : V) (name : Name) : Option Inode :=
  (d.dirs v).bind (AList.lookup name)

def setDir (d : Storage V) (v : V) (dir : Option Directory) : Storage V :=
  { d with dirs := Function.update d.dirs v dir }

def addName (d : Storage V) (v : V) (name : Name) (i : Inode) : Storage V :=
  d.setDir v ((d.dirs v).map fun dir => dir.insert name i)

def dropName (d : Storage V) (v : V) (name : Name) : Storage V :=
  d.setDir v ((d.dirs v).map fun dir => dir.erase name)

def setData (d : Storage V) (i : Inode) (body : Bytes) : Storage V :=
  { d with data := Function.update d.data i body }

end Storage

/-- One block more, or the end of the file. -/
def Read.step {V : Type} (d : Storage V) (r : Read) (more : ℕ) : Option Read :=
  let content := d.data r.inode
  if content.length ≤ r.got.length then none
  else some { r with got := r.got ++ (content.drop r.got.length).take (more + 1) }

section
variable {V D : Type} [DecidableEq V] [DecidableEq D] (digest : Bytes → D)

def Call.finish (c : Call V D) (e : Ending D) : Call V D := { c with phase := .ended e }

def Call.at (c : Call V D) (phase : Phase D) : Call V D := { c with phase := phase }

/-- Opens a name for reading, unless the file is larger than the ceiling. -/
def openRead (d : Storage V) (c : Call V D) (i : Inode) (next : Read → Phase D) : Call V D :=
  if c.maximum < (d.data i).length then c.finish .refused else c.at (next ⟨i, []⟩)

/-- Reads on, and judges the whole at its end. -/
def readOn (d : Storage V) (c : Call V D) (r : Read) (more : ℕ) (next : Read → Phase D)
    (judge : Bytes → Ending D) : Call V D :=
  match r.step d more with
  | some r => c.at (next r)
  | none => c.finish (judge r.got)

/-- The object a publisher returns, where what is stored is its own body. -/
def Call.publishedAs (c : Call V D) (stored : Bytes) : Ending D :=
  if stored = c.body then .object c.expected c.body.length else .refused

def Call.provedAs (c : Call V D) (stored : Bytes) : Ending D :=
  if digest stored = c.expected then .object c.expected stored.length else .refused

def Call.servedAs (c : Call V D) (stored : Bytes) : Ending D :=
  if digest stored = c.expected then .served stored else .refused

/-- A body a publisher takes on. -/
def Call.Accepts (c : Call V D) (body : Bytes) : Prop :=
  digest body = c.expected ∧ body.length ≤ c.maximum

instance (c : Call V D) (body : Bytes) : Decidable (c.Accepts digest body) :=
  inferInstanceAs (Decidable (_ ∧ _))

def advance (choice : Choice) (d : Storage V) (c : Call V D) : Option (Storage V × Call V D) :=
  match c.phase with
  | .ended _ => none
  | .binding => some (d, if choice.bound then c.at .proving else c.finish .refused)
  | .proving =>
    match d.lookup c.version .source with
    | some i => some (d, openRead d c i .proved)
    | none => some (d, c.at .legacy)
  | .proved r => some (d, readOn d c r choice.more .proved (c.provedAs digest))
  | .legacy =>
    match choice.legacy with
    | some body =>
      some (d, if c.Accepts digest body then { c with body := body, phase := .opening }
        else c.finish .refused)
    | none => some (d, c.finish .refused)
  | .opening =>
    match d.dirs c.version with
    | some _ => some (d, c.at .looking)
    | none => some (d.setDir c.version (some ∅), c.at .looking)
  | .looking =>
    match d.lookup c.version .source with
    | some i => some (d, openRead d c i .existing)
    | none => some (d, c.at .creating)
  | .existing r => some (d, readOn d c r choice.more .existing c.publishedAs)
  | .creating =>
    if (d.dirs c.version).isSome ∧ d.lookup c.version (.temporary choice.id) = none then
      some ({ (d.addName c.version (.temporary choice.id) d.next).setData d.next [] with
        next := d.next + 1 }, c.at (.writing choice.id d.next 0))
    else some (d, c.finish .refused)
  | .writing id i written =>
    if written < c.body.length then
      let block := (c.body.drop written).take (choice.more + 1)
      some (d.setData i (d.data i ++ block), c.at (.writing id i (written + block.length)))
    else some (d, c.at (.staging id i))
  | .staging id i =>
    if d.lookup c.version (.temporary id) = some i then
      some (d, openRead d c i fun r => .staged id i r.got)
    else some (d, c.finish .refused)
  | .staged id i got =>
    match (Read.mk i got).step d choice.more with
    | some r => some (d, c.at (.staged id i r.got))
    | none => some (d, if got = c.body then c.at (.linking id i) else c.finish .refused)
  | .linking id i =>
    match d.lookup c.version (.temporary id), d.lookup c.version .source with
    | none, _ => some (d, c.finish .refused)
    -- the name is taken: the loser compares, and leaves its temporary behind
    | some _, some k => some (d, openRead d c k .existing)
    | some j, none => some (d.addName c.version .source j, c.at (.unlinking id i))
  | .unlinking id i => some (d.dropName c.version (.temporary id), c.at (.confirming i))
  | .confirming i =>
    if d.lookup c.version .source = some i then some (d, openRead d c i .confirmed)
    else some (d, c.finish .refused)
  | .confirmed r => some (d, readOn d c r choice.more .confirmed c.publishedAs)
  | .fetching =>
    match d.lookup c.version .source with
    | some i => some (d, openRead d c i .fetched)
    | none => some (d, c.finish .refused)
  | .fetched r => some (d, readOn d c r choice.more .fetched (c.servedAs digest))

/-- The four entrances. -/
inductive Request (V D : Type) where
  | publish (version : V) (body : Bytes) (expected : D) (maximum : ℕ)
  | migrate (version : V) (expected : D) (maximum : ℕ)
  | ensureBound (version : V) (expected : D) (maximum : ℕ)
  | read (version : V) (expected : D) (maximum : ℕ)
deriving DecidableEq, Repr

/-- `_source_limit` stands in front of each of them. -/
def Call.limited (c : Call V D) : Call V D :=
  if 1 ≤ c.maximum ∧ c.maximum ≤ maxVersionSourceBytes then c else c.finish .refused

def Request.call : Request V D → Call V D
  | .publish v body expected maximum =>
    let c : Call V D := ⟨v, expected, maximum, body, .opening⟩
    if c.Accepts digest body then c.limited else c.finish .refused
  | .migrate v expected maximum => Call.limited ⟨v, expected, maximum, [], .proving⟩
  | .ensureBound v expected maximum => Call.limited ⟨v, expected, maximum, [], .binding⟩
  | .read v expected maximum => Call.limited ⟨v, expected, maximum, [], .fetching⟩

/-- The storage and every call so far, those that have ended among them. -/
structure State (V D : Type) where
  disk : Storage V
  calls : List (Call V D)

inductive Event (V D : Type) where
  | start (request : Request V D)
  | run (i : ℕ) (choice : Choice)
  | die (i : ℕ)

def exec (s : State V D) : Event V D → Option (State V D)
  | .start request => some { s with calls := s.calls ++ [request.call digest] }
  | .run i choice =>
    (s.calls[i]?).bind fun c => (advance digest choice s.disk c).map fun (d, c') =>
      ⟨d, s.calls.set i c'⟩
  | .die i => (s.calls[i]?).map fun c => { s with calls := s.calls.set i (c.finish .died) }

open Transition

/-- Publishers and readers of versions that nobody purges. -/
def system : System (State V D) (Event V D) where
  initial s := s.calls = [] ∧ (∀ v, s.disk.dirs v = none)
  step s e s' := exec digest s e = some s'

end

end RagPipeline.Source

/-! # What one step of a call does

A step leaves the storage alone, or makes the directory, creates a temporary,
writes a block, links the source or drops the temporary. `Good` is what is true
of a call in each of its phases, and a step takes a good call to a good call. -/

set_option autoImplicit false

namespace RagPipeline.Source

variable {V D : Type}

namespace Storage
variable {d : Storage V} {v w : V} {name other : Name} {i : Inode}

theorem lookup_isSome_dir (h : d.lookup v name = some i) : (d.dirs v).isSome := by
  cases hdir : d.dirs v with
  | none => simp [lookup, hdir] at h
  | some dir => rfl

variable [DecidableEq V]

theorem lookup_setDir (dir : Option Directory) :
    (d.setDir v dir).lookup w name = if w = v then dir.bind (AList.lookup name) else d.lookup w name := by
  by_cases h : w = v
  · subst h
    simp [lookup, setDir]
  · simp [lookup, setDir, h]

theorem lookup_addName (hdir : (d.dirs v).isSome) :
    (d.addName v name i).lookup w other =
      if w = v ∧ other = name then some i else d.lookup w other := by
  obtain ⟨dir, hdir⟩ := Option.isSome_iff_exists.1 hdir
  rw [addName, lookup_setDir, hdir]
  by_cases hw : w = v
  · subst hw
    by_cases hn : other = name
    · subst hn
      simp
    · simp [hn, AList.lookup_insert_ne hn, lookup, hdir]
  · simp [hw]

theorem lookup_dropName :
    (d.dropName v name).lookup w other =
      if w = v ∧ other = name then none else d.lookup w other := by
  rw [dropName, lookup_setDir]
  by_cases hw : w = v
  · subst hw
    cases hdir : d.dirs w with
    | none => simp [lookup, hdir]
    | some dir =>
      by_cases hn : other = name
      · subst hn
        simp
      · simp [hn, AList.lookup_erase_ne hn, lookup, hdir]
  · simp [hw]

end Storage

/-- The temporary a call has made and not yet dropped. -/
def Phase.holding : Phase D → Option (ℕ × Inode)
  | .writing id i _ => some (id, i)
  | .staging id i => some (id, i)
  | .staged id i _ => some (id, i)
  | .linking id i => some (id, i)
  | .unlinking id i => some (id, i)
  | _ => none

/-- The object a call is writing to. -/
def Phase.writes : Phase D → Option Inode
  | .writing _ i _ => some i
  | _ => none

/-- A migration that has not learned its body yet. -/
def Phase.early : Phase D → Bool
  | .binding => true
  | .proving => true
  | .proved _ => true
  | .legacy => true
  | _ => false

section
variable (digest : Bytes → D) (d : Storage V) (c : Call V D)

/-- A read that has so far seen what its object holds. -/
def Seen (r : Read) : Prop :=
  d.lookup c.version .source = some r.inode ∧ r.got <+: d.data r.inode

def Own (id : ℕ) (i : Inode) : Prop := d.lookup c.version (.temporary id) = some i

def Good : Prop :=
  match c.phase with
  | .binding => True
  | .proving => True
  | .legacy => True
  | .fetching => True
  | .proved r => Seen d c r
  | .fetched r => Seen d c r
  | .opening => c.Accepts digest c.body
  | .looking => c.Accepts digest c.body ∧ (d.dirs c.version).isSome
  | .creating => c.Accepts digest c.body
  | .existing r => c.Accepts digest c.body ∧ Seen d c r
  | .writing id i written =>
    c.Accepts digest c.body ∧ Own d c id i ∧ d.data i = c.body.take written
  | .staging id i => c.Accepts digest c.body ∧ Own d c id i ∧ d.data i = c.body
  | .staged id i got =>
    c.Accepts digest c.body ∧ Own d c id i ∧ d.data i = c.body ∧ got <+: c.body
  | .linking id i => c.Accepts digest c.body ∧ Own d c id i ∧ d.data i = c.body
  | .unlinking id i =>
    c.Accepts digest c.body ∧ Own d c id i ∧ d.data i = c.body ∧
      d.lookup c.version .source = some i
  | .confirming i =>
    c.Accepts digest c.body ∧ d.data i = c.body ∧ d.lookup c.version .source = some i
  | .confirmed r => c.Accepts digest c.body ∧ Seen d c r
  | .ended (.object sha size) =>
    ∃ i, d.lookup c.version .source = some i ∧ digest (d.data i) = sha ∧ (d.data i).length = size
  | .ended (.served body) => ∃ i, d.lookup c.version .source = some i ∧ d.data i = body
  | .ended .refused => True
  | .ended .died => True

end

/-- What a step of another call leaves to this one: the source it may have
seen and the temporary it holds. -/
structure Kept (d d' : Storage V) (c : Call V D) : Prop where
  source : ∀ i, d.lookup c.version .source = some i →
    d'.lookup c.version .source = some i ∧ d'.data i = d.data i
  held : ∀ id i, c.phase.holding = some (id, i) → Own d c id i → Own d' c id i ∧ d'.data i = d.data i
  dir : (d.dirs c.version).isSome → (d'.dirs c.version).isSome

variable {digest : Bytes → D} {d d' : Storage V} {c c' : Call V D}

theorem step_read {r r' : Read} {more : ℕ} (h : r.step d more = some r')
    (hgot : r.got <+: d.data r.inode) : r'.inode = r.inode ∧ r'.got <+: d.data r'.inode := by
  simp only [Read.step] at h
  split at h
  · cases h
  · cases h
    refine ⟨rfl, ?_⟩
    obtain ⟨rest, hrest⟩ := hgot
    have hdrop : (d.data r.inode).drop r.got.length = rest := by rw [← hrest, List.drop_left']; rfl
    rw [hdrop]
    refine ⟨rest.drop (more + 1), ?_⟩
    rw [List.append_assoc, List.take_append_drop, hrest]

theorem step_end {r : Read} {more : ℕ} (h : r.step d more = none)
    (hgot : r.got <+: d.data r.inode) : r.got = d.data r.inode := by
  simp only [Read.step] at h
  split at h
  · exact hgot.eq_of_length_le ‹_›
  · cases h

theorem Seen.kept {r : Read} (h : Seen d c r) (hk : Kept d d' c) : Seen d' c r := by
  obtain ⟨hs, hdata⟩ := hk.source r.inode h.1
  exact ⟨hs, by rw [hdata]; exact h.2⟩

theorem Good.kept (h : Good digest d c) (hk : Kept d d' c) : Good digest d' c := by
  obtain ⟨version, expected, maximum, body, phase⟩ := c
  have hsource := hk.source
  have hheld := hk.held
  cases phase with
  | binding | proving | legacy | fetching | opening | creating => exact h
  | proved r | fetched r => exact Seen.kept h hk
  | looking => exact ⟨h.1, hk.dir h.2⟩
  | existing r | confirmed r => exact ⟨h.1, Seen.kept h.2 hk⟩
  | writing id i n =>
    obtain ⟨hacc, hown, hdata⟩ := h
    obtain ⟨hown', hdata'⟩ := hheld id i rfl hown
    exact ⟨hacc, hown', hdata'.trans hdata⟩
  | staging id i | linking id i =>
    obtain ⟨hacc, hown, hdata⟩ := h
    obtain ⟨hown', hdata'⟩ := hheld id i rfl hown
    exact ⟨hacc, hown', hdata'.trans hdata⟩
  | staged id i got =>
    obtain ⟨hacc, hown, hdata, hgot⟩ := h
    obtain ⟨hown', hdata'⟩ := hheld id i rfl hown
    exact ⟨hacc, hown', hdata'.trans hdata, hgot⟩
  | unlinking id i =>
    obtain ⟨hacc, hown, hdata, hsrc⟩ := h
    obtain ⟨hown', hdata'⟩ := hheld id i rfl hown
    exact ⟨hacc, hown', hdata'.trans hdata, (hsource i hsrc).1⟩
  | confirming i =>
    obtain ⟨hacc, hdata, hsrc⟩ := h
    obtain ⟨hsrc', hdata'⟩ := hsource i hsrc
    exact ⟨hacc, hdata'.trans hdata, hsrc'⟩
  | ended e =>
    cases e with
    | refused | died => exact h
    | object sha size =>
      obtain ⟨i, hsrc, hsha, hsize⟩ := h
      obtain ⟨hsrc', hdata'⟩ := hsource i hsrc
      exact ⟨i, hsrc', by rw [hdata']; exact hsha, by rw [hdata']; exact hsize⟩
    | served bytes =>
      obtain ⟨i, hsrc, hbytes⟩ := h
      obtain ⟨hsrc', hdata'⟩ := hsource i hsrc
      exact ⟨i, hsrc', hdata'.trans hbytes⟩

theorem good_published {i : Inode} (hacc : c.Accepts digest c.body)
    (hs : d.lookup c.version .source = some i) :
    Good digest d (c.finish (c.publishedAs (d.data i))) := by
  rw [Call.publishedAs]
  split_ifs with h
  · exact ⟨i, hs, by rw [h]; exact hacc.1, by rw [h]⟩
  · trivial

section
variable [DecidableEq D]

theorem good_proved {i : Inode} (hs : d.lookup c.version .source = some i) :
    Good digest d (c.finish (c.provedAs digest (d.data i))) := by
  rw [Call.provedAs]
  split_ifs with h
  · exact ⟨i, hs, h, rfl⟩
  · trivial

theorem good_served {i : Inode} (hs : d.lookup c.version .source = some i) :
    Good digest d (c.finish (c.servedAs digest (d.data i))) := by
  rw [Call.servedAs]
  split_ifs with h
  · exact ⟨i, hs, rfl⟩
  · trivial

end

variable [DecidableEq V]

/-- The steps of a call, by what they do to the storage. -/
inductive Effect (digest : Bytes → D) (d : Storage V) (c : Call V D) : Storage V → Call V D → Prop
  | still (c' : Call V D) (version : c'.version = c.version)
      (body : c.phase.early = false → c'.body = c.body ∧ c'.expected = c.expected ∧
        c'.phase.early = false)
      (holding : c'.phase.holding = none ∨ c'.phase.holding = c.phase.holding)
      (writes : c'.phase.writes = none) (good : Good digest d c') : Effect digest d c d c'
  | mkdir (opening : c.phase = .opening) (absent : d.dirs c.version = none) :
      Effect digest d c (d.setDir c.version (some ∅)) (c.at .looking)
  | create (id : ℕ) (creating : c.phase = .creating) (dir : (d.dirs c.version).isSome)
      (free : d.lookup c.version (.temporary id) = none) :
      Effect digest d c
        { (d.addName c.version (.temporary id) d.next).setData d.next [] with next := d.next + 1 }
        (c.at (.writing id d.next 0))
  | write (id : ℕ) (i : Inode) (written more : ℕ) (writing : c.phase = .writing id i written)
      (left : written < c.body.length) :
      Effect digest d c
        (d.setData i (d.data i ++ (c.body.drop written).take (more + 1)))
        (c.at (.writing id i (written + ((c.body.drop written).take (more + 1)).length)))
  | link (id : ℕ) (i : Inode) (linking : c.phase = .linking id i) (own : Own d c id i)
      (free : d.lookup c.version .source = none) :
      Effect digest d c (d.addName c.version .source i) (c.at (.unlinking id i))
  | unlink (id : ℕ) (i : Inode) (unlinking : c.phase = .unlinking id i) :
      Effect digest d c (d.dropName c.version (.temporary id)) (c.at (.confirming i))

theorem effect_finish {e : Ending D} (h : Good digest d (c.finish e)) :
    Effect digest d c d (c.finish e) :=
  .still _ rfl (fun _ => ⟨rfl, rfl, rfl⟩) (.inl rfl) rfl h

theorem effect_at {phase : Phase D} (hearly : c.phase.early = false → phase.early = false)
    (hholding : phase.holding = none ∨ phase.holding = c.phase.holding)
    (hwrites : phase.writes = none) (h : Good digest d (c.at phase)) :
    Effect digest d c d (c.at phase) :=
  .still _ rfl (fun hc => ⟨rfl, rfl, hearly hc⟩) hholding hwrites h

theorem effect_open {i : Inode} {next : Read → Phase D}
    (hearly : c.phase.early = false → (next ⟨i, []⟩).early = false)
    (hholding : (next ⟨i, []⟩).holding = none) (hwrites : (next ⟨i, []⟩).writes = none)
    (h : Good digest d (c.at (next ⟨i, []⟩))) : Effect digest d c d (openRead d c i next) := by
  rw [openRead]
  split
  · exact effect_finish trivial
  · exact effect_at hearly (.inl hholding) hwrites h

/-- A read that goes on has seen more of the same object; one that is over has
seen all of it, and is judged. -/
theorem effect_read {r : Read} {more : ℕ} {next : Read → Phase D} {judge : Bytes → Ending D}
    (hseen : Seen d c r) (hearly : ∀ r, c.phase.early = false → (next r).early = false)
    (hholding : ∀ r, (next r).holding = none) (hwrites : ∀ r, (next r).writes = none)
    (hnext : ∀ r, Seen d c r → Good digest d (c.at (next r)))
    (hjudge : Good digest d (c.finish (judge (d.data r.inode)))) :
    Effect digest d c d (readOn d c r more next judge) := by
  rw [readOn]
  split
  · rename_i r' hr
    obtain ⟨hinode, hgot⟩ := step_read hr hseen.2
    exact effect_at (hearly r') (.inl (hholding r')) (hwrites r')
      (hnext r' ⟨by rw [hinode]; exact hseen.1, hgot⟩)
  · rw [step_end ‹_› hseen.2]
    exact effect_finish hjudge

variable [DecidableEq D]

/-- Every step of a good call is one of the effects. -/
theorem effect_of_advance {choice : Choice} (hgood : Good digest d c)
    (h : advance digest choice d c = some (d', c')) : Effect digest d c d' c' := by
  obtain ⟨version, expected, maximum, body, phase⟩ := c
  have hnil (i : Inode) : ([] : Bytes) <+: d.data i := List.nil_prefix
  cases phase with
  | ended e => cases h
  | binding =>
    cases h
    split
    · exact effect_at (fun hc => Bool.noConfusion hc) (.inl rfl) rfl trivial
    · exact effect_finish trivial
  | proving =>
    simp only [advance] at h
    split at h <;> cases h
    · exact effect_open (fun hc => Bool.noConfusion hc) rfl rfl ⟨‹_›, hnil _⟩
    · exact effect_at (fun hc => Bool.noConfusion hc) (.inl rfl) rfl trivial
  | proved r =>
    cases h
    exact effect_read hgood (fun _ hc => Bool.noConfusion hc) (fun _ => rfl) (fun _ => rfl)
      (fun _ hr => hr) (good_proved hgood.1)
  | legacy =>
    simp only [advance] at h
    split at h <;> cases h
    · split
      · rename_i hacc
        exact .still _ rfl (fun hc => Bool.noConfusion hc) (.inl rfl) rfl hacc
      · exact effect_finish trivial
    · exact effect_finish trivial
  | opening =>
    simp only [advance] at h
    split at h <;> cases h
    · rename_i dir hdir
      exact effect_at (fun _ => rfl) (.inl rfl) rfl ⟨hgood, by simp [Call.at, hdir]⟩
    · exact .mkdir rfl ‹_›
  | looking =>
    simp only [advance] at h
    split at h <;> cases h
    · exact effect_open (fun _ => rfl) rfl rfl ⟨hgood.1, ‹_›, hnil _⟩
    · exact effect_at (fun _ => rfl) (.inl rfl) rfl hgood.1
  | existing r =>
    cases h
    exact effect_read hgood.2 (fun _ _ => rfl) (fun _ => rfl) (fun _ => rfl)
      (fun _ hr => ⟨hgood.1, hr⟩) (good_published hgood.1 hgood.2.1)
  | creating =>
    simp only [advance] at h
    split at h <;> cases h
    · rename_i hfree
      exact .create choice.id rfl hfree.1 hfree.2
    · exact effect_finish trivial
  | writing id i written =>
    simp only [advance] at h
    split at h <;> cases h
    · exact .write id i written choice.more rfl ‹_›
    · rename_i hdone
      refine effect_at (fun _ => rfl) (.inr rfl) rfl ⟨hgood.1, hgood.2.1, ?_⟩
      rw [hgood.2.2]
      exact List.take_of_length_le (not_lt.1 hdone)
  | staging id i =>
    simp only [advance] at h
    split at h <;> cases h
    · rw [openRead]
      split
      · exact effect_finish trivial
      · exact effect_at (fun _ => rfl) (.inr rfl) rfl
          ⟨hgood.1, hgood.2.1, hgood.2.2, List.nil_prefix⟩
    · exact effect_finish trivial
  | staged id i got =>
    obtain ⟨hacc, hown, hdata, hgot⟩ := hgood
    simp only [advance] at h
    split at h
    · rename_i r hr
      cases h
      have hpre : got <+: d.data i := by
        rw [hdata]
        exact hgot
      obtain ⟨hinode, hr'⟩ := step_read hr hpre
      refine effect_at (fun _ => rfl) (.inr rfl) rfl ⟨hacc, hown, hdata, ?_⟩
      rw [hinode, hdata] at hr'
      exact hr'
    · cases h
      split
      · exact effect_at (fun _ => rfl) (.inr rfl) rfl ⟨hacc, hown, hdata⟩
      · exact effect_finish trivial
  | linking id i =>
    obtain ⟨hacc, hown, hdata⟩ := hgood
    have hown' : d.lookup version (.temporary id) = some i := hown
    simp only [advance, hown'] at h
    split at h
    · rename_i heq
      cases heq
    · cases h
      exact effect_open (fun _ => rfl) rfl rfl ⟨hacc, ‹_›, hnil _⟩
    · rename_i heq _
      cases heq
      cases h
      exact .link id i rfl hown ‹_›
  | unlinking id i =>
    cases h
    exact .unlink id i rfl
  | confirming i =>
    simp only [advance] at h
    split at h <;> cases h
    · exact effect_open (fun _ => rfl) rfl rfl ⟨hgood.1, ‹_›, hnil _⟩
    · exact effect_finish trivial
  | confirmed r =>
    cases h
    exact effect_read hgood.2 (fun _ _ => rfl) (fun _ => rfl) (fun _ => rfl)
      (fun _ hr => ⟨hgood.1, hr⟩) (good_published hgood.1 hgood.2.1)
  | fetching =>
    simp only [advance] at h
    split at h <;> cases h
    · exact effect_open (fun _ => rfl) rfl rfl ⟨‹_›, hnil _⟩
    · exact effect_finish trivial
  | fetched r =>
    cases h
    exact effect_read hgood (fun _ _ => rfl) (fun _ => rfl) (fun _ => rfl)
      (fun _ hr => hr) (good_served hgood.1)

end RagPipeline.Source
