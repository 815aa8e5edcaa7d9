import Mathlib.Data.Finmap
import RagPipeline.Lib.UndoLog

/-! # The checkout and the slots, by name

The operator's checkout and the slot directory of one application are one map
from places to nodes. A repository place is the list of its path's components
and a slot place is the letter and the number of a slot name. The root of the
checkout and the slot directory itself are not in the map. The handles that
`_Tree` keeps open are not modelled: nobody else writes here, so what a held
handle names and what its path names is one object. -/

set_option autoImplicit false

namespace RagPipeline.Application

abbrev Bytes := List UInt8

abbrev Path := List String

structure Slot where
  letter : Char
  number : ℕ
deriving DecidableEq, Repr

inductive Place where
  | repo (path : Path)
  | hold (slot : Slot)
deriving DecidableEq, Repr

/-- What stands under a name. `other` is a link, a FIFO or a device. -/
inductive Node where
  | dir
  | file (bytes : Bytes) (mode : ℕ)
  | other
deriving DecidableEq, Repr

abbrev FileTree := Finmap fun _ : Place => Node

inductive ApplicationError where
  | refused (message : String)
  | mainCheckoutMismatch (message : String)
  | containment (message : String)
  | concurrentMainChange (message : String)
  | rollbackFailed (message : String)
  | cleanupFailed (message : String)
  | transport (message : String)
  /-- Whatever the host raised in a step: an error of the operating system
  that the code maps to one of its own, or an interrupt. -/
  | interrupted
deriving DecidableEq, Repr

/-- The code `_apply` uses and does not decide here: the digest, git's clean
conversion, which may refuse with a sentence of its own, and in which order
the host lists a directory. -/
class Host where
  sha256 : Bytes → String
  cleanEquivalent : Path → Bytes → Bytes → Except String Bool
  listsJournalFirst : Bool

def maxContentFileBytes : ℕ := 64 * 2 ^ 20

def validateChildName (name : String) : Except ApplicationError Unit :=
  if name = "" ∨ name = "." ∨ name = ".." then .error (.transport "giris adi gecersiz")
  else if '\\' ∈ name.toList ∨ '/' ∈ name.toList ∨ '\x00' ∈ name.toList then
    .error (.transport "giris adi ayirici tasiyor")
  else .ok ()

def split (relative : Path) : Except ApplicationError Path := do
  let parts := relative.filter fun part => decide (part ≠ "" ∧ part ≠ ".")
  if parts = [] ∨ ".." ∈ parts then
    throw (.containment "hedef yolu kanonik degil")
  parts.forM validateChildName
  return parts

def Canonical (relative : Path) : Prop := split relative = .ok relative

instance (relative : Path) : Decidable (Canonical relative) :=
  inferInstanceAs (Decidable (_ = _))

/-- The walk of `_Tree.directory` without `create`: whether the whole chain is
there, or a component of it is missing. A component that is there and is not a
directory is a refusal. -/
def walk (t : FileTree) : Path → Path → Except ApplicationError Bool
  | _, [] => .ok true
  | walked, name :: rest =>
    match t.lookup (.repo (walked ++ [name])) with
    | some .dir => walk t (walked ++ [name]) rest
    | some _ => .error (.containment "ust dizin siradan bir dizin degil")
    | none => .ok false

def directory (t : FileTree) (parts : Path) : Except ApplicationError Unit := do
  if ← walk t [] parts then return ()
  else throw (.containment "hedef ust dizini yok")

structure Evidence where
  sha256 : String
  mode : ℕ
  data : Bytes
deriving DecidableEq, Repr

def Slot.accepted (slot : Slot) : Bool :=
  (slot.letter == 's' || slot.letter == 'b') && slot.number < 10000

section
variable [Host]

def childEvidence (t : FileTree) (place : Place) :
    Except ApplicationError (Option Evidence) :=
  match t.lookup place with
  | none => .ok none
  | some (.file bytes mode) =>
    if bytes.length ≤ maxContentFileBytes then .ok (some ⟨Host.sha256 bytes, mode, bytes⟩)
    else .error (.containment "hedef okunamadi")
  | some _ => .error (.containment "hedef siradan bir dosya degil")

def fileEvidence (t : FileTree) (relative : Path) :
    Except ApplicationError (Option Evidence) := do
  let parts ← split relative
  if ← walk t [] parts.dropLast then childEvidence t (.repo parts)
  else return none

def evidenceOf (t : FileTree) : Place → Except ApplicationError (Option Evidence)
  | .hold slot =>
    if slot.accepted then childEvidence t (.hold slot)
    else .error (.containment "gecersiz yuva adi")
  | .repo relative => fileEvidence t relative

end

/-- One end of a move, as the place a rename acts on. -/
def endpoint (t : FileTree) : Place → Except ApplicationError Place
  | .hold slot =>
    if slot.accepted then .ok (.hold slot) else .error (.containment "gecersiz yuva adi")
  | .repo relative => do
    let parts ← split relative
    directory t parts.dropLast
    return .repo parts

def Place.Canonical : Place → Prop
  | .repo path => Application.Canonical path
  | .hold slot => slot.accepted = true

/-- The names a question about a place looks at: its own, and those of the
directories above it. -/
def Place.Reads : Place → Place → Prop
  | .repo path, .repo q => q <+: path
  | .hold slot, .hold s => s = slot
  | _, _ => False

theorem reads_self (p : Place) : p.Reads p := by
  cases p with
  | repo path => exact List.prefix_rfl
  | hold slot => rfl

theorem canonical_ne_nil {path : Path} (h : Canonical path) : path ≠ [] := by
  rintro rfl
  simp [Canonical, split, throw, throwThe, MonadExceptOf.throw, bind, Except.bind] at h

theorem walk_congr {t t' : FileTree} {walked rest : Path}
    (h : ∀ r, r ≠ [] → r <+: rest →
      t'.lookup (.repo (walked ++ r)) = t.lookup (.repo (walked ++ r))) :
    walk t' walked rest = walk t walked rest := by
  induction rest generalizing walked with
  | nil => rfl
  | cons name rest ih =>
    have hhead := h [name] (by simp) (by simp)
    have htail : walk t' (walked ++ [name]) rest = walk t (walked ++ [name]) rest := by
      refine ih fun r hr hp => ?_
      rw [List.append_assoc]
      exact h (name :: r) (by simp) (by simpa using hp)
    simp only [walk, hhead, htail]

theorem walk_true {t : FileTree} {walked rest : Path} :
    walk t walked rest = .ok true ↔
      ∀ r, r ≠ [] → r <+: rest → t.lookup (.repo (walked ++ r)) = some .dir := by
  induction rest generalizing walked with
  | nil =>
    simp only [walk, List.prefix_nil, true_iff]
    exact fun r hr h => absurd h hr
  | cons name rest ih =>
    constructor
    · intro h r hr hp
      rw [walk] at h
      split at h
      · rename_i hdir
        cases r with
        | nil => exact absurd rfl hr
        | cons n r =>
          obtain ⟨rfl, hp'⟩ := List.cons_prefix_cons.1 hp
          by_cases hr' : r = []
          · rw [hr']
            exact hdir
          · rw [List.append_cons]
            exact ih.1 h r hr' hp'
      · cases h
      · cases h
    · intro h
      have hdir := h [name] (by simp) (by simp)
      simp only [walk, hdir]
      refine ih.2 fun r hr hp => ?_
      rw [List.append_assoc]
      exact h (name :: r) (by simp) (by simpa using hp)

theorem walk_root {t : FileTree} {parts : Path} :
    walk t [] parts = .ok true ↔
      ∀ r, r ≠ [] → r <+: parts → t.lookup (.repo r) = some .dir :=
  walk_true

theorem directory_ok {t : FileTree} {parts : Path} :
    directory t parts = .ok () ↔ walk t [] parts = .ok true := by
  unfold directory
  rcases walk t [] parts with e | b
  · simp [bind, Except.bind]
  · cases b <;> simp [bind, Except.bind, throw, throwThe, MonadExceptOf.throw, pure, Except.pure]

/-- A place is open when a rename can act on it: a valid slot, or a name under
a directory that is there. -/
def Open (t : FileTree) : Place → Prop
  | .hold slot => slot.accepted = true
  | .repo path => ∀ r, r ≠ [] → r <+: path.dropLast → t.lookup (.repo r) = some .dir

theorem endpoint_ok {t : FileTree} {p q : Place} (hp : p.Canonical)
    (h : endpoint t p = .ok q) : q = p ∧ Open t p := by
  cases p with
  | hold slot =>
    have hs : slot.accepted = true := hp
    simp only [endpoint, hs, if_true] at h
    exact ⟨(Except.ok.inj h).symm, hs⟩
  | repo path =>
    have hc : split path = .ok path := hp
    simp only [endpoint, hc] at h
    obtain ⟨_, hpath, h⟩ := UndoLog.bind_eq_ok.1 h
    obtain rfl := Except.ok.inj hpath
    obtain ⟨_, hd, h⟩ := UndoLog.bind_eq_ok.1 h
    exact ⟨(Except.ok.inj h).symm, walk_root.1 (directory_ok.1 hd)⟩

theorem endpoint_open {t : FileTree} {p : Place} (hp : p.Canonical) (ho : Open t p) :
    endpoint t p = .ok p := by
  cases p with
  | hold slot =>
    have hs : slot.accepted = true := hp
    simp [endpoint, hs]
  | repo path =>
    have hc : split path = .ok path := hp
    have hd : directory t path.dropLast = .ok () := directory_ok.2 (walk_root.2 ho)
    simp [endpoint, hc, hd, bind, Except.bind, pure, Except.pure]

section
variable [Host]

theorem evidenceOf_open {t : FileTree} {p : Place} (hp : p.Canonical) (ho : Open t p) :
    evidenceOf t p = childEvidence t p := by
  cases p with
  | hold slot =>
    have hs : slot.accepted = true := hp
    simp [evidenceOf, hs]
  | repo path =>
    have hc : split path = .ok path := hp
    have hw : walk t [] path.dropLast = .ok true := walk_root.2 ho
    simp [evidenceOf, fileEvidence, hc, hw, bind, Except.bind]

/-- What is seen at a place depends on the names it reads only. -/
theorem evidenceOf_congr {t t' : FileTree} {p : Place} (hp : p.Canonical)
    (h : ∀ q, p.Reads q → t'.lookup q = t.lookup q) : evidenceOf t' p = evidenceOf t p := by
  have hself := h p (reads_self p)
  cases p with
  | hold slot => simp only [evidenceOf, childEvidence, hself]
  | repo path =>
    have hc : split path = .ok path := hp
    have hw : walk t' [] path.dropLast = walk t [] path.dropLast :=
      walk_congr fun r _ hr => h (.repo r) (hr.trans (List.dropLast_prefix path))
    simp only [evidenceOf, fileEvidence, hc, bind, Except.bind, hw, childEvidence, hself]

theorem childEvidence_some {t : FileTree} {p : Place} {e : Evidence}
    (h : childEvidence t p = .ok (some e)) :
    t.lookup p = some (.file e.data e.mode) ∧ e.data.length ≤ maxContentFileBytes ∧
      e.sha256 = Host.sha256 e.data := by
  unfold childEvidence at h
  split at h
  · cases h
  · rename_i bytes mode hl
    split at h
    · rename_i hb
      obtain rfl := Option.some.inj (Except.ok.inj h)
      exact ⟨hl, hb, rfl⟩
    · cases h
  · cases h

theorem childEvidence_file {t : FileTree} {p : Place} {bytes : Bytes} {mode : ℕ}
    (h : t.lookup p = some (.file bytes mode)) (hb : bytes.length ≤ maxContentFileBytes) :
    childEvidence t p = .ok (some ⟨Host.sha256 bytes, mode, bytes⟩) := by
  simp [childEvidence, h, hb]

/-- A file that is seen stands under directories. -/
theorem evidenceOf_some {t : FileTree} {p : Place} {e : Evidence} (hp : p.Canonical)
    (h : evidenceOf t p = .ok (some e)) : Open t p ∧ childEvidence t p = .ok (some e) := by
  cases p with
  | hold slot =>
    have hs : slot.accepted = true := hp
    exact ⟨hs, by simpa [evidenceOf, hs] using h⟩
  | repo path =>
    have hc : split path = .ok path := hp
    simp only [evidenceOf, fileEvidence, hc] at h
    obtain ⟨_, hpath, h⟩ := UndoLog.bind_eq_ok.1 h
    obtain rfl := Except.ok.inj hpath
    obtain ⟨there, hw, h⟩ := UndoLog.bind_eq_ok.1 h
    cases there with
    | false => cases Except.ok.inj h
    | true => exact ⟨walk_root.1 hw, by simpa using h⟩

end

end RagPipeline.Application
