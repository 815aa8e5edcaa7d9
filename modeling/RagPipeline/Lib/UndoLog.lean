import Mathlib.Data.List.Basic

/-! # Scripts that are undone from a log of intentions

A script is a list of steps run in order. Its undo walks an announced prefix
from its end, and the last announced step may or may not have happened. Two
facts about single steps are enough: undo reverses a step that happened, and
leaves alone a step that did not. -/

set_option autoImplicit false

namespace RagPipeline.UndoLog

variable {σ ε μ : Type}

def runAll (exec : μ → σ → Except ε σ) : List μ → σ → Except ε σ
  | [], s => .ok s
  | m :: rest, s => exec m s >>= runAll exec rest

def undoAll (undo : μ → σ → Except ε σ) : List μ → σ → Except ε σ
  | [], s => .ok s
  | m :: rest, s => undoAll undo rest s >>= undo m

def Reverses (exec undo : μ → σ → Except ε σ) (m : μ) : Prop :=
  ∀ s s', exec m s = .ok s' → undo m s' = .ok s

variable {exec undo : μ → σ → Except ε σ}

@[simp] theorem runAll_nil (s : σ) : runAll exec [] s = .ok s := rfl

@[simp] theorem runAll_cons (m : μ) (rest : List μ) (s : σ) :
    runAll exec (m :: rest) s = exec m s >>= runAll exec rest := rfl

@[simp] theorem undoAll_nil (s : σ) : undoAll undo [] s = .ok s := rfl

@[simp] theorem undoAll_cons (m : μ) (rest : List μ) (s : σ) :
    undoAll undo (m :: rest) s = undoAll undo rest s >>= undo m := rfl

theorem bind_eq_ok {α β : Type} {x : Except ε α} {f : α → Except ε β} {b : β} :
    x >>= f = .ok b ↔ ∃ a, x = .ok a ∧ f a = .ok b := by
  cases x with
  | error e => simp [bind, Except.bind]
  | ok a => simp [bind, Except.bind]

theorem runAll_append (done rest : List μ) (s : σ) :
    runAll exec (done ++ rest) s = runAll exec done s >>= runAll exec rest := by
  induction done generalizing s with
  | nil => rfl
  | cons m done ih =>
    simp only [List.cons_append, runAll_cons]
    cases exec m s with
    | error e => rfl
    | ok t => exact ih t

theorem runAll_concat {done : List μ} {m : μ} {s t t' : σ} (h : runAll exec done s = .ok t)
    (hm : exec m t = .ok t') : runAll exec (done ++ [m]) s = .ok t' := by
  rw [runAll_append, h]
  exact bind_eq_ok.2 ⟨t, rfl, bind_eq_ok.2 ⟨t', hm, rfl⟩⟩

theorem undoAll_append (done rest : List μ) (s : σ) :
    undoAll undo (done ++ rest) s = undoAll undo rest s >>= undoAll undo done := by
  induction done generalizing s with
  | nil => cases h : undoAll undo rest s <;> simp [h, bind, Except.bind]
  | cons m done ih =>
    simp only [List.cons_append, undoAll_cons, ih]
    cases undoAll undo rest s <;> rfl

theorem undoAll_concat {done : List μ} {m : μ} {s t : σ} (h : undo m s = .ok t) :
    undoAll undo (done ++ [m]) s = undoAll undo done t := by
  simp [undoAll_append, h, bind, Except.bind]

/-- Everything that was executed is reversed. -/
theorem undoAll_runAll (done : List μ) (hr : ∀ m ∈ done, Reverses exec undo m) (s s' : σ)
    (h : runAll exec done s = .ok s') : undoAll undo done s' = .ok s := by
  induction done generalizing s with
  | nil => exact congrArg Except.ok (Except.ok.inj h).symm
  | cons m done ih =>
    obtain ⟨t, hm, ht⟩ := bind_eq_ok.1 h
    simp only [undoAll_cons, ih (fun n hn => hr n (by simp [hn])) t ht]
    exact hr m (by simp) s t hm

/-- A step that was announced and never happened does not disturb the undo of
the steps before it. -/
theorem undoAll_announced (done : List μ) (hr : ∀ m ∈ done, Reverses exec undo m) (m : μ)
    (s s' : σ) (h : runAll exec done s = .ok s') (hm : undo m s' = .ok s') :
    undoAll undo (done ++ [m]) s' = .ok s := by
  rw [undoAll_concat hm]
  exact undoAll_runAll done hr s s' h

/-- Wherever the script stands, its next step is recognisably not done yet. -/
def Announceable (exec : μ → σ → Except ε σ) (pending : μ → σ → Prop) : List μ → σ → Prop
  | [], _ => True
  | m :: rest, s => pending m s ∧ ∀ s', exec m s = .ok s' → Announceable exec pending rest s'

variable {pending : μ → σ → Prop}

@[simp] theorem announceable_nil (s : σ) : Announceable exec pending [] s := trivial

@[simp] theorem announceable_cons (m : μ) (rest : List μ) (s : σ) :
    Announceable exec pending (m :: rest) s ↔
      pending m s ∧ ∀ s', exec m s = .ok s' → Announceable exec pending rest s' := Iff.rfl

theorem announceable_append (done rest : List μ) (s : σ) :
    Announceable exec pending (done ++ rest) s ↔
      Announceable exec pending done s ∧
        ∀ s', runAll exec done s = .ok s' → Announceable exec pending rest s' := by
  induction done generalizing s with
  | nil => simp
  | cons m done ih =>
    simp only [List.cons_append, announceable_cons, ih, runAll_cons, bind_eq_ok]
    constructor
    · rintro ⟨hm, h⟩
      exact ⟨⟨hm, fun t ht => (h t ht).1⟩, fun s' ⟨t, ht, hs'⟩ => (h t ht).2 s' hs'⟩
    · rintro ⟨⟨hm, h⟩, hrest⟩
      exact ⟨hm, fun t ht => ⟨h t ht, fun s' hs' => hrest s' ⟨t, ht, hs'⟩⟩⟩

theorem announceable_next {l : List μ} {s s' : σ} (h : Announceable exec pending l s) (k : ℕ)
    (hrun : runAll exec (l.take k) s = .ok s') {m : μ} (hm : l[k]? = some m) : pending m s' := by
  have hk : k < l.length := (List.getElem?_eq_some_iff.1 hm).1
  rw [← List.take_append_drop k l, announceable_append] at h
  have hdrop := h.2 s' hrun
  rw [List.drop_eq_getElem_cons hk] at hdrop
  rw [List.getElem?_eq_getElem hk] at hm
  exact Option.some.inj hm ▸ hdrop.1

/-- A script runs to its end where a step that is not done yet can be done. -/
theorem runAll_announceable {I : σ → Prop} {l : List μ} {s : σ}
    (h : Announceable exec pending l s) (hs : I s)
    (hstep : ∀ m ∈ l, ∀ s, pending m s → I s → ∃ s', exec m s = .ok s' ∧ I s') :
    ∃ s', runAll exec l s = .ok s' ∧ I s' := by
  induction l generalizing s with
  | nil => exact ⟨s, rfl, hs⟩
  | cons m rest ih =>
    obtain ⟨hm, hrest⟩ := h
    obtain ⟨t, ht, hinv⟩ := hstep m (by simp) s hm hs
    obtain ⟨s', hrun, hs'⟩ := ih (hrest t ht) hinv fun n hn => hstep n (by simp [hn])
    exact ⟨s', bind_eq_ok.2 ⟨t, ht, hrun⟩, hs'⟩

end RagPipeline.UndoLog
