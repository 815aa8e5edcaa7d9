import Mathlib.Data.List.Basic

/-! # Codes that delimit themselves

An encoding whose end can be told from what follows it. Such codes are put one
after the other without losing where each ends. -/

set_option autoImplicit false

namespace RagPipeline.Wire

variable {α β γ : Type}

/-- Two texts that begin with codes of values in the domain begin with one code. -/
def Delimits (D : α → Prop) (code : α → List γ) : Prop :=
  ∀ a b s t, D a → D b → code a ++ s = code b ++ t → a = b ∧ s = t

theorem delimits_of_length {D : α → Prop} {code : α → List γ} (n : ℕ)
    (hlength : ∀ a, D a → (code a).length = n)
    (hinj : ∀ a b, D a → D b → code a = code b → a = b) : Delimits D code := by
  intro a b s t ha hb h
  have hsame : (code a).length = (code b).length := by rw [hlength a ha, hlength b hb]
  obtain ⟨hcode, hrest⟩ := List.append_inj h hsame
  exact ⟨hinj a b ha hb hcode, hrest⟩

/-- A length first, and then as many elements. -/
theorem delimits_counted {D : List γ → Prop} {count : ℕ → List γ}
    (hcount : Delimits (fun n => ∃ l, D l ∧ l.length = n) count) :
    Delimits D fun l => count l.length ++ l := by
  intro a b s t ha hb h
  rw [List.append_assoc, List.append_assoc] at h
  obtain ⟨hlength, hrest⟩ := hcount _ _ _ _ ⟨a, ha, rfl⟩ ⟨b, hb, rfl⟩ h
  exact List.append_inj hrest hlength

/-- A text without the mark, and then the mark. -/
theorem delimits_ended (c : γ) : Delimits (fun l => c ∉ l) fun l => l ++ [c] := by
  intro a b s t ha hb h
  rw [List.append_assoc, List.append_assoc] at h
  obtain ⟨w, hw, hrest⟩ | ⟨w, hw, hrest⟩ := List.append_eq_append_iff.1 h
  · cases w with
    | nil =>
      rw [List.append_nil] at hw
      exact ⟨hw.symm, (List.cons.inj hrest).2⟩
    | cons d w =>
      obtain rfl := (List.cons.inj hrest).1
      exact absurd (hw ▸ List.mem_append_right a List.mem_cons_self) hb
  · cases w with
    | nil =>
      rw [List.append_nil] at hw
      exact ⟨hw, ((List.cons.inj hrest).2).symm⟩
    | cons d w =>
      obtain rfl := (List.cons.inj hrest).1
      exact absurd (hw ▸ List.mem_append_right b List.mem_cons_self) ha

/-- Codes of which none is empty, one after the other, say what they encode. -/
theorem flatMap_injective {D : α → Prop} {code : α → List γ} (h : Delimits D code)
    (hne : ∀ a, D a → code a ≠ []) {l l' : List α} (hl : ∀ a ∈ l, D a) (hl' : ∀ a ∈ l', D a)
    (heq : l.flatMap code = l'.flatMap code) : l = l' := by
  induction l generalizing l' with
  | nil =>
    cases l' with
    | nil => rfl
    | cons b rest' =>
      rw [List.flatMap_nil, List.flatMap_cons] at heq
      have hnil := List.append_eq_nil_iff.1 heq.symm
      exact absurd hnil.1 (hne b (hl' b List.mem_cons_self))
  | cons a rest ih =>
    cases l' with
    | nil =>
      rw [List.flatMap_nil, List.flatMap_cons] at heq
      have hnil := List.append_eq_nil_iff.1 heq
      exact absurd hnil.1 (hne a (hl a List.mem_cons_self))
    | cons b rest' =>
      rw [List.flatMap_cons, List.flatMap_cons] at heq
      obtain ⟨hab, hrest⟩ := h a b _ _ (hl a List.mem_cons_self) (hl' b List.mem_cons_self) heq
      rw [hab, ih (fun x hx => hl x (List.mem_cons_of_mem a hx))
        (fun x hx => hl' x (List.mem_cons_of_mem b hx)) hrest]

/-- A value that may be absent, with a mark in front that tells. -/
def marked (absent present : γ) (code : α → List γ) : Option α → List γ
  | none => [absent]
  | some a => present :: code a

theorem delimits_marked {D : α → Prop} {code : α → List γ} (absent present : γ)
    (hne : absent ≠ present) (h : Delimits D code) :
    Delimits (fun o => ∀ a ∈ o, D a) (marked absent present code) := by
  intro a b s t ha hb hcode
  cases a with
  | none =>
    cases b with
    | none => exact ⟨rfl, (List.cons.inj hcode).2⟩
    | some b => exact absurd (List.cons.inj hcode).1 hne
  | some a =>
    cases b with
    | none => exact absurd (List.cons.inj hcode).1.symm hne
    | some b =>
      obtain ⟨hab, hst⟩ := h a b s t (ha a rfl) (hb b rfl) (List.cons.inj hcode).2
      exact ⟨congrArg some hab, hst⟩

end RagPipeline.Wire
