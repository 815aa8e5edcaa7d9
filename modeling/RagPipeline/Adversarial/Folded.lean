import RagPipeline.Adversarial.Locked
import Mathlib

/-! # What the folded report holds

The strings of a report stand in its folded text between marks, and the windows of a folded
text lie in every piece of it that is long enough. -/

set_option autoImplicit false

namespace RagPipeline.Locked
open Guard
open RagPipeline.JsonText (writeString writeInt writeChar)
open RagPipeline.Text (isSpace)
open RagPipeline.Words (words)

variable {F : Type}

/-! ## Folding keeps what has no blanks -/

section
variable {blank : Char → Bool}

end

/-- Letters, digits and three marks, with a newline behind them or none. -/
def Tame (t : Text) : Prop := ∃ w : Text, w.all isNameChar = true ∧ (t = w ∨ t = w ++ ['\n'])

theorem anchored_tame {p : Text → Bool} (hp : ∀ t, p t = true → t.all isNameChar = true) {t : Text}
    (h : anchored p t = true) : Tame t := by
  rw [anchored, Bool.or_eq_true, Bool.and_eq_true] at h
  rcases h with h | ⟨hlast, h⟩
  · exact ⟨t, hp t h, .inl rfl⟩
  · refine ⟨t.dropLast, hp _ h, .inr ?_⟩
    have hlast' : t.getLast? = some '\n' := by simpa using hlast
    obtain ⟨rest, rfl⟩ := List.getLast?_eq_some_iff.mp hlast'
    simp

mutual

/-- The keys and the string values. -/
def strings : Py F → List String
  | .none => []
  | .bool _ => []
  | .int _ => []
  | .float _ => []
  | .str s => [s]
  | .list items => stringsItems items
  | .dict ms => stringsMembers ms

def stringsItems : List (Py F) → List String
  | [] => []
  | v :: rest => strings v ++ stringsItems rest

def stringsMembers : List (String × Py F) → List String
  | [] => []
  | (k, v) :: rest => k :: (strings v ++ stringsMembers rest)

end

section
variable [Platform F]

theorem mem_infix_listed {part : Text} {parts : List Text} (h : part ∈ parts) : part <:+: listed parts := by
  induction parts with
  | nil => cases h
  | cons a parts ih =>
    cases parts with
    | nil =>
      rw [List.mem_singleton.mp h]
      exact List.infix_refl _
    | cons b parts =>
      rw [listed]
      rcases List.mem_cons.mp h with rfl | h
      · exact ⟨[], ',' :: ' ' :: listed (b :: parts), by simp⟩
      · exact (ih h).trans ⟨a ++ [',', ' '], [], by simp⟩

mutual

/-- Every key and string value is written between its quotes. -/
theorem string_within : ∀ (v : Py F) (s : String), s ∈ strings v → writeString false s.toList <:+: dumps v
  | .none, s, h => by cases h
  | .bool _, s, h => by cases h
  | .int _, s, h => by cases h
  | .float _, s, h => by cases h
  | .str t, s, h => by
    rw [strings, List.mem_singleton] at h
    subst h
    exact List.infix_refl _
  | .list items, s, h => by
    rw [strings] at h
    obtain ⟨part, hpart, hs⟩ := string_within_items items s h
    rw [dumps]
    exact (hs.trans (mem_infix_listed hpart)).trans ⟨['['], [']'], by simp⟩
  | .dict ms, s, h => by
    rw [strings] at h
    obtain ⟨part, hpart, hs⟩ := string_within_members ms s h
    rw [dumps]
    exact (hs.trans (mem_infix_listed hpart)).trans ⟨['{'], ['}'], by simp⟩

theorem string_within_items : ∀ (l : List (Py F)) (s : String), s ∈ stringsItems l →
    ∃ part ∈ dumpItems l, writeString false s.toList <:+: part
  | [], s, h => by cases h
  | v :: rest, s, h => by
    rw [stringsItems] at h
    rw [dumpItems]
    rcases List.mem_append.mp h with h | h
    · exact ⟨_, List.mem_cons_self, string_within v s h⟩
    · obtain ⟨part, hpart, hs⟩ := string_within_items rest s h
      exact ⟨part, List.mem_cons_of_mem _ hpart, hs⟩

theorem string_within_members : ∀ (ms : List (String × Py F)) (s : String), s ∈ stringsMembers ms →
    ∃ part ∈ dumpMembers ms, writeString false s.toList <:+: part
  | [], s, h => by cases h
  | (k, v) :: rest, s, h => by
    rw [stringsMembers] at h
    rw [dumpMembers]
    rcases List.mem_cons.mp h with rfl | h
    · exact ⟨_, List.mem_cons_self, ⟨[], ':' :: ' ' :: dumps v, by simp⟩⟩
    · rcases List.mem_append.mp h with h | h
      · refine ⟨_, List.mem_cons_self, (string_within v s h).trans ?_⟩
        exact ⟨writeString false k.toList ++ [':', ' '], [], by simp⟩
      · obtain ⟨part, hpart, hs⟩ := string_within_members rest s h
        exact ⟨part, List.mem_cons_of_mem _ hpart, hs⟩

end

/-- What is documented of the tables: ASCII letters between quotes are lowered one by one and
decompose to themselves, whatever stands around the quotes. -/
structure Documented (F : Type) [Platform F] : Prop where
  lower_ascii : ∀ s : Text, (∀ c ∈ s, c.toNat < 128) → Platform.lower F s = s.map Char.toLower
  nfkd_ascii : ∀ s : Text, (∀ c ∈ s, c.toNat < 128) → Platform.nfkd F s = s
  lower_quoted : ∀ x s y : Text, (∀ c ∈ s, c.toNat < 128) →
    Platform.lower F (x ++ '"' :: (s ++ '"' :: y)) =
      Platform.lower F x ++ '"' :: (s.map Char.toLower ++ '"' :: Platform.lower F y)
  nfkd_quoted : ∀ x s y : Text, (∀ c ∈ s, c.toNat < 128) →
    Platform.nfkd F (x ++ '"' :: (s ++ '"' :: y)) = Platform.nfkd F x ++ '"' :: (s ++ '"' :: Platform.nfkd F y)
  combining_ascii : ∀ c : Char, c.toNat < 128 → Platform.combining F c = false

/-- Plain characters: ASCII and no blank. -/
def PlainText (s : Text) : Prop := ∀ c ∈ s, c.toNat < 128 ∧ isSpace c = false

theorem PlainText.kept (hdoc : Documented F) {s : Text} (h : PlainText s) :
    s.filter (fun c => !Platform.combining F c) = s := by
  rw [List.filter_eq_self]
  intro c hc
  rw [hdoc.combining_ascii c (h c hc).1]
  rfl

end

/-! ## Dictionaries -/

mutual

/-- A dictionary has one entry for each key. -/
def Py.Proper : Py F → Prop
  | .none => True
  | .bool _ => True
  | .int _ => True
  | .float _ => True
  | .str _ => True
  | .list items => properItems items
  | .dict ms => (ms.map Prod.fst).Nodup ∧ properMembers ms

def properItems : List (Py F) → Prop
  | [] => True
  | v :: rest => v.Proper ∧ properItems rest

def properMembers : List (String × Py F) → Prop
  | [] => True
  | (_, v) :: rest => v.Proper ∧ properMembers rest

end

theorem properMembers_mem {ms : Members F} (h : properMembers ms) : ∀ p ∈ ms, p.2.Proper := by
  induction ms with
  | nil =>
    intro p hp
    cases hp
  | cons a ms ih =>
    obtain ⟨k, v⟩ := a
    rw [properMembers] at h
    intro p hp
    rcases List.mem_cons.mp hp with rfl | hp
    · exact h.1
    · exact ih h.2 p hp

theorem mem_stringsMembers {ms : Members F} {s : String} :
    s ∈ stringsMembers ms ↔ ∃ p ∈ ms, s = p.1 ∨ s ∈ strings p.2 := by
  induction ms with
  | nil => simp [stringsMembers]
  | cons a ms ih =>
    obtain ⟨k, v⟩ := a
    rw [stringsMembers, List.mem_cons, List.mem_append, ih]
    simp [or_assoc]

theorem lookup_of_mem {ms : Members F} (h : (ms.map Prod.fst).Nodup) {p : String × Py F} (hp : p ∈ ms) :
    ms.lookup p.1 = some p.2 := by
  induction ms with
  | nil => cases hp
  | cons a ms ih =>
    rw [List.map_cons, List.nodup_cons] at h
    rcases List.mem_cons.mp hp with rfl | hp
    · simp [List.lookup]
    · have hne : p.1 ≠ a.1 := fun he => h.1 (he ▸ List.mem_map_of_mem hp)
      have hbeq : (p.1 == a.1) = false := by simpa using hne
      simp only [List.lookup, hbeq]
      exact ih h.2 hp

theorem isStr_iff {v : Py F} {s : String} : isStr v s = true ↔ v = .str s := by
  cases v <;> simp [isStr]

theorem isNone_iff {v : Py F} : isNone v = true ↔ v = .none := by
  cases v <;> simp [isNone]

end RagPipeline.Locked
