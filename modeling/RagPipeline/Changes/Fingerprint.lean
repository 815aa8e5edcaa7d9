import RagPipeline.Changes.Repair
import RagPipeline.Lib.Wire

/-! # What a fingerprint is taken of

The bytes that are hashed say which changes there were: no path that imitates the
separators makes two lists of changes into one stream. -/

set_option autoImplicit false

namespace RagPipeline.Changes
open Wire

/-! ## The stream -/

def utf8Bytes (s : String) : List UInt8 := s.toByteArray.data.toList

/-- What `_fingerprint` hashes. -/
def stream (changes : List Change) : List UInt8 :=
  changes.flatMap fun c =>
    [0].intercalate [utf8Bytes c.path, utf8Bytes c.kind.text, utf8Bytes c.mode, utf8Bytes c.sha256] ++ [10]

/-- The text that it is the encoding of. -/
def preimage (changes : List Change) : Text :=
  changes.flatMap fun c => [Char.ofNat 0].intercalate
    [c.path.toList, c.kind.text.toList, c.mode.toList, c.sha256.toList] ++ ['\n']

theorem fingerprint_preimage (digest : Text → String) (changes : List Change) :
    fingerprint digest changes = digest (preimage changes) := rfl

theorem utf8Bytes_append (a b : String) : utf8Bytes (a ++ b) = utf8Bytes a ++ utf8Bytes b := by
  rw [utf8Bytes, String.toByteArray_append, ByteArray.data_append, Array.toList_append]
  rfl

theorem utf8Bytes_injective {a b : String} (h : utf8Bytes a = utf8Bytes b) : a = b := by
  apply String.toByteArray_inj.1
  apply ByteArray.ext
  exact Array.toList_inj.1 h

theorem intercalate_four {α : Type} (x : α) (a b c d : List α) :
    [x].intercalate [a, b, c, d] = a ++ [x] ++ (b ++ [x] ++ (c ++ [x] ++ d)) := by
  simp [List.intercalate]

theorem stream_preimage (changes : List Change) : stream changes = utf8Bytes (String.ofList (preimage changes)) := by
  induction changes with
  | nil => rfl
  | cons c rest ih =>
    have hsplit : String.ofList (preimage (c :: rest)) =
        c.path ++ "\x00" ++ (c.kind.text ++ "\x00" ++ (c.mode ++ "\x00" ++ c.sha256)) ++ "\n" ++
          String.ofList (preimage rest) := by
      apply String.toList_inj.1
      rw [preimage, List.flatMap_cons, intercalate_four]
      simp only [String.toList_ofList, String.toList_append]
      rfl
    rw [stream, List.flatMap_cons, hsplit, intercalate_four]
    simp only [utf8Bytes_append]
    rw [← ih]
    rfl

/-! ## Reading it back -/

/-- `oct`. -/
def oct (n : ℕ) : String := "0o" ++ String.ofList (Nat.toDigits 8 n)

/-- A digest in hexadecimal, or nothing where there is no content. -/
def Digest (s : String) : Prop :=
  s = "" ∨ s.toList.length = 64 ∧ ∀ d ∈ s.toList, d.isDigit ∨ 'a' ≤ d ∧ d ≤ 'f'

/-- The mode and the digest are such as `_entry_from` writes. -/
structure Change.Recorded (c : Change) : Prop where
  mode : ∃ n, c.mode = oct n
  digest : Digest c.sha256

theorem oct_chars {n : ℕ} {d : Char} (hd : d ∈ (oct n).toList) : d = 'o' ∨ d.isDigit := by
  rw [oct, String.toList_append] at hd
  cases List.mem_append.1 hd with
  | inl hhead =>
    have hhead' : d ∈ ['0', 'o'] := hhead
    simp only [List.mem_cons, List.not_mem_nil, or_false] at hhead'
    cases hhead' with
    | inl hzero =>
      right
      rw [hzero]
      decide
    | inr ho => exact Or.inl ho
  | inr htail =>
    rw [String.toList_ofList] at htail
    exact Or.inr (Nat.isDigit_of_mem_toDigits (by decide) (by decide) htail)

theorem kind_chars (k : ChangeKind) : Char.ofNat 0 ∉ k.text.toList := by
  cases k <;> decide

theorem kind_injective {k k' : ChangeKind} (h : k.text.toList = k'.text.toList) : k = k' := by
  cases k <;> cases k' <;> first | rfl | exact absurd h (by decide)

theorem mode_chars {c : Change} (hc : c.Recorded) : Char.ofNat 0 ∉ c.mode.toList := by
  obtain ⟨n, hn⟩ := hc.mode
  intro hmem
  rw [hn] at hmem
  cases oct_chars hmem with
  | inl ho => exact absurd ho (by decide)
  | inr hdigit => exact absurd hdigit (by decide)

theorem digest_chars {c : Change} (hc : c.Recorded) : '\n' ∉ c.sha256.toList := by
  intro hmem
  cases hc.digest with
  | inl hempty =>
    rw [hempty] at hmem
    cases hmem
  | inr hhex => exact absurd (hhex.2 '\n' hmem) (by decide)

/-- The path ends at the first NUL, the kind and the mode at the next two, and the digest at the
first end of a line after them. -/
theorem delimits_line :
    Delimits (fun c : Change => Char.ofNat 0 ∉ c.path.toList ∧ c.Recorded) fun c =>
      [Char.ofNat 0].intercalate [c.path.toList, c.kind.text.toList, c.mode.toList, c.sha256.toList] ++
        ['\n'] := by
  intro a b s t ha hb h
  simp only [intercalate_four, List.append_assoc] at h
  simp only [← List.append_assoc _ [Char.ofNat 0] _, ← List.append_assoc _ ['\n'] _] at h
  obtain ⟨hpath, h⟩ := delimits_ended (Char.ofNat 0) _ _ _ _ ha.1 hb.1 h
  obtain ⟨hkind, h⟩ := delimits_ended (Char.ofNat 0) _ _ _ _ (kind_chars a.kind) (kind_chars b.kind) h
  obtain ⟨hmode, h⟩ := delimits_ended (Char.ofNat 0) _ _ _ _ (mode_chars ha.2) (mode_chars hb.2) h
  obtain ⟨hdigest, h⟩ := delimits_ended '\n' _ _ _ _ (digest_chars ha.2) (digest_chars hb.2) h
  refine ⟨?_, h⟩
  cases a
  cases b
  congr
  · exact String.toList_inj.1 hpath
  · exact kind_injective hkind
  · exact String.toList_inj.1 hmode
  · exact String.toList_inj.1 hdigest

theorem stream_injective {changes changes' : List Change}
    (h : ∀ c ∈ changes, Char.ofNat 0 ∉ c.path.toList ∧ c.Recorded)
    (h' : ∀ c ∈ changes', Char.ofNat 0 ∉ c.path.toList ∧ c.Recorded)
    (heq : stream changes = stream changes') : changes = changes' := by
  rw [stream_preimage, stream_preimage] at heq
  have htext := String.ofList_injective (utf8Bytes_injective heq)
  apply flatMap_injective delimits_line _ h h' htext
  intro c _
  exact List.append_ne_nil_of_right_ne_nil _ (List.cons_ne_nil _ _)

theorem stream_injective_newline :
    stream [⟨"a", .added, oct 420, ""⟩, ⟨"b", .added, oct 420, ""⟩] ≠ stream [⟨"a\nb", .added, oct 420, ""⟩] := by
  intro h
  have hplain {path : String} (hpath : Char.ofNat 0 ∉ path.toList) :
      Char.ofNat 0 ∉ path.toList ∧ (Change.mk path .added (oct 420) "").Recorded :=
    ⟨hpath, ⟨420, rfl⟩, Or.inl rfl⟩
  have hlists := stream_injective (by
    intro c hc
    simp only [List.mem_cons, List.not_mem_nil, or_false] at hc
    cases hc with
    | inl ha =>
      rw [ha]
      exact hplain (by decide)
    | inr hb =>
      rw [hb]
      exact hplain (by decide)) (by
    intro c hc
    rw [List.mem_singleton.1 hc]
    exact hplain (by decide)) h
  exact absurd (congrArg List.length hlists) (by decide)

/-! ## What a change set holds -/

/-- A snapshot that `_entry_from` wrote. -/
structure Snap.Recorded (s : Snap) : Prop where
  mode : ∃ n, s.mode = oct n
  digest : Digest s.sha256

theorem classify_recorded {path : String} {left right : Option Snap} {c : Change}
    (hleft : ∀ s, left = some s → s.Recorded) (hright : ∀ s, right = some s → s.Recorded)
    (h : classify path left right = .ok (.change c)) : c.Recorded := by
  cases left with
  | none =>
    cases right with
    | none => cases h
    | some r =>
      simp only [classify] at h
      split at h <;> simp only [Except.ok.injEq, Found.change.injEq, reduceCtorEq] at h
      subst h
      exact ⟨(hright r rfl).mode, (hright r rfl).digest⟩
  | some l =>
    cases right with
    | none =>
      simp only [classify] at h
      split at h <;> simp only [Except.ok.injEq, Found.change.injEq, reduceCtorEq] at h
      subst h
      exact ⟨(hleft l rfl).mode, Or.inl rfl⟩
    | some r =>
      simp only [classify] at h
      split at h
      · cases h
      split at h
      · cases h
      split at h
      · cases h
      simp only [Except.ok.injEq, Found.change.injEq] at h
      subst h
      exact ⟨(hright r rfl).mode, (hright r rfl).digest⟩

/-- The changes that are hashed carry modes and digests as they were written. -/
theorem semanticChanges_recorded {before after : Projection} {changes : List Change}
    (hbefore : ∀ path s, before.get path = some s → s.Recorded)
    (hafter : ∀ path s, after.get path = some s → s.Recorded)
    (h : semanticChanges before after = .ok changes) : ∀ c ∈ changes, c.Recorded := by
  intro c hc
  exact classify_recorded (hbefore c.path) (hafter c.path) ((semantic_walked h).found c hc)

end RagPipeline.Changes
