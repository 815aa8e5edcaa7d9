import RagPipeline.Lib.JsonWrite
import Mathlib.Data.List.Forall2

/-! # Compact JSON

Arrays and objects written without blanks, and that the decoder reads them back
part by part. -/

set_option autoImplicit false

namespace RagPipeline.JsonText

/-- The parts with a comma between them. -/
def commas : List Text → Text
  | [] => []
  | [s] => s
  | s :: t :: rest => s ++ ',' :: commas (t :: rest)

def dumpArray (parts : List Text) : Text := '[' :: (commas parts ++ [']'])

/-- A name and what is written of its value. -/
def dumpMember (m : Text × Text) : Text := writeString false m.1 ++ ':' :: m.2

def dumpObject (fields : List (Text × Text)) : Text := '{' :: (commas (fields.map dumpMember) ++ ['}'])

variable {V : Type} {hooks : Hooks V}

/-- A text that is read as the value, whatever ends it. -/
structure Decodes (hooks : Hooks V) (s : Text) (v : V) : Prop where
  begins : Begins s
  value : ∀ fuel rest, s.length ≤ fuel → Ends rest → value hooks fuel (s ++ rest) = some (v, rest)

theorem ends_nil : Ends [] := by
  intro c tail h
  cases h

theorem ends_comma (rest : Text) : Ends (',' :: rest) := by
  intro c tail h
  exact Or.inl (List.cons.inj h).1.symm

theorem ends_bracket (rest : Text) : Ends (']' :: rest) := by
  intro c tail h
  exact Or.inr (Or.inl (List.cons.inj h).1.symm)

theorem ends_brace (rest : Text) : Ends ('}' :: rest) := by
  intro c tail h
  exact Or.inr (Or.inr (Or.inl (List.cons.inj h).1.symm))

theorem Decodes.loads {s : Text} {v : V} (h : Decodes hooks s v) : loads hooks s = some v := by
  have hvalue := h.value (s.length + 1) [] (by omega) ends_nil
  rw [List.append_nil] at hvalue
  exact loads_value h.begins hvalue

/-! ## Scalars -/

theorem decodes_string (ascii : Bool) (t : Text) : Decodes hooks (writeString ascii t) (hooks.str t) := by
  constructor
  · exact begins_writeString ascii t
  · intro fuel rest hfuel _
    cases fuel with
    | zero =>
      rw [writeString, List.length_cons] at hfuel
      omega
    | succ fuel => exact value_string fuel ascii t rest

theorem decodes_int {n : ℤ} {v : V} (hv : hooks.int (writeInt n) = some v) :
    Decodes hooks (writeInt n) v := by
  have hnumber : number (writeInt n) = some (writeInt n, false, []) := by
    have h := number_writeInt n ends_nil
    rwa [List.append_nil] at h
  have hbegins := begins_number hnumber
  constructor
  · exact hbegins
  · intro fuel rest hfuel hrest
    cases fuel with
    | zero =>
      obtain ⟨c, tail, hs, -⟩ := hbegins
      rw [hs, List.length_cons] at hfuel
      omega
    | succ fuel =>
      rw [value_number fuel (number_writeInt n hrest), if_neg (by decide), hv]
      rfl

/-! ## Arrays -/

theorem begins_commas {s : Text} {parts : List Text} (h : Begins s) : Begins (commas (s :: parts)) := by
  cases parts with
  | nil => exact h
  | cons t rest => exact h.append _

theorem commas_items {parts : List Text} {vs : List V} (h : List.Forall₂ (Decodes hooks) parts vs)
    (hne : parts ≠ []) {fuel : ℕ} (hfuel : (commas parts).length < fuel) (rest : Text) :
    items hooks fuel (commas parts ++ ']' :: rest) = some (vs, rest) := by
  induction h generalizing fuel with
  | nil => exact absurd rfl hne
  | @cons s v parts vs hs hparts ih =>
    cases fuel with
    | zero => omega
    | succ fuel =>
      cases hparts with
      | nil =>
        have hlength : s.length ≤ fuel := by
          rw [commas] at hfuel
          omega
        exact items_last (hs.value fuel _ hlength (ends_bracket rest))
      | @cons t w parts vs ht hmore =>
        rw [commas, List.length_append, List.length_cons] at hfuel
        have hvalue := hs.value fuel (',' :: (commas (t :: parts) ++ ']' :: rest)) (by omega)
          (ends_comma _)
        have hskip : skip (commas (t :: parts) ++ ']' :: rest) = commas (t :: parts) ++ ']' :: rest :=
          ((begins_commas ht.begins).append _).skip
        have hcomma : ∀ s : Text, skip (',' :: s) = ',' :: s := fun _ => rfl
        have hrest := ih (by simp) (by omega : (commas (t :: parts)).length < fuel)
        rw [commas, List.append_assoc, List.cons_append, items, hvalue, Option.bind_some]
        simp only [hcomma, hskip, hrest, Option.map_some]

/-- An array is read as the list of what its parts are read as. -/
theorem decodes_array {parts : List Text} {vs : List V} (h : List.Forall₂ (Decodes hooks) parts vs) :
    Decodes hooks (dumpArray parts) (hooks.arr vs) := by
  constructor
  · exact ⟨'[', _, rfl, by decide, by decide, by decide, by decide⟩
  · intro fuel rest hfuel _
    rw [dumpArray, List.length_cons, List.length_append, List.length_singleton] at hfuel
    cases fuel with
    | zero => omega
    | succ fuel =>
      rw [dumpArray, List.cons_append, List.append_assoc, List.singleton_append]
      cases h with
      | nil =>
        rw [value, if_neg (by decide), if_neg (by decide), if_pos rfl]
        rfl
      | @cons s v parts vs hs hmore =>
        have hitems := commas_items (.cons hs hmore) (by simp)
          (by omega : (commas (s :: parts)).length < fuel) rest
        exact value_array hitems ((begins_commas hs.begins).append _)

/-! ## Objects -/

/-- A field as it is written and as it is read. -/
def DecodesField (hooks : Hooks V) (f : Text × Text) (m : Text × V) : Prop :=
  f.1 = m.1 ∧ Decodes hooks f.2 m.2

theorem begins_dumpMember (f : Text × Text) : Begins (dumpMember f) :=
  (begins_writeString false f.1).append _

/-- One member, up to what stands behind it. -/
theorem dumpMember_members {f : Text × Text} {m : Text × V} (h : DecodesField hooks f m) {fuel : ℕ}
    (hfuel : (dumpMember f).length ≤ fuel) {rest : Text} (hrest : Ends rest) :
    members hooks (fuel + 1) (dumpMember f ++ rest) =
      match skip rest with
      | '}' :: rest => some ([m], rest)
      | ',' :: rest => (members hooks fuel (skip rest)).map fun (ms, rest) => (m :: ms, rest)
      | _ => none := by
  obtain ⟨key, text⟩ := f
  obtain ⟨key', v⟩ := m
  have hkey : key = key' := h.1
  have htext : Decodes hooks text v := h.2
  subst hkey
  have hdump : dumpMember (key, text) = writeString false key ++ ':' :: text := rfl
  have hlength : text.length ≤ fuel := by
    rw [hdump, List.length_append, List.length_cons] at hfuel
    omega
  have hwhole : dumpMember (key, text) ++ rest =
      '"' :: (key.flatMap (writeChar false) ++ '"' :: ':' :: (text ++ rest)) := by
    rw [hdump, writeString, List.append_assoc, List.cons_append, List.cons_append, List.append_assoc]
    rfl
  have hcolon : ∀ s : Text, skip (':' :: s) = ':' :: s := fun _ => rfl
  have hvalue := htext.value fuel rest hlength hrest
  have hskip : skip (text ++ rest) = text ++ rest := (htext.begins.append rest).skip
  rw [hwhole, members, if_pos rfl]
  simp only [string_write, Option.bind_some, hcolon, hskip, hvalue]
  all_goals rfl

theorem commas_members {fields : List (Text × Text)} {ms : List (Text × V)}
    (h : List.Forall₂ (DecodesField hooks) fields ms) (hne : fields ≠ []) {fuel : ℕ}
    (hfuel : (commas (fields.map dumpMember)).length < fuel) (rest : Text) :
    members hooks fuel (commas (fields.map dumpMember) ++ '}' :: rest) = some (ms, rest) := by
  induction h generalizing fuel with
  | nil => exact absurd rfl hne
  | @cons f m fields ms hf hfields ih =>
    cases fuel with
    | zero => omega
    | succ fuel =>
      cases hfields with
      | nil =>
        have hlength : (dumpMember f).length ≤ fuel := by
          rw [List.map_cons, List.map_nil, commas] at hfuel
          omega
        rw [List.map_cons, List.map_nil, commas, dumpMember_members hf hlength (ends_brace rest)]
        rfl
      | @cons g w fields ms hg hmore =>
        rw [List.map_cons, List.map_cons, commas, ← List.map_cons, List.length_append,
          List.length_cons] at hfuel
        have hcomma : ∀ s : Text, skip (',' :: s) = ',' :: s := fun _ => rfl
        have hskip : skip (commas ((g :: fields).map dumpMember) ++ '}' :: rest) =
            commas ((g :: fields).map dumpMember) ++ '}' :: rest :=
          ((begins_commas (begins_dumpMember g)).append _).skip
        have hrest := ih (by simp)
          (by omega : (commas ((g :: fields).map dumpMember)).length < fuel)
        rw [List.map_cons, List.map_cons, commas, ← List.map_cons, List.append_assoc,
          List.cons_append, dumpMember_members hf (by omega) (ends_comma _)]
        simp only [hcomma, hskip, hrest, Option.map_some]

/-- An object is read as what the hook makes of its members. -/
theorem decodes_object {fields : List (Text × Text)} {ms : List (Text × V)} {v : V}
    (h : List.Forall₂ (DecodesField hooks) fields ms) (hne : fields ≠ []) (hv : hooks.obj ms = some v) :
    Decodes hooks (dumpObject fields) v := by
  constructor
  · exact ⟨'{', _, rfl, by decide, by decide, by decide, by decide⟩
  · intro fuel rest hfuel _
    rw [dumpObject, List.length_cons, List.length_append, List.length_singleton] at hfuel
    cases fuel with
    | zero => omega
    | succ fuel =>
      rw [dumpObject, List.cons_append, List.append_assoc, List.singleton_append]
      cases fields with
      | nil => exact absurd rfl hne
      | cons f fields =>
        have hmembers := commas_members h hne
          (by omega : (commas ((f :: fields).map dumpMember)).length < fuel) rest
        exact value_object hmembers hv ((begins_commas (begins_dumpMember f)).append _)

end RagPipeline.JsonText

/-! # Every spelling of a JSON text

Strings with any escapes and arrays with any blanks between their parts, what the
decoder makes of them, and the scan for the bracket that closes the first one. -/

namespace RagPipeline.JsonText

def Blank (b : Text) : Prop := ∀ c ∈ b, isBlank c = true

theorem blank_nil : Blank [] := by
  intro c hc
  cases hc

theorem blank_one : Blank [' '] := by
  intro c hc
  rw [List.mem_singleton.1 hc]
  decide

theorem Blank.skip {b : Text} (h : Blank b) (s : Text) : skip (b ++ s) = skip s :=
  List.dropWhile_append_of_pos h

theorem skip_head {c : Char} (hc : isBlank c = false) (s : Text) : skip (c :: s) = c :: s := by
  rw [skip, List.dropWhile_cons_of_neg (by simp [hc])]

/-! ## Strings and arrays -/

/-- A text between quotes that is read as the string, whatever stands behind it. -/
def Spells (t s : Text) : Prop :=
  ∃ q, s = '"' :: (q ++ ['"']) ∧ ∀ rest, string none .plain (q ++ '"' :: rest) = some (t, rest)

theorem spells_writeString (ascii : Bool) (t : Text) : Spells t (writeString ascii t) :=
  ⟨t.flatMap (writeChar ascii), rfl, string_write ascii t⟩

theorem Spells.quoted {t s : Text} (h : Spells t s) : ∃ q, s = '"' :: (q ++ ['"']) ∧ Quoted q := by
  obtain ⟨q, rfl, hread⟩ := h
  obtain ⟨q', hq', hquoted⟩ := string_split (hread [])
  rw [List.append_cancel_right hq']
  exact ⟨q', rfl, hquoted⟩

section
variable {α : Type}

/-- From behind an opening bracket to the closing one, with blanks wherever they may
stand. -/
inductive Closes (R : α → Text → Prop) : List α → Text → Prop
  | empty {b : Text} : Blank b → Closes R [] (b ++ [']'])
  | last {b b' s : Text} {x : α} :
      Blank b → R x s → Blank b' → Closes R [x] (b ++ (s ++ (b' ++ [']'])))
  | more {b b' s body : Text} {x y : α} {xs : List α} :
      Blank b → R x s → Blank b' → Closes R (y :: xs) body →
        Closes R (x :: y :: xs) (b ++ (s ++ (b' ++ ',' :: body)))

def ArrayOf (R : α → Text → Prop) (xs : List α) (s : Text) : Prop :=
  ∃ body, s = '[' :: body ∧ Closes R xs body

variable {V : Type} {hooks : Hooks V} {R : α → Text → Prop} {J : α → V}

/-- Every spelling of a thing is read as its value, whatever stands behind it. -/
structure ReadsAs (hooks : Hooks V) (R : α → Text → Prop) (J : α → V) : Prop where
  begins : ∀ x s, R x s → Begins s
  value : ∀ x s, R x s → ∀ fuel rest, s.length ≤ fuel → value hooks fuel (s ++ rest) = some (J x, rest)

theorem spells_reads (hooks : Hooks V) : ReadsAs hooks Spells hooks.str := by
  constructor
  · intro t s hs
    obtain ⟨q, rfl, -⟩ := hs
    exact ⟨'"', q ++ ['"'], rfl, by decide, by decide, by decide, by decide⟩
  · intro t s hs fuel rest hfuel
    obtain ⟨q, rfl, hread⟩ := hs
    cases fuel with
    | zero => simp at hfuel
    | succ fuel =>
      rw [List.cons_append, List.append_assoc, value, if_pos rfl]
      simp only [List.singleton_append, hread, Option.map_some]

theorem closes_items (hR : ReadsAs hooks R J) {xs : List α} {body : Text} (h : Closes R xs body)
    (hne : xs ≠ []) {fuel : ℕ} (hfuel : body.length ≤ fuel) (rest : Text) :
    items hooks fuel (skip (body ++ rest)) = some (xs.map J, rest) := by
  induction h generalizing fuel with
  | empty _ => exact absurd rfl hne
  | @last b b' s x hb hs hb' =>
    simp only [List.length_append, List.length_singleton] at hfuel
    cases fuel with
    | zero => omega
    | succ fuel =>
      have hvalue := hR.value x s hs fuel (b' ++ ']' :: rest) (by omega)
      have hafter : skip (b' ++ ']' :: rest) = ']' :: rest :=
        (hb'.skip _).trans (skip_head (by decide) rest)
      rw [List.append_assoc, hb.skip, List.append_assoc, ((hR.begins x s hs).append _).skip,
        List.append_assoc, List.singleton_append, items, hvalue, Option.bind_some]
      simp only [hafter, List.map_cons, List.map_nil]
  | @more b b' s body x y xs hb hs hb' _ ih =>
    simp only [List.length_append, List.length_cons] at hfuel
    cases fuel with
    | zero => omega
    | succ fuel =>
      have hvalue := hR.value x s hs fuel (b' ++ ',' :: (body ++ rest)) (by omega)
      have hafter : skip (b' ++ ',' :: (body ++ rest)) = ',' :: (body ++ rest) :=
        (hb'.skip _).trans (skip_head (by decide) _)
      rw [List.append_assoc, hb.skip, List.append_assoc, ((hR.begins x s hs).append _).skip,
        List.append_assoc, List.cons_append, items, hvalue, Option.bind_some]
      simp only [hafter, ih (by simp) (by omega : body.length ≤ fuel), Option.map_some,
        List.map_cons]

theorem begins_array {xs : List α} {s : Text} (h : ArrayOf R xs s) : Begins s := by
  obtain ⟨body, rfl, -⟩ := h
  exact ⟨'[', body, rfl, by decide, by decide, by decide, by decide⟩

theorem closes_head {xs : List α} {body : Text} (hR : ReadsAs hooks R J) (h : Closes R xs body)
    (hne : xs ≠ []) (rest : Text) : Begins (skip (body ++ rest)) := by
  cases h with
  | empty _ => exact absurd rfl hne
  | @last b b' s x hb hs hb' =>
    rw [List.append_assoc, hb.skip, List.append_assoc, ((hR.begins x s hs).append _).skip]
    exact (hR.begins x s hs).append _
  | @more b b' s body x y xs hb hs hb' _ =>
    rw [List.append_assoc, hb.skip, List.append_assoc, ((hR.begins x s hs).append _).skip]
    exact (hR.begins x s hs).append _

/-- An array is read as the list of what its parts are read as. -/
theorem array_reads (hR : ReadsAs hooks R J) :
    ReadsAs hooks (ArrayOf R) fun xs => hooks.arr (xs.map J) := by
  constructor
  · intro xs s hs
    exact begins_array hs
  · intro xs s hs fuel rest hfuel
    obtain ⟨body, rfl, hbody⟩ := hs
    rw [List.length_cons] at hfuel
    cases fuel with
    | zero => omega
    | succ fuel =>
      cases xs with
      | nil =>
        obtain @⟨b, hb⟩ := hbody
        have hskip : skip (b ++ [']'] ++ rest) = ']' :: rest := by
          rw [List.append_assoc, hb.skip]
          exact skip_head (by decide) rest
        rw [List.cons_append, value, if_neg (by decide), if_neg (by decide), if_pos rfl, hskip]
        rfl
      | cons x xs =>
        have hitems := closes_items hR hbody (by simp) (by omega : body.length ≤ fuel) rest
        have hbegins := closes_head hR hbody (by simp) rest
        have hvalue := value_array hitems hbegins
        rw [value, if_neg (by decide), if_neg (by decide), if_pos rfl, hbegins.skip] at hvalue
        rw [List.cons_append, value, if_neg (by decide), if_neg (by decide), if_pos rfl]
        exact hvalue

/-- A text that is one value and no more. -/
theorem loads_reads (hR : ReadsAs hooks R J) {x : α} {s : Text} (h : R x s) :
    loads hooks s = some (J x) := by
  have hvalue := hR.value x s h (s.length + 1) [] (by omega)
  rw [List.append_nil] at hvalue
  exact loads_value (hR.begins x s h) hvalue

theorem closes_last {xs : List α} {body : Text} (h : Closes R xs body) :
    ∃ before, body = before ++ [']'] := by
  induction h with
  | empty _ => exact ⟨_, rfl⟩
  | @last b b' s x _ _ _ => exact ⟨b ++ (s ++ b'), by simp⟩
  | @more b b' s body x y xs _ _ _ _ ih =>
    obtain ⟨before, rfl⟩ := ih
    exact ⟨b ++ (s ++ (b' ++ ',' :: before)), by simp⟩

/-- An array is one container. -/
theorem array_container (hR : ReadsAs hooks R J) {xs : List α} {s : Text} (h : ArrayOf R xs s) :
    Container s := by
  have hloads := loads_reads (array_reads hR) h
  obtain ⟨body, rfl, hbody⟩ := h
  obtain ⟨before, rfl⟩ := closes_last hbody
  apply loads_container hloads rfl (.inr rfl)
  intro c hc
  rw [← List.cons_append, List.getLast?_concat] at hc
  obtain rfl := Option.some.inj hc
  decide

/-! ## Writing -/

/-- The parts with a comma and a blank between them. -/
def writeItems (write : α → Text) : List α → Text
  | [] => []
  | [x] => write x
  | x :: y :: xs => write x ++ ',' :: ' ' :: writeItems write (y :: xs)

def writeArray (write : α → Text) (xs : List α) : Text := '[' :: (writeItems write xs ++ [']'])

theorem closes_write {write : α → Text} (hwrite : ∀ x, R x (write x)) (xs : List α) {b : Text}
    (hb : Blank b) : Closes R xs (b ++ (writeItems write xs ++ [']'])) := by
  induction xs generalizing b with
  | nil => exact .empty hb
  | cons x xs ih =>
    cases xs with
    | nil => exact .last hb (hwrite x) blank_nil
    | cons y xs =>
      rw [writeItems, List.append_assoc]
      exact .more hb (hwrite x) blank_nil (ih blank_one)

theorem array_write {write : α → Text} (hwrite : ∀ x, R x (write x)) (xs : List α) :
    ArrayOf R xs (writeArray write xs) :=
  ⟨_, rfl, closes_write hwrite xs blank_nil⟩

end

/-! ## Members -/

/-- A name, a colon and a value. -/
def Member {α : Type} (key : Text) (R : α → Text → Prop) (x : α) (s : Text) : Prop :=
  ∃ b b' v, Blank b ∧ Blank b' ∧ R x v ∧ s = '"' :: (key ++ '"' :: (b ++ ':' :: (b' ++ v)))

/-- An object with two members. -/
def Pair (first second : Text → Prop) (s : Text) : Prop :=
  ∃ b₁ s₁ b₂ b₃ s₂ b₄, Blank b₁ ∧ first s₁ ∧ Blank b₂ ∧ Blank b₃ ∧ second s₂ ∧ Blank b₄ ∧
    s = '{' :: (b₁ ++ (s₁ ++ (b₂ ++ ',' :: (b₃ ++ (s₂ ++ (b₄ ++ ['}']))))))

section
variable {α β V : Type} {hooks : Hooks V} {R : α → Text → Prop} {J : α → V} {S : β → Text → Prop}
  {K : β → V} {key key' : Text}

theorem member_value (hR : ReadsAs hooks R J)
    (hkey : ∀ rest, string none .plain (key ++ '"' :: rest) = some (key, rest)) {x : α} {s : Text}
    (h : Member key R x s) {fuel : ℕ} (hfuel : s.length ≤ fuel) (rest : Text) :
    members hooks (fuel + 1) (s ++ rest) =
      match skip rest with
      | '}' :: rest => some ([(key, J x)], rest)
      | ',' :: rest => (members hooks fuel (skip rest)).map fun (ms, rest) => ((key, J x) :: ms, rest)
      | _ => none := by
  obtain ⟨b, b', v, hb, hb', hv, rfl⟩ := h
  simp only [List.length_cons, List.length_append] at hfuel
  have hcolon : skip (b ++ ':' :: (b' ++ (v ++ rest))) = ':' :: (b' ++ (v ++ rest)) :=
    (hb.skip _).trans (skip_head (by decide) _)
  have hskip : skip (b' ++ (v ++ rest)) = v ++ rest :=
    (hb'.skip _).trans ((hR.begins x v hv).append rest).skip
  have hvalue := hR.value x v hv fuel rest (by omega)
  have hassoc : key ++ '"' :: (b ++ ':' :: (b' ++ v)) ++ rest =
      key ++ '"' :: (b ++ ':' :: (b' ++ (v ++ rest))) := by simp
  rw [List.cons_append, hassoc, members, if_pos rfl, hkey, Option.bind_some]
  simp only [hcolon, hskip, hvalue, Option.bind_some]
  all_goals rfl

theorem begins_member {x : α} {s : Text} (h : Member key R x s) : Begins s := by
  obtain ⟨b, b', v, -, -, -, rfl⟩ := h
  exact ⟨'"', _, rfl, by decide, by decide, by decide, by decide⟩

theorem pair_loads (hR : ReadsAs hooks R J) (hS : ReadsAs hooks S K)
    (hkey : ∀ rest, string none .plain (key ++ '"' :: rest) = some (key, rest))
    (hkey' : ∀ rest, string none .plain (key' ++ '"' :: rest) = some (key', rest)) {x : α} {y : β}
    {s : Text} {o : V} (h : Pair (Member key R x) (Member key' S y) s)
    (ho : hooks.obj [(key, J x), (key', K y)] = some o) : loads hooks s = some o := by
  obtain ⟨b₁, s₁, b₂, b₃, s₂, b₄, hb₁, h₁, hb₂, hb₃, h₂, hb₄, rfl⟩ := h
  have hlast : skip (b₄ ++ ['}']) = ['}'] := (hb₄.skip _).trans (skip_head (by decide) [])
  have hsecond : ∀ fuel, s₂.length ≤ fuel →
      members hooks (fuel + 1) (skip (b₃ ++ (s₂ ++ (b₄ ++ ['}'])))) = some ([(key', K y)], []) := by
    intro fuel hfuel
    rw [hb₃.skip, ((begins_member h₂).append _).skip, member_value hS hkey' h₂ hfuel, hlast]
    rfl
  have hcomma : skip (b₂ ++ ',' :: (b₃ ++ (s₂ ++ (b₄ ++ ['}'])))) =
      ',' :: (b₃ ++ (s₂ ++ (b₄ ++ ['}']))) := (hb₂.skip _).trans (skip_head (by decide) _)
  have hbegins : Begins (s₁ ++ (b₂ ++ ',' :: (b₃ ++ (s₂ ++ (b₄ ++ ['}']))))) :=
    (begins_member h₁).append _
  apply loads_value
  · exact ⟨'{', _, rfl, by decide, by decide, by decide, by decide⟩
  rw [List.length_cons]
  have hmembers : ∀ fuel, s₁.length + s₂.length + 1 ≤ fuel →
      members hooks (fuel + 1) (s₁ ++ (b₂ ++ ',' :: (b₃ ++ (s₂ ++ (b₄ ++ ['}']))))) =
        some ([(key, J x), (key', K y)], []) := by
    intro fuel hfuel
    rw [member_value hR hkey h₁ (by omega), hcomma]
    cases fuel with
    | zero => omega
    | succ fuel =>
      simp only [hsecond fuel (by omega), Option.map_some]
  have hlength : s₁.length + s₂.length + 1 ≤
      (b₁ ++ (s₁ ++ (b₂ ++ ',' :: (b₃ ++ (s₂ ++ (b₄ ++ ['}'])))))).length := by
    simp only [List.length_append, List.length_cons, List.length_nil]
    omega
  have hvalue := value_object (hmembers _ hlength) ho hbegins
  rw [value, if_neg (by decide), if_pos rfl, hbegins.skip] at hvalue
  rw [value, if_neg (by decide), if_pos rfl, hb₁.skip, hbegins.skip]
  exact hvalue

end

end RagPipeline.JsonText
