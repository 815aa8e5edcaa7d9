import RagPipeline.Lib.JsonLayout
import RagPipeline.Lib.Text

/-! # Brackets and names in raw text

`_extract_balanced`, and the regular expression that looks for a name with an array
behind it: what both find in a text that is cut off is what they find in the whole. -/

set_option autoImplicit false

namespace RagPipeline.Extraction
open RagPipeline.JsonText
open RagPipeline.Text (isSpace)

/-! ## The closing bracket -/

def keep (c : Char) (r : Option JsonText.Text) : Option JsonText.Text := r.map fun t => c :: t

/-- The loop: whether it is in a string, behind a backslash, and how deep. -/
def balanced (opening closing : Char) : Bool → Bool → ℤ → JsonText.Text → Option JsonText.Text
  | _, _, _, [] => none
  | inStr, esc, depth, c :: rest =>
    if inStr then
      if esc then keep c (balanced opening closing true false depth rest)
      else if c = '\\' then keep c (balanced opening closing true true depth rest)
      else if c = '"' then keep c (balanced opening closing false esc depth rest)
      else keep c (balanced opening closing true esc depth rest)
    else if c = '"' then keep c (balanced opening closing true esc depth rest)
    else if c = opening then keep c (balanced opening closing false esc (depth + 1) rest)
    else if c = closing then
      if depth - 1 = 0 then some [c]
      else keep c (balanced opening closing false esc (depth - 1) rest)
    else keep c (balanced opening closing false esc depth rest)

/-- `_extract_balanced`, on the text from the opening bracket on. -/
def extractBalanced : JsonText.Text → Option JsonText.Text
  | [] => none
  | opening :: rest =>
    balanced opening (if opening = '[' then ']' else '\x7d') false false 0 (opening :: rest)

section
variable {o c : Char} {r s t rest : JsonText.Text}

theorem keep_some {d : Char} {x : Option JsonText.Text} (h : keep d x = some r) :
    ∃ r', x = some r' ∧ r = d :: r' := by
  obtain ⟨r', hr', rfl⟩ := Option.map_eq_some_iff.1 h
  exact ⟨r', hr', rfl⟩

theorem balanced_cons {inStr esc : Bool} {depth : ℤ} {d : Char} :
    balanced o c inStr esc depth (d :: s) =
      if inStr then
        if esc then keep d (balanced o c true false depth s)
        else if d = '\\' then keep d (balanced o c true true depth s)
        else if d = '"' then keep d (balanced o c false esc depth s)
        else keep d (balanced o c true esc depth s)
      else if d = '"' then keep d (balanced o c true esc depth s)
      else if d = o then keep d (balanced o c false esc (depth + 1) s)
      else if d = c then
        if depth - 1 = 0 then some [d] else keep d (balanced o c false esc (depth - 1) s)
      else keep d (balanced o c false esc depth s) := rfl

/-- What is found is not changed by what stands behind the text. -/
theorem balanced_append {inStr esc : Bool} {depth : ℤ} (h : balanced o c inStr esc depth s = some r)
    (t : JsonText.Text) : balanced o c inStr esc depth (s ++ t) = some r ∧ r <+: s := by
  induction s generalizing inStr esc depth r with
  | nil => cases h
  | cons d s ih =>
    have hkeep : ∀ {inStr' esc' : Bool} {depth' : ℤ},
        keep d (balanced o c inStr' esc' depth' s) = some r →
          keep d (balanced o c inStr' esc' depth' (s ++ t)) = some r ∧ r <+: d :: s := by
      intro inStr' esc' depth' hd
      obtain ⟨r', hr', rfl⟩ := keep_some hd
      obtain ⟨hmore, hprefix⟩ := ih hr'
      constructor
      · rw [hmore]
        rfl
      · exact List.cons_prefix_cons.2 ⟨rfl, hprefix⟩
    rw [balanced_cons] at h
    rw [List.cons_append, balanced_cons]
    split_ifs at h ⊢
    · exact hkeep h
    · exact hkeep h
    · exact hkeep h
    · exact hkeep h
    · exact hkeep h
    · exact hkeep h
    · obtain rfl := Option.some.inj h
      exact ⟨rfl, List.cons_prefix_cons.2 ⟨rfl, List.nil_prefix⟩⟩
    · exact hkeep h
    · exact hkeep h

theorem extractBalanced_append (h : extractBalanced s = some r) (t : JsonText.Text) :
    extractBalanced (s ++ t) = some r ∧ r <+: s := by
  cases s with
  | nil => cases h
  | cons d s => exact balanced_append h t

theorem keep_append (d : Char) (x : Option JsonText.Text) (s : JsonText.Text) :
    keep d (x.map fun t => s ++ t) = x.map fun t => d :: s ++ t := by
  cases x <;> rfl

theorem balanced_quoted {q : JsonText.Text} (hq : Quoted q) (depth : ℤ) (rest : JsonText.Text) :
    balanced o c true false depth (q ++ '"' :: rest) =
      (balanced o c false false depth rest).map fun t => q ++ ['"'] ++ t := by
  induction hq with
  | nil => rfl
  | @plain d q hquote hescape _ ih =>
    rw [List.cons_append, balanced_cons, if_pos rfl, if_neg (by decide), if_neg hescape, if_neg hquote, ih,
      keep_append]
    rfl
  | @escape d q _ ih =>
    have hd : balanced o c true true depth (d :: (q ++ '"' :: rest)) =
        keep d (balanced o c true false depth (q ++ '"' :: rest)) := by
      rw [balanced_cons, if_pos rfl, if_pos rfl]
    rw [List.cons_append, List.cons_append, balanced_cons, if_pos rfl, if_neg (by decide), if_pos rfl, hd,
      ih, keep_append, keep_append]
    rfl

/-- What is closed in itself leaves the depth as it is. -/
theorem balanced_inside {body : JsonText.Text} (hp : Pairs o c) (h : Inside body) {depth : ℤ}
    (hdepth : 1 ≤ depth) (rest : JsonText.Text) :
    balanced o c false false depth (body ++ rest) =
      (balanced o c false false depth rest).map fun t => body ++ t := by
  have ho : o ≠ '"' := by obtain ⟨rfl, -⟩ | ⟨rfl, -⟩ := hp <;> decide
  have hc : c ≠ '"' := by obtain ⟨-, rfl⟩ | ⟨-, rfl⟩ := hp <;> decide
  have hne : c ≠ o := by obtain ⟨rfl, rfl⟩ | ⟨rfl, rfl⟩ := hp <;> decide
  induction h generalizing depth rest with
  | nil =>
    rw [List.nil_append]
    exact Option.map_id'.symm
  | @plain d s hd _ ih =>
    have hmark : d ≠ '"' ∧ d ≠ o ∧ d ≠ c := by
      simp only [structural, Bool.or_eq_false_iff, decide_eq_false_iff_not] at hd
      obtain ⟨rfl, rfl⟩ | ⟨rfl, rfl⟩ := hp
      · exact ⟨hd.1.1.1.1, hd.1.1.1.2, hd.1.2⟩
      · exact ⟨hd.1.1.1.1, hd.1.1.2, hd.2⟩
    rw [List.cons_append, balanced_cons, if_neg (by decide), if_neg hmark.1, if_neg hmark.2.1,
      if_neg hmark.2.2, ih hdepth, keep_append]
  | @quoted q s hq _ ih =>
    rw [List.cons_append, List.append_assoc, List.cons_append, balanced_cons, if_neg (by decide), if_pos rfl,
      balanced_quoted hq, ih hdepth]
    cases balanced o c false false depth rest <;> simp [keep]
  | @nested o' c' inner s hp' _ _ ihinner ih =>
    rw [List.cons_append, List.append_assoc, List.cons_append]
    by_cases heq : o' = o
    · have heq' : c' = c := by
        obtain ⟨rfl, rfl⟩ | ⟨rfl, rfl⟩ := hp <;> obtain ⟨rfl, rfl⟩ | ⟨rfl, rfl⟩ := hp' <;>
          first | rfl | exact absurd heq (by decide)
      rw [heq, heq', balanced_cons, if_neg (by decide), if_neg ho, if_pos rfl, ihinner (by omega), balanced_cons,
        if_neg (by decide), if_neg hc, if_neg hne, if_pos rfl, if_neg (by omega),
        Int.add_sub_cancel, ih hdepth]
      cases balanced o c false false depth rest <;> simp [keep]
    · have hmark : o' ≠ '"' ∧ o' ≠ c ∧ c' ≠ '"' ∧ c' ≠ o ∧ c' ≠ c := by
        obtain ⟨rfl, rfl⟩ | ⟨rfl, rfl⟩ := hp <;> obtain ⟨rfl, rfl⟩ | ⟨rfl, rfl⟩ := hp' <;>
          first | decide | exact absurd rfl heq
      rw [balanced_cons, if_neg (by decide), if_neg hmark.1, if_neg heq, if_neg hmark.2.1, ihinner hdepth,
        balanced_cons, if_neg (by decide), if_neg hmark.2.2.1, if_neg hmark.2.2.2.1,
        if_neg hmark.2.2.2.2, ih hdepth]
      cases balanced o c false false depth rest <;> simp [keep]

/-- Of a text that begins with a container the container is found. -/
theorem extractBalanced_container (h : Container s) (rest : JsonText.Text) :
    extractBalanced (s ++ rest) = some s := by
  obtain ⟨o, c, body, hp, hbody, rfl⟩ := h
  have ho : o ≠ '"' := by obtain ⟨rfl, -⟩ | ⟨rfl, -⟩ := hp <;> decide
  have hc : c ≠ '"' := by obtain ⟨-, rfl⟩ | ⟨-, rfl⟩ := hp <;> decide
  have hne : c ≠ o := by obtain ⟨rfl, rfl⟩ | ⟨rfl, rfl⟩ := hp <;> decide
  have hclosing : (if o = '[' then ']' else '\x7d') = c := by
    obtain ⟨rfl, rfl⟩ | ⟨rfl, rfl⟩ := hp <;> rfl
  rw [List.cons_append, extractBalanced, hclosing, balanced_cons, if_neg (by decide), if_neg ho, if_pos rfl,
    List.append_assoc, balanced_inside hp hbody (by decide), List.singleton_append, balanced_cons,
    if_neg (by decide), if_neg hc, if_neg hne, if_pos rfl, if_pos (by decide)]
  rfl

/-- Of a text that is cut off, what is found is the whole container. -/
theorem extractBalanced_cut (h : Container s) (hcut : t <+: s ++ rest)
    (hfound : extractBalanced t = some r) : r = s ∧ s <+: t := by
  obtain ⟨u, hu⟩ := hcut
  obtain ⟨hmore, hprefix⟩ := extractBalanced_append hfound u
  rw [hu, extractBalanced_container h] at hmore
  obtain rfl := Option.some.inj hmore
  exact ⟨rfl, hprefix⟩

end

/-! ## A name with an array -/

/-- What stands behind blanks and a mark. -/
def behind (mark : Char) (l : JsonText.Text) : Option JsonText.Text :=
  match l.dropWhile isSpace with
  | [] => none
  | c :: rest => if c = mark then some rest else none

/-- The expression for a name with an array at this place: the text from the bracket
on. -/
def keyAt (key l : JsonText.Text) : Option JsonText.Text :=
  if '"' :: (key ++ ['"']) <+: l then
    ((behind ':' (l.drop (key.length + 2))).bind (behind '[')).map fun rest => '[' :: rest
  else none

/-- `re.search`. -/
def searchKey (key : JsonText.Text) : JsonText.Text → Option JsonText.Text
  | [] => none
  | c :: rest => (keyAt key (c :: rest)).or (searchKey key rest)

section
variable {key l r s t : JsonText.Text}

theorem behind_append {mark : Char} (h : behind mark l = some r) (t : JsonText.Text) :
    behind mark (l ++ t) = some (r ++ t) := by
  induction l with
  | nil => cases h
  | cons c l ih =>
    rw [behind] at h ih ⊢
    by_cases hc : isSpace c = true
    · rw [List.cons_append, List.dropWhile_cons_of_pos hc]
      rw [List.dropWhile_cons_of_pos hc] at h
      rw [behind] at ih
      exact ih h
    · rw [List.cons_append, List.dropWhile_cons_of_neg hc]
      rw [List.dropWhile_cons_of_neg hc] at h
      simp only at h ⊢
      split_ifs at h ⊢
      obtain rfl := Option.some.inj h
      rfl

theorem keyAt_append (h : keyAt key l = some r) (t : JsonText.Text) :
    keyAt key (l ++ t) = some (r ++ t) := by
  rw [keyAt] at h
  split_ifs at h with hkey
  obtain ⟨rest, hrest, rfl⟩ := Option.map_eq_some_iff.1 h
  obtain ⟨after, hafter, hbracket⟩ := Option.bind_eq_some_iff.1 hrest
  have hlength : key.length + 2 ≤ l.length := by
    have := hkey.length_le
    simp only [List.length_cons, List.length_append, List.length_nil] at this
    omega
  rw [keyAt, if_pos (hkey.trans (List.prefix_append l t)), List.drop_append_of_le_length hlength,
    behind_append hafter, Option.bind_some, behind_append hbracket]
  rfl

theorem searchKey_some (h : searchKey key s = some r) : ∃ l, l <:+ s ∧ keyAt key l = some r := by
  induction s with
  | nil => cases h
  | cons c s ih =>
    rw [searchKey] at h
    cases hkey : keyAt key (c :: s) with
    | some r' =>
      rw [hkey] at h
      exact ⟨c :: s, List.suffix_rfl, hkey.trans h⟩
    | none =>
      rw [hkey] at h
      obtain ⟨l, hl, hfound⟩ := ih h
      exact ⟨l, hl.trans (List.suffix_cons c s), hfound⟩

/-- Wherever the name stands with an array in the text, it is this array. -/
def Only (key s array : JsonText.Text) : Prop := ∀ l r, l <:+ s → keyAt key l = some r → r = array

/-- In a text that is cut off, the name is found with that array, cut off. -/
theorem searchKey_cut {array : JsonText.Text} (h : Only key s array) (hcut : t <+: s)
    (hfound : searchKey key t = some r) : r <+: array := by
  obtain ⟨u, rfl⟩ := hcut
  obtain ⟨l, ⟨before, rfl⟩, hkey⟩ := searchKey_some hfound
  have hmore := h (l ++ u) (r ++ u) ⟨before, by simp⟩ (keyAt_append hkey u)
  exact ⟨u, hmore⟩

/-! ## Where no name stands -/

/-- Small letters alone. -/
def Name (key : JsonText.Text) : Prop := key ≠ [] ∧ key.all Char.isLower = true

theorem Name.ne (h : Name key) {c d : Char} (hc : c ∈ key) (hd : d.isLower = false) : c ≠ d := by
  intro heq
  have hlower := List.all_eq_true.1 h.2 c hc
  rw [heq, hd] at hlower
  cases hlower

theorem keyAt_cons {c : Char} (h : keyAt key (c :: s) = some r) :
    ∃ w, c = '"' ∧ s = key ++ '"' :: w ∧
      ((behind ':' w).bind (behind '[')).map (fun rest => '[' :: rest) = some r := by
  rw [keyAt] at h
  split_ifs at h with hkey
  obtain ⟨w, hw⟩ := hkey
  obtain ⟨rfl, hs⟩ := List.cons.inj hw
  change key ++ ['"'] ++ w = s at hs
  rw [List.append_assoc, List.singleton_append] at hs
  refine ⟨w, rfl, hs.symm, ?_⟩
  rw [← hs] at h
  have hdrop : ('"' :: (key ++ '"' :: w)).drop (key.length + 2) = w := by simp
  rw [hdrop] at h
  exact h

theorem keyAt_nil : keyAt key [] = none := by
  rw [keyAt, if_neg]
  intro h
  exact absurd h.length_le (by simp)

/-- A name between quotes is the whole of what is quoted. -/
theorem name_quoted {name q w z : JsonText.Text} (hname : ∀ c ∈ name, c ≠ '"' ∧ c ≠ '\\') (hq : Quoted q)
    (h : name ++ '"' :: w = q ++ '"' :: z) : q = name ∧ w = z := by
  induction hq generalizing name with
  | nil =>
    cases name with
    | nil => exact ⟨rfl, (List.cons.inj h).2⟩
    | cons c name => exact absurd (List.cons.inj h).1 (hname c List.mem_cons_self).1
  | @plain c q hquote _ _ ih =>
    cases name with
    | nil => exact absurd (List.cons.inj h).1.symm hquote
    | cons d name =>
      obtain ⟨rfl, hrest⟩ := List.cons.inj h
      obtain ⟨rfl, rfl⟩ := ih (fun e he => hname e (List.mem_cons_of_mem d he)) hrest
      exact ⟨rfl, rfl⟩
  | escape _ _ =>
    cases name with
    | nil => exact absurd (List.cons.inj h).1 (by decide)
    | cons d name => exact absurd (List.cons.inj h).1 (hname d List.mem_cons_self).2

/-- Blanks and a mark that ends a part. -/
def Follow (z : JsonText.Text) : Prop :=
  ∃ b c tail, z = b ++ c :: tail ∧ Blank b ∧ (c = ',' ∨ c = ']' ∨ c = '\x7d')

theorem blank_space {c : Char} (h : isBlank c = true) : isSpace c = true := by
  simp only [isBlank, Bool.or_eq_true, decide_eq_true_eq] at h
  obtain ((rfl | rfl) | rfl) | rfl := h <;> decide

theorem Follow.behind {z : JsonText.Text} (h : Follow z) : behind ':' z = none := by
  obtain ⟨b, c, tail, rfl, hb, hc⟩ := h
  have hspace : isSpace c = false := by obtain rfl | rfl | rfl := hc <;> decide
  have hne : c ≠ ':' := by obtain rfl | rfl | rfl := hc <;> decide
  have hdrop : (b ++ c :: tail).dropWhile isSpace = c :: tail := by
    rw [List.dropWhile_append_of_pos fun d hd => blank_space (hb d hd),
      List.dropWhile_cons_of_neg (by simp [hspace])]
  rw [Extraction.behind, hdrop]
  exact if_neg hne

/-- What follows begins with no small letter. -/
theorem Follow.head {z : JsonText.Text} (h : Follow z) {c : Char} {tail : JsonText.Text}
    (hz : z = c :: tail) : c.isLower = false := by
  obtain ⟨b, d, rest, rfl, hb, hd⟩ := h
  cases b with
  | nil =>
    obtain ⟨rfl, -⟩ := List.cons.inj hz
    obtain rfl | rfl | rfl := hd <;> decide
  | cons e b =>
    obtain ⟨rfl, -⟩ := List.cons.inj hz
    have hblank := hb e List.mem_cons_self
    simp only [isBlank, Bool.or_eq_true, decide_eq_true_eq] at hblank
    obtain ((rfl | rfl) | rfl) | rfl := hblank <;> decide

/-- The name does not begin before the rest of the text. -/
def Passes (key s rest : JsonText.Text) : Prop :=
  ∀ l r, l <:+ s → keyAt key l = some r → l <:+ rest

theorem Passes.trans {u : JsonText.Text} (h : Passes key s t) (h' : Passes key t u) : Passes key s u :=
  fun l r hl hr => h' l r (h l r hl hr) hr

theorem passes_cons {c : Char} (h : ∀ r, keyAt key (c :: s) ≠ some r) : Passes key (c :: s) s := by
  intro l r hl hr
  obtain rfl | hl := List.suffix_cons_iff.1 hl
  · exact absurd hr (h r)
  · exact hl

theorem passes_plain {c : Char} (hc : c ≠ '"') : Passes key (c :: s) s := by
  apply passes_cons
  intro r hr
  obtain ⟨w, hquote, -⟩ := keyAt_cons hr
  exact hc hquote

theorem passes_append {b : JsonText.Text} (hb : ∀ c ∈ b, c ≠ '"') : Passes key (b ++ s) s := by
  induction b with
  | nil => exact fun l r hl _ => hl
  | cons c b ih =>
    apply (passes_plain (hb c List.mem_cons_self)).trans
    exact ih fun d hd => hb d (List.mem_cons_of_mem c hd)

theorem passes_blank {b : JsonText.Text} (hb : Blank b) : Passes key (b ++ s) s := by
  apply passes_append
  rintro c hc rfl
  exact absurd (hb '"' hc) (by decide)

/-- A quote with a text behind it that begins with no small letter. -/
theorem passes_quote (hname : Name key) (hs : ∀ c tail, s = c :: tail → c.isLower = false) :
    Passes key ('"' :: s) s := by
  apply passes_cons
  intro r hr
  obtain ⟨w, -, rfl, -⟩ := keyAt_cons hr
  cases hkey : key with
  | nil => exact hname.1 hkey
  | cons c tail =>
    have hc : c ∈ key := hkey ▸ List.mem_cons_self
    rw [hkey] at hs
    exact hname.ne hc (hs c _ rfl) rfl

theorem name_plain (hname : Name key) : ∀ c ∈ key, c ≠ '"' ∧ c ≠ '\\' := fun _ hc =>
  ⟨hname.ne hc (by decide), hname.ne hc (by decide)⟩

theorem passes_quoted (hname : Name key) {q z : JsonText.Text} (hq : Quoted q) (hz : Follow z) :
    Passes key (q ++ '"' :: z) z ∧ ∀ r, keyAt key ('"' :: (q ++ '"' :: z)) ≠ some r := by
  have hopen : ∀ q : JsonText.Text, Quoted q → ∀ r, keyAt key ('"' :: (q ++ '"' :: z)) ≠ some r := by
    intro q hq r hr
    obtain ⟨w, -, hw, hbehind⟩ := keyAt_cons hr
    obtain ⟨-, rfl⟩ := name_quoted (name_plain hname) hq hw.symm
    rw [hz.behind] at hbehind
    cases hbehind
  constructor
  · induction hq with
    | nil => exact passes_quote hname fun c tail heq => hz.head heq
    | plain hquote _ _ ih => exact (passes_plain hquote).trans ih
    | @escape c q hq ih =>
      apply (passes_plain (by decide)).trans
      by_cases hc : c = '"'
      · rw [hc]
        exact (passes_cons (hopen q hq)).trans ih
      · exact (passes_plain hc).trans ih
  · exact hopen q hq

/-- A string with a comma or a closing bracket behind it. -/
theorem passes_spells (hname : Name key) {x z : JsonText.Text} (h : Spells x s) (hz : Follow z) :
    Passes key (s ++ z) z := by
  obtain ⟨q, rfl, hq⟩ := h.quoted
  obtain ⟨hpasses, hopen⟩ := passes_quoted hname hq hz
  rw [List.cons_append, List.append_assoc, List.singleton_append]
  exact (passes_cons hopen).trans hpasses

section
variable {α : Type} {R : α → JsonText.Text → Prop}

/-- An array whose parts hold no name with an array. -/
theorem passes_array (hR : ∀ x s z, R x s → Follow z → Passes key (s ++ z) z) {xs : List α}
    (h : ArrayOf R xs s) (z : JsonText.Text) : Passes key (s ++ z) z := by
  have hcloses : ∀ (xs : List α) (body : JsonText.Text), Closes R xs body →
      Passes key (body ++ z) z := by
    intro xs body hbody
    induction hbody with
    | empty hb =>
      rw [List.append_assoc]
      exact (passes_blank hb).trans (passes_plain (by decide))
    | @last b b' s x hb hs hb' =>
      have hz : Follow (b' ++ ']' :: z) := ⟨b', ']', z, rfl, hb', by simp⟩
      rw [List.append_assoc, List.append_assoc, List.append_assoc, List.singleton_append]
      exact (((passes_blank hb).trans (hR x s _ hs hz)).trans (passes_blank hb')).trans
        (passes_plain (by decide))
    | @more b b' s body x y xs hb hs hb' _ ih =>
      have hz : Follow (b' ++ ',' :: (body ++ z)) := ⟨b', ',', body ++ z, rfl, hb', by simp⟩
      rw [List.append_assoc, List.append_assoc, List.append_assoc, List.cons_append]
      exact ((((passes_blank hb).trans (hR x s _ hs hz)).trans (passes_blank hb')).trans
        (passes_plain (by decide))).trans ih
  obtain ⟨body, rfl, hbody⟩ := h
  exact (passes_plain (by decide)).trans (hcloses xs body hbody)

theorem begins_bracket {xs : List α} (h : ArrayOf R xs s) : ∃ tail, s = '[' :: tail := by
  obtain ⟨body, rfl, -⟩ := h
  exact ⟨body, rfl⟩

end

theorem quoted_name (h : ∀ c ∈ key, c ≠ '"' ∧ c ≠ '\\') : Quoted key := by
  induction key with
  | nil => exact .nil
  | cons c key ih =>
    obtain ⟨hquote, hescape⟩ := h c List.mem_cons_self
    exact .plain hquote hescape (ih fun d hd => h d (List.mem_cons_of_mem c hd))

theorem behind_blank {mark : Char} (hmark : isSpace mark = false) {b : JsonText.Text} (hb : Blank b)
    (s : JsonText.Text) : behind mark (b ++ mark :: s) = some s := by
  have hdrop : (b ++ mark :: s).dropWhile isSpace = mark :: s := by
    rw [List.dropWhile_append_of_pos fun d hd => blank_space (hb d hd),
      List.dropWhile_cons_of_neg (by simp [hmark])]
  rw [behind, hdrop]
  exact if_pos rfl

/-- A member is found under its own name alone, and with its value. -/
theorem member_key {own b b' v z : JsonText.Text} (hname : Name key) (hown : Name own) (hb : Blank b)
    (hb' : Blank b') (hv : ∃ tail, v = '[' :: tail) (hpasses : Passes key (v ++ z) z)
    (hl : l <:+ '"' :: (own ++ '"' :: (b ++ ':' :: (b' ++ v))) ++ z) (hr : keyAt key l = some r) :
    (own = key ∧ r = v ++ z) ∨ l <:+ z := by
  have hassoc : '"' :: (own ++ '"' :: (b ++ ':' :: (b' ++ v))) ++ z =
      '"' :: (own ++ '"' :: (b ++ ':' :: (b' ++ (v ++ z)))) := by simp
  rw [hassoc] at hl
  obtain rfl | hl := List.suffix_cons_iff.1 hl
  · left
    obtain ⟨w, -, hw, hbehind⟩ := keyAt_cons hr
    obtain ⟨rfl, rfl⟩ := name_quoted (name_plain hname) (quoted_name (name_plain hown)) hw.symm
    obtain ⟨tail, rfl⟩ := hv
    rw [behind_blank (by decide) hb, Option.bind_some, List.cons_append,
      behind_blank (by decide) hb'] at hbehind
    exact ⟨rfl, (Option.some.inj hbehind).symm⟩
  · right
    have hhead : ∀ c tail, b ++ ':' :: (b' ++ (v ++ z)) = c :: tail → c.isLower = false := by
      intro c tail heq
      cases b with
      | nil =>
        obtain ⟨rfl, -⟩ := List.cons.inj heq
        decide
      | cons d b =>
        obtain ⟨rfl, -⟩ := List.cons.inj heq
        have hblank := hb d List.mem_cons_self
        simp only [isBlank, Bool.or_eq_true, decide_eq_true_eq] at hblank
        obtain ((rfl | rfl) | rfl) | rfl := hblank <;> decide
    have hrest : Passes key (own ++ '"' :: (b ++ ':' :: (b' ++ (v ++ z)))) z :=
      ((((passes_append fun c hc => (name_plain hown c hc).1).trans (passes_quote hname hhead)).trans
        (passes_blank hb)).trans (passes_plain (by decide))).trans ((passes_blank hb').trans hpasses)
    exact hrest l r hl hr

end

end RagPipeline.Extraction
