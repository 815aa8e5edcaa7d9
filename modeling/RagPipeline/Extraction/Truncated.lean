import RagPipeline.Answer.Structured
import RagPipeline.Extraction.Balanced
import RagPipeline.Lib.Text

/-! # A table that is cut off

`parse_table_json` on every prefix of a serialised table: no headers or the true
ones, and the first of the true rows. -/

set_option autoImplicit false

namespace RagPipeline.Extraction
open RagPipeline.JsonText
open RagPipeline.Text (isSpace)
open RagPipeline.Answer (Json)

/-! ## The parser -/

/-- `json.loads` without hooks. -/
def tableHooks : Hooks Json where
  null := .null
  bool b := .bool b
  int literal := some (.int (readInt literal))
  real literal := some (.real literal)
  constant literal := some (.real literal)
  str s := .str s
  arr items := .arr items
  obj pairs := some (.obj pairs)

structure ParsedTable where
  headers : Json
  rows : Json

def headersKey : JsonText.Text := "headers".toList

def rowsKey : JsonText.Text := "rows".toList

/-- `data.get(key, [])`, where of two members of one name the last one counts. -/
def getArray (key : JsonText.Text) (members : List (JsonText.Text × Json)) : Json :=
  (members.reverse.lookup key).getD (.arr [])

/-- The strict parse; what is no object has no members to get. -/
def strictParse (text : JsonText.Text) : Option ParsedTable :=
  match loads tableHooks text with
  | some (.obj members) => some ⟨getArray headersKey members, getArray rowsKey members⟩
  | _ => none

def fence : JsonText.Text := ['\x60', '\x60', '\x60']

def dropOpening (l : JsonText.Text) : JsonText.Text :=
  if fence <+: l then
    if "json".toList <+: l.drop 3 then l.drop 7 else l.drop 3
  else l

def dropClosing (l : JsonText.Text) : JsonText.Text :=
  if fence <:+ l then l.take (l.length - 3) else l

def stripFence (raw : JsonText.Text) : JsonText.Text :=
  Cut.trim isSpace (dropClosing (dropOpening (Cut.trim isSpace raw)))

def headersIn (text : JsonText.Text) : Json :=
  match searchKey headersKey text with
  | none => .arr []
  | some array =>
    match extractBalanced array with
    | none => .arr []
    | some h => (loads tableHooks h).getD (.arr [])

/-- The loop over the rows, from behind their bracket. A row that is extracted begins
at the bracket, which is the first of its characters. -/
def rowsLoop : ℕ → JsonText.Text → List Json
  | 0, _ => []
  | _ + 1, [] => []
  | depth + 1, c :: rest =>
    if c = '[' then
      match extractBalanced (c :: rest) with
      | none => []
      | some row => (loads tableHooks row).toList ++ rowsLoop (depth + 1) (rest.drop (row.length - 1))
    else if c = ']' then rowsLoop depth rest
    else rowsLoop (depth + 1) rest
termination_by _ text => text.length

def rowsIn (text : JsonText.Text) : Json :=
  match searchKey rowsKey text with
  | none => .arr []
  | some array => .arr (rowsLoop 1 (array.drop 1))

def parseTableJson (raw : JsonText.Text) : ParsedTable :=
  if raw = [] then ⟨.arr [], .arr []⟩
  else
    match strictParse (stripFence raw) with
    | some table => table
    | none => ⟨headersIn (stripFence raw), rowsIn (stripFence raw)⟩

/-! ## Serialised tables -/

structure Table where
  headers : List JsonText.Text
  rows : List (List JsonText.Text)

def stringsJson (cells : List JsonText.Text) : Json := .arr (cells.map .str)

def rowsJson (rows : List (List JsonText.Text)) : Json := .arr (rows.map stringsJson)

/-- The object in either order of its members, with blanks and escapes of any kind. -/
def Serialises (t : Table) (s : JsonText.Text) : Prop :=
  Pair (Member headersKey (ArrayOf Spells) t.headers) (Member rowsKey (ArrayOf (ArrayOf Spells)) t.rows) s ∨
    Pair (Member rowsKey (ArrayOf (ArrayOf Spells)) t.rows) (Member headersKey (ArrayOf Spells) t.headers) s

theorem row_reads : ReadsAs tableHooks (ArrayOf Spells) stringsJson :=
  array_reads (spells_reads tableHooks)

theorem rows_reads : ReadsAs tableHooks (ArrayOf (ArrayOf Spells)) rowsJson :=
  array_reads row_reads

theorem headersKey_name : Name headersKey := ⟨by decide, by decide⟩

theorem rowsKey_name : Name rowsKey := ⟨by decide, by decide⟩

theorem headersKey_read (rest : JsonText.Text) :
    string none .plain (headersKey ++ '"' :: rest) = some (headersKey, rest) := by
  have hplain : headersKey.flatMap (writeChar false) = headersKey := by decide
  have hread := string_write false headersKey rest
  rw [hplain] at hread
  exact hread

theorem rowsKey_read (rest : JsonText.Text) :
    string none .plain (rowsKey ++ '"' :: rest) = some (rowsKey, rest) := by
  have hplain : rowsKey.flatMap (writeChar false) = rowsKey := by decide
  have hread := string_write false rowsKey rest
  rw [hplain] at hread
  exact hread

theorem strictParse_serialised {t : Table} {s : JsonText.Text} (h : Serialises t s) :
    strictParse s = some ⟨stringsJson t.headers, rowsJson t.rows⟩ := by
  obtain h | h := h
  · rw [strictParse, pair_loads row_reads rows_reads headersKey_read rowsKey_read h rfl]
    rfl
  · rw [strictParse, pair_loads rows_reads row_reads rowsKey_read headersKey_read h rfl]
    rfl

/-- A serialised table is one object, from its brace to its brace. -/
theorem serialised_object {t : Table} {s : JsonText.Text} (h : Serialises t s) :
    (∃ tail, s = '{' :: tail) ∧ (∃ before, s = before ++ ['}']) ∧ Container s := by
  have hloads : ∃ v, loads tableHooks s = some v := by
    obtain h | h := h
    · exact ⟨_, pair_loads row_reads rows_reads headersKey_read rowsKey_read h rfl⟩
    · exact ⟨_, pair_loads rows_reads row_reads rowsKey_read headersKey_read h rfl⟩
  have hpair : ∀ first second : JsonText.Text → Prop, Pair first second s →
      (∃ tail, s = '{' :: tail) ∧ ∃ before, s = before ++ ['}'] := by
    intro first second hpair
    obtain ⟨b₁, s₁, b₂, b₃, s₂, b₄, -, -, -, -, -, -, rfl⟩ := hpair
    exact ⟨⟨_, rfl⟩, '{' :: (b₁ ++ (s₁ ++ (b₂ ++ ',' :: (b₃ ++ (s₂ ++ b₄))))), by simp⟩
  have hshape : (∃ tail, s = '{' :: tail) ∧ ∃ before, s = before ++ ['}'] :=
    h.elim (hpair _ _) (hpair _ _)
  obtain ⟨⟨tail, htail⟩, before, hbefore⟩ := hshape
  obtain ⟨v, hv⟩ := hloads
  refine ⟨⟨tail, htail⟩, ⟨before, hbefore⟩, loads_container hv htail (.inl rfl) ?_⟩
  intro c hc
  rw [hbefore, List.getLast?_concat] at hc
  obtain rfl := Option.some.inj hc
  decide

/-! ## What is cut off -/

section
variable {t : Table} {s p : JsonText.Text}

theorem loads_nil : loads tableHooks [] = none := rfl

/-- No part of an object is read as an object. -/
theorem strictParse_cut (h : Serialises t s) (hcut : p <+: s) (hne : p ≠ s)
    (hend : ∀ c, p.getLast? = some c → isSpace c = false) : strictParse p = none := by
  obtain ⟨⟨tail, htail⟩, -, hcontainer⟩ := serialised_object h
  cases hloads : loads tableHooks p with
  | none => rw [strictParse, hloads]
  | some v =>
    cases hp : p with
    | nil =>
      rw [hp, loads_nil] at hloads
      cases hloads
    | cons c rest =>
      have hhead : c = '{' := by
        rw [htail, hp] at hcut
        exact (List.cons_prefix_cons.1 hcut).1
      have hwhole : Container p := by
        apply loads_container hloads hp (.inl hhead)
        intro d hd
        by_contra hblank
        have hspace := blank_space (eq_true_of_ne_false hblank)
        rw [hend d hd] at hspace
        cases hspace
      have hfound := extractBalanced_container hwhole []
      rw [List.append_nil] at hfound
      have hcut' : p <+: s ++ [] := by
        rw [List.append_nil]
        exact hcut
      exact absurd (extractBalanced_cut hcontainer hcut' hfound).1 hne

/-- Stripping blanks and a fence only shortens what is cut off, and leaves the whole. -/
theorem stripFence_cut (h : Serialises t s) (hcut : p <+: s) :
    stripFence p <+: p ∧ (∀ c, (stripFence p).getLast? = some c → isSpace c = false) ∧
      stripFence s = s := by
  obtain ⟨⟨tail, htail⟩, ⟨before, hbefore⟩, -⟩ := serialised_object h
  have hopen : ∀ q : JsonText.Text, q <+: s → dropOpening q = q := by
    intro q hq
    rw [dropOpening, if_neg]
    intro hfence
    have hwhole := hfence.trans hq
    rw [htail] at hwhole
    exact absurd (List.cons_prefix_cons.1 hwhole).1 (by decide)
  have hdrop : ∀ q : JsonText.Text, q <+: s → q.dropWhile isSpace = q := by
    intro q hq
    cases q with
    | nil => rfl
    | cons c q =>
      rw [htail] at hq
      rw [(List.cons_prefix_cons.1 hq).1]
      rfl
  have htrim : ∀ q : JsonText.Text, q <+: s → Cut.trim isSpace q <+: q := by
    intro q hq
    rw [Cut.trim, hdrop q hq]
    exact List.rdropWhile_prefix isSpace q
  have hclosing : ∀ q : JsonText.Text, dropClosing q <+: q := by
    intro q
    rw [dropClosing]
    split_ifs
    · exact List.take_prefix _ q
    · exact List.prefix_rfl
  have hstrip : Cut.trim isSpace s = s := by
    rw [Cut.trim, hdrop s List.prefix_rfl, hbefore, List.rdropWhile_concat_neg _ _ _ (by decide)]
  constructor
  · have hfirst := htrim p hcut
    rw [stripFence, hopen _ (hfirst.trans hcut)]
    have hsecond := (hclosing (Cut.trim isSpace p)).trans hfirst
    exact (htrim _ (hsecond.trans hcut)).trans hsecond
  constructor
  · intro c hc
    rw [stripFence] at hc
    generalize dropClosing (dropOpening (Cut.trim isSpace p)) = q at hc
    have hne : Cut.trim isSpace q ≠ [] := by
      intro hnil
      rw [hnil] at hc
      cases hc
    rw [List.getLast?_eq_some_getLast hne] at hc
    obtain rfl := Option.some.inj hc
    exact Bool.eq_false_iff.2 (List.rdropWhile_last_not isSpace _ hne)
  · have hfence : dropClosing s = s := by
      rw [dropClosing, if_neg]
      intro hsuffix
      obtain ⟨q, hq⟩ := hsuffix
      have hlast : (q ++ fence).getLast? = (before ++ ['}']).getLast? := by rw [hq, hbefore]
      simp [fence] at hlast
    rw [stripFence, hstrip, hopen s List.prefix_rfl, hfence, hstrip]

/-- Where a name stands with an array in an object of two members, it is the name of
one of them and the array is its value. -/
theorem pair_keys {α β : Type} {R : α → JsonText.Text → Prop} {S : β → JsonText.Text → Prop}
    {key₁ key₂ : JsonText.Text} (hkey₁ : Name key₁) (hkey₂ : Name key₂)
    (hR : ∀ key x s z, Name key → ArrayOf R x s → Passes key (s ++ z) z)
    (hS : ∀ key x s z, Name key → ArrayOf S x s → Passes key (s ++ z) z) {x : List α} {y : List β}
    (h : Pair (Member key₁ (ArrayOf R) x) (Member key₂ (ArrayOf S) y) s) :
    ∃ v₁ z₁ v₂ z₂, ArrayOf R x v₁ ∧ ArrayOf S y v₂ ∧ ∀ key l r, Name key → l <:+ s →
      keyAt key l = some r → (key₁ = key ∧ r = v₁ ++ z₁) ∨ (key₂ = key ∧ r = v₂ ++ z₂) := by
  obtain ⟨b₁, s₁, b₂, b₃, s₂, b₄, hb₁, ⟨c, c', v₁, hc, hc', hv₁, rfl⟩, hb₂, hb₃,
    ⟨d, d', v₂, hd, hd', hv₂, rfl⟩, hb₄, rfl⟩ := h
  refine ⟨v₁, b₂ ++ ',' :: (b₃ ++ ('"' :: (key₂ ++ '"' :: (d ++ ':' :: (d' ++ v₂))) ++ (b₄ ++ ['}']))),
    v₂, b₄ ++ ['}'], hv₁, hv₂, ?_⟩
  intro key l r hkey hl hr
  have hfirst := passes_blank hb₁ l r (passes_plain (by decide) l r hl hr) hr
  obtain hfound | hrest :=
    member_key hkey hkey₁ hc hc' (begins_bracket hv₁) (hR key x v₁ _ hkey hv₁) hfirst hr
  · exact .inl hfound
  have hcomma := passes_plain (by decide) l r (passes_blank hb₂ l r hrest hr) hr
  have hsecond := passes_blank hb₃ l r hcomma hr
  obtain hfound | hrest :=
    member_key hkey hkey₂ hd hd' (begins_bracket hv₂) (hS key y v₂ _ hkey hv₂) hsecond hr
  · exact .inr hfound
  have hlast := passes_plain (by decide) l r (passes_blank hb₄ l r hrest hr) hr
  rw [List.suffix_nil.1 hlast, keyAt_nil] at hr
  cases hr

theorem passes_row {key : JsonText.Text} (hkey : Name key) {row : List JsonText.Text} (h : ArrayOf Spells row s)
    (z : JsonText.Text) : Passes key (s ++ z) z :=
  passes_array (fun _ _ _ hs hz => passes_spells hkey hs hz) h z

theorem passes_rows {key : JsonText.Text} (hkey : Name key) {rows : List (List JsonText.Text)}
    (h : ArrayOf (ArrayOf Spells) rows s) (z : JsonText.Text) : Passes key (s ++ z) z :=
  passes_array (fun _ _ z hs _ => passes_row hkey hs z) h z

/-- In a serialised table each name is found with its own array only. -/
theorem serialised_keys (h : Serialises t s) : ∃ v z w y, ArrayOf Spells t.headers v ∧
    ArrayOf (ArrayOf Spells) t.rows w ∧ Only headersKey s (v ++ z) ∧ Only rowsKey s (w ++ y) := by
  have hne : headersKey ≠ rowsKey := by decide
  obtain h | h := h
  · obtain ⟨v, z, w, y, hv, hw, hkeys⟩ := pair_keys headersKey_name rowsKey_name
      (fun _ _ _ z hkey hs => passes_row hkey hs z) (fun _ _ _ z hkey hs => passes_rows hkey hs z) h
    refine ⟨v, z, w, y, hv, hw, ?_, ?_⟩
    · intro l r hl hr
      obtain ⟨-, hfound⟩ | ⟨heq, -⟩ := hkeys headersKey l r headersKey_name hl hr
      · exact hfound
      · exact absurd heq.symm hne
    · intro l r hl hr
      obtain ⟨heq, -⟩ | ⟨-, hfound⟩ := hkeys rowsKey l r rowsKey_name hl hr
      · exact absurd heq hne
      · exact hfound
  · obtain ⟨w, y, v, z, hw, hv, hkeys⟩ := pair_keys rowsKey_name headersKey_name
      (fun _ _ _ z hkey hs => passes_rows hkey hs z) (fun _ _ _ z hkey hs => passes_row hkey hs z) h
    refine ⟨v, z, w, y, hv, hw, ?_, ?_⟩
    · intro l r hl hr
      obtain ⟨heq, -⟩ | ⟨-, hfound⟩ := hkeys headersKey l r headersKey_name hl hr
      · exact absurd heq.symm hne
      · exact hfound
    · intro l r hl hr
      obtain ⟨-, hfound⟩ | ⟨heq, -⟩ := hkeys rowsKey l r rowsKey_name hl hr
      · exact hfound
      · exact absurd heq hne

theorem headersIn_cut (h : Serialises t s) (hcut : p <+: s) :
    headersIn p = .arr [] ∨ headersIn p = stringsJson t.headers := by
  obtain ⟨v, z, -, -, hv, -, honly, -⟩ := serialised_keys h
  cases hfound : searchKey headersKey p with
  | none =>
    left
    rw [headersIn, hfound]
  | some array =>
    have harray := searchKey_cut honly hcut hfound
    cases hextract : extractBalanced array with
    | none =>
      left
      simp only [headersIn, hfound, hextract]
    | some header =>
      right
      have hwhole := (extractBalanced_cut (array_container (spells_reads tableHooks) hv) harray hextract).1
      simp only [headersIn, hfound, hextract, hwhole, loads_reads row_reads hv, Option.getD_some]

/-! ## Rows -/

theorem rowsLoop_nil (depth : ℕ) : rowsLoop (depth + 1) [] = [] := by rw [rowsLoop]

/-- Blanks in front of what is read are passed over, as far as they are there. -/
theorem rowsLoop_blank {b w q : JsonText.Text} (hb : Blank b) (hcut : q <+: b ++ w) :
    rowsLoop 1 q = [] ∨ ∃ q', q' <+: w ∧ rowsLoop 1 q = rowsLoop 1 q' := by
  induction b generalizing q with
  | nil => exact .inr ⟨q, hcut, rfl⟩
  | cons c b ih =>
    cases q with
    | nil => exact .inl (rowsLoop_nil 0)
    | cons d q =>
      obtain ⟨rfl, hrest⟩ := List.cons_prefix_cons.1 hcut
      have hblank := hb d List.mem_cons_self
      have hopen : d ≠ '[' := by
        rintro rfl
        exact absurd hblank (by decide)
      have hclose : d ≠ ']' := by
        rintro rfl
        exact absurd hblank (by decide)
      rw [rowsLoop, if_neg hopen, if_neg hclose]
      exact ih (fun e he => hb e (List.mem_cons_of_mem d he)) hrest

theorem rowsLoop_comma {w q : JsonText.Text} (hcut : q <+: ',' :: w) :
    rowsLoop 1 q = [] ∨ ∃ q', q' <+: w ∧ rowsLoop 1 q = rowsLoop 1 q' := by
  cases q with
  | nil => exact .inl (rowsLoop_nil 0)
  | cons d q =>
    obtain ⟨rfl, hrest⟩ := List.cons_prefix_cons.1 hcut
    rw [rowsLoop, if_neg (by decide), if_neg (by decide)]
    exact .inr ⟨q, hrest, rfl⟩

theorem rowsLoop_close {w q : JsonText.Text} (hcut : q <+: ']' :: w) : rowsLoop 1 q = [] := by
  cases q with
  | nil => exact rowsLoop_nil 0
  | cons d q =>
    obtain ⟨rfl, -⟩ := List.cons_prefix_cons.1 hcut
    rw [rowsLoop, if_neg (by decide), if_pos rfl, rowsLoop]

/-- A row is read whole, or the loop ends before it. -/
theorem rowsLoop_row {row : List JsonText.Text} {v w q : JsonText.Text} (hv : ArrayOf Spells row v)
    (hcut : q <+: v ++ w) : rowsLoop 1 q = [] ∨
      ∃ q', q' <+: w ∧ rowsLoop 1 q = stringsJson row :: rowsLoop 1 q' := by
  obtain ⟨tail, htail⟩ := begins_bracket hv
  cases q with
  | nil => exact .inl (rowsLoop_nil 0)
  | cons c q =>
    have hopen : c = '[' := by
      rw [htail] at hcut
      exact (List.cons_prefix_cons.1 hcut).1
    cases hextract : extractBalanced (c :: q) with
    | none =>
      left
      rw [rowsLoop, if_pos hopen, hextract]
    | some found =>
      right
      obtain ⟨rfl, q', hq'⟩ :=
        extractBalanced_cut (array_container (spells_reads tableHooks) hv) hcut hextract
      have hdrop : q.drop (found.length - 1) = q' := by
        rw [htail] at hq' ⊢
        obtain ⟨-, rfl⟩ := List.cons.inj hq'
        simp
      rw [← hq', List.prefix_append_right_inj] at hcut
      apply Exists.intro q'
      constructor
      · exact hcut
      · rw [rowsLoop, if_pos hopen, hextract]
        simp only [loads_reads row_reads hv, hdrop, Option.toList_some, List.singleton_append]

/-- Of rows that are cut off the first ones are read. -/
theorem rowsLoop_cut {rows : List (List JsonText.Text)} {body z q : JsonText.Text}
    (h : Closes (ArrayOf Spells) rows body) (hcut : q <+: body ++ z) :
    ∃ n, rowsLoop 1 q = (rows.take n).map stringsJson := by
  induction h generalizing q with
  | empty hb =>
    rw [List.append_assoc] at hcut
    apply Exists.intro 0
    obtain hnone | ⟨q', hq', hsame⟩ := rowsLoop_blank hb hcut
    · exact hnone
    · rw [hsame]
      exact rowsLoop_close hq'
  | @last b b' v row hb hv hb' =>
    rw [List.append_assoc, List.append_assoc, List.append_assoc] at hcut
    obtain hnone | ⟨q₁, hq₁, hsame₁⟩ := rowsLoop_blank hb hcut
    · exact ⟨0, hnone⟩
    obtain hnone | ⟨q₂, hq₂, hsame₂⟩ := rowsLoop_row hv hq₁
    · exact ⟨0, hsame₁.trans hnone⟩
    apply Exists.intro 1
    have hend : rowsLoop 1 q₂ = [] := by
      obtain hnone | ⟨q₃, hq₃, hsame₃⟩ := rowsLoop_blank hb' hq₂
      · exact hnone
      · rw [hsame₃]
        exact rowsLoop_close hq₃
    rw [hsame₁, hsame₂, hend]
    rfl
  | @more b b' v body row next rows hb hv hb' _ ih =>
    rw [List.append_assoc, List.append_assoc, List.append_assoc] at hcut
    obtain hnone | ⟨q₁, hq₁, hsame₁⟩ := rowsLoop_blank hb hcut
    · exact ⟨0, hnone⟩
    obtain hnone | ⟨q₂, hq₂, hsame₂⟩ := rowsLoop_row hv hq₁
    · exact ⟨0, hsame₁.trans hnone⟩
    have hrest : ∃ n, rowsLoop 1 q₂ = ((next :: rows).take n).map stringsJson := by
      obtain hnone | ⟨q₃, hq₃, hsame₃⟩ := rowsLoop_blank hb' hq₂
      · exact ⟨0, hnone⟩
      obtain hnone | ⟨q₄, hq₄, hsame₄⟩ := rowsLoop_comma hq₃
      · exact ⟨0, hsame₃.trans hnone⟩
      obtain ⟨n, hn⟩ := ih hq₄
      exact ⟨n, (hsame₃.trans hsame₄).trans hn⟩
    obtain ⟨n, hn⟩ := hrest
    apply Exists.intro (n + 1)
    rw [hsame₁, hsame₂, hn]
    rfl

theorem rowsIn_cut (h : Serialises t s) (hcut : p <+: s) : ∃ n, rowsIn p = rowsJson (t.rows.take n) := by
  obtain ⟨-, -, w, y, -, hw, -, honly⟩ := serialised_keys h
  cases hfound : searchKey rowsKey p with
  | none =>
    apply Exists.intro 0
    rw [rowsIn, hfound]
    rfl
  | some array =>
    have harray := searchKey_cut honly hcut hfound
    obtain ⟨body, rfl, hbody⟩ := hw
    have hrest : array.drop 1 <+: body ++ y := by
      cases array with
      | nil => exact List.nil_prefix
      | cons c array => exact (List.cons_prefix_cons.1 harray).2
    obtain ⟨n, hn⟩ := rowsLoop_cut hbody hrest
    apply Exists.intro n
    rw [rowsIn, hfound]
    show Json.arr (rowsLoop 1 (array.drop 1)) = _
    rw [hn]
    rfl

/-- The parser returns a serialised table as it is, and of one that is cut off
anywhere no headers or the true ones, and the first of the true rows. -/
theorem truncated_table (h : Serialises t s) :
    parseTableJson s = ⟨stringsJson t.headers, rowsJson t.rows⟩ ∧ ∀ p, p <+: s →
      ((parseTableJson p).headers = .arr [] ∨ (parseTableJson p).headers = stringsJson t.headers) ∧
        ∃ n, (parseTableJson p).rows = rowsJson (t.rows.take n) := by
  have hwhole : parseTableJson s = ⟨stringsJson t.headers, rowsJson t.rows⟩ := by
    obtain ⟨⟨tail, htail⟩, -, -⟩ := serialised_object h
    have hne : s ≠ [] := by
      rw [htail]
      exact List.cons_ne_nil _ _
    rw [parseTableJson, if_neg hne, (stripFence_cut h List.prefix_rfl).2.2, strictParse_serialised h]
  constructor
  · exact hwhole
  intro p hcut
  by_cases hempty : p = []
  · rw [parseTableJson, if_pos hempty]
    exact ⟨.inl rfl, 0, rfl⟩
  by_cases hp : p = s
  · rw [hp, hwhole]
    exact ⟨.inr rfl, t.rows.length, by rw [List.take_length]⟩
  obtain ⟨hstrip, hend, -⟩ := stripFence_cut h hcut
  have hne : stripFence p ≠ s := by
    intro heq
    rw [heq] at hstrip
    exact hp (hcut.eq_of_length (Nat.le_antisymm hcut.length_le hstrip.length_le))
  rw [parseTableJson, if_neg hempty, strictParse_cut h (hstrip.trans hcut) hne hend]
  exact ⟨headersIn_cut h (hstrip.trans hcut), rowsIn_cut h (hstrip.trans hcut)⟩

/-- `json.dumps` of the table, its headers first. -/
def dumpsTable (ascii : Bool) (t : Table) : JsonText.Text :=
  '{' :: '"' :: (headersKey ++ '"' :: ':' :: ' ' :: (writeArray (writeString ascii) t.headers ++
    ',' :: ' ' :: '"' :: (rowsKey ++ '"' :: ':' :: ' ' ::
      (writeArray (writeArray (writeString ascii)) t.rows ++ ['}']))))

theorem dumpsTable_serialises (ascii : Bool) (t : Table) : Serialises t (dumpsTable ascii t) := by
  have hspells : ∀ x, Spells x (writeString ascii x) := spells_writeString ascii
  left
  refine ⟨[], _, [], [' '], _, [], blank_nil, ⟨[], [' '], _, blank_nil, blank_one, array_write hspells t.headers, rfl⟩,
    blank_nil, blank_one, ⟨[], [' '], _, blank_nil, blank_one, array_write (array_write hspells) t.rows, rfl⟩, blank_nil, ?_⟩
  simp [dumpsTable]

/-- A header with a quote and a bracket in it, and a second row that is cut off inside
a string. -/
theorem truncated_table_quoted :
    ∃ s, s = dumpsTable true ⟨["a\"]".toList], [["1".toList], ["\\x".toList]]⟩ ∧
      parseTableJson s = ⟨stringsJson ["a\"]".toList], rowsJson [["1".toList], ["\\x".toList]]⟩ ∧
        ∀ p, p <+: s → ((parseTableJson p).headers = .arr [] ∨
          (parseTableJson p).headers = stringsJson ["a\"]".toList]) ∧
            ∃ n, (parseTableJson p).rows = rowsJson (([["1".toList], ["\\x".toList]]).take n) :=
  ⟨_, rfl, truncated_table (dumpsTable_serialises true ⟨["a\"]".toList], [["1".toList], ["\\x".toList]]⟩)⟩

end

end RagPipeline.Extraction
