import RagPipeline.Answer.Pages

/-! # Spelled cardinals

The Turkish spelling of a number below 10 ^ 15, and what the fold over a run of
number words makes of it. The fold reads every spelling, refuses a word that
does not descend, and takes everything else for some number. -/

set_option autoImplicit false

namespace RagPipeline.Answer

/-! ## The spelling -/

abbrev Item := WordKind × ℕ

def onesItems (d : ℕ) : List Item := if d = 0 then [] else [(.unit, d)]

def tensItems (d : ℕ) : List Item := if d = 0 then [] else [(.unit, 10 * d)]

/-- `yuz`, and not `bir yuz`. -/
def hundredsItems (d : ℕ) : List Item :=
  if d = 0 then [] else if d = 1 then [(.scale, 100)] else [(.unit, d), (.scale, 100)]

def groupItems (g : ℕ) : List Item :=
  hundredsItems (g / 100) ++ tensItems (g / 10 % 10) ++ onesItems (g % 10)

/-- `bin`, and not `bir bin`. -/
def scaledItems (g scale : ℕ) : List Item :=
  if g = 0 then [] else if g = 1 ∧ scale = 1000 then [(.scale, 1000)]
  else groupItems g ++ [(.scale, scale)]

/-- The spelling of a number below 10 ^ 15. -/
def cardinal (n : ℕ) : List Item :=
  if n = 0 then [(.unit, 0)]
  else scaledItems (n / 1000000000000) 1000000000000 ++
    (scaledItems (n / 1000000000 % 1000) 1000000000 ++
      (scaledItems (n / 1000000 % 1000) 1000000 ++
        (scaledItems (n / 1000 % 1000) 1000 ++ groupItems (n % 1000))))

def cardinalLimit : ℕ := 1000000000000000

/-- The items are the spelling of `n`. -/
def Spells (items : List Item) (n : ℕ) : Prop := n < cardinalLimit ∧ items = cardinal n

/-- A word for a number stands right behind another that is not larger. -/
def Ascends (items : List Item) : Prop :=
  ∃ before a b after, items = before ++ (.unit, a) :: (.unit, b) :: after ∧ a ≤ b

/-! ## The fold -/

section
variable {total current : ℕ} {previous : Option ℕ} {items rest : List Item}

/-- What the loop has in hand when it refuses the next word. -/
def Refuses (previous : Option ℕ) (items : List Item) : Prop :=
  ∃ a b after, previous = some a ∧ items = (.unit, b) :: after ∧ a ≤ b

theorem ascends_cons (item : Item) :
    Ascends (item :: items) ↔ (item.1 = .unit ∧ Refuses (some item.2) items) ∨ Ascends items := by
  constructor
  · rintro ⟨before, a, b, after, heq, hle⟩
    cases before with
    | nil =>
      obtain ⟨rfl, rfl⟩ := List.cons.inj heq
      exact .inl ⟨rfl, a, b, after, rfl, rfl, hle⟩
    | cons x before =>
      obtain ⟨rfl, rfl⟩ := List.cons.inj heq
      exact .inr ⟨before, a, b, after, rfl, hle⟩
  · rintro (⟨hunit, a, b, after, ha, rfl, hle⟩ | ⟨before, a, b, after, rfl, hle⟩)
    · obtain ⟨kind, value⟩ := item
      obtain rfl : kind = .unit := hunit
      obtain rfl : value = a := Option.some.inj ha
      exact ⟨[], value, b, after, rfl, hle⟩
    · exact ⟨item :: before, a, b, after, rfl, hle⟩

theorem runValueFrom_eq_none :
    runValueFrom total current previous items = none ↔ Refuses previous items ∨ Ascends items := by
  induction items generalizing total current previous with
  | nil =>
    apply iff_of_false
    · exact fun h => nomatch h
    · rintro (⟨a, b, after, -, h, -⟩ | ⟨before, a, b, after, h, -⟩)
      · cases h
      · cases before <;> cases h
  | cons item items ih =>
    obtain ⟨kind, value⟩ := item
    rw [ascends_cons]
    cases kind with
    | unit =>
      have hrefuses : Refuses previous ((.unit, value) :: items) ↔
          previous.any (· ≤ value) = true := by
        constructor
        · rintro ⟨a, b, after, rfl, heq, hle⟩
          obtain ⟨hb, -⟩ := List.cons.inj heq
          obtain rfl := (Prod.mk.inj hb).2
          simpa using hle
        · intro h
          cases previous with
          | none => cases h
          | some a => exact ⟨a, value, items, rfl, rfl, by simpa using h⟩
      rw [runValueFrom, hrefuses]
      split_ifs with hprevious
      · simp [hprevious]
      · rw [ih]
        simp [hprevious]
    | scale =>
      have hnot : ¬ Refuses previous ((.scale, value) :: items) := by
        rintro ⟨a, b, after, -, heq, -⟩
        cases (Prod.mk.inj (List.cons.inj heq).1).1
      have hnone : ∀ items, ¬ Refuses none items := by
        rintro items ⟨a, b, after, h, -⟩
        cases h
      have hkept : Refuses none items ∨ Ascends items ↔
          Refuses previous ((.scale, value) :: items) ∨
            (WordKind.scale = .unit ∧ Refuses (some value) items) ∨ Ascends items := by
        simp [hnot, hnone]
      by_cases hvalue : value = 100
      · rw [runValueFrom, if_pos hvalue, ih]
        exact hkept
      · rw [runValueFrom, if_neg hvalue, ih]
        exact hkept

/-- The fold refuses a run exactly when a word in it does not descend. -/
theorem runValue_eq_none : runValue items = none ↔ Ascends items := by
  have hnone : ¬ Refuses none items := by
    rintro ⟨a, b, after, h, -⟩
    cases h
  rw [runValue, runValueFrom_eq_none]
  simp [hnone]

/-! ## The spelling is read -/

/-- Nothing, or a scale word, which no word in front of it stops. -/
def Closed (rest : List Item) : Prop := ∀ value after, rest ≠ (.unit, value) :: after

theorem runValueFrom_closed (h : Closed rest) (previous previous' : Option ℕ) :
    runValueFrom total current previous rest = runValueFrom total current previous' rest := by
  cases rest with
  | nil => rfl
  | cons item rest =>
    obtain ⟨kind, value⟩ := item
    cases kind with
    | unit => exact absurd rfl (h value rest)
    | scale => rfl

theorem runValueFrom_hundreds (d : ℕ) :
    runValueFrom total 0 none (hundredsItems d ++ rest) =
      runValueFrom total (100 * d) none rest := by
  unfold hundredsItems
  split_ifs with hzero hone
  · rw [hzero]
    rfl
  · rw [hone]
    rfl
  · simp [runValueFrom, hzero, Nat.mul_comm]

theorem runValueFrom_tens (d : ℕ) :
    runValueFrom total current none (tensItems d ++ rest) =
      runValueFrom total (current + 10 * d) (if d = 0 then none else some (10 * d)) rest := by
  unfold tensItems
  split_ifs with hzero
  · rw [hzero]
    rfl
  · simp [runValueFrom]

theorem runValueFrom_ones {d : ℕ} (hd : d < 10) (hclosed : Closed rest)
    (hprevious : ∀ p, previous = some p → 10 ≤ p) :
    runValueFrom total current previous (onesItems d ++ rest) =
      runValueFrom total (current + d) none rest := by
  unfold onesItems
  split_ifs with hzero
  · rw [hzero]
    exact runValueFrom_closed hclosed _ _
  · have hdescends : previous.any (· ≤ d) = false := by
      cases previous with
      | none => rfl
      | some p =>
        have hp := hprevious p rfl
        simp only [Option.any_some, decide_eq_false_iff_not]
        omega
    rw [List.singleton_append, runValueFrom, hdescends]
    exact runValueFrom_closed hclosed _ _

theorem runValueFrom_group {g : ℕ} (hclosed : Closed rest) :
    runValueFrom total 0 none (groupItems g ++ rest) = runValueFrom total g none rest := by
  have hg : 100 * (g / 100) + 10 * (g / 10 % 10) + g % 10 = g := by omega
  rw [groupItems, List.append_assoc, List.append_assoc, runValueFrom_hundreds, runValueFrom_tens,
    runValueFrom_ones (Nat.mod_lt _ (by decide)) hclosed, hg]
  intro p hp
  split_ifs at hp
  · obtain rfl := Option.some.inj hp
    omega

theorem runValueFrom_scaled {g scale : ℕ} (hscale : scale ≠ 100) :
    runValueFrom total 0 none (scaledItems g scale ++ rest) =
      runValueFrom (total + g * scale) 0 none rest := by
  have hclosed : Closed ((.scale, scale) :: rest) := fun value after heq => by cases heq
  unfold scaledItems
  split_ifs with hzero hone
  · simp [hzero]
  · obtain ⟨rfl, rfl⟩ := hone
    rfl
  · rw [List.append_assoc, List.singleton_append, runValueFrom_group hclosed, runValueFrom]
    simp [hzero, hscale]

end

/-- Every spelling is read as what it spells. -/
theorem runValue_cardinal (n : ℕ) : runValue (cardinal n) = some n := by
  have hlast : Closed [] := fun value after heq => by cases heq
  unfold cardinal runValue
  split_ifs with hzero
  · rw [hzero]
    rfl
  · rw [runValueFrom_scaled (by decide), runValueFrom_scaled (by decide),
      runValueFrom_scaled (by decide), runValueFrom_scaled (by decide),
      ← List.append_nil (groupItems (n % 1000)), runValueFrom_group hlast, runValueFrom]
    congr 1
    omega

theorem run_value_spells_iff (items : List Item) :
    (∀ n, runValue items = some n → Spells items n) ↔ Ascends items ∨ ∃ n, Spells items n := by
  constructor
  · intro h
    cases hvalue : runValue items with
    | none => exact .inl (runValue_eq_none.1 hvalue)
    | some n => exact .inr ⟨n, h n hvalue⟩
  · rintro (hascends | ⟨m, hlt, rfl⟩) n hn
    · rw [runValue_eq_none.2 hascends] at hn
      cases hn
    · rw [runValue_cardinal] at hn
      obtain rfl := Option.some.inj hn
      exact ⟨hlt, rfl⟩

/-! ## The text of a spelling -/

/-- The word of an item. -/
def itemWord : Item → Text
  | (.unit, value) =>
    (((onesTable ++ tensTable).find? fun entry => entry.2 = value).map Prod.fst).getD []
  | (.scale, value) => ((scaleTable.find? fun entry => entry.2 = value).map Prod.fst).getD []

/-- The folded canonical spelling, word by word. -/
def cardinalWords (n : ℕ) : List Text := (cardinal n).map itemWord

/-- The words for one to nine and for the tens. -/
def countWords : List Text := (onesTable.tail ++ tensTable).map Prod.fst

def unitItems : List Item :=
  [1, 2, 3, 4, 5, 6, 7, 8, 9, 10, 20, 30, 40, 50, 60, 70, 80, 90].map fun value => (.unit, value)

def scaleItems : List Item :=
  [100, 1000, 1000000, 1000000000, 1000000000000].map fun value => (.scale, value)

theorem onesItems_mem {d : ℕ} (hd : d < 10) : ∀ it ∈ onesItems d, it ∈ unitItems := by
  have hall : ∀ d < 10, ∀ it ∈ onesItems d, it ∈ unitItems := by decide
  exact hall d hd

theorem tensItems_mem {d : ℕ} (hd : d < 10) : ∀ it ∈ tensItems d, it ∈ unitItems := by
  have hall : ∀ d < 10, ∀ it ∈ tensItems d, it ∈ unitItems := by decide
  exact hall d hd

theorem hundredsItems_mem {d : ℕ} (hd : d < 10) :
    ∀ it ∈ hundredsItems d, it ∈ unitItems ++ scaleItems := by
  have hall : ∀ d < 10, ∀ it ∈ hundredsItems d, it ∈ unitItems ++ scaleItems := by decide
  exact hall d hd

theorem groupItems_mem {g : ℕ} (hg : g < 1000) :
    ∀ it ∈ groupItems g, it ∈ unitItems ++ scaleItems := by
  intro it hit
  obtain hit | hit := List.mem_append.1 hit
  · obtain hit | hit := List.mem_append.1 hit
    · exact hundredsItems_mem (by omega) it hit
    · exact List.mem_append_left _ (tensItems_mem (Nat.mod_lt _ (by decide)) it hit)
  · exact List.mem_append_left _ (onesItems_mem (Nat.mod_lt _ (by decide)) it hit)

theorem scaledItems_mem {g scale : ℕ} (hg : g < 1000) (hscale : (.scale, scale) ∈ scaleItems) :
    ∀ it ∈ scaledItems g scale, it ∈ unitItems ++ scaleItems := by
  intro it hit
  unfold scaledItems at hit
  split_ifs at hit with hzero hone
  · cases hit
  · rw [List.mem_singleton.1 hit, ← hone.2]
    exact List.mem_append_right _ hscale
  · obtain hit | hit := List.mem_append.1 hit
    · exact groupItems_mem hg it hit
    · rw [List.mem_singleton.1 hit]
      exact List.mem_append_right _ hscale

theorem cardinal_mem {n : ℕ} (hpos : 0 < n) (hn : n < cardinalLimit) :
    ∀ it ∈ cardinal n, it ∈ unitItems ++ scaleItems := by
  have hmod : ∀ m : ℕ, m % 1000 < 1000 := fun m => Nat.mod_lt _ (by decide)
  have htop : n / 1000000000000 < 1000 := by
    unfold cardinalLimit at hn
    omega
  intro it hit
  rw [cardinal, if_neg (by omega)] at hit
  simp only [List.mem_append] at hit
  obtain hit | hit | hit | hit | hit := hit
  · exact scaledItems_mem htop (by decide) it hit
  · exact scaledItems_mem (hmod _) (by decide) it hit
  · exact scaledItems_mem (hmod _) (by decide) it hit
  · exact scaledItems_mem (hmod _) (by decide) it hit
  · exact groupItems_mem (hmod _) it hit

def letters (word : Text) : Bool := word.all fun c => 'a' ≤ c && c ≤ 'z'

section
variable [Unicode]

/-- The words of a spelling are the words of its items. -/
theorem classify_itemWord : ∀ it ∈ unitItems ++ scaleItems, classify (itemWord it) = some it := by
  simp only [unitItems, scaleItems, List.map_cons, List.map_nil, List.cons_append, List.nil_append,
    List.forall_mem_cons]
  refine ⟨?_, ?_, ?_, ?_, ?_, ?_, ?_, ?_, ?_, ?_, ?_, ?_, ?_, ?_, ?_, ?_, ?_, ?_, ?_, ?_, ?_, ?_, ?_,
    fun it hit => nomatch hit⟩
  all_goals rfl

omit [Unicode] in
theorem itemWord_letters : ∀ it ∈ unitItems ++ scaleItems,
    itemWord it ≠ [] ∧ letters (itemWord it) = true := by
  decide

omit [Unicode] in
theorem itemWord_counts : ∀ it ∈ unitItems ++ scaleItems,
    itemWord it ∈ countWords → it.1 = .unit := by
  decide

theorem words_joinWords (hblank : Unicode.isSpace ' ' = true) {parts : List Text}
    (h : ∀ part ∈ parts, part ≠ [] ∧ ∀ c ∈ part, Unicode.isSpace c = false) :
    words (joinWords parts) = parts := by
  induction parts with
  | nil => rfl
  | cons part rest ih =>
    obtain ⟨hne, hpart⟩ := h part List.mem_cons_self
    have hrest := ih fun part hpart => h part (List.mem_cons_of_mem _ hpart)
    cases rest with
    | nil => simp [words, joinWords, List.splitOnP_eq_singleton hpart, hne]
    | cons next rest =>
      have hjoin : joinWords (part :: next :: rest) = part ++ ' ' :: joinWords (next :: rest) := by
        simp [joinWords, List.intercalate]
      unfold words at hrest ⊢
      rw [hjoin, List.splitOnP_append_cons_of_forall_mem hpart ' ' hblank, List.filter_cons, hrest]
      simp [hne]

theorem expandRuns_items {items : List Item} (h : ∀ it ∈ items, classify (itemWord it) = some it)
    (run : List (Text × Item)) :
    expandRuns run (items.map itemWord) = flush (run ++ items.map fun it => (itemWord it, it)) := by
  induction items generalizing run with
  | nil => simp [expandRuns]
  | cons it items ih =>
    rw [List.map_cons, expandRuns, h it List.mem_cons_self]
    dsimp only
    rw [ih (fun it hit => h it (List.mem_cons_of_mem _ hit))]
    simp

/-- A spelling with a counting word in it becomes its digits. -/
theorem expandCardinals_cardinal (hblank : Unicode.isSpace ' ' = true)
    (hletters : ∀ c, 'a' ≤ c → c ≤ 'z' → Unicode.isSpace c = false) {n : ℕ} (hpos : 0 < n)
    (hn : n < cardinalLimit) (hcounts : ∃ word ∈ cardinalWords n, word ∈ countWords)
    (hlone : cardinalWords n ≠ ["bir".toList]) :
    expandCardinals (joinWords (cardinalWords n)) = (toString n).toList := by
  have hmem := cardinal_mem hpos hn
  have hwords : words (joinWords (cardinalWords n)) = cardinalWords n := by
    apply words_joinWords hblank
    intro word hword
    obtain ⟨it, hit, rfl⟩ := List.mem_map.1 hword
    obtain ⟨hne, hall⟩ := itemWord_letters it (hmem it hit)
    refine ⟨hne, fun c hc => ?_⟩
    have hc := List.all_eq_true.1 hall c hc
    simp only [Bool.and_eq_true, decide_eq_true_eq] at hc
    exact hletters c hc.1 hc.2
  have hunit : ((cardinal n).any fun it => it.1 = .unit) = true := by
    obtain ⟨word, hword, hcount⟩ := hcounts
    obtain ⟨it, hit, rfl⟩ := List.mem_map.1 hword
    exact List.any_eq_true.2 ⟨it, hit, decide_eq_true (itemWord_counts it (hmem it hit) hcount)⟩
  have hrun : expandRuns [] (cardinalWords n) = [(toString n).toList] := by
    rw [cardinalWords, expandRuns_items (fun it hit => classify_itemWord it (hmem it hit)), flush]
    have htokens : ((cardinal n).map fun it => (itemWord it, it)).map Prod.fst = cardinalWords n := by
      rw [List.map_map]
      rfl
    have hitems : ((cardinal n).map fun it => (itemWord it, it)).map Prod.snd = cardinal n := by
      rw [List.map_map]
      exact List.map_id _
    rw [List.nil_append, htokens, hitems, if_pos ⟨hunit, hlone⟩, runValue_cardinal]
  rw [expandCardinals, hwords, hrun]
  simp [joinWords]

/-- The fold reads a run as itself or refuses it exactly where a word does not
descend or the run is a spelling; and every spelling with a counting word,
except the article, is rewritten to its digits. -/
theorem cardinals_read_iff (hblank : Unicode.isSpace ' ' = true)
    (hletters : ∀ c, 'a' ≤ c → c ≤ 'z' → Unicode.isSpace c = false) :
    (∀ items, (∀ n, runValue items = some n → Spells items n) ↔
        Ascends items ∨ ∃ n, Spells items n) ∧
      ∀ n, 0 < n → n < cardinalLimit → (∃ word ∈ cardinalWords n, word ∈ countWords) →
        cardinalWords n ≠ ["bir".toList] →
          expandCardinals (joinWords (cardinalWords n)) = (toString n).toList :=
  ⟨run_value_spells_iff, fun _ hpos hn hcounts hlone =>
    expandCardinals_cardinal hblank hletters hpos hn hcounts hlone⟩

end

section
attribute [local instance] plainTables

theorem plain_letters (c : Char) (ha : 'a' ≤ c) (_ : c ≤ 'z') : plainTables.isSpace c = false := by
  have hne : ∀ d : Char, ¬ 'a' ≤ d → c ≠ d := fun d hd heq => hd (heq ▸ ha)
  have hblank : (c = ' ' || c = '\n' || c = '\t' || c = '\r') = false := by
    simp [hne ' ' (by decide), hne '\n' (by decide), hne '\t' (by decide), hne '\r' (by decide)]
  exact hblank

theorem cardinals_read_sample :
    expandCardinals "iki yuz elli bin".toList = "250000".toList ∧
      ¬ Ascends [(.unit, 20), (.scale, 100), (.unit, 30)] := by
  have h := cardinals_read_iff rfl plain_letters
  constructor
  · exact h.2 250000 (by decide) (by decide) ⟨"iki".toList, by decide, by decide⟩ (by decide)
  · intro hascends
    cases runValue_eq_none.2 hascends

/-- `yuz yuz` is no spelling, and is read as ten thousand. -/
theorem repeated_hundred_read : ∃ (tokens : List Text) (items : List Item) (n : ℕ),
    tokens.map classify = items.map some ∧ runValue items = some n ∧ ¬ Spells items n := by
  refine ⟨["yuz".toList, "yuz".toList], [(.scale, 100), (.scale, 100)], 10000, rfl, rfl, ?_⟩
  rintro ⟨-, hspells⟩
  revert hspells
  decide

end

end RagPipeline.Answer
