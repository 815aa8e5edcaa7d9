import RagPipeline.Extraction.Finalize
import Mathlib.Data.List.Chain
import Mathlib.Data.List.Nodup

/-! # What the serial column betrays

`row_sequence.check` finds nothing exactly where the numbered rows lie together
and count up from zero or one. A row that is gone or repeated is found beside
its place. -/

set_option autoImplicit false

namespace RagPipeline.Extraction

/-! ## Lists that count up -/

theorem isChain_succ_iff {xs : List ℕ} :
    xs.IsChain (fun a b => b = a + 1) ↔ xs = List.range' (xs.headD 0) xs.length := by
  induction xs with
  | nil => simp
  | cons a rest ih =>
    cases rest with
    | nil => simp
    | cons b rest =>
      rw [List.isChain_cons_cons, ih]
      show b = a + 1 ∧ b :: rest = List.range' b (rest.length + 1) ↔
        a :: b :: rest = List.range' a (rest.length + 1 + 1)
      rw [List.range'_succ (n := rest.length + 1)]
      constructor
      · intro h
        rw [← h.1, ← h.2]
      · intro h
        have htail := (List.cons.inj h).2
        have hb : b = a + 1 := by
          rw [List.range'_succ] at htail
          exact (List.cons.inj htail).1
        rw [hb] at htail ⊢
        exact ⟨rfl, htail⟩

/-- Places that ascend lie together where nothing between them is missing. -/
theorem isChain_succ_iff_mem {ps : List ℕ} (hps : ps.Pairwise (· < ·)) :
    ps.IsChain (fun a b => b = a + 1) ↔ ∀ i, ps.headD 0 ≤ i → i < ps.getLastD 0 → i ∈ ps := by
  induction ps with
  | nil => simp
  | cons a rest ih =>
    cases rest with
    | nil =>
      constructor
      · intro _ i hi hlast
        change i < a at hlast
        change a ≤ i at hi
        omega
      · intro _
        exact .singleton a
    | cons b rest =>
      obtain ⟨ha, hrest⟩ := List.pairwise_cons.1 hps
      have hab : a < b := ha b List.mem_cons_self
      rw [List.isChain_cons_cons, ih hrest]
      simp only [List.headD_cons, List.getLastD_cons]
      constructor
      · intro h i hi hlast
        by_cases hia : i = a
        · rw [hia]
          exact List.mem_cons_self
        · exact List.mem_cons_of_mem a (h.2 i (by omega) hlast)
      · intro h
        have hlast : b ≤ rest.getLastD b := by
          cases rest with
          | nil => exact le_refl b
          | cons c rest =>
            have hmem : (c :: rest).getLastD b ∈ c :: rest := by
              rw [List.getLastD_eq_getLast?, List.getLast?_eq_some_getLast (List.cons_ne_nil c rest)]
              exact List.getLast_mem _
            exact le_of_lt ((List.pairwise_cons.1 hrest).1 _ hmem)
        have hb : b = a + 1 := by
          by_contra hne
          have hmem := h (a + 1) (by omega) (by omega)
          obtain heq | hmem := List.mem_cons.1 hmem
          · omega
          · obtain heq | hmem := List.mem_cons.1 hmem
            · omega
            · have := (List.pairwise_cons.1 hrest).1 _ hmem
              omega
        refine ⟨hb, ?_⟩
        intro i hi hi'
        obtain rfl | hmem := List.mem_cons.1 (h i (by omega) hi')
        · omega
        · exact hmem

theorem any_zip_tail {α : Type} (p : α → α → Bool) (l : List α) :
    (l.zip l.tail).any (fun q => p q.1 q.2) = false ↔ l.IsChain fun a b => p a b = false := by
  induction l with
  | nil => simp
  | cons a rest ih =>
    cases rest with
    | nil => simp
    | cons b rest =>
      rw [List.isChain_cons_cons, ← ih]
      show (p a b || ((b :: rest).zip rest).any fun q => p q.1 q.2) = false ↔ _
      rw [Bool.or_eq_false_iff]
      rfl

/-! ## Numbered rows -/

/-- The places that have a number, each with its number. -/
def numberedOf (values : List (Option ℕ)) : List (ℕ × ℕ) :=
  values.zipIdx.filterMap fun (v, i) => v.map fun v => (i, v)

theorem mem_numberedOf {values : List (Option ℕ)} {i v : ℕ} :
    (i, v) ∈ numberedOf values ↔ values[i]? = some (some v) := by
  unfold numberedOf
  rw [List.mem_filterMap]
  constructor
  · rintro ⟨⟨o, j⟩, hmem, heq⟩
    obtain ⟨w, rfl, hw⟩ := Option.map_eq_some_iff.1 heq
    cases hw
    exact List.mk_mem_zipIdx_iff_getElem?.1 hmem
  · intro h
    exact ⟨(some v, i), List.mk_mem_zipIdx_iff_getElem?.2 h, rfl⟩

theorem numberedOf_ascends (values : List (Option ℕ)) :
    (numberedOf values).Pairwise fun a b => a.1 < b.1 := by
  unfold numberedOf
  rw [List.pairwise_filterMap]
  have hidx : values.zipIdx.Pairwise fun a b => a.2 < b.2 := by
    rw [← List.pairwise_map (f := Prod.snd), List.zipIdx_map_snd]
    exact List.pairwise_lt_range'
  apply hidx.imp
  rintro ⟨o, i⟩ ⟨o', j⟩ hij a ha b hb
  obtain ⟨v, -, rfl⟩ := Option.map_eq_some_iff.1 ha
  obtain ⟨w, -, rfl⟩ := Option.map_eq_some_iff.1 hb
  exact hij

theorem numberedOf_numbers (values : List (Option ℕ)) :
    (numberedOf values).map Prod.snd = values.filterMap id := by
  have hgen : ∀ (l : List (Option ℕ)) (n : ℕ),
      ((l.zipIdx n).filterMap fun (v, i) => v.map fun v => (i, v)).map Prod.snd = l.filterMap id := by
    intro l
    induction l with
    | nil => intro n; rfl
    | cons o rest ih =>
      intro n
      rw [List.zipIdx_cons]
      cases o with
      | none => exact ih (n + 1)
      | some v => exact congrArg (v :: ·) (ih (n + 1))
  exact hgen values 0

theorem repeated_nil_iff {l : List (ℕ × ℕ)} (hl : l.Pairwise fun a b => a.1 < b.1) :
    repeated l = [] ↔ (l.map Prod.snd).Nodup := by
  unfold repeated
  rw [List.filterMap_eq_nil_iff]
  constructor
  · intro h
    have hplace : ∀ p ∈ l, ∀ q ∈ l, p.2 = q.2 → p.1 = q.1 := by
      intro p hp q hq hpq
      have hfind : ∀ r ∈ l, r.2 = p.2 → (l.find? fun w => w.2 = p.2).map Prod.fst = some r.1 := by
        rintro ⟨i, v⟩ hr hv
        change v = p.2 at hv
        rw [← hv]
        have hnone := h (i, v) hr
        cases hfound : l.find? fun w => w.2 = v with
        | none =>
          have hall := List.find?_eq_none.1 hfound (i, v) hr
          simp at hall
        | some w =>
          change ((l.find? fun w => w.2 = v).bind fun w => if w.1 = i then none else some (i, v, w.1)) = none
            at hnone
          rw [hfound] at hnone
          by_contra hne
          have hi : w.1 ≠ i := by
            intro hi
            apply hne
            rw [← hi]
            rfl
          simp [hi] at hnone
      exact Option.some.inj ((hfind p hp rfl).symm.trans (hfind q hq hpq.symm))
    apply List.pairwise_map.2
    apply hl.imp_of_mem
    intro p q hp hq hlt heq
    have := hplace p hp q hq heq
    omega
  · intro h
    rintro ⟨i, v⟩ hmem
    change ((l.find? fun w => w.2 = v).bind fun w => if w.1 = i then none else some (i, v, w.1)) = none
    cases hfound : l.find? fun w => w.2 = v with
    | none => rfl
    | some w =>
      have hw : w.2 = v := by simpa using List.find?_some hfound
      have hsame : w = (i, v) := List.inj_on_of_nodup_map h (List.mem_of_find?_eq_some hfound) hmem hw
      rw [hsame]
      simp

/-! ## No finding -/

theorem places_ascend (values : List (Option ℕ)) :
    ((numberedOf values).map Prod.fst).Pairwise (· < ·) :=
  List.pairwise_map.2 (numberedOf_ascends values)

/-- The places without a number between numbered ones. -/
def blankOf (values : List (Option ℕ)) : List ℕ :=
  (List.range values.length).filter fun i =>
    ((numberedOf values).map Prod.fst).headD 0 ≤ i ∧
      i < ((numberedOf values).map Prod.fst).getLastD 0 ∧ values[i]? = some none

/-- Nothing unnumbered stands between numbered rows where their places count up. -/
theorem blank_nil_iff (values : List (Option ℕ)) :
    blankOf values = [] ↔
      ((numberedOf values).map Prod.fst).IsChain fun a b => b = a + 1 := by
  rw [isChain_succ_iff_mem (places_ascend values), blankOf, List.filter_eq_nil_iff]
  constructor
  · intro h i hi hlast
    have hbound : i < values.length := by
      have hlast' : ((numberedOf values).map Prod.fst).getLastD 0 ∈ (numberedOf values).map Prod.fst := by
        cases hl : (numberedOf values).map Prod.fst with
        | nil =>
          rw [hl] at hlast
          exact absurd hlast (Nat.not_lt_zero i)
        | cons a rest =>
          rw [List.getLastD_eq_getLast?, List.getLast?_eq_some_getLast (List.cons_ne_nil a rest)]
          exact List.getLast_mem _
      obtain ⟨⟨j, v⟩, hmem, hj⟩ := List.mem_map.1 hlast'
      have hlt := (List.getElem?_eq_some_iff.1 (mem_numberedOf.1 hmem)).1
      change j = _ at hj
      omega
    have hnone := h i (List.mem_range.2 hbound)
    cases hv : values[i] with
    | none =>
      exfalso
      apply hnone
      have hsome : values[i]? = some none := by rw [List.getElem?_eq_getElem hbound, hv]
      simpa [hsome] using And.intro hi hlast
    | some v =>
      apply List.mem_map.2
      refine ⟨(i, v), mem_numberedOf.2 ?_, rfl⟩
      rw [List.getElem?_eq_getElem hbound, hv]
  · intro h i _ hi
    simp only [decide_eq_true_eq] at hi
    obtain ⟨⟨j, v⟩, hmem, hj⟩ := List.mem_map.1 (h i hi.1 hi.2.1)
    have hv := mem_numberedOf.1 hmem
    change j = i at hj
    rw [hj, hi.2.2] at hv
    cases Option.some.inj hv

theorem gaps_nil_iff {l : List (ℕ × ℕ)} :
    ((l.zip l.tail).filter fun ((_, pv), (_, nv)) => pv + 1 < nv) = [] ↔
      (l.map Prod.snd).IsChain fun a b => decide (a + 1 < b) = false := by
  rw [List.isChain_map, ← any_zip_tail (fun a b : ℕ × ℕ => decide (a.2 + 1 < b.2)) l,
    List.filter_eq_nil_iff, List.any_eq_false]

/-- Numbers that never descend, none twice and none left out, count up. -/
theorem counts_up_iff {ns : List ℕ} (hmono : ns.IsChain fun a b => decide (b < a) = false) :
    (ns.Nodup ∧ ns.IsChain fun a b => decide (a + 1 < b) = false) ↔
      ns.IsChain fun a b => b = a + 1 := by
  constructor
  · intro h
    rw [List.isChain_iff_getElem] at hmono ⊢
    have hgap := List.isChain_iff_getElem.1 h.2
    intro i hi
    have hle := of_decide_eq_false (hmono i hi)
    have hlt := of_decide_eq_false (hgap i hi)
    have hne : ns[i] ≠ ns[i + 1] := by
      intro heq
      have := (List.Nodup.getElem_inj_iff h.1).1 heq
      omega
    omega
  · intro h
    constructor
    · rw [isChain_succ_iff.1 h]
      exact List.nodup_range'
    · apply h.imp
      intro a b hab
      simp [hab]

theorem ascends_of_index {rows : List (List String)} {U : Unicode} {col : ℕ}
    (h : isIndexColumn U rows col = true) :
    ((serials U rows col).filterMap id).IsChain fun a b => decide (b < a) = false := by
  unfold isIndexColumn at h
  simp only [Bool.and_eq_true, Bool.not_eq_true', Bool.or_eq_false_iff] at h
  exact (any_zip_tail (fun a b : ℕ => decide (b < a)) _).1 h.2.2

/-- Rows that lie together and count up from zero or one. -/
def CountsUp (numbered : List (ℕ × ℕ)) : Prop :=
  ∃ first start n, start ≤ 1 ∧ numbered = (List.range n).map fun k => (first + k, start + k)

theorem countsUp_iff {l : List (ℕ × ℕ)} :
    CountsUp l ↔ ((l.map Prod.fst).IsChain fun a b => b = a + 1) ∧
      ((l.map Prod.snd).IsChain fun a b => b = a + 1) ∧ (l.map Prod.snd).headD 0 ≤ 1 := by
  rw [isChain_succ_iff, isChain_succ_iff]
  constructor
  · rintro ⟨first, start, n, hstart, rfl⟩
    have hfst : ((List.range n).map fun k => (first + k, start + k)).map Prod.fst =
        List.range' first n := by
      rw [List.range'_eq_map_range, List.map_map]
      rfl
    have hsnd : ((List.range n).map fun k => (first + k, start + k)).map Prod.snd =
        List.range' start n := by
      rw [List.range'_eq_map_range, List.map_map]
      rfl
    rw [hfst, hsnd]
    cases n with
    | zero => exact ⟨rfl, rfl, Nat.zero_le 1⟩
    | succ n =>
      simp only [List.range'_succ, List.headD_cons, List.length_cons, List.length_range',
        true_and]
      exact hstart
  · intro h
    refine ⟨(l.map Prod.fst).headD 0, (l.map Prod.snd).headD 0, l.length, h.2.2, ?_⟩
    have hzip : l = (l.map Prod.fst).zip (l.map Prod.snd) := (List.zip_unzip l).symm.trans (by
      rw [List.unzip_eq_map])
    rw [h.1, h.2.1] at hzip
    simp only [List.length_map] at hzip
    apply hzip.trans
    rw [List.range'_eq_map_range, List.range'_eq_map_range, List.zip_map']

section
variable {U : Unicode} {rows : List (List String)} {col : ℕ}

/-- Where there is no issue, no cell is shown. -/
theorem cells_nil (h : (checkSequence U rows).1 = []) : (checkSequence U rows).2 = [] := by
  unfold checkSequence at h ⊢
  cases hcol : findIndexColumn U rows with
  | none => rfl
  | some col =>
    rw [hcol] at h
    simp only [List.append_eq_nil_iff, List.map_eq_nil_iff, List.flatMap_eq_nil_iff,
      ite_eq_right_iff, List.cons_ne_nil, imp_false, not_lt] at h ⊢
    refine ⟨⟨⟨h.1.1.1, ?_⟩, h.1.2⟩, h.2⟩
    intro p hp
    rw [h.1.1.2] at hp
    cases hp

/-- In a table with a serial column nothing is found where the numbered rows count up. -/
theorem issues_nil_iff (hcol : findIndexColumn U rows = some col) :
    (checkSequence U rows).1 = [] ↔ CountsUp (numberedOf (serials U rows col)) := by
  have hindex : isIndexColumn U rows col = true := List.find?_some hcol
  have hnumbers := numberedOf_numbers (serials U rows col)
  rw [countsUp_iff, ← blank_nil_iff,
    ← counts_up_iff (by rw [hnumbers]; exact ascends_of_index hindex), ← gaps_nil_iff,
    ← repeated_nil_iff (numberedOf_ascends _)]
  unfold checkSequence
  rw [hcol]
  simp only [List.append_eq_nil_iff, List.map_eq_nil_iff, ite_eq_right_iff, List.cons_ne_nil,
    imp_false, not_lt]
  constructor
  · intro h
    exact ⟨h.1.1.1, ⟨h.1.1.2, h.1.2⟩, h.2⟩
  · intro h
    exact ⟨⟨⟨h.1, h.2.1.1⟩, h.2.1.2⟩, h.2.2⟩

theorem quiet_iff : checkSequence U rows = ([], []) ↔
    findIndexColumn U rows = none ∨
      ∃ col, findIndexColumn U rows = some col ∧ CountsUp (numberedOf (serials U rows col)) := by
  have hissues : checkSequence U rows = ([], []) ↔ (checkSequence U rows).1 = [] := by
    constructor
    · intro h
      rw [h]
    · intro h
      exact Prod.ext h (cells_nil h)
  rw [hissues]
  cases hcol : findIndexColumn U rows with
  | none =>
    have hnone : (checkSequence U rows).1 = [] := by
      unfold checkSequence
      rw [hcol]
    simp [hnone]
  | some col =>
    rw [issues_nil_iff hcol]
    simp

/-! ## Rows gone, and a row twice -/

/-- Something is found, and this cell is shown for it. -/
def Finding (U : Unicode) (rows : List (List String)) (cell : ℕ × ℕ) : Prop :=
  (checkSequence U rows).1 ≠ [] ∧ cell ∈ (checkSequence U rows).2

theorem finding_of_mem {cell : ℕ × ℕ} (h : cell ∈ (checkSequence U rows).2) :
    Finding U rows cell := by
  refine ⟨?_, h⟩
  intro hnone
  rw [cells_nil hnone] at h
  cases h

/-- The rows are numbered from one to the last. -/
def CompleteSerial (U : Unicode) (rows : List (List String)) (col : ℕ) : Prop :=
  serials U rows col = (List.range rows.length).map fun k => some (k + 1)

instance : Decidable (CompleteSerial U rows col) :=
  inferInstanceAs (Decidable (serials U rows col = _))

/-- The rows that are kept, by their places. -/
def pick (rows : List (List String)) (kept : List ℕ) : List (List String) :=
  kept.filterMap fun k => rows[k]?

variable (U rows col) in
theorem serials_getElem? (k : ℕ) :
    (serials U rows col)[k]? = rows[k]?.map fun row => row[col]? >>= asInt U :=
  List.getElem?_map

theorem serials_pick (h : CompleteSerial U rows col) {kept : List ℕ}
    (hkept : ∀ k ∈ kept, k < rows.length) :
    serials U (pick rows kept) col = (kept.map (· + 1)).map some := by
  induction kept with
  | nil => rfl
  | cons k kept ih =>
    have hk : k < rows.length := hkept k List.mem_cons_self
    have hserial : (rows[k][col]? >>= asInt U) = some (k + 1) := by
      have hget := serials_getElem? U rows col k
      rw [h, List.getElem?_map, List.getElem?_range hk, List.getElem?_eq_getElem hk] at hget
      exact (Option.some.inj hget).symm
    have hcons : pick rows (k :: kept) = rows[k] :: pick rows kept := by
      unfold pick
      rw [List.filterMap_cons, List.getElem?_eq_getElem hk]
    rw [hcons]
    show (rows[k][col]? >>= asInt U) :: serials U (pick rows kept) col = _
    rw [hserial, ih fun j hj => hkept j (List.mem_cons_of_mem k hj)]
    rfl

theorem length_le_width {row : List String} (h : row ∈ rows) :
    row.length ≤ (rows.map List.length).foldr max 0 := by
  induction rows with
  | nil => cases h
  | cons first rows ih =>
    show row.length ≤ max first.length ((rows.map List.length).foldr max 0)
    obtain rfl | h := List.mem_cons.1 h
    · exact le_max_left _ _
    · exact le_trans (ih h) (le_max_right _ _)

theorem width_of_serial {nums : List ℕ} (h : serials U rows col = nums.map some)
    (hne : nums ≠ []) : col < (rows.map List.length).foldr max 0 := by
  cases nums with
  | nil => exact absurd rfl hne
  | cons n nums =>
    have hget := serials_getElem? U rows col 0
    rw [h] at hget
    cases hrow : rows[0]? with
    | none =>
      rw [hrow] at hget
      cases hget
    | some row =>
      rw [hrow] at hget
      have hsome : (row[col]? >>= asInt U) = some n := (Option.some.inj hget).symm
      cases hcell : row[col]? with
      | none =>
        rw [hcell] at hsome
        cases hsome
      | some c =>
        have hlt := (List.getElem?_eq_some_iff.1 hcell).1
        have := length_le_width (List.mem_of_getElem? hrow)
        omega

/-- A column with a number in every row, beginning at two or less, is the serial
column unless one before it is. -/
theorem findIndexColumn_eq {nums : List ℕ} (h : serials U rows col = nums.map some)
    (hlen : 3 ≤ nums.length) (hhead : nums.headD 0 ≤ 2) (hmono : nums.IsChain (· ≤ ·))
    (hearlier : ∀ c < col, isIndexColumn U rows c = false) :
    findIndexColumn U rows = some col := by
  have hfull : (nums.map some).filterMap id = nums := by
    rw [List.filterMap_map]
    exact List.filterMap_some
  have hrows : rows.length = nums.length := by
    have := congrArg List.length h
    simpa [serials] using this
  have hindex : isIndexColumn U rows col = true := by
    unfold isIndexColumn
    rw [h, hfull, hrows]
    have hcover : ¬ ((nums.length : ℚ) / nums.length < 3 / 5) := by
      have hpos : (nums.length : ℚ) ≠ 0 := by
        rw [Nat.cast_ne_zero]
        omega
      rw [div_self hpos]
      norm_num
    have hdown := (any_zip_tail (fun a b : ℕ => decide (b < a)) nums).2 (by
      apply hmono.imp
      intro a b hab
      exact decide_eq_false (not_lt.2 hab))
    simp only [Bool.and_eq_true, Bool.not_eq_true', Bool.or_eq_false_iff, decide_eq_false_iff_not]
    exact ⟨⟨not_lt.2 hlen, hcover⟩, not_lt.2 hhead, hdown⟩
  have hwidth : col < (rows.map List.length).foldr max 0 := by
    apply width_of_serial h
    intro hnil
    rw [hnil] at hlen
    exact absurd hlen (by decide)
  unfold findIndexColumn
  rw [List.find?_range_eq_some]
  refine ⟨hindex, List.mem_range.2 hwidth, ?_⟩
  intro c hc
  rw [hearlier c hc]
  rfl

theorem numberedOf_full (nums : List ℕ) (j : ℕ) :
    (numberedOf (nums.map some))[j]? = nums[j]?.map fun v => (j, v) := by
  have hfull : numberedOf (nums.map some) = nums.zipIdx.map fun p => (p.2, p.1) := by
    unfold numberedOf
    rw [List.zipIdx_map, List.filterMap_map]
    show (nums.zipIdx.filterMap fun p => some (p.2, p.1)) = _
    rw [List.filterMap_eq_map']
  rw [hfull, List.getElem?_map, List.getElem?_zipIdx, Nat.zero_add, Option.map_map]
  rfl

theorem cells_eq (hcol : findIndexColumn U rows = some col) {values : List (Option ℕ)}
    (hvalues : serials U rows col = values) :
    (checkSequence U rows).2 = (blankOf values).map (fun i => (i, col)) ++
      (repeated (numberedOf values)).flatMap (fun (i, _, first) => [(i, col), (first, col)]) ++
      ((numberedOf values).zip (numberedOf values).tail |>.filter
        fun ((_, pv), (_, nv)) => pv + 1 < nv).map (fun (_, (ni, _)) => (ni, col)) ++
      (if 1 < ((numberedOf values).map Prod.snd).headD 0 then
        [(((numberedOf values).map Prod.fst).headD 0, col)] else []) := by
  rw [← hvalues]
  unfold checkSequence
  rw [hcol]
  rfl

/-- A number that leaves one out is shown. -/
theorem gap_mem {nums : List ℕ} (hcol : findIndexColumn U rows = some col)
    (hserials : serials U rows col = nums.map some) {j a b : ℕ} (ha : nums[j]? = some a)
    (hb : nums[j + 1]? = some b) (hab : a + 1 < b) : (j + 1, col) ∈ (checkSequence U rows).2 := by
  rw [cells_eq hcol hserials]
  apply List.mem_append_left
  apply List.mem_append_right
  apply List.mem_map.2
  refine ⟨((j, a), (j + 1, b)), List.mem_filter.2 ⟨?_, by simpa using hab⟩, rfl⟩
  apply List.mem_of_getElem? (i := j)
  apply List.getElem?_zip_eq_some.2
  show (numberedOf (nums.map some))[j]? = _ ∧ (numberedOf (nums.map some)).tail[j]? = _
  rw [List.getElem?_tail, numberedOf_full, numberedOf_full, ha, hb]
  exact ⟨rfl, rfl⟩

/-- A first number above one is shown. -/
theorem start_mem {nums : List ℕ} (hcol : findIndexColumn U rows = some col)
    (hserials : serials U rows col = nums.map some) (hstart : 1 < nums.headD 0) :
    (0, col) ∈ (checkSequence U rows).2 := by
  cases nums with
  | nil => cases hstart
  | cons a nums =>
    rw [cells_eq hcol hserials]
    apply List.mem_append_right
    have hfirst : (numberedOf ((a :: nums).map some)).head? = some (0, a) := by
      rw [List.head?_eq_getElem?, numberedOf_full]
      rfl
    obtain ⟨rest, hrest⟩ := List.head?_eq_some_iff.1 hfirst
    rw [hrest]
    rw [if_pos (by exact hstart)]
    exact List.mem_singleton_self _

/-- A number that was there before is shown, and so is its first row. -/
theorem twice_mem {nums : List ℕ} (hcol : findIndexColumn U rows = some col)
    (hserials : serials U rows col = nums.map some) {j k a : ℕ} (hk : nums[k]? = some a)
    (hj : nums[j]? = some a) (hkj : k < j) (hfirst : ∀ i < k, nums[i]? ≠ some a) :
    (k, col) ∈ (checkSequence U rows).2 ∧ (j, col) ∈ (checkSequence U rows).2 := by
  have hfind : (numberedOf (nums.map some)).find? (fun w => w.2 = a) = some (k, a) := by
    have hget : (numberedOf (nums.map some))[k]? = some (k, a) := by
      rw [numberedOf_full, hk]
      rfl
    obtain ⟨hlt, hat⟩ := List.getElem?_eq_some_iff.1 hget
    rw [List.find?_eq_some_iff_getElem]
    refine ⟨by simp, k, hlt, hat, ?_⟩
    intro i hi
    have hi' : (numberedOf (nums.map some))[i]? = some ((numberedOf (nums.map some))[i]) :=
      List.getElem?_eq_getElem (lt_trans hi hlt)
    rw [numberedOf_full] at hi'
    cases hn : nums[i]? with
    | none =>
      rw [hn] at hi'
      cases hi'
    | some v =>
      rw [hn] at hi'
      rw [← Option.some.inj hi']
      have hne : v ≠ a := by
        intro heq
        rw [heq] at hn
        exact hfirst i hi hn
      simpa using hne
  have hrepeated : (j, a, k) ∈ repeated (numberedOf (nums.map some)) := by
    unfold repeated
    rw [List.mem_filterMap]
    refine ⟨(j, a), ?_, ?_⟩
    · apply List.mem_of_getElem? (i := j)
      rw [numberedOf_full, hj]
      rfl
    · show (((numberedOf (nums.map some)).find? fun w => w.2 = a).bind fun w =>
        if w.1 = j then none else some (j, a, w.1)) = _
      rw [hfind]
      exact if_neg (by omega)
  rw [cells_eq hcol hserials]
  have hcells : ∀ cell ∈ [(j, col), (k, col)],
      cell ∈ (repeated (numberedOf (nums.map some))).flatMap fun (i, _, first) =>
        [(i, col), (first, col)] :=
    fun cell hcell => List.mem_flatMap.2 ⟨(j, a, k), hrepeated, hcell⟩
  constructor
  · exact List.mem_append_left _ (List.mem_append_left _ (List.mem_append_right _
      (hcells _ (by simp))))
  · exact List.mem_append_left _ (List.mem_append_left _ (List.mem_append_right _
      (hcells _ (by simp))))

/-- Kept places that are no beginning start late, or leave a place out between two. -/
theorem break_of_kept {kept : List ℕ} (hkept : kept.Pairwise (· < ·)) (hhead : 0 ∈ kept ∨ 1 ∈ kept)
    (hne : kept ≠ List.range kept.length) :
    kept[0]? = some 1 ∧ 0 ∉ kept ∨
      ∃ j a b : ℕ, kept[j]? = some a ∧ kept[j + 1]? = some (b + 1) ∧ a < b ∧ b ∉ kept := by
  have hmono := List.pairwise_iff_getElem.1 hkept
  by_cases hchain : kept.IsChain fun a b => b = a + 1
  · left
    have hrange := isChain_succ_iff.1 hchain
    cases kept with
    | nil => exact absurd rfl hne
    | cons a rest =>
      have hleast : ∀ b ∈ a :: rest, a ≤ b := by
        intro b hb
        obtain rfl | hb := List.mem_cons.1 hb
        · exact le_refl b
        · exact le_of_lt ((List.pairwise_cons.1 hkept).1 b hb)
      have ha : a ≠ 0 := by
        intro hzero
        apply hne
        rw [List.range_eq_range', ← hzero]
        exact hrange
      have hzero : 0 ∉ a :: rest := by
        intro hmem
        have := hleast 0 hmem
        omega
      have hone : a ≤ 1 := hleast 1 (hhead.resolve_left hzero)
      have heq : a = 1 := by omega
      rw [heq] at hzero ⊢
      exact ⟨rfl, hzero⟩
  · right
    rw [List.isChain_iff_getElem] at hchain
    push Not at hchain
    obtain ⟨j, hj, hstep⟩ := hchain
    have hlt := hmono j (j + 1) (by omega) hj (by omega)
    refine ⟨j, kept[j], kept[j + 1] - 1, List.getElem?_eq_getElem (by omega), ?_, by omega, ?_⟩
    · rw [List.getElem?_eq_getElem hj, Nat.sub_add_cancel (by omega)]
    · intro hmem
      obtain ⟨m, hm, heq⟩ := List.getElem_of_mem hmem
      have hleft : j < m := by
        by_contra hnot
        obtain hlt' | heq' := lt_or_eq_of_le (not_lt.1 hnot)
        · have := hmono m j hm (by omega) hlt'
          omega
        · subst heq'
          omega
      have hright : m < j + 1 := by
        by_contra hnot
        obtain hlt' | heq' := lt_or_eq_of_le (not_lt.1 hnot)
        · have := hmono (j + 1) m hj hm hlt'
          omega
        · subst heq'
          omega
      omega

theorem head_of_kept {kept : List ℕ} (hkept : kept.Pairwise (· < ·))
    (hhead : 0 ∈ kept ∨ 1 ∈ kept) : (kept.map (· + 1)).headD 0 ≤ 2 := by
  cases kept with
  | nil => exact Nat.zero_le 2
  | cons a rest =>
    show a + 1 ≤ 2
    have hleast : ∀ b ∈ a :: rest, a ≤ b := by
      intro b hb
      obtain rfl | hb := List.mem_cons.1 hb
      · exact le_refl b
      · exact le_of_lt ((List.pairwise_cons.1 hkept).1 b hb)
    obtain hzero | hone := hhead
    · have := hleast 0 hzero
      omega
    · have := hleast 1 hone
      omega

/-- Rows are gone, not only the last ones: the row after one that is gone is shown. -/
theorem finding_of_removed (h : CompleteSerial U rows col) {kept : List ℕ}
    (hkept : kept.Pairwise (· < ·)) (hbound : ∀ k ∈ kept, k < rows.length) (hlen : 3 ≤ kept.length)
    (hhead : 0 ∈ kept ∨ 1 ∈ kept) (hne : kept ≠ List.range kept.length)
    (hearlier : ∀ c < col, isIndexColumn U (pick rows kept) c = false) :
    ∃ i k, kept[i]? = some (k + 1) ∧ k ∉ kept ∧ Finding U (pick rows kept) (i, col) := by
  have hserials := serials_pick h hbound
  have hmono : (kept.map (· + 1)).IsChain (· ≤ ·) := by
    apply List.Pairwise.isChain
    apply List.pairwise_map.2
    apply hkept.imp
    intro a b hab
    omega
  have hcol : findIndexColumn U (pick rows kept) = some col :=
    findIndexColumn_eq hserials (by simpa using hlen) (head_of_kept hkept hhead) hmono hearlier
  obtain ⟨hone, hzero⟩ | ⟨j, a, b, ha, hb, hab, hgone⟩ := break_of_kept hkept hhead hne
  · have hstart : 1 < (kept.map (· + 1)).headD 0 := by
      rw [List.headD_eq_head?_getD, List.head?_eq_getElem?, List.getElem?_map, hone]
      exact Nat.one_lt_two
    exact ⟨0, 0, hone, hzero, finding_of_mem (start_mem hcol hserials hstart)⟩
  · have ha' : (kept.map (· + 1))[j]? = some (a + 1) := by rw [List.getElem?_map, ha]; rfl
    have hb' : (kept.map (· + 1))[j + 1]? = some (b + 1 + 1) := by rw [List.getElem?_map, hb]; rfl
    exact ⟨j + 1, b, hb, hgone, finding_of_mem (gap_mem hcol hserials ha' hb' (by omega))⟩

/-- A row stands twice: both are shown. -/
theorem finding_of_repeated (h : CompleteSerial U rows col) {k : ℕ} (hk : k < rows.length)
    (hlen : 2 ≤ rows.length)
    (hearlier : ∀ c < col, isIndexColumn U (rows.take (k + 1) ++ rows.drop k) c = false) :
    Finding U (rows.take (k + 1) ++ rows.drop k) (k, col) ∧
      Finding U (rows.take (k + 1) ++ rows.drop k) (k + 1, col) := by
  let all := (List.range rows.length).map (· + 1)
  have hall : ∀ i < rows.length, all[i]? = some (i + 1) := by
    intro i hi
    show ((List.range rows.length).map (· + 1))[i]? = _
    rw [List.getElem?_map, List.getElem?_range hi]
    rfl
  have hlength : all.length = rows.length := by simp [all]
  have hserials : serials U (rows.take (k + 1) ++ rows.drop k) col =
      (all.take (k + 1) ++ all.drop k).map some := by
    have hrows : serials U rows col = all.map some := by
      rw [h]
      simp [all]
    unfold serials at hrows ⊢
    rw [List.map_append, List.map_take, List.map_drop, hrows, List.map_append, List.map_take,
      List.map_drop]
  have hfirst : ∀ i ≤ k, (all.take (k + 1) ++ all.drop k)[i]? = some (i + 1) := by
    intro i hi
    rw [List.getElem?_append_left (by rw [List.length_take, hlength]; omega), List.getElem?_take,
      if_pos (by omega)]
    exact hall i (by omega)
  have hagain : (all.take (k + 1) ++ all.drop k)[k + 1]? = some (k + 1) := by
    have htake : (all.take (k + 1)).length = k + 1 := by rw [List.length_take, hlength]; omega
    rw [List.getElem?_append_right (le_of_eq htake), htake, Nat.sub_self, List.getElem?_drop]
    exact hall k hk
  have hpairwise : all.Pairwise (· ≤ ·) := by
    apply List.pairwise_map.2
    apply List.pairwise_lt_range.imp
    intro a b hab
    omega
  have hmono : (all.take (k + 1) ++ all.drop k).IsChain (· ≤ ·) := by
    apply List.Pairwise.isChain
    apply List.pairwise_append.2
    refine ⟨hpairwise.sublist (List.take_sublist _ _), hpairwise.sublist (List.drop_sublist _ _), ?_⟩
    intro a ha b hb
    obtain ⟨i, hi, ha⟩ := List.mem_take_iff_getElem.1 ha
    obtain ⟨j, hj, hb⟩ := List.mem_drop_iff_getElem.1 hb
    have hi' := hall i (by omega)
    have hj' := hall (k + j) (by omega)
    rw [List.getElem?_eq_getElem (by omega)] at hi' hj'
    have hia := Option.some.inj hi'
    have hjb := Option.some.inj hj'
    omega
  have hhead : (all.take (k + 1) ++ all.drop k).headD 0 ≤ 2 := by
    rw [List.headD_eq_head?_getD, List.head?_eq_getElem?, hfirst 0 (Nat.zero_le k)]
    exact Nat.le_succ 1
  have hmany : 3 ≤ (all.take (k + 1) ++ all.drop k).length := by
    rw [List.length_append, List.length_take, List.length_drop, hlength]
    omega
  have hcol := findIndexColumn_eq hserials hmany hhead hmono hearlier
  have htwice := twice_mem hcol hserials (hfirst k (le_refl k)) hagain (Nat.lt_succ_self k) (by
    intro i hi
    rw [hfirst i (le_of_lt hi)]
    intro heq
    have := Option.some.inj heq
    omega)
  exact ⟨finding_of_mem htwice.1, finding_of_mem htwice.2⟩

end

/-! ## A serial column betrays -/

/-- Nothing is found exactly where there is no serial column or it counts up; and
a complete serial column betrays rows that are gone or stand twice, as long as no
column before it passes for one in the table that is left. -/
theorem serial_betrays (U : Unicode) (rows : List (List String)) (col : ℕ) :
    (checkSequence U rows = ([], []) ↔ findIndexColumn U rows = none ∨
      ∃ col, findIndexColumn U rows = some col ∧ CountsUp (numberedOf (serials U rows col))) ∧
    (CompleteSerial U rows col →
      (∀ kept : List ℕ, kept.Pairwise (· < ·) → (∀ k ∈ kept, k < rows.length) →
        3 ≤ kept.length → (0 ∈ kept ∨ 1 ∈ kept) → kept ≠ List.range kept.length →
        (∀ c < col, isIndexColumn U (pick rows kept) c = false) →
        ∃ i k, kept[i]? = some (k + 1) ∧ k ∉ kept ∧ Finding U (pick rows kept) (i, col)) ∧
      ∀ k < rows.length, 2 ≤ rows.length →
        (∀ c < col, isIndexColumn U (rows.take (k + 1) ++ rows.drop k) c = false) →
        Finding U (rows.take (k + 1) ++ rows.drop k) (k, col) ∧
          Finding U (rows.take (k + 1) ++ rows.drop k) (k + 1, col)) := by
  refine ⟨quiet_iff, fun hserial => ⟨?_, ?_⟩⟩
  · intro kept hkept hbound hlen hhead hne hearlier
    exact finding_of_removed hserial hkept hbound hlen hhead hne hearlier
  · intro k hk hlen hearlier
    exact finding_of_repeated hserial hk hlen hearlier

/-- Four numbered rows without their second, and with their third twice. -/
theorem serial_betrays_four :
    (∃ i k, [0, 2, 3][i]? = some (k + 1) ∧ k ∉ [0, 2, 3] ∧
      Finding latin (pick [["1"], ["2"], ["3"], ["4"]] [0, 2, 3]) (i, 0)) ∧
    Finding latin [["1"], ["2"], ["3"], ["3"], ["4"]] (2, 0) := by
  have hserial : CompleteSerial latin [["1"], ["2"], ["3"], ["4"]] 0 := by decide +kernel
  have hboth := (serial_betrays latin [["1"], ["2"], ["3"], ["4"]] 0).2 hserial
  constructor
  · exact hboth.1 [0, 2, 3] (by decide) (by decide) (by decide) (by decide) (by decide)
      (fun c hc => absurd hc (Nat.not_lt_zero c))
  · exact (hboth.2 2 (by decide) (by decide) fun c hc => absurd hc (Nat.not_lt_zero c)).1

/-- Five numbered rows. The column before the numbers descends once; without the
second row it does not, passes for the serial column, and nothing is found. -/
theorem removed_row_unnoticed :
    CompleteSerial latin [["1", "1"], ["9", "2"], ["2", "3"], ["3", "4"], ["4", "5"]] 1 ∧
      findIndexColumn latin [["1", "1"], ["9", "2"], ["2", "3"], ["3", "4"], ["4", "5"]] = some 1 ∧
      checkSequence latin
        (pick [["1", "1"], ["9", "2"], ["2", "3"], ["3", "4"], ["4", "5"]] [0, 2, 3, 4]) =
          ([], []) := by
  decide +kernel

end RagPipeline.Extraction
