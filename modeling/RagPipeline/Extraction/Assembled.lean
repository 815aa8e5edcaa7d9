import RagPipeline.Extraction.Assemble
import RagPipeline.Extraction.Finalize
import Mathlib.Algebra.Order.BigOperators.Group.List
import Mathlib.Data.List.Nodup
import Mathlib.Data.List.Perm.Basic

/-! # What is assembled

Every word is dealt to one cell of the row of its line. A reading of a text column
stays unless another one of the column goes to the same row. -/

set_option autoImplicit false

namespace RagPipeline.ScannedTable
open Extraction (Unicode normalizeTr latin)
open Gaps

/-! ## Cells -/

def cell (rows : List (List String)) (j ci : ℕ) : Option String := rows[j]?.bind fun row => row[ci]?

theorem cell_setCell (rows : List (List String)) (j j' ci ci' : ℕ) (text : String) :
    cell (setCell rows j ci text) j' ci' =
      if j = j' ∧ ci = ci' then (cell rows j' ci').map fun _ => text else cell rows j' ci' := by
  rw [cell, cell, setCell]
  by_cases hj : j = j'
  · obtain rfl := hj
    have hrow : (rows.modify j fun row => row.set ci text)[j]? = (rows[j]?).map fun row => row.set ci text := by
      simp
    rw [hrow]
    cases rows[j]? with
    | none => simp
    | some row =>
      show (row.set ci text)[ci']? = if j = j ∧ ci = ci' then (row[ci']?).map fun _ => text else row[ci']?
      by_cases hci : ci = ci'
      · obtain rfl := hci
        rw [if_pos ⟨rfl, rfl⟩, List.getElem?_set]
        by_cases hlength : ci < row.length <;> simp [hlength]
      · rw [if_neg fun h => hci h.2]
        exact List.getElem?_set_ne hci
  · rw [if_neg fun h => hj h.1, List.getElem?_modify]
    cases rows[j']? <;> simp [hj]

/-! ## Writing readings -/

abbrev Writes := List (ℕ × Reading)

def write (ci : ℕ) (writes : Writes) (rows : List (List String)) : List (List String) :=
  writes.foldl (fun rows p => setCell rows p.1 ci p.2.text) rows

section
variable {rows rows' : List (List String)} {j ci ci' : ℕ} (writes : Writes)

theorem write_append (ci : ℕ) (writes writes' : Writes) (rows : List (List String)) :
    write ci (writes ++ writes') rows = write ci writes' (write ci writes rows) :=
  List.foldl_append ..

theorem write_other (rows : List (List String)) (h : ci ≠ ci') :
    cell (write ci writes rows) j ci' = cell rows j ci' := by
  induction writes generalizing rows with
  | nil => rfl
  | cons p rest ih =>
    have hrest := ih (setCell rows p.1 ci p.2.text)
    rw [cell_setCell, if_neg fun hsame => h hsame.2] at hrest
    exact hrest

theorem write_isSome (rows : List (List String)) :
    (cell (write ci writes rows) j ci').isSome = (cell rows j ci').isSome := by
  induction writes generalizing rows with
  | nil => rfl
  | cons p rest ih =>
    have hrest := ih (setCell rows p.1 ci p.2.text)
    rw [cell_setCell] at hrest
    apply hrest.trans
    split
    · exact Option.isSome_map
    · rfl

/-- Rows that agree on a cell do so after the same writes. -/
theorem write_congr (h : cell rows j ci' = cell rows' j ci') :
    cell (write ci writes rows) j ci' = cell (write ci writes rows') j ci' := by
  induction writes generalizing rows rows' with
  | nil => exact h
  | cons p rest ih =>
    apply ih
    rw [cell_setCell, cell_setCell, h]

theorem write_untouched (rows : List (List String)) (h : j ∉ writes.map Prod.fst) :
    cell (write ci writes rows) j ci = cell rows j ci := by
  induction writes generalizing rows with
  | nil => rfl
  | cons p rest ih =>
    rw [List.map_cons, List.mem_cons, not_or] at h
    have hrest := ih (setCell rows p.1 ci p.2.text) h.2
    rw [cell_setCell, if_neg fun hsame => h.1 hsame.1.symm] at hrest
    exact hrest

/-- What is written to a cell hides what stood there. -/
theorem write_hides (h : j ∈ writes.map Prod.fst)
    (hsome : (cell rows j ci).isSome = (cell rows' j ci).isSome) :
    cell (write ci writes rows) j ci = cell (write ci writes rows') j ci := by
  induction writes generalizing rows rows' with
  | nil => cases h
  | cons p rest ih =>
    by_cases hfirst : p.1 = j
    · apply write_congr rest
      rw [cell_setCell, cell_setCell, if_pos ⟨hfirst, rfl⟩, if_pos ⟨hfirst, rfl⟩]
      cases hcell : cell rows j ci <;> cases hcell' : cell rows' j ci <;>
        simp [hcell, hcell'] at hsome ⊢
    · rw [List.map_cons, List.mem_cons] at h
      apply ih (h.resolve_left fun heq => hfirst heq.symm)
      rw [cell_setCell, cell_setCell, if_neg fun hsame => hfirst hsame.1, if_neg fun hsame => hfirst hsame.1]
      exact hsome

end

/-! ## Readings and their rows -/

/-- The readings, the one at `k` saying something else. -/
def relabel (readings : List Reading) (k : ℕ) (text : String) : List Reading :=
  readings.modify k fun r => { r with text := text }

section
variable {rowCys : List ℚ} {readings : List Reading} {k : ℕ}

theorem targets_length (rowCys : List ℚ) (readings : List Reading) :
    (targets rowCys readings).length = readings.length := by
  rw [targets]
  split
  · exact List.length_range
  · exact List.length_map _

/-- Where readings go is a matter of where they stand. -/
theorem targets_relabel (rowCys : List ℚ) (readings : List Reading) (k : ℕ) (text : String) :
    targets rowCys (relabel readings k text) = targets rowCys readings := by
  have hpositions : (relabel readings k text).map Reading.y = readings.map Reading.y := by
    apply List.ext_getElem?
    intro i
    rw [relabel, List.getElem?_map, List.getElem?_map, List.getElem?_modify]
    by_cases hi : k = i <;> cases readings[i]? <;> simp [hi]
  have hnearest : (relabel readings k text).map (fun r => nearest rowCys r.y) =
      readings.map fun r => nearest rowCys r.y := by
    have := congrArg (List.map (nearest rowCys)) hpositions
    rw [List.map_map, List.map_map] at this
    exact this
  rw [targets, targets, hnearest, relabel, List.length_modify]

theorem nearest_lt (h : rowCys ≠ []) (y : ℚ) : nearest rowCys y < rowCys.length := by
  rw [nearest]
  cases hmin : (List.range rowCys.length).argmin fun k => |(rowCys[k]?).getD 0 - y| with
  | none => exact List.length_pos_iff.2 h
  | some i => exact List.mem_range.1 (List.argmin_mem hmin)

theorem targets_lt (h : rowCys ≠ []) {j : ℕ} (hj : j ∈ targets rowCys readings) : j < rowCys.length := by
  rw [targets] at hj
  split at hj
  next hlength =>
    rw [← hlength]
    exact List.mem_range.1 hj
  next =>
    obtain ⟨r, -, rfl⟩ := List.mem_map.1 hj
    exact nearest_lt h r.y

/-- Two readings go to one row only where their number is not the number of the rows. -/
theorem targets_nodup_iff : (targets rowCys readings).Nodup ↔
    readings.length = rowCys.length ∨ (readings.map fun r => nearest rowCys r.y).Nodup := by
  rw [targets]
  split
  next hlength => exact iff_of_true List.nodup_range (Or.inl hlength)
  next hlength => exact (or_iff_right hlength).symm

/-- The writes before a reading, its own, and those after it. -/
theorem zip_relabel (hk : k < readings.length) {j : ℕ} (hj : (targets rowCys readings)[k]? = some j)
    (text : String) :
    (targets rowCys readings).zip (relabel readings k text) =
      ((targets rowCys readings).take k).zip (readings.take k) ++
        (j, { readings[k] with text := text }) ::
          ((targets rowCys readings).drop (k + 1)).zip (readings.drop (k + 1)) := by
  have hk' : k < (targets rowCys readings).length := by rwa [targets_length]
  have hsplit : relabel readings k text =
      readings.take k ++ { readings[k] with text := text } :: readings.drop (k + 1) := by
    rw [relabel, List.modify_eq_take_cons_drop hk]
  have htargets : targets rowCys readings =
      (targets rowCys readings).take k ++ j :: (targets rowCys readings).drop (k + 1) := by
    rw [List.getElem?_eq_getElem hk'] at hj
    rw [← Option.some.inj hj, ← List.drop_eq_getElem_cons hk', List.take_append_drop]
  rw [hsplit]
  conv_lhs => rw [htargets]
  rw [List.zip_append, List.zip_cons_cons]
  rw [List.length_take, List.length_take, targets_length]

theorem later_targets (rowCys : List ℚ) (readings : List Reading) (k : ℕ) :
    (((targets rowCys readings).drop k).zip (readings.drop k)).map Prod.fst =
      (targets rowCys readings).drop k := by
  apply List.map_fst_zip
  rw [List.length_drop, List.length_drop, targets_length]

theorem exists_repeated {α : Type} {l : List α} (h : ¬ l.Nodup) : ∃ k j, l[k]? = some j ∧ j ∈ l.drop (k + 1) := by
  induction l with
  | nil => exact absurd List.nodup_nil h
  | cons a rest ih =>
    by_cases ha : a ∈ rest
    · exact ⟨0, a, rfl, ha⟩
    · have hrest : ¬ rest.Nodup := fun hnodup => h (List.nodup_cons.2 ⟨ha, hnodup⟩)
      obtain ⟨k, j, hj, hlater⟩ := ih hrest
      exact ⟨k + 1, j, hj, hlater⟩

theorem not_mem_later {α : Type} {l : List α} (h : l.Nodup) {j : α} (hj : l[k]? = some j) : j ∉ l.drop (k + 1) := by
  obtain ⟨hk, rfl⟩ := List.getElem?_eq_some_iff.1 hj
  have hdrop : (l.drop k).Nodup := h.sublist (List.drop_sublist k l)
  rw [List.drop_eq_getElem_cons hk] at hdrop
  exact (List.nodup_cons.1 hdrop).1

end

/-! ## One column, and one after the other -/

section
variable {rowCys : List ℚ} {rows rows' : List (List String)} {j j' ci k : ℕ}

/-- What one reading says makes no difference to a row that it does not go to, or that a later
reading goes to as well. -/
theorem placeColumn_agree {readings : List Reading} (hk : k < readings.length)
    (hj : (targets rowCys readings)[k]? = some j)
    (hother : j' ≠ j ∨ j' ∈ (targets rowCys readings).drop (k + 1)) (text text' : String)
    (h : cell rows j' ci = cell rows' j' ci) :
    cell (placeColumn rowCys (relabel readings k text) ci rows) j' ci =
      cell (placeColumn rowCys (relabel readings k text') ci rows') j' ci := by
  rw [placeColumn, placeColumn, targets_relabel, targets_relabel, zip_relabel hk hj, zip_relabel hk hj]
  have hbefore : cell (write ci (((targets rowCys readings).take k).zip (readings.take k)) rows) j' ci =
      cell (write ci (((targets rowCys readings).take k).zip (readings.take k)) rows') j' ci :=
    write_congr _ h
  have hsome (X : List (List String)) (r : Reading) :
      (cell (setCell X j ci r.text) j' ci).isSome = (cell X j' ci).isSome := write_isSome [(j, r)] X
  show cell (write ci (_ ++ _ :: _) rows) j' ci = cell (write ci (_ ++ _ :: _) rows') j' ci
  rw [write_append, write_append]
  cases hother with
  | inl hne =>
    apply write_congr (((targets rowCys readings).drop (k + 1)).zip (readings.drop (k + 1)))
    rw [cell_setCell, cell_setCell, if_neg fun hsame => hne hsame.1.symm, if_neg fun hsame => hne hsame.1.symm]
    exact hbefore
  | inr hlater =>
    apply write_hides (((targets rowCys readings).drop (k + 1)).zip (readings.drop (k + 1)))
    · rw [later_targets]
      exact hlater
    · exact (hsome _ { readings[k] with text := text }).trans
        ((congrArg Option.isSome hbefore).trans (hsome _ { readings[k] with text := text' }).symm)

/-- A reading that no other one follows to its row shows there. -/
theorem placeColumn_shows {readings : List Reading} (hk : k < readings.length)
    (hj : (targets rowCys readings)[k]? = some j) (hlater : j ∉ (targets rowCys readings).drop (k + 1))
    (text : String) (h : (cell rows j ci).isSome) :
    cell (placeColumn rowCys (relabel readings k text) ci rows) j ci = some text := by
  rw [placeColumn, targets_relabel, zip_relabel hk hj]
  show cell (write ci (_ ++ _ :: _) rows) j ci = some text
  rw [write_append]
  apply (write_untouched (((targets rowCys readings).drop (k + 1)).zip (readings.drop (k + 1))) _
    (by rwa [later_targets])).trans
  rw [cell_setCell, if_pos ⟨rfl, rfl⟩]
  have hbefore : (cell (write ci (((targets rowCys readings).take k).zip (readings.take k)) rows) j ci).isSome =
      (cell rows j ci).isSome := write_isSome _ rows
  obtain ⟨old, hold⟩ := Option.isSome_iff_exists.1 (hbefore.trans h)
  rw [hold]
  rfl

theorem placeColumn_other {readings : List Reading} {ci' : ℕ} (h : ci ≠ ci') :
    cell (placeColumn rowCys readings ci rows) j ci' = cell rows j ci' :=
  write_other _ rows h

/-- The readings of all columns, one of a column saying something else. -/
def saying (readings : ℕ → List Reading) (ci k : ℕ) (text : String) : ℕ → List Reading :=
  Function.update readings ci (relabel (readings ci) k text)

variable {readings : ℕ → List Reading} {ncol : ℕ} {textCols : List ℕ}

theorem placeColumns_in {c : ℕ} (h : ¬ ncol ≤ c) : placeColumns rowCys readings ncol (c :: textCols) rows =
    placeColumns rowCys readings ncol textCols (placeColumn rowCys (readings c) c rows) := by
  rw [placeColumns, List.foldl_cons, if_neg h]
  rfl

theorem placeColumns_out {c : ℕ} (h : ncol ≤ c) : placeColumns rowCys readings ncol (c :: textCols) rows =
    placeColumns rowCys readings ncol textCols rows := by
  rw [placeColumns, List.foldl_cons, if_pos h]
  rfl

theorem placeColumns_agree (hk : k < (readings ci).length)
    (hj : (targets rowCys (readings ci))[k]? = some j)
    (hother : j' ≠ j ∨ j' ∈ (targets rowCys (readings ci)).drop (k + 1)) (text text' : String)
    (h : cell rows j' ci = cell rows' j' ci) :
    cell (placeColumns rowCys (saying readings ci k text) ncol textCols rows) j' ci =
      cell (placeColumns rowCys (saying readings ci k text') ncol textCols rows') j' ci := by
  induction textCols generalizing rows rows' with
  | nil => exact h
  | cons c rest ih =>
    by_cases hc : ncol ≤ c
    · rw [placeColumns_out hc, placeColumns_out hc]
      exact ih h
    · rw [placeColumns_in hc, placeColumns_in hc]
      apply ih
      by_cases hsame : c = ci
      · obtain rfl := hsame
        rw [saying, saying, Function.update_self, Function.update_self]
        exact placeColumn_agree hk hj hother text text' h
      · rw [placeColumn_other hsame, placeColumn_other hsame]
        exact h

theorem placeColumns_shows (hk : k < (readings ci).length)
    (hj : (targets rowCys (readings ci))[k]? = some j)
    (hlater : j ∉ (targets rowCys (readings ci)).drop (k + 1)) (hci : ci < ncol) (text : String)
    (h : (cell rows j ci).isSome) (hread : ci ∈ textCols ∨ cell rows j ci = some text) :
    cell (placeColumns rowCys (saying readings ci k text) ncol textCols rows) j ci = some text := by
  induction textCols generalizing rows with
  | nil => exact hread.resolve_left List.not_mem_nil
  | cons c rest ih =>
    by_cases hsame : c = ci
    · obtain rfl := hsame
      rw [placeColumns_in (Nat.not_le.2 hci)]
      have hshows : cell (placeColumn rowCys (saying readings c k text c) c rows) j c = some text := by
        rw [saying, Function.update_self]
        exact placeColumn_shows hk hj hlater text h
      apply ih _ (Or.inr hshows)
      rw [hshows]
      rfl
    · have hrest : ci ∈ rest ∨ cell rows j ci = some text :=
        hread.imp_left fun hmem => (List.mem_cons.1 hmem).resolve_left fun heq => hsame heq.symm
      by_cases hc : ncol ≤ c
      · rw [placeColumns_out hc]
        exact ih h hrest
      · rw [placeColumns_in hc]
        apply ih
        · rw [placeColumn_other hsame]
          exact h
        · rw [placeColumn_other hsame]
          exact hrest

theorem placeColumns_other (h : ci ∉ textCols) :
    cell (placeColumns rowCys readings ncol textCols rows) j ci = cell rows j ci := by
  induction textCols generalizing rows with
  | nil => rfl
  | cons c rest ih =>
    rw [List.mem_cons, not_or] at h
    by_cases hc : ncol ≤ c
    · rw [placeColumns_out hc]
      exact ih h.2
    · rw [placeColumns_in hc]
      exact (ih h.2).trans (placeColumn_other fun heq => h.1 heq.symm)

theorem placeColumns_length : (placeColumns rowCys readings ncol textCols rows).length = rows.length := by
  induction textCols generalizing rows with
  | nil => rfl
  | cons c rest ih =>
    by_cases hc : ncol ≤ c
    · rw [placeColumns_out hc]
      exact ih
    · rw [placeColumns_in hc]
      apply ih.trans
      rw [placeColumn]
      generalize (targets rowCys (readings c)).zip (readings c) = writes
      induction writes generalizing rows with
      | nil => rfl
      | cons p more ihw =>
        apply ihw.trans
        exact List.length_modify ..

end

/-! ## Dealing the words -/

theorem dealt_below {α : Type} (f : α → ℕ) (l : List α) (n : ℕ) :
    ((List.range n).flatMap fun i => l.filter fun x => f x = i).Perm (l.filter fun x => f x < n) := by
  induction n with
  | zero => simp
  | succ n ih =>
    rw [List.range_succ, List.flatMap_append, List.flatMap_singleton]
    apply (ih.append_right _).trans
    have hbelow : (l.filter fun x => f x < n + 1).filter (fun x => f x < n) = l.filter fun x => f x < n := by
      rw [List.filter_filter]
      apply List.filter_congr
      intro x _
      rw [Bool.eq_iff_iff, Bool.and_eq_true, decide_eq_true_iff, decide_eq_true_iff]
      omega
    have hlast : (l.filter fun x => f x < n + 1).filter (fun x => !decide (f x < n)) = l.filter fun x => f x = n := by
      rw [List.filter_filter]
      apply List.filter_congr
      intro x _
      rw [Bool.eq_iff_iff, Bool.and_eq_true, Bool.not_eq_true', decide_eq_false_iff_not, decide_eq_true_iff,
        decide_eq_true_iff]
      omega
    have hsplit := List.filter_append_perm (fun x => f x < n) (l.filter fun x => f x < n + 1)
    rw [hbelow, hlast] at hsplit
    exact hsplit

theorem colOf_lt {cols : List Box} (hcols : cols ≠ []) (w : Word) : colOf cols w < cols.length := by
  rw [colOf]
  cases hmax : (List.range cols.length).argmax fun i =>
      ((cols[i]?).map fun c => overlap w.box.x0 w.box.x1 c.x0 c.x1).getD 0 with
  | none => exact List.length_pos_iff.2 hcols
  | some i => exact List.mem_range.1 (List.argmax_mem hmax)

/-- Every word of a line is dealt to one column. -/
theorem bucket_dealt {cols : List Box} (hcols : cols ≠ []) (line : List Word) :
    ((List.range cols.length).flatMap (bucket cols line)).Perm line := by
  have hsorted : ((List.range cols.length).flatMap (bucket cols line)).Perm
      ((List.range cols.length).flatMap fun ci => line.filter fun w => colOf cols w = ci) :=
    List.Perm.flatMap_left _ fun ci _ => sortBy_perm _ _
  have hall : (line.filter fun w => colOf cols w < cols.length) = line := by
    apply List.filter_eq_self.2
    intro w _
    exact decide_eq_true (colOf_lt hcols w)
  have hdealt := dealt_below (colOf cols) line cols.length
  rw [hall] at hdealt
  exact hsorted.trans hdealt

theorem bucket_ordered (cols : List Box) (line : List Word) (ci : ℕ) :
    (bucket cols line ci).Pairwise fun a b => a.box.x0 ≤ b.box.x0 := by
  apply (sortBy_sorted (fun w : Word => toLex (w.box.x0, w.text)) _).imp
  intro a b hab
  cases Prod.Lex.toLex_le_toLex.1 hab with
  | inl hlt => exact le_of_lt hlt
  | inr hsame => exact le_of_eq hsame.1

theorem clusters_below (ocrWords : List Word) :
    (clusters ocrWords).Pairwise fun a b => ∀ x ∈ a, ∀ y ∈ b, cy x < cy y :=
  clusterBy_separated (by decide) (sortBy_sorted cy ocrWords)

theorem length_pos {l : List ℚ} (h : l ≠ []) : (0 : ℚ) < l.length :=
  Nat.cast_pos.2 (List.length_pos_iff.2 h)

theorem sum_const (l : List ℚ) (m : ℚ) : (l.map fun _ => m).sum = m * l.length := by
  rw [List.map_const', List.sum_replicate, nsmul_eq_mul, mul_comm]

theorem mean_lt {l : List ℚ} (hl : l ≠ []) {m : ℚ} (h : ∀ x ∈ l, x < m) : mean l < m := by
  rw [mean, div_lt_iff₀ (length_pos hl), ← sum_const]
  have hsum := List.sum_lt_sum_of_ne_nil hl id (fun _ => m) h
  rwa [List.map_id] at hsum

theorem lt_mean {l : List ℚ} (hl : l ≠ []) {m : ℚ} (h : ∀ x ∈ l, m < x) : m < mean l := by
  rw [mean, lt_div_iff₀ (length_pos hl), ← sum_const]
  have hsum := List.sum_lt_sum_of_ne_nil hl (fun _ => m) id h
  rwa [List.map_id] at hsum

/-- A line above another one has its middle above the other's. -/
theorem clusterCy_lt {a b : List Word} (ha : a ≠ []) (hb : b ≠ []) (h : ∀ x ∈ a, ∀ y ∈ b, cy x < cy y) :
    clusterCy a < clusterCy b := by
  apply lt_mean (List.map_eq_nil_iff.not.2 hb)
  intro y hy
  obtain ⟨w', hw', rfl⟩ := List.mem_map.1 hy
  apply mean_lt (List.map_eq_nil_iff.not.2 ha)
  intro x hx
  obtain ⟨w, hw, rfl⟩ := List.mem_map.1 hx
  exact h w hw w' hw'

/-- The lines of the rows are in order before they are sorted. -/
theorem dataLines_eq (hdrY : Option (ℚ × ℚ)) (ocrWords : List Word) :
    dataLines hdrY ocrWords = (clusters ocrWords).filter fun line => !isHeader hdrY line := by
  rw [dataLines]
  apply sortBy_eq
  apply List.Pairwise.imp_of_mem _ ((clusters_below ocrWords).sublist List.filter_sublist)
  intro a b ha hb hab
  apply le_of_lt
  exact clusterCy_lt (ne_nil_of_mem_clusterBy (List.mem_filter.1 ha).1)
    (ne_nil_of_mem_clusterBy (List.mem_filter.1 hb).1) hab

/-- The words of the rows, and those of the lines in the header band. -/
theorem lines_perm (hdrY : Option (ℚ × ℚ)) (ocrWords : List Word) :
    ((dataLines hdrY ocrWords).flatten ++ ((clusters ocrWords).filter (isHeader hdrY)).flatten).Perm ocrWords := by
  rw [dataLines_eq, ← List.flatten_append]
  have hsplit := List.filter_append_perm (isHeader hdrY) (clusters ocrWords)
  apply (List.perm_append_comm.trans hsplit).flatten.trans
  rw [clusters, clusterBy_flatten]
  exact sortBy_perm cy ocrWords

/-! ## A table that lost nothing -/

section
variable (U : Unicode) (s : Scan) (textCols : List ℕ)

/-- The rows as they are assembled from given readings. -/
def Scan.written (readings : ℕ → List Reading) : List (List String) :=
  placeColumns (s.lines.map clusterCy) readings s.cols.length textCols (s.lines.map (rowCells U s.cols))

/-- A reading of a column stands in a row: what it says is what is found there. -/
def Stands (ci k j : ℕ) : Prop :=
  ∀ text, cell (s.written U textCols (saying (s.readings U) ci k text)) j ci = some text

structure Complete : Prop where
  /-- One row for each line, from the top. -/
  rows : (assemble U s textCols).rows.length = s.lines.length
  below : s.lines.Pairwise fun a b => ∀ x ∈ a, ∀ y ∈ b, cy x < cy y
  /-- Every word is in a line of a row or in one of the header band, and in one column. -/
  lined : (s.lines.flatten ++ ((clusters s.words).filter (isHeader s.hdrY)).flatten).Perm s.words
  dealt : ∀ line ∈ s.lines, ((List.range s.cols.length).flatMap (bucket s.cols line)).Perm line
  ordered : ∀ line ∈ s.lines, ∀ ci, (bucket s.cols line ci).Pairwise fun a b => a.box.x0 ≤ b.box.x0
  words : ∀ j line, s.lines[j]? = some line → ∀ ci < s.cols.length, ci ∉ textCols →
    cell (assemble U s textCols).rows j ci = some (cellText U (bucket s.cols line ci))
  readings : ∀ ci ∈ textCols, ci < s.cols.length → ∀ k r, (s.readings U ci)[k]? = some r →
    (∃ j, Stands U s textCols ci k j ∧ cell (assemble U s textCols).rows j ci = some r.text) ∧
      ∀ j j', Stands U s textCols ci k j → Stands U s textCols ci k j' → j = j'

variable {U s textCols} {ci k j : ℕ}

theorem rowCells_cell {line : List Word} (hj : s.lines[j]? = some line) (hci : ci < s.cols.length) :
    cell (s.lines.map (rowCells U s.cols)) j ci = some (cellText U (bucket s.cols line ci)) := by
  rw [cell, List.getElem?_map, hj]
  show (rowCells U s.cols line)[ci]? = _
  rw [rowCells, List.getElem?_map, List.getElem?_range hci]
  rfl

theorem rowCells_isSome (hj : j < s.lines.length) (hci : ci < s.cols.length) :
    (cell (s.lines.map (rowCells U s.cols)) j ci).isSome := by
  rw [rowCells_cell (List.getElem?_eq_getElem hj) hci]
  rfl

theorem saying_same {readings : ℕ → List Reading} {r : Reading} (h : (readings ci)[k]? = some r) :
    saying readings ci k r.text = readings := by
  have hsame : relabel (readings ci) k r.text = readings ci := by
    apply List.ext_getElem?
    intro i
    rw [relabel, List.getElem?_modify]
    by_cases hi : k = i
    · obtain rfl := hi
      rw [h]
      simp
    · cases (readings ci)[i]? <;> simp [hi]
  rw [saying, hsame, Function.update_eq_self]

/-- Where a reading stands is the row that it goes to, and no later one goes there. -/
theorem stands_target (hk : k < (s.readings U ci).length) (h : Stands U s textCols ci k j) :
    (targets (s.lines.map clusterCy) (s.readings U ci))[k]? = some j ∧
      j ∉ (targets (s.lines.map clusterCy) (s.readings U ci)).drop (k + 1) := by
  have hlength : k < (targets (s.lines.map clusterCy) (s.readings U ci)).length := by rwa [targets_length]
  have htarget := List.getElem?_eq_getElem hlength
  have hone : ¬ (j ≠ (targets (s.lines.map clusterCy) (s.readings U ci))[k] ∨
      j ∈ (targets (s.lines.map clusterCy) (s.readings U ci)).drop (k + 1)) := by
    intro hother
    have hagree : cell (s.written U textCols (saying (s.readings U) ci k "a")) j ci =
        cell (s.written U textCols (saying (s.readings U) ci k "b")) j ci :=
      placeColumns_agree hk htarget hother "a" "b" rfl
    have hsaid := (h "a").symm.trans (hagree.trans (h "b"))
    exact absurd (Option.some.inj hsaid) (by decide)
  rw [not_or, not_ne_iff] at hone
  exact ⟨htarget.trans (congrArg some hone.1.symm), hone.2⟩

theorem stands_of_last (hmem : ci ∈ textCols) (hci : ci < s.cols.length)
    (hj : (targets (s.lines.map clusterCy) (s.readings U ci))[k]? = some j)
    (hlater : j ∉ (targets (s.lines.map clusterCy) (s.readings U ci)).drop (k + 1)) :
    Stands U s textCols ci k j := by
  intro text
  obtain ⟨hlength, hget⟩ := List.getElem?_eq_some_iff.1 hj
  have hk : k < (s.readings U ci).length := by rwa [targets_length] at hlength
  have hlines : s.lines ≠ [] := by
    intro hnone
    rw [Scan.readings, if_pos hnone] at hk
    exact absurd hk (Nat.not_lt_zero k)
  have hrow : j < s.lines.length := by
    have hlt := targets_lt (List.map_eq_nil_iff.not.2 hlines) (List.mem_of_getElem? hj)
    rwa [List.length_map] at hlt
  exact placeColumns_shows hk hj hlater hci text (rowCells_isSome hrow hci) (Or.inl hmem)

/-- A table is complete when, in each text column, there is a reading for every row or no two
readings are nearest to one row. -/
theorem assemble_complete_iff (hcols : s.cols ≠ []) : Complete U s textCols ↔
    ∀ ci ∈ textCols, ci < s.cols.length → (s.readings U ci).length = s.lines.length ∨
      ((s.readings U ci).map fun r => nearest (s.lines.map clusterCy) r.y).Nodup := by
  have htable : (assemble U s textCols).rows = s.written U textCols (s.readings U) := by
    rw [assemble, if_neg hcols, Scan.rows, Scan.written]
  have hcondition (ci : ℕ) : ((s.readings U ci).length = s.lines.length ∨
      ((s.readings U ci).map fun r => nearest (s.lines.map clusterCy) r.y).Nodup) ↔
      (targets (s.lines.map clusterCy) (s.readings U ci)).Nodup := by
    rw [targets_nodup_iff, List.length_map]
  constructor
  · intro h ci hmem hci
    rw [hcondition]
    by_contra hrepeated
    obtain ⟨k, j, hj, hlater⟩ := exists_repeated hrepeated
    obtain ⟨hlength, -⟩ := List.getElem?_eq_some_iff.1 hj
    have hk : k < (s.readings U ci).length := by rwa [targets_length] at hlength
    obtain ⟨j', hstands, -⟩ := (h.readings ci hmem hci k _ (List.getElem?_eq_getElem hk)).1
    obtain ⟨htarget, hlast⟩ := stands_target hk hstands
    rw [hj] at htarget
    exact hlast (Option.some.inj htarget ▸ hlater)
  · intro h
    constructor
    · rw [htable, Scan.written, placeColumns_length, List.length_map]
    · rw [Scan.lines, dataLines_eq]
      exact (clusters_below s.words).sublist List.filter_sublist
    · exact lines_perm s.hdrY s.words
    · intro line _
      exact bucket_dealt hcols line
    · intro line _ ci
      exact bucket_ordered s.cols line ci
    · intro j line hj ci hci hnot
      rw [htable, Scan.written, placeColumns_other hnot]
      exact rowCells_cell hj hci
    · intro ci hmem hci k r hr
      have hnodup := (hcondition ci).1 (h ci hmem hci)
      have hk := (List.getElem?_eq_some_iff.1 hr).1
      have hlength : k < (targets (s.lines.map clusterCy) (s.readings U ci)).length := by rwa [targets_length]
      have htarget := List.getElem?_eq_getElem hlength
      constructor
      · have hstands := stands_of_last (U := U) hmem hci htarget (not_mem_later hnodup htarget)
        have hshown := hstands r.text
        rw [saying_same hr, ← htable] at hshown
        exact ⟨_, hstands, hshown⟩
      · intro j j' hj hj'
        have hfirst := (stands_target hk hj).1
        rw [(stands_target hk hj').1] at hfirst
        exact (Option.some.inj hfirst).symm

end

/-! ## One row -/

def found (y : ℚ) (text : String) : Detection := ⟨[(0, y), (8, y), (8, y), (0, y)], text⟩

/-- One column with one word, where the text recogniser finds what is given. -/
def oneRow (detections : List Detection) : Scan where
  cols := [⟨0, 0, 10, 100⟩]
  hdrY := none
  words := [⟨"7", ⟨0, 10, 5, 20⟩⟩]
  height := 100
  readRegion _ := ""
  readtext _ := detections

/-- Two readings for one row: the second replaces the first. -/
theorem reading_replaced :
    ¬ ∀ (U : Unicode) (s : Scan) (textCols : List ℕ), s.cols ≠ [] → Complete U s textCols := by
  intro hall
  have hcols : (oneRow [found 0 "Ali", found 60 "Veli"]).cols ≠ [] := List.cons_ne_nil _ _
  have hcondition := (assemble_complete_iff hcols).1 (hall latin _ [0] hcols) 0 (List.mem_singleton_self 0)
    Nat.one_pos
  have hlengths : ((oneRow [found 0 "Ali", found 60 "Veli"]).readings latin 0).length = 2 ∧
      (oneRow [found 0 "Ali", found 60 "Veli"]).lines.length = 1 := by decide +kernel
  have hnearest : ((oneRow [found 0 "Ali", found 60 "Veli"]).readings latin 0).map (fun r =>
      nearest ((oneRow [found 0 "Ali", found 60 "Veli"]).lines.map clusterCy) r.y) = [0, 0] := by decide +kernel
  cases hcondition with
  | inl hcount =>
    rw [hlengths.1, hlengths.2] at hcount
    exact absurd hcount (by decide)
  | inr hnodup =>
    rw [hnearest] at hnodup
    exact absurd hnodup (by decide)

theorem assemble_complete_one : Complete latin (oneRow [found 0 "Ali"]) [0] := by
  have hlengths : ((oneRow [found 0 "Ali"]).readings latin 0).length = (oneRow [found 0 "Ali"]).lines.length := by
    decide +kernel
  apply (assemble_complete_iff (List.cons_ne_nil _ _)).2
  intro ci hci _
  rw [List.mem_singleton.1 hci]
  exact Or.inl hlengths

end RagPipeline.ScannedTable
