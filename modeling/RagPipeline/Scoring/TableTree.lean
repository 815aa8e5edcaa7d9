import RagPipeline.Extraction.Checks
import RagPipeline.Lib.Edits
import RagPipeline.Lib.TreeEdit
import Mathlib.Data.List.GetD
import Mathlib.Data.List.Sort

/-! # The tree of a table and its edit distance

`table_eval`: a table is a tree of rows and cells, and two tables are compared by the
edit distance of their trees, in exact fractions. -/

set_option autoImplicit false

namespace RagPipeline.Scoring
open RagPipeline.Extraction (Unicode)
open RagPipeline.Text (isSpace)
open Words Edits TreeEdit

abbrev Text := List Char

/-! ## Cells -/

/-- `_TR_FOLD`. -/
def trFold : Char → Char
  | 'ı' | 'İ' => 'i'
  | 'ş' | 'Ş' => 's'
  | 'ğ' | 'Ğ' => 'g'
  | 'ç' | 'Ç' => 'c'
  | 'ö' | 'Ö' => 'o'
  | 'ü' | 'Ü' => 'u'
  | c => c

/-- `fold`: what is between blanks, with one space in between. -/
def fold (U : Unicode) (s : Text) : Text :=
  [' '].intercalate (words isSpace (U.lower (s.map trFold)))

def strip (s : Text) : Text := ((s.dropWhile isSpace).reverse.dropWhile isSpace).reverse

/-- `_lev`. -/
def lev (a b : Text) : ℕ :=
  if a = b then 0
  else if a = [] then b.length
  else if b = [] then a.length
  else ((fillRows b a 1 (List.range (b.length + 1))).getLast?).getD 0

/-- `_norm_lev`. -/
def normLev (a b : Text) : ℚ :=
  if max a.length b.length = 0 then 0 else (lev a b : ℚ) / max a.length b.length

/-! ## Trees -/

inductive Tag
  | table
  | tr
  | th
  | td
  deriving DecidableEq, Repr

/-- What `_rename_cost` reads of a node. -/
structure Label where
  tag : Tag
  text : Text
  deriving DecidableEq, Repr

/-- `_Node`. -/
inductive Node
  | node (label : Label) (children : List Node)

/-- A table's cells, as `str` writes them. -/
structure Table where
  headers : List Text
  rows : List (List Text)
  deriving DecidableEq, Repr

section
variable (U : Unicode) (foldText : Bool)

def cellText (text : Text) : Text := if foldText then fold U text else strip text

def cell (tag : Tag) (text : Text) : Node := .node ⟨tag, cellText U foldText text⟩ []

def row (tag : Tag) (cells : List Text) : Node := .node ⟨.tr, []⟩ (cells.map (cell U foldText tag))

/-- `_build_tree`. -/
def buildTree (t : Table) : Node :=
  .node ⟨.table, []⟩
    ((if t.headers ≠ [] then [row U foldText .th t.headers] else []) ++ t.rows.map (row U foldText .td))

end

/-- `_rename_cost`. -/
def renameCost (a b : Label) : ℚ :=
  if a.tag ≠ b.tag then 1
  else if a.tag = .td ∨ a.tag = .th then normLev a.text b.text
  else 0

/-! ## Postorder -/

/-- `nodes` and `lmld` while `visit` goes through the tree. -/
structure Seen where
  nodes : List Label
  lmld : List ℕ
  deriving DecidableEq, Repr

mutual

/-- `visit`: the number it gives back is the node's own. -/
def visit : Node → Seen → Seen × ℕ
  | .node label children, s =>
    let (s, first) := visitAll children s
    let i := s.nodes.length + 1
    (⟨s.nodes ++ [label], s.lmld ++ [first.getD i]⟩, i)

def visitAll : List Node → Seen → Seen × Option ℕ
  | [], s => (s, none)
  | c :: rest, s =>
    let (s, idx) := visit c s
    ((visitAll rest s).1, some idx)

end

/-- An entry of a dictionary is written. -/
def put (d : List (ℕ × ℕ)) (k v : ℕ) : List (ℕ × ℕ) := d.filter (fun p => p.1 ≠ k) ++ [(k, v)]

def lastOf (lmld : List ℕ) : List (ℕ × ℕ) :=
  (lmld.zipIdx 1).foldl (fun d p => put d p.1 p.2) []

/-- The numbers of a tree's nodes. -/
structure Numbering where
  nodes : List Label
  lmld : List ℕ
  keyroots : List ℕ
  deriving DecidableEq, Repr

/-- `_postorder`. -/
def postorder (root : Node) : Numbering :=
  let s := (visit root ⟨[], []⟩).1
  ⟨s.nodes, s.lmld, ((lastOf s.lmld).map Prod.snd).insertionSort (· ≤ ·)⟩

namespace Numbering

def first (A : Numbering) (i : ℕ) : ℕ := A.lmld.getD (i - 1) 0

def label (A : Numbering) (i : ℕ) : Label := A.nodes.getD (i - 1) ⟨.table, []⟩

end Numbering

/-! ## The dynamic program -/

/-- A list's index as Python reads it: a negative one counts from the end, and one that is out
of range is an error. -/
def pyIndex (size : ℕ) (k : ℤ) : Option ℕ :=
  if 0 ≤ k then if k < size then some k.toNat else none
  else if -size ≤ k then some (k + size).toNat else none

abbrev Grid := ℕ → ℕ → ℚ

def Grid.set (g : Grid) (i j : ℕ) (v : ℚ) : Grid := fun x y => if x = i ∧ y = j then v else g x y

def Grid.at (g : Grid) (rows cols : ℕ) (i j : ℤ) : Option ℚ := do
  let i ← pyIndex rows i
  let j ← pyIndex cols j
  return g i j

/-- `fd` and `td`. -/
structure Tables where
  fd : Grid
  td : Grid

/-- The borders of `fd`. -/
def border (rows cols : ℕ) : Grid :=
  let fd : Grid := (List.range' 1 (rows - 1)).foldl
    (fun (fd : Grid) di => fd.set di 0 (fd (di - 1) 0 + 1)) fun _ _ => 0
  (List.range' 1 (cols - 1)).foldl (fun (fd : Grid) dj => fd.set 0 dj (fd 0 (dj - 1) + 1)) fd

section
variable (A B : Numbering)

/-- One cell of `fd`. -/
def fillCell (li lj rows cols di : ℕ) (t : Tables) (dj : ℕ) : Option Tables :=
  let ni := li + di - 1
  let nj := lj + dj - 1
  if A.first ni = li ∧ B.first nj = lj then
    let v := min (t.fd (di - 1) dj + 1) (min (t.fd di (dj - 1) + 1)
      (t.fd (di - 1) (dj - 1) + renameCost (A.label ni) (B.label nj)))
    some ⟨t.fd.set di dj v, t.td.set ni nj v⟩
  else do
    let before ← t.fd.at rows cols ((A.first ni : ℤ) - li) ((B.first nj : ℤ) - lj)
    let v := min (t.fd (di - 1) dj + 1) (min (t.fd di (dj - 1) + 1) (before + t.td ni nj))
    return ⟨t.fd.set di dj v, t.td⟩

/-- `treedist`. -/
def treedist (i : ℕ) (td : Grid) (j : ℕ) : Option Grid := do
  let li := A.first i
  let lj := B.first j
  let rows := i - li + 2
  let cols := j - lj + 2
  let t ← (List.range' 1 (i - li + 1)).foldlM (fun t di =>
    (List.range' 1 (j - lj + 1)).foldlM (fillCell A B li lj rows cols di) t) ⟨border rows cols, td⟩
  return t.td

/-- The two loops over the key roots. -/
def distances : Option Grid :=
  A.keyroots.foldlM (fun td i => B.keyroots.foldlM (treedist A B i) td) fun _ _ => 0

end

/-- `_tree_edit_distance`. -/
def treeEditDistance (t₁ t₂ : Node) : Option (ℚ × ℕ × ℕ) := do
  let A := postorder t₁
  let B := postorder t₂
  let td ← distances A B
  return (td A.nodes.length B.nodes.length, A.nodes.length, B.nodes.length)

/-! ## What cells cost -/

theorem lev_eq (a b : Text) : lev a b = distance a.reverse b.reverse := by
  rw [lev]
  split
  · next h => simp [h]
  · split
    · next h => simp [h]
    · split
      · next h => simp [h]
      · have hstart : List.range (b.length + 1) = levels [] [] b := by simp [levels_nil]
        have hrows := fillRows_levels a [] b
        simp only [List.length_nil, Nat.zero_add, List.append_nil] at hrows
        rw [hstart, hrows, levels_getLast]
        simp

/-- `_lev` is the least number of edits. -/
theorem lev_isLeast (a b : Text) : IsLeast {n | EditsIn n a b} (lev a b) := by
  rw [lev_eq]
  exact distance_reverse_isLeast a b

theorem lev_comm (a b : Text) : lev a b = lev b a := by
  rw [lev_eq, lev_eq, distance_comm]

theorem lev_zero_iff {a b : Text} : lev a b = 0 ↔ a = b := by
  constructor
  · intro h
    rw [lev_eq] at h
    exact List.reverse_injective (eq_of_distance_zero h)
  · rintro rfl
    rw [lev_eq, distance_self]

theorem normLev_nonneg (a b : Text) : 0 ≤ normLev a b := by
  rw [normLev]
  split
  · exact le_refl 0
  · positivity

theorem normLev_comm (a b : Text) : normLev a b = normLev b a := by
  rw [normLev, normLev, lev_comm a b, max_comm a.length b.length]

theorem normLev_zero_iff {a b : Text} : normLev a b = 0 ↔ a = b := by
  rw [normLev]
  split
  · next h =>
    have ha : a = [] := List.length_eq_zero_iff.mp (by omega)
    have hb : b = [] := List.length_eq_zero_iff.mp (by omega)
    simp [ha, hb]
  · next h =>
    have hpos : (max a.length b.length : ℚ) ≠ 0 := by exact_mod_cast h
    rw [div_eq_zero_iff, Nat.cast_eq_zero, lev_zero_iff]
    simp [hpos]

theorem renameCost_nonneg (a b : Label) : 0 ≤ renameCost a b := by
  rw [renameCost]
  split
  · exact zero_le_one
  · split
    · exact normLev_nonneg _ _
    · exact le_refl 0

theorem renameCost_comm (a b : Label) : renameCost a b = renameCost b a := by
  by_cases h : a.tag = b.tag
  · simp [renameCost, h, normLev_comm a.text b.text]
  · simp [renameCost, h, Ne.symm h]

theorem renameCost_self (a : Label) : renameCost a a = 0 := by
  simp [renameCost, normLev_zero_iff]

/-- Rows and tables carry no text of their own. -/
def Label.Plain (a : Label) : Prop := a.tag = .td ∨ a.tag = .th ∨ a.text = []

theorem eq_of_renameCost_zero {a b : Label} (ha : a.Plain) (hb : b.Plain) (h : renameCost a b = 0) :
    a = b := by
  have htag : a.tag = b.tag := by
    by_contra hne
    simp [renameCost, hne] at h
  have htext : a.text = b.text := by
    by_cases hcell : a.tag = .td ∨ a.tag = .th
    · rw [renameCost, if_neg (not_not.mpr htag), if_pos hcell, normLev_zero_iff] at h
      exact h
    · unfold Label.Plain at ha hb
      rw [← htag] at hb
      have ha' : a.text = [] := by tauto
      have hb' : b.text = [] := by tauto
      rw [ha', hb']
  cases a
  cases b
  simp only at htag htext
  rw [htag, htext]

/-! ## The nodes of a tree -/

mutual

/-- The labels in postorder. -/
def Node.labels : Node → List Label
  | .node label children => labelsAll children ++ [label]

def labelsAll : List Node → List Label
  | [] => []
  | c :: rest => c.labels ++ labelsAll rest

end

mutual

/-- How many nodes every subtree has, in postorder. -/
def Node.sizes : Node → List ℕ
  | .node _ children => sizesAll children ++ [(sizesAll children).length + 1]

def sizesAll : List Node → List ℕ
  | [] => []
  | c :: rest => c.sizes ++ sizesAll rest

end

/-- The number of the first node of the subtree of node `k`. -/
def Node.firstNode (t : Node) (k : ℕ) : ℕ := k + 1 - t.sizes.getD (k - 1) 1

mutual

theorem Node.length_labels : ∀ t : Node, t.labels.length = t.sizes.length
  | .node label children => by
    rw [Node.labels, Node.sizes, List.length_append, List.length_append, labelsAll_length children]
    rfl

theorem labelsAll_length : ∀ l : List Node, (labelsAll l).length = (sizesAll l).length
  | [] => rfl
  | c :: rest => by
    rw [labelsAll, sizesAll, List.length_append, List.length_append, c.length_labels, labelsAll_length rest]

end

/-- Sizes in postorder: a subtree begins where its size says, inside every subtree it is in. -/
structure Nests (L : List ℕ) : Prop where
  fits : ∀ i s, L[i]? = some s → 1 ≤ s ∧ s ≤ i + 1
  inside : ∀ i s k r, L[i]? = some s → L[k]? = some r → i + 1 - s ≤ k → k ≤ i → i + 1 - s ≤ k + 1 - r

theorem Nests.nil : Nests [] := ⟨by simp, by simp⟩

theorem Nests.append {L M : List ℕ} (hL : Nests L) (hM : Nests M) : Nests (L ++ M) := by
  have hcases : ∀ i s, (L ++ M)[i]? = some s →
      i < L.length ∧ L[i]? = some s ∨ L.length ≤ i ∧ M[i - L.length]? = some s := by
    intro i s h
    by_cases hi : i < L.length
    · rw [List.getElem?_append_left hi] at h
      exact .inl ⟨hi, h⟩
    · rw [List.getElem?_append_right (by omega)] at h
      exact .inr ⟨by omega, h⟩
  constructor
  · intro i s h
    rcases hcases i s h with ⟨hi, h⟩ | ⟨hi, h⟩
    · exact hL.fits i s h
    · have := hM.fits _ s h
      omega
  · intro i s k r hi hk hlow hhigh
    rcases hcases i s hi with ⟨hi', hi⟩ | ⟨hi', hi⟩
    · rcases hcases k r hk with ⟨hk', hk⟩ | ⟨hk', hk⟩
      · exact hL.inside i s k r hi hk hlow hhigh
      · omega
    · have hfits := hM.fits _ s hi
      rcases hcases k r hk with ⟨hk', hk⟩ | ⟨hk', hk⟩
      · omega
      · have hfits' := hM.fits _ r hk
        have := hM.inside _ s _ r hi hk (by omega) (by omega)
        omega

theorem Nests.root {L : List ℕ} (hL : Nests L) : Nests (L ++ [L.length + 1]) := by
  have hcases : ∀ i s, (L ++ [L.length + 1])[i]? = some s →
      i < L.length ∧ L[i]? = some s ∨ i = L.length ∧ s = L.length + 1 := by
    intro i s h
    by_cases hi : i < L.length
    · rw [List.getElem?_append_left hi] at h
      exact .inl ⟨hi, h⟩
    · rw [List.getElem?_append_right (by omega)] at h
      have hlast : i - L.length = 0 := by
        by_contra hne
        rw [List.getElem?_eq_none (by simp; omega)] at h
        cases h
      rw [hlast] at h
      exact .inr ⟨by omega, (Option.some.inj h).symm⟩
  constructor
  · intro i s h
    rcases hcases i s h with ⟨hi, h⟩ | ⟨hi, h⟩
    · exact hL.fits i s h
    · omega
  · intro i s k r hi hk hlow hhigh
    rcases hcases i s hi with ⟨hi', hi⟩ | ⟨hi', hi⟩
    · rcases hcases k r hk with ⟨hk', hk⟩ | ⟨hk', hk⟩
      · exact hL.inside i s k r hi hk hlow hhigh
      · omega
    · omega

mutual

theorem Node.nests : ∀ t : Node, Nests t.sizes
  | .node _ children => by
    rw [Node.sizes]
    exact (nestsAll children).root

theorem nestsAll : ∀ l : List Node, Nests (sizesAll l)
  | [] => Nests.nil
  | c :: rest => by
    rw [sizesAll]
    exact c.nests.append (nestsAll rest)

end

/-- The size of the subtree of a node, one where there is none. -/
theorem Node.size_cases (t : Node) (k : ℕ) :
    (k - 1 < t.sizes.length ∧ t.sizes[k - 1]? = some (t.sizes.getD (k - 1) 1)) ∨
      t.sizes.length ≤ k - 1 ∧ t.sizes.getD (k - 1) 1 = 1 := by
  by_cases h : k - 1 < t.sizes.length
  · left
    rw [List.getD_eq_getElem _ _ h]
    exact ⟨h, List.getElem?_eq_getElem h⟩
  · right
    exact ⟨by omega, List.getD_eq_default _ _ (by omega)⟩

theorem Node.firstNode_pos (t : Node) {k : ℕ} (hk : 1 ≤ k) : 1 ≤ t.firstNode k := by
  rw [Node.firstNode]
  rcases t.size_cases k with ⟨hlt, h⟩ | ⟨hle, h⟩
  · have := t.nests.fits _ _ h
    omega
  · omega

theorem Node.firstNode_le (t : Node) (k : ℕ) : t.firstNode k ≤ k := by
  rw [Node.firstNode]
  rcases t.size_cases k with ⟨hlt, h⟩ | ⟨hle, h⟩
  · have := t.nests.fits _ _ h
    omega
  · omega

theorem Node.numbered (t : Node) : Numbered t.firstNode where
  le := t.firstNode_le
  nests := by
    intro i k hlow hhigh
    by_cases hk : k = 0
    · subst hk
      by_cases hi : i = 0
      · rw [hi]
      · have := t.firstNode_pos (k := i) (by omega)
        omega
    · have hle := t.firstNode_le k
      have hpos := t.firstNode_pos (k := k) (by omega)
      simp only [Node.firstNode] at hlow hle hpos ⊢
      rcases t.size_cases i with ⟨hlt, h⟩ | ⟨hle', h⟩
      · have hfits := t.nests.fits _ _ h
        rcases t.size_cases k with ⟨hlt', h'⟩ | ⟨hle'', h'⟩
        · have hfits' := t.nests.fits _ _ h'
          have := t.nests.inside _ _ _ _ h h' (by omega) (by omega)
          omega
        · omega
      · have hsame : k = i := by omega
        rw [hsame]

/-! ## Trees whose first children are leaves -/

/-- The numbers of the first nodes, from the sizes. -/
def firsts : ℕ → List ℕ → List ℕ
  | _, [] => []
  | n, size :: rest => (n + 2 - size) :: firsts (n + 1) rest

theorem firsts_append (n : ℕ) (L M : List ℕ) :
    firsts n (L ++ M) = firsts n L ++ firsts (n + L.length) M := by
  induction L generalizing n with
  | nil => rfl
  | cons size L ih =>
    rw [List.cons_append, firsts, firsts, ih, List.cons_append, List.length_cons,
      Nat.add_assoc n 1, Nat.add_comm 1]

theorem firsts_length (n : ℕ) (L : List ℕ) : (firsts n L).length = L.length := by
  induction L generalizing n with
  | nil => rfl
  | cons size L ih => rw [firsts, List.length_cons, ih, List.length_cons]

theorem firsts_getElem? (n : ℕ) (L : List ℕ) (k : ℕ) :
    (firsts n L)[k]? = L[k]?.map fun size => n + k + 2 - size := by
  induction L generalizing n k with
  | nil => simp [firsts]
  | cons size L ih =>
    cases k with
    | zero => simp [firsts]
    | succ k =>
      rw [firsts, List.getElem?_cons_succ, ih, List.getElem?_cons_succ, Nat.add_right_comm n 1 k,
        Nat.add_assoc n k 1]

def Node.children : Node → List Node
  | .node _ children => children

mutual

/-- The first child of every node is a leaf. -/
def Node.Straight : Node → Prop
  | .node _ children => (∀ c ∈ children.head?, c.children = []) ∧ straightAll children

def straightAll : List Node → Prop
  | [] => True
  | c :: rest => c.Straight ∧ straightAll rest

end

mutual

theorem visit_straight : ∀ (t : Node) (s : Seen), t.Straight →
    visit t s = (⟨s.nodes ++ t.labels, s.lmld ++ firsts s.nodes.length t.sizes⟩,
      s.nodes.length + t.sizes.length)
  | .node label children, s, h => by
    rw [Node.Straight] at h
    have hall := visitAll_straight children s h.2
    have hlength := labelsAll_length children
    have hroot : (children.head?.map fun c => s.nodes.length + c.sizes.length).getD
        (s.nodes.length + (sizesAll children).length + 1) =
          s.nodes.length + (sizesAll children).length + 2 - ((sizesAll children).length + 1) := by
      cases children with
      | nil =>
        simp [sizesAll]
      | cons c rest =>
        have hc := h.1 c rfl
        cases c with
        | node label' children' =>
          have hc' : children' = [] := hc
          subst hc'
          simp [Node.sizes, sizesAll]
          omega
    simp only [Nat.add_assoc] at hroot
    simp only [visit, hall, Node.labels, Node.sizes, List.length_append, hlength, hroot,
      firsts_append, firsts, List.append_assoc, List.length_singleton, Nat.add_assoc]

theorem visitAll_straight : ∀ (l : List Node) (s : Seen), straightAll l →
    visitAll l s = (⟨s.nodes ++ labelsAll l, s.lmld ++ firsts s.nodes.length (sizesAll l)⟩,
      l.head?.map fun c => s.nodes.length + c.sizes.length)
  | [], s, _ => by simp [visitAll, labelsAll, sizesAll, firsts]
  | c :: rest, s, h => by
    rw [straightAll] at h
    have hc := visit_straight c s h.1
    have hrest := visitAll_straight rest
      ⟨s.nodes ++ c.labels, s.lmld ++ firsts s.nodes.length c.sizes⟩ h.2
    simp only [visitAll, hc, hrest, labelsAll, sizesAll, firsts_append, List.length_append,
      c.length_labels, List.append_assoc, List.head?_cons, Option.map_some]

end

end RagPipeline.Scoring
