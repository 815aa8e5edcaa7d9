import RagPipeline.Lib.Neighbours
import RagPipeline.Lib.Text
import Mathlib.Algebra.BigOperators.Group.Finset.Basic
import Mathlib.Algebra.BigOperators.Group.List.Basic
import Mathlib.Data.List.Sort
import Mathlib.Data.Prod.Lex
import Mathlib.Algebra.Ring.Nat
import Mathlib.Order.Interval.Finset.Nat

/-! # Chunking

`chunk_plain_text` cuts a text into chunks of paragraphs, and `merge_small_chunks`
folds undersized chunks into a neighbour. -/

set_option autoImplicit false

namespace RagPipeline.Chunking
open Coalesce Words

abbrev Text := List Char

inductive ChunkType where
  | text
  | table
deriving DecidableEq

structure Chunk where
  type : ChunkType
  text : Text
  sourceTag : Text
  page : ℕ
  headings : List Text
deriving DecidableEq

abbrev wordsOf (text : Text) : List Text := words Text.isSpace text

abbrev strip (text : Text) : Text := Cut.trim Text.isSpace text

/-! ## The two functions -/

section
variable (minChars maxChars : ℤ)

def joinable (prev chunk : Chunk) : Bool :=
  prev.sourceTag = chunk.sourceTag && prev.type = chunk.type &&
    decide ((prev.text.length : ℤ) + chunk.text.length + 1 ≤ maxChars)

def folds (prev chunk : Chunk) : Bool :=
  joinable maxChars prev chunk &&
    (decide ((chunk.text.length : ℤ) < minChars) || decide ((prev.text.length : ℤ) < minChars))

def foldInto (prev chunk : Chunk) : Chunk :=
  { prev with
    text := prev.text ++ '\n' :: chunk.text
    headings := if prev.headings = [] then chunk.headings else prev.headings }

def mergeSmallChunks (chunks : List Chunk) : List Chunk :=
  coalesce (folds minChars maxChars) foldInto chunks

end

/-- The number behind `page` at the head of a source tag. -/
def pageFromTag (digit : Char → Option ℕ) (tag : Text) : ℕ :=
  if "page".toList <+: tag then
    ((tag.drop 4).takeWhile fun c => (digit c).isSome).foldl
      (fun n c => 10 * n + (digit c).getD 0) 0
  else 0

structure Packing where
  chunks : List Text
  current : List Text
  length : ℕ

section
variable (tokens : Text → ℕ) (maxTokens : ℤ)

def joinParagraphs (current : List Text) : Text := [' '].intercalate current

def Packing.add (s : Packing) (p : Text) : Packing :=
  if maxTokens < s.length + tokens p ∧ s.current ≠ [] then
    ⟨s.chunks ++ [joinParagraphs s.current], [p], tokens p⟩
  else ⟨s.chunks, s.current ++ [p], s.length + tokens p⟩

def Packing.finish (s : Packing) : List Text :=
  if s.current = [] then s.chunks else s.chunks ++ [joinParagraphs s.current]

def paragraphs (text : Text) : List Text :=
  ((text.splitOn '\n').map strip).filter fun p => !p.isEmpty

def chunkPlainText (digit : Char → Option ℕ) (text sourceTag : Text) : List Chunk :=
  (((paragraphs text).foldl (Packing.add tokens maxTokens) ⟨[], [], 0⟩).finish).map fun c =>
    ⟨.text, c, sourceTag, pageFromTag digit sourceTag, []⟩

end

/-! ## Words -/

theorem wordsOf_strip (text : Text) : wordsOf (strip text) = wordsOf text := by
  show words Text.isSpace ((text.dropWhile Text.isSpace).rdropWhile Text.isSpace) = _
  rw [words_rdropWhile, words_dropWhile]

theorem wordsOf_joinParagraphs (ps : List Text) :
    wordsOf (joinParagraphs ps) = ps.flatMap wordsOf :=
  words_join (by decide) ps

theorem paragraphs_words (text : Text) : (paragraphs text).flatMap wordsOf = wordsOf text := by
  have hnonempty : ∀ ps : List Text,
      (ps.filter fun p => !p.isEmpty).flatMap wordsOf = ps.flatMap wordsOf := by
    intro ps
    induction ps with
    | nil => rfl
    | cons p ps ih =>
      cases p with
      | nil => simpa using ih
      | cons c p => simpa using ih
  rw [paragraphs, hnonempty, List.flatMap_map]
  calc (text.splitOn '\n').flatMap (fun p => wordsOf (strip p))
      = (text.splitOn '\n').flatMap wordsOf := by simp only [wordsOf_strip]
    _ = wordsOf text := words_splitOn (by decide) text

/-- The words packed so far. -/
def Packing.words (s : Packing) : List Text :=
  s.chunks.flatMap wordsOf ++ s.current.flatMap wordsOf

section
variable {tokens : Text → ℕ} {maxTokens : ℤ}

theorem Packing.add_words (s : Packing) (p : Text) :
    (s.add tokens maxTokens p).words = s.words ++ wordsOf p := by
  rw [add]
  split_ifs
  · simp [words, wordsOf_joinParagraphs]
  · simp [words]

theorem Packing.finish_words (s : Packing) : s.finish.flatMap wordsOf = s.words := by
  rw [finish, words]
  split_ifs with hcurrent
  · rw [hcurrent]
    simp
  · simp [wordsOf_joinParagraphs]

theorem packing_words (ps : List Text) (s : Packing) :
    (ps.foldl (Packing.add tokens maxTokens) s).words = s.words ++ ps.flatMap wordsOf := by
  induction ps generalizing s with
  | nil => simp
  | cons p ps ih =>
    rw [List.foldl_cons, ih, Packing.add_words, List.flatMap_cons, List.append_assoc]

theorem chunkPlainText_words (digit : Char → Option ℕ) (text sourceTag : Text) :
    (chunkPlainText tokens maxTokens digit text sourceTag).flatMap (fun c => wordsOf c.text) =
      wordsOf text := by
  rw [chunkPlainText, List.flatMap_map, Packing.finish_words, packing_words, paragraphs_words]
  rfl

end

/-! ## Runs -/

/-- A chunk holds the texts of a run of chunks of its tag and type. -/
structure Holds (c : Chunk) (run : List Chunk) : Prop where
  nonempty : run ≠ []
  text : c.text = ['\n'].intercalate (run.map Chunk.text)
  sourceTag : ∀ d ∈ run, d.sourceTag = c.sourceTag
  type : ∀ d ∈ run, d.type = c.type

variable {minChars maxChars : ℤ}

theorem holds_single (c : Chunk) : Holds c [c] where
  nonempty := List.cons_ne_nil c []
  text := by simp
  sourceTag := by simp
  type := by simp

theorem intercalate_concat {α : Type} (c : α) {pieces : List (List α)} (h : pieces ≠ [])
    (p : List α) : [c].intercalate (pieces ++ [p]) = [c].intercalate pieces ++ c :: p := by
  induction pieces with
  | nil => exact absurd rfl h
  | cons q pieces ih =>
    cases pieces with
    | nil => simp
    | cons q' pieces =>
      rw [List.intercalate_cons_cons, List.append_assoc, ← ih (List.cons_ne_nil q' pieces)]
      simp

theorem joinable_iff {prev chunk : Chunk} : joinable maxChars prev chunk = true ↔
    prev.sourceTag = chunk.sourceTag ∧ prev.type = chunk.type ∧
      (prev.text.length : ℤ) + chunk.text.length + 1 ≤ maxChars := by
  simp [joinable, and_assoc]

theorem folds_iff {prev chunk : Chunk} : folds minChars maxChars prev chunk = true ↔
    joinable maxChars prev chunk = true ∧
      ((chunk.text.length : ℤ) < minChars ∨ (prev.text.length : ℤ) < minChars) := by
  simp [folds]

theorem Holds.foldInto {c d : Chunk} {run : List Chunk} (h : Holds c run)
    (hfolds : folds minChars maxChars c d = true) : Holds (foldInto c d) (run ++ [d]) := by
  obtain ⟨htag, htype, -⟩ := joinable_iff.1 (folds_iff.1 hfolds).1
  constructor
  · simp
  · have hne : run.map Chunk.text ≠ [] := by simpa using h.nonempty
    rw [List.map_append, List.map_singleton, intercalate_concat '\n' hne, ← h.text]
    rfl
  · intro e he
    obtain he | he := List.mem_append.1 he
    · exact h.sourceTag e he
    · rw [List.mem_singleton.1 he]
      exact htag.symm
  · intro e he
    obtain he | he := List.mem_append.1 he
    · exact h.type e he
    · rw [List.mem_singleton.1 he]
      exact htype.symm

/-- A chunk that has grown joins no neighbour it did not join before: both sizes in the
condition have become larger. -/
theorem folds_grows (a b c : Chunk) (h : folds minChars maxChars a b = false) :
    folds minChars maxChars a (foldInto b c) = false := by
  rw [Bool.eq_false_iff] at h ⊢
  intro hgrown
  apply h
  rw [folds_iff, joinable_iff] at hgrown ⊢
  obtain ⟨⟨htag, htype, hfits⟩, hsmall⟩ := hgrown
  have hlength : (foldInto b c).text.length = b.text.length + (c.text.length + 1) := by
    simp [foldInto]
  rw [hlength] at hfits hsmall
  push_cast at hfits hsmall
  constructor
  · exact ⟨htag, htype, by omega⟩
  · omega

theorem mergeSmallChunks_runs (chunks : List Chunk) : ∃ runs, runs.flatten = chunks ∧
    List.Forall₂ Holds (mergeSmallChunks minChars maxChars chunks) runs :=
  coalesce_runs holds_single (fun _ _ _ h hfolds => h.foldInto hfolds) chunks

theorem mergeSmallChunks_apart (chunks : List Chunk) :
    (mergeSmallChunks minChars maxChars chunks).IsChain fun a b =>
      folds minChars maxChars a b = false :=
  coalesce_apart folds_grows chunks

theorem mergeSmallChunks_idem (chunks : List Chunk) :
    mergeSmallChunks minChars maxChars (mergeSmallChunks minChars maxChars chunks) =
      mergeSmallChunks minChars maxChars chunks :=
  coalesce_of_apart (mergeSmallChunks_apart chunks)

theorem isChain_infix {α : Type} {R : α → α → Prop} {l : List α} (h : l.IsChain R) {a b : α}
    (hab : [a, b] <:+: l) : R a b := by
  obtain ⟨u, v, rfl⟩ := hab
  have hpair := h.left_of_append.right_of_append
  exact (List.isChain_cons_cons.1 hpair).1

/-- No word is lost when a text is cut, and merging makes runs of chunks of one tag and
type into one chunk each until no undersized chunk fits its neighbour. -/
theorem chunking_keeps_words (tokens : Text → ℕ) (maxTokens minChars maxChars : ℤ)
    (digit : Char → Option ℕ) :
    (∀ text sourceTag,
        (chunkPlainText tokens maxTokens digit text sourceTag).flatMap (fun c => wordsOf c.text) =
          wordsOf text) ∧
      ∀ chunks,
        (∃ runs, runs.flatten = chunks ∧
          List.Forall₂ Holds (mergeSmallChunks minChars maxChars chunks) runs) ∧
        (∀ a b, [a, b] <:+: mergeSmallChunks minChars maxChars chunks →
          a.sourceTag = b.sourceTag → a.type = b.type →
          ((a.text.length : ℤ) < minChars ∨ (b.text.length : ℤ) < minChars) →
          ¬ (a.text.length : ℤ) + b.text.length + 1 ≤ maxChars) ∧
        mergeSmallChunks minChars maxChars (mergeSmallChunks minChars maxChars chunks) =
          mergeSmallChunks minChars maxChars chunks := by
  constructor
  · exact chunkPlainText_words digit
  · intro chunks
    constructor
    · exact mergeSmallChunks_runs chunks
    constructor
    · intro a b hab htag htype hsmall hfits
      have hapart := isChain_infix (mergeSmallChunks_apart chunks) hab
      have hfolds : folds minChars maxChars a b = true :=
        folds_iff.2 ⟨joinable_iff.2 ⟨htag, htype, hfits⟩, hsmall.symm⟩
      rw [hapart] at hfolds
      cases hfolds
    · exact mergeSmallChunks_idem chunks

end RagPipeline.Chunking

/-! # Sparse vectors

The literal that `sparse_to_literal` writes for the token indices of a chunk, and
when `sparsevec` can hold it. -/

namespace RagPipeline.Sparse
open Finset

def sparseDim : ℕ := 999999937

def remapSparseIndex (rawId : ℕ) : ℕ := rawId % sparseDim + 1

/-- Token indices, which are hashes of 32 bits, with a value for each. -/
structure TokenVector (V : Type) where
  indices : List ℕ
  values : List V
  matched : values.length = indices.length
  distinct : indices.Nodup
  bounded : ∀ i ∈ indices, i < 4294967296

section
variable {V : Type}

def remapped (v : TokenVector V) : List (ℕ × V) :=
  (v.indices.zip v.values).map fun p => (remapSparseIndex p.1, p.2)

/-- No two tokens fall together. -/
def Apart (v : TokenVector V) : Prop :=
  ∀ i ∈ v.indices, ∀ j ∈ v.indices, i % sparseDim = j % sparseDim → i = j

theorem remapped_indices (v : TokenVector V) :
    (remapped v).map Prod.fst = v.indices.map remapSparseIndex := by
  have hzip : (v.indices.zip v.values).map Prod.fst = v.indices :=
    List.map_fst_zip (le_of_eq v.matched.symm)
  rw [remapped, List.map_map]
  calc (v.indices.zip v.values).map (fun p => remapSparseIndex p.1)
      = ((v.indices.zip v.values).map Prod.fst).map remapSparseIndex := by
        rw [List.map_map]
        rfl
    _ = v.indices.map remapSparseIndex := by rw [hzip]

theorem remapped_nodup_iff (v : TokenVector V) :
    ((remapped v).map Prod.fst).Nodup ↔ Apart v := by
  rw [remapped_indices]
  constructor
  · intro h i hi j hj hmod
    apply List.inj_on_of_nodup_map h hi hj
    rw [remapSparseIndex, remapSparseIndex, hmod]
  · intro h
    apply List.Nodup.map_on _ v.distinct
    intro i hi j hj hsame
    exact h i hi j hj (Nat.succ.inj hsame)

variable [LinearOrder V]

/-- The order of tuples. -/
def NotAfter (p q : ℕ × V) : Prop := p.1 < q.1 ∨ p.1 = q.1 ∧ p.2 ≤ q.2

instance : DecidableRel (NotAfter (V := V)) := fun p q =>
  inferInstanceAs (Decidable (p.1 < q.1 ∨ p.1 = q.1 ∧ p.2 ≤ q.2))

/-- The pairs of the literal, in its order. -/
def literalPairs (v : TokenVector V) : List (ℕ × V) := (remapped v).insertionSort NotAfter

def sparseToLiteral (str : V → String) (v : TokenVector V) : String :=
  "\x7b" ++ ",".intercalate ((literalPairs v).map fun p => toString p.1 ++ ":" ++ str p.2) ++
    "\x7d/" ++ toString sparseDim

/-- What `sparsevec` takes: indices that increase and are within the dimension. -/
structure Storable (pairs : List (ℕ × V)) : Prop where
  increasing : (pairs.map Prod.fst).Pairwise (· < ·)
  within : ∀ i ∈ pairs.map Prod.fst, 1 ≤ i ∧ i ≤ sparseDim

theorem notAfter_total (p q : ℕ × V) : NotAfter p q ∨ NotAfter q p := by
  obtain h | h | h := lt_trichotomy p.1 q.1
  · exact .inl (.inl h)
  · obtain hle | hle := le_total p.2 q.2
    · exact .inl (.inr ⟨h, hle⟩)
    · exact .inr (.inr ⟨h.symm, hle⟩)
  · exact .inr (.inl h)

theorem notAfter_trans (p q r : ℕ × V) (hpq : NotAfter p q) (hqr : NotAfter q r) :
    NotAfter p r := by
  obtain hpq | ⟨hpq, hle⟩ := hpq
  · obtain hqr | ⟨hqr, -⟩ := hqr
    · exact .inl (hpq.trans hqr)
    · exact .inl (hqr ▸ hpq)
  · obtain hqr | ⟨hqr, hle'⟩ := hqr
    · exact .inl (hpq ▸ hqr)
    · exact .inr ⟨hpq.trans hqr, hle.trans hle'⟩

instance : Std.Total (NotAfter (V := V)) := ⟨notAfter_total⟩

instance : IsTrans (ℕ × V) NotAfter := ⟨notAfter_trans⟩

theorem literalPairs_perm (v : TokenVector V) : (literalPairs v).Perm (remapped v) :=
  List.perm_insertionSort NotAfter (remapped v)

theorem literalPairs_within (v : TokenVector V) :
    ∀ i ∈ (literalPairs v).map Prod.fst, 1 ≤ i ∧ i ≤ sparseDim := by
  intro i hi
  have hmem : i ∈ (remapped v).map Prod.fst := ((literalPairs_perm v).map Prod.fst).mem_iff.1 hi
  rw [remapped_indices] at hmem
  obtain ⟨raw, -, rfl⟩ := List.mem_map.1 hmem
  have hlt : raw % sparseDim < sparseDim := Nat.mod_lt _ (by decide)
  rw [remapSparseIndex]
  omega

theorem storable_iff (v : TokenVector V) : Storable (literalPairs v) ↔ Apart v := by
  rw [← remapped_nodup_iff]
  have hperm := (literalPairs_perm v).map Prod.fst
  constructor
  · intro h
    exact hperm.nodup_iff.1 (h.increasing.imp fun hlt => ne_of_lt hlt)
  · intro h
    constructor
    · have hsorted : ((literalPairs v).map Prod.fst).Pairwise (· ≤ ·) := by
        rw [List.pairwise_map]
        apply (List.pairwise_insertionSort NotAfter (remapped v)).imp
        intro p q hpq
        obtain hlt | ⟨heq, -⟩ := hpq
        · exact le_of_lt hlt
        · exact le_of_eq heq
      exact (hsorted.and (hperm.nodup_iff.2 h)).imp fun hboth => lt_of_le_of_ne hboth.1 hboth.2
    · exact literalPairs_within v

end

/-! ## Products -/

section
variable {V : Type} [CommSemiring V]

/-- What a stored vector holds at an index. -/
def valueAt (pairs : List (ℕ × V)) (i : ℕ) : V :=
  ((pairs.find? fun p => p.1 = i).map Prod.snd).getD 0

/-- All values of an index together. -/
def total (pairs : List (ℕ × V)) (i : ℕ) : V :=
  ((pairs.filter fun p => p.1 = i).map Prod.snd).sum

def innerProduct (a b : ℕ → V) : V := ∑ i ∈ Icc 1 sparseDim, a i * b i

theorem total_perm {l m : List (ℕ × V)} (h : l.Perm m) (i : ℕ) : total l i = total m i :=
  ((h.filter _).map Prod.snd).sum_eq

theorem valueAt_eq_total {l : List (ℕ × V)} (h : (l.map Prod.fst).Nodup) (i : ℕ) :
    valueAt l i = total l i := by
  induction l with
  | nil => rfl
  | cons p l ih =>
    rw [List.map_cons, List.nodup_cons] at h
    by_cases hp : p.1 = i
    · have hnone : l.filter (fun q => q.1 = i) = [] := by
        rw [List.filter_eq_nil_iff]
        intro q hq hqi
        apply h.1
        rw [hp, ← of_decide_eq_true hqi]
        exact List.mem_map_of_mem hq
      simp [valueAt, total, hp, hnone]
    · have hvalue : valueAt (p :: l) i = valueAt l i := by simp [valueAt, hp]
      have htotal : total (p :: l) i = total l i := by simp [total, hp]
      rw [hvalue, htotal, ih h.2]

variable [LinearOrder V]

theorem valueAt_literal {v : TokenVector V} (h : Apart v) (i : ℕ) :
    valueAt (literalPairs v) i = total (remapped v) i := by
  have hnodup : ((literalPairs v).map Prod.fst).Nodup :=
    ((literalPairs_perm v).map Prod.fst).nodup_iff.2 ((remapped_nodup_iff v).2 h)
  rw [valueAt_eq_total hnodup, total_perm (literalPairs_perm v)]

/-- The literals of two vectors can be stored with the products of the vectors exactly
where no two tokens of a vector fall together. -/
theorem stored_iff (v w : TokenVector V) :
    (Storable (literalPairs v) ∧ Storable (literalPairs w) ∧
      innerProduct (valueAt (literalPairs v)) (valueAt (literalPairs w)) =
        innerProduct (total (remapped v)) (total (remapped w))) ↔ Apart v ∧ Apart w := by
  constructor
  · intro h
    exact ⟨(storable_iff v).1 h.1, (storable_iff w).1 h.2.1⟩
  · intro h
    obtain ⟨hv, hw⟩ := h
    constructor
    · exact (storable_iff v).2 hv
    constructor
    · exact (storable_iff w).2 hw
    · have hvalues : valueAt (literalPairs v) = total (remapped v) := funext (valueAt_literal hv)
      have hvalues' : valueAt (literalPairs w) = total (remapped w) := funext (valueAt_literal hw)
      rw [hvalues, hvalues']

end

/-- Two tokens whose hashes differ by the dimension. -/
def twoTokens : TokenVector ℕ where
  indices := [5, 999999942]
  values := [1, 1]
  matched := rfl
  distinct := by decide
  bounded := by decide

theorem twoTokens_literal : literalPairs twoTokens = [(6, 1), (6, 1)] ∧
    ¬ Storable (literalPairs twoTokens) := by
  have hpairs : literalPairs twoTokens = [(6, 1), (6, 1)] := by decide
  constructor
  · exact hpairs
  · intro h
    have hincreasing := h.increasing
    rw [hpairs] at hincreasing
    exact absurd hincreasing (by decide)

end RagPipeline.Sparse
