import RagPipeline.Extraction.Finalize
import RagPipeline.Lib.Replace

/-! # Turkish letters and numbers

`normalize_tr`, `normalize_number` and the cell normalizer of `table_pipeline.py`
that composes them. The repairs are passes of two-character replacements, each
over what the one before it left. -/

set_option autoImplicit false

namespace RagPipeline.Extraction
open Text Replace

/-! ## The source -/

/-- `_MODIFIER_SEQ`. -/
def modifierSeq : List (Char × Char × Char) :=
  [('˘', 'g', 'ğ'), ('˘', 'G', 'Ğ'), ('¸', 's', 'ş'), ('¸', 'S', 'Ş'), ('¸', 'c', 'ç'),
    ('¸', 'C', 'Ç'), ('˙', 'I', 'İ'), ('˙', 'i', 'i')]

/-- `_TR_FIX`. -/
def trFix : Char → Char
  | 'Ì' => 'İ'
  | 'ì' => 'i'
  | c => c

/-- What `normalize_tr` does to the composed text. -/
def repair (l : List Char) : List Char := (applySeq modifierSeq l).map trFix

section
variable (U : Unicode)

/-- `normalize_tr`. -/
def normalizeTr (text : String) : String :=
  if text = "" then text else String.ofList (repair (U.nfc text.toList))

/-- A digit, then digits and separators. -/
def numberBody : List Char → Bool
  | [] => false
  | c :: rest => U.digit c && rest.all fun c => U.digit c || c = '.' || c = ','

/-- `str.rfind` of a character. -/
def rfind (c : Char) : List Char → Option ℕ
  | [] => none
  | d :: rest =>
    match rfind c rest with
    | some i => some (i + 1)
    | none => if d = c then some 0 else none

/-- Commas for dots and dots for commas, by way of a third character. -/
def swapSeparators (body : List Char) : List Char :=
  ((body.map fun c => if c = ',' then '\x00' else c).map fun c => if c = '.' then ',' else c).map
    fun c => if c = '\x00' then '.' else c

/-- The separators of a number without its sign. -/
def turkishBody (body : List Char) : List Char :=
  match rfind '.' body, rfind ',' body with
  | some dot, some comma => if comma < dot then swapSeparators body else body
  | some _, none =>
    match body.splitOn '.' with
    | [_, fraction] =>
      if fraction.length = 1 ∨ fraction.length = 2 then
        body.map fun c => if c = '.' then ',' else c
      else body
    | _ => body
  | none, _ => body

end

/-! ## What the passes leave over -/

section
variable {l w : List Char}

/-- A dot above before a letter `i`, doubled or with a grave accent: what the
passes leave to a second run. -/
def Leftover (l : List Char) : Prop := ['˙', '˙', 'i'] <:+: l ∨ ['˙', 'ì'] <:+: l

end

/-! ## Composition -/

/-- What is documented of the table: composition keeps a text canonically equal, and
so keeps how many spacing breves, cedillas and dots above and how many combining
grave accents its decomposition has; decimal digits and separators do not compose;
and a decimal digit is no space, no separator, and no character of the repairs. -/
structure Composing (U : Unicode) : Prop where
  weight : ∃ weight : Char → ℕ,
    (∀ p ∈ modifierSeq, weight p.2.2 < weight p.1 + weight p.2.1) ∧
      weight 'İ' < weight 'Ì' ∧ weight 'i' < weight 'ì' ∧
      ∀ l, ((U.nfc l).map weight).sum = (l.map weight).sum
  nil : U.nfc [] = []
  plain : ∀ l, (l.all fun c => U.digit c || c = '.' || c = ',' || c = '-') = true → U.nfc l = l
  digit_space : ∀ c, U.digit c = true → isSpace c = false
  digit_other : ∀ c ∈ ['.', ',', '-', '\x00', '˘', '¸', '˙', 'Ì', 'ì'], U.digit c = false

section
variable {U : Unicode}

/-- A text that a second run leaves as it is: the repairs left nothing over, and
what they put in does not compose with what follows it. -/
def Settled (U : Unicode) (text : String) : Prop :=
  ¬ Leftover (U.nfc text.toList) ∧
    U.nfc (repair (U.nfc text.toList)) = repair (U.nfc text.toList)

end

end RagPipeline.Extraction
