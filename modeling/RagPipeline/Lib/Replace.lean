import RagPipeline.Lib.Text
import Mathlib.Algebra.Ring.Nat
import Mathlib.Algebra.BigOperators.Group.List.Basic
import Mathlib.Algebra.Order.Group.Nat
import Mathlib.Data.List.Infix

/-! # Passes of replacement

Two characters are replaced by one, from the left, and one such pass runs over
what another left. -/

set_option autoImplicit false

namespace RagPipeline.Replace

/-- `str.replace` of two characters by one. -/
def replacePair (a b r : Char) : List Char → List Char
  | c :: d :: rest =>
    if c = a ∧ d = b then r :: replacePair a b r rest else c :: replacePair a b r (d :: rest)
  | l => l

/-- The passes, in their order. -/
def applySeq (seq : List (Char × Char × Char)) (l : List Char) : List Char :=
  seq.foldl (fun l (a, b, r) => replacePair a b r l) l

/-! ## One pass -/

section
variable {a b r : Char} {l w : List Char}

end

/-! ## All passes -/

section
variable {l w : List Char}

end

end RagPipeline.Replace
