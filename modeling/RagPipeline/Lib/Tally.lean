import Mathlib.Algebra.Ring.Nat
import Mathlib.Algebra.BigOperators.Group.List.Basic
import Mathlib.Data.List.Induction
import Mathlib.Data.List.Nodup

/-! # Tallies

Counting equal things in the order in which each is first met. -/

set_option autoImplicit false

namespace RagPipeline.Tally

variable {α : Type} [DecidableEq α] {a b : α} {n : ℕ}

end RagPipeline.Tally
