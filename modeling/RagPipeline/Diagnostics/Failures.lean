import RagPipeline.Lib.Tally
import RagPipeline.Diagnostics.Summary

/-! # Failures of a test run

`classify_pytest_failures`: a list of tests that failed, or an empty one wherever
something in the output is not understood. -/

set_option autoImplicit false

namespace RagPipeline.Diagnostics
open Cut Guard Tally
open RagPipeline.Text (isSpace)
open scoped RagPipeline.Text

/-! ## Modules -/

/-- A module, as far as the walk looks at it. -/
inductive Node where
  /-- A function or an async function. -/
  | function (name : Chars) (children : List Node)
  | other (children : List Node)

mutual

/-- `_defines_test`. -/
def definesTest (name : Chars) : Node → Bool
  | .function own children => own == name || anyDefines name children
  | .other children => anyDefines name children

def anyDefines (name : Chars) : List Node → Bool
  | [] => false
  | child :: rest => definesTest name child || anyDefines name rest

end

/-- A function or a method of the name stands somewhere in the module. -/
inductive Defines (name : Chars) : Node → Prop where
  | here (children : List Node) : Defines name (.function name children)
  | inFunction {own : Chars} {children : List Node} {child : Node} :
    child ∈ children → Defines name child → Defines name (.function own children)
  | inOther {children : List Node} {child : Node} :
    child ∈ children → Defines name child → Defines name (.other children)

mutual

theorem defines_of_test {name : Chars} : ∀ n : Node, definesTest name n = true → Defines name n
  | .function own children, h => by
    rw [definesTest, Bool.or_eq_true, beq_iff_eq] at h
    obtain rfl | hchildren := h
    · exact .here children
    · obtain ⟨child, hchild, hdefines⟩ := defines_of_any children hchildren
      exact .inFunction hchild hdefines
  | .other children, h => by
    rw [definesTest] at h
    obtain ⟨child, hchild, hdefines⟩ := defines_of_any children h
    exact .inOther hchild hdefines

theorem defines_of_any {name : Chars} : ∀ l : List Node, anyDefines name l = true →
    ∃ child ∈ l, Defines name child
  | [], h => by
    rw [anyDefines] at h
    cases h
  | child :: rest, h => by
    rw [anyDefines, Bool.or_eq_true] at h
    obtain hchild | hrest := h
    · exact ⟨child, List.mem_cons_self, defines_of_test child hchild⟩
    · obtain ⟨other, hother, hdefines⟩ := defines_of_any rest hrest
      exact ⟨other, List.mem_cons_of_mem child hother, hdefines⟩

end

/-! ## Reading the summary -/

/-- What reading and parsing a file of the tree gives. -/
inductive Parsed where
  | tree (n : Node)
  | unreadable
  /-- An error the function does not catch. -/
  | raises

def failed (line : Chars) : Bool := decide (failedPrefix <+: line)

section
variable (parse : Chars → Parsed) (commandId : String) (selected : List Chars)

def declared (key : Key) : Except Stop Unit :=
  match parse key.1 with
  | .tree n => require (definesTest key.2 n = true) .refused
  | .unreadable => .error .refused
  | .raises => .error .raised

end

/-! ## What was read -/

end RagPipeline.Diagnostics
