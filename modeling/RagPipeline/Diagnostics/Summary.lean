import RagPipeline.Lib.Text
import RagPipeline.Lib.Guard

/-! # The summary of a test run

What `classify_pytest_failures` reads: the lines after the last banner, the node a
failure line names, and the number on the line that counts. -/

set_option autoImplicit false

namespace RagPipeline.Diagnostics
open Cut Guard
open RagPipeline.Text (isSpace)

abbrev Chars := List Char

/-- A file and a test in it. -/
abbrev Key := Chars × Chars

/-! ## Digits -/

/-- Where the runs of ten decimal digits begin. -/
def decimalZeros : List ℕ :=
  [0x30, 0x660, 0x6f0, 0x7c0, 0x966, 0x9e6, 0xa66, 0xae6, 0xb66, 0xbe6, 0xc66, 0xce6, 0xd66, 0xde6,
    0xe50, 0xed0, 0xf20, 0x1040, 0x1090, 0x17e0, 0x1810, 0x1946, 0x19d0, 0x1a80, 0x1a90, 0x1b50,
    0x1bb0, 0x1c40, 0x1c50, 0xa620, 0xa8d0, 0xa900, 0xa9d0, 0xa9f0, 0xaa50, 0xabf0, 0xff10, 0x104a0,
    0x10d30, 0x11066, 0x110f0, 0x11136, 0x111d0, 0x112f0, 0x11450, 0x114d0, 0x11650, 0x116c0,
    0x11730, 0x118e0, 0x11950, 0x11c50, 0x11d50, 0x11da0, 0x16a60, 0x16ac0, 0x16b50, 0x1d7ce,
    0x1d7d8, 0x1d7e2, 0x1d7ec, 0x1d7f6, 0x1e140, 0x1e2f0, 0x1e950, 0x1fbf0]

def decimal (c : Char) : Option ℕ :=
  (decimalZeros.find? fun z => decide (z ≤ c.toNat) && decide (c.toNat < z + 10)).map fun z =>
    c.toNat - z

def isDecimal (c : Char) : Bool := (decimal c).isSome

/-- Why no list of failures is returned. -/
inductive Stop where
  | refused
  /-- An error the function does not catch. -/
  | raised
deriving DecidableEq

/-- `int`, which takes no more digits than this. -/
def intOf (run : Chars) : Except Stop ℕ := do
  require (run.length ≤ 4300) .raised
  return run.foldl (fun n c => 10 * n + (decimal c).getD 0) 0

/-! ## Lines -/

def isBreak (c : Char) : Bool :=
  c.toNat ∈ [0x0A, 0x0B, 0x0C, 0x0D, 0x1C, 0x1D, 0x1E, 0x85, 0x2028, 0x2029]

/-- `splitlines`, with the line begun so far and whether a carriage return has just
ended the one before. -/
def linesFrom (line : Chars) (returned : Bool) : Chars → List Chars
  | [] => if line.isEmpty then [] else [line]
  | c :: rest =>
    if returned && c == '\n' then linesFrom line false rest
    else if isBreak c then line :: linesFrom [] (c == '\r') rest
    else linesFrom (line ++ [c]) false rest

def strip (l : Chars) : Chars := trim isSpace l

def failedPrefix : Chars := "FAILED ".toList

section
variable {file name : Chars} {key : Key}

end

end RagPipeline.Diagnostics
