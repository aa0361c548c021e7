import LS8.Numeral

/-!
What can be wrong with the text of a program. Each error knows the line it was found on.
-/

namespace LS8.Program

/-- What is wrong with one line, or with the program as a whole. -/
inductive Error where
  /-- The word on this line is no literal of a byte. -/
  | invalidLiteral (line : Nat) (word : List Char)
  /-- The program has `length` bytes; the one on this line is the first past the capacity. -/
  | tooLarge (line capacity length : Nat)
deriving DecidableEq

namespace Error

/-- The line an error was found on, counted from 1. -/
def line : Error → Nat
  | invalidLiteral line _ => line
  | tooLarge line _ _ => line

def summary : Error → String
  | invalidLiteral _ _ => "invalid number"
  | tooLarge _ capacity _ => s!"program exceeds memory of `{Numeral.decimal capacity}` bytes"

/-- What is wrong, with the text or number at fault. -/
def detail : Error → String
  | invalidLiteral _ word => s!"`{String.ofList word}` is not a base-2 byte"
  | tooLarge _ _ length => s!"program has `{Numeral.decimal length}` bytes"

def message (e : Error) : String :=
  s!"error [ln: {Numeral.decimal e.line}]: {e.summary} - {e.detail}"

end Error

end LS8.Program
