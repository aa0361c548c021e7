import LS8.Text.Line

/-!
Byte literals: the binary digits of a byte, with leading zeros as one likes, after an optional mark
`0b` and an optional plus sign.
-/

namespace LS8.Literal

/-- The value of a binary digit. -/
def bit? : Char → Option Nat
  | '0' => some 0
  | '1' => some 1
  | _ => none

/-- The value of a row of binary digits, read after digits of the value `high`. -/
def valueFrom? (high : Nat) : List Char → Option Nat
  | [] => some high
  | c :: cs =>
    match bit? c with
    | some b => valueFrom? (2 * high + b) cs
    | none => none

/-- The byte written with a row of binary digits; there is at least one, and the value is below
256. -/
def ofDigits? (digits : List Char) : Option UInt8 :=
  if digits = [] then none
  else
    match valueFrom? 0 digits with
    | some n => if n < 256 then some (UInt8.ofNat n) else none
    | none => none

/-- Drops the mark `0b` from the front, once. -/
def dropMark : List Char → List Char
  | '0' :: 'b' :: cs => cs
  | cs => cs

/-- Drops a plus sign from the front, once. -/
def dropPlus : List Char → List Char
  | '+' :: cs => cs
  | cs => cs

/-- The byte that a word denotes. -/
def decode? (word : List Char) : Option UInt8 := ofDigits? (dropPlus (dropMark word))

/-- The word of a line that has to be a literal: the first one, unless it starts a comment. -/
def word? (line : List Char) : Option (List Char) :=
  match Text.firstWord line with
  | [] => none
  | '#' :: _ => none
  | word => some word

end LS8.Literal
