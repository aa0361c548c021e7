/-!
How numbers are written: in decimal and in lower case hexadecimal without leading zeros, in upper
case hexadecimal with at least two digits, and a byte as its eight binary digits.
-/

namespace LS8.Numeral

/-- The digits of a number, with zeros in front up to a least width. -/
def padded (base width n : Nat) : List Char := (Nat.toDigits base n).leftpad width '0'

/-- Decimal digits, no leading zeros. -/
def decimal (n : Nat) : String := String.ofList (Nat.toDigits 10 n)

/-- Lower case hexadecimal digits, no leading zeros. -/
def hex (n : Nat) : String := String.ofList (Nat.toDigits 16 n)

/-- Upper case hexadecimal digits, at least two. -/
def hexPair (n : Nat) : String := String.ofList ((padded 16 2 n).map Char.toUpper)

/-- The eight binary digits of a byte, the highest first. -/
def bits (byte : UInt8) : String := String.ofList (padded 2 8 byte.toNat)

/-! ### The characters of a numeral -/

@[simp] theorem toList_decimal (n : Nat) : (decimal n).toList = Nat.toDigits 10 n := by
  simp [decimal]

@[simp] theorem toList_hexPair (n : Nat) :
    (hexPair n).toList = (padded 16 2 n).map Char.toUpper := by
  simp [hexPair]

@[simp] theorem toList_bits (byte : UInt8) : (bits byte).toList = padded 2 8 byte.toNat := by
  simp [bits]

end LS8.Numeral
