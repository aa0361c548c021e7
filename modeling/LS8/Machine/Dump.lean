import LS8.Registers

/-!
A dump of the machine: the program counter, the bytes at it and the registers. It is written on one
line in hexadecimal, with dashes for an address past the end of memory.
-/

namespace LS8

/-- What is shown of a machine before each of its steps. -/
structure Dump where
  pc : Nat
  /-- The three bytes from the program counter on, as far as there are any. -/
  window : Vector (Option UInt8) 3
  registers : Registers
deriving DecidableEq

namespace Dump

/-- A cell of the dump; an address past the end of memory has no byte. -/
def cell : Option UInt8 → String
  | some byte => s!" {Numeral.hexPair byte.toNat}"
  | none => " --"

def text (d : Dump) : String :=
  s!"TRACE: {Numeral.hexPair d.pc} |" ++ String.join (d.window.toList.map cell) ++ " |" ++
    String.join (d.registers.toList.map fun byte => cell (some byte))

end Dump

end LS8
