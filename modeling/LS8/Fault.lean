import LS8.Instruction

/-!
The faults that stop a program: what an instruction may ask for and the machine does not have.
-/

namespace LS8

/-- Why an instruction cannot be executed. -/
inductive Fault where
  /-- An operand names a register after `R7`. -/
  | noRegister (index : UInt8)
  /-- The instruction at this address has bytes past the end of memory. -/
  | pastEnd (pc : Nat)
  /-- A `PUSH` with the stack pointer at address 0. -/
  | stackOverflow
  /-- A `POP` with the stack pointer at the last address. -/
  | stackUnderflow
  /-- Arithmetic was asked of an instruction that does none. -/
  | notArithmetic (instruction : Instruction)
deriving DecidableEq

def Fault.message : Fault → String
  | .noRegister index => s!"no register `R{Numeral.decimal index.toNat}`"
  | .pastEnd pc => s!"instruction at `0x{Numeral.hex pc}` runs past the end of memory"
  | .stackOverflow => "stack overflow"
  | .stackUnderflow => "stack underflow"
  | .notArithmetic instruction => s!"unsupported ALU operation `{instruction.mnemonic}`"

end LS8
