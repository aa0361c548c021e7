import LS8.Numeral

/-!
The seven instructions of the LS-8 and their opcodes. The two high bits of an opcode hold the number
of operand bytes that follow it.
-/

namespace LS8

/-- What the machine can be told to do. -/
inductive Instruction where
  | hlt
  /-- Load a constant into a register. -/
  | ldi
  /-- Print the decimal value of a register on a line of its own. -/
  | prn
  /-- Add the second register to the first. -/
  | add
  /-- Multiply the first register by the second. -/
  | mul
  /-- Move the stack pointer down by one and store a register there. -/
  | push
  /-- Load the cell at the stack pointer into a register and move the stack pointer up by one. -/
  | pop
deriving DecidableEq

/-- A byte that is the opcode of no instruction. -/
structure UnknownOpcode where
  byte : UInt8
deriving DecidableEq

def UnknownOpcode.message (e : UnknownOpcode) : String :=
  s!"No discriminant in enum `Instruction` matches the value `{Numeral.decimal e.byte.toNat}`"

namespace Instruction

/-- All instructions, in the order in which they are listed above. -/
def all : List Instruction := [hlt, ldi, prn, add, mul, push, pop]

/-- The byte that stands for an instruction. -/
def opcode : Instruction → UInt8
  | hlt => 0x01
  | ldi => 0x82
  | prn => 0x47
  | add => 0xA0
  | mul => 0xA2
  | push => 0x45
  | pop => 0x46

def mnemonic : Instruction → String
  | hlt => "HLT"
  | ldi => "LDI"
  | prn => "PRN"
  | add => "ADD"
  | mul => "MUL"
  | push => "PUSH"
  | pop => "POP"

def decode (byte : UInt8) : Except UnknownOpcode Instruction :=
  match all.find? fun i => i.opcode == byte with
  | some i => .ok i
  | none => .error ⟨byte⟩

/-- The number of operand bytes, read off the two high bits of the opcode. -/
def operandCount (i : Instruction) : Nat := (i.opcode >>> 6).toNat

/-- The number of bytes of an instruction with its operands. -/
def size (i : Instruction) : Nat := 1 + i.operandCount

/-- The bytes of an instruction with the given operands. -/
def encode (i : Instruction) (operands : List UInt8) : List UInt8 := i.opcode :: operands

/-- Instructions are ordered by opcode. -/
instance : LE Instruction := ⟨fun i j => i.opcode ≤ j.opcode⟩

instance : DecidableLE Instruction := fun i j => inferInstanceAs (Decidable (i.opcode ≤ j.opcode))

/-- Sorts by opcode, keeping equal instructions in order. -/
def sort (is : List Instruction) : List Instruction := is.mergeSort fun i j => i ≤ j

/-! ### Opcodes and instructions -/

theorem opcode_injective {i j : Instruction} (h : i.opcode = j.opcode) : i = j := by
  revert h
  cases i <;> cases j <;> decide

theorem decode_eq_ok_iff {byte : UInt8} {i : Instruction} :
    decode byte = .ok i ↔ i.opcode = byte := by
  unfold decode
  constructor
  · intro h
    split at h
    · next j hj =>
      obtain rfl : j = i := by simpa using h
      simpa using List.find?_some hj
    · simp at h
  · rintro rfl
    cases i <;> rfl

theorem decode_opcode (i : Instruction) : decode i.opcode = .ok i := decode_eq_ok_iff.mpr rfl

theorem operandCount_le_two (i : Instruction) : i.operandCount ≤ 2 := by cases i <;> decide

theorem size_le (i : Instruction) : i.size ≤ 3 := Nat.add_le_add_left i.operandCount_le_two 1

end Instruction

end LS8
