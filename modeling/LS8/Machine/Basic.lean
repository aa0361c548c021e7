import LS8.Build
import LS8.Journal
import LS8.Machine.Dump
import LS8.Memory
import LS8.Result
import LS8.Sink

/-!
The state of an LS-8, what can go wrong while it works, and what it notes in the journal. A program
is loaded to address 0; cells after it keep what they held.
-/

namespace LS8

/-- An LS-8 between two steps; a new one stands at address 0 with empty memory. -/
structure Machine where
  /-- The program counter. -/
  pc : UInt64 := 0
  registers : Registers := .initial
  ram : Ram := .zero
  /-- False once the machine has been stopped. -/
  running : Bool := true
  /-- The number of steps begun. -/
  cycles : UInt64 := 0
deriving DecidableEq

namespace Machine

instance : Inhabited Machine := ⟨{}⟩

/-- The address that the program counter stands at. -/
def here (m : Machine) : Nat := m.pc.toNat

/-- The machine with the program counter moved on. -/
def skip (m : Machine) (k : Nat) : Machine := { m with pc := m.pc + UInt64.ofNat k }

/-- The machine with another stack pointer. -/
def withSp (m : Machine) (sp : UInt8) : Machine := { m with registers := m.registers.setSp sp }

/-- What an instruction did. -/
inductive Effect where
  | stopped
  | loaded (register value : UInt8)
  | printed (register value : UInt8)
  | combined (instruction : Instruction) (first second x y result : UInt8)
  | pushed (register value address : UInt8)
  | popped (register value address : UInt8)
deriving DecidableEq

namespace Effect

/-- The output of an instruction: only printing has any, the value in decimal and a line feed. -/
def output : Effect → List Char
  | printed _ value => (Numeral.decimal value.toNat).toList ++ ['\n']
  | _ => []

/-- What is noted about an instruction once it is done. -/
def text : Effect → String
  | stopped => "HLT"
  | loaded register value =>
    s!"LDI R{Numeral.decimal register.toNat} {Numeral.decimal value.toNat}"
  | printed register value =>
    s!"PRN R{Numeral.decimal register.toNat}: {Numeral.decimal value.toNat}"
  | combined instruction first second x y result =>
    s!"{instruction.mnemonic} R{Numeral.decimal first.toNat} R{Numeral.decimal second.toNat}: " ++
      s!"{Numeral.decimal x.toNat} {Numeral.decimal y.toNat} = {Numeral.decimal result.toNat}"
  | pushed register value address =>
    s!"PUSH R{Numeral.decimal register.toNat}: {Numeral.decimal value.toNat} -> " ++
      s!"0x{Numeral.hexPair address.toNat}"
  | popped register value address =>
    s!"POP R{Numeral.decimal register.toNat}: {Numeral.decimal value.toNat} <- " ++
      s!"0x{Numeral.hexPair address.toNat}"

/-- The part of the machine that an effect is reported by. -/
def part : Effect → Part
  | combined .. => .arithmetic
  | _ => .machine

end Effect

/-- What the machine notes in the journal. -/
inductive Record where
  | emptyProgram
  | programLoaded (length : Nat)
  /-- The machine before a step. -/
  | dumped (d : Dump)
  | unrecognised (pc : Nat) (opcode : UInt8)
  | executed (e : Effect)
  | halted (cycles : UInt64)
deriving DecidableEq

def Record.entry : Record → Entry
  | emptyProgram => ⟨.warn, .machine, "Program was empty!"⟩
  | programLoaded length => ⟨.debug, .machine, s!"Loaded {Numeral.decimal length} bytes"⟩
  | dumped d => ⟨.trace, .machine, d.text⟩
  | unrecognised pc opcode =>
    ⟨.warn, .machine,
      s!"Instruction at 0x{Numeral.hexPair pc} not recognized: 0b{Numeral.bits opcode}"⟩
  | executed e => ⟨.debug, e.part, e.text⟩
  | halted cycles =>
    ⟨.info, .machine, s!"Program halted after {Numeral.decimal cycles.toNat} steps"⟩

/-- Why the machine gives up. -/
inductive Failure where
  | fault (f : Fault)
  /-- An instruction was refused a cell of memory. -/
  | memory (e : Memory.Error)
  /-- The output was refused, for a reason that the writer has given. -/
  | output (reason : String)
  /-- The program to be loaded was refused by memory. -/
  | load (e : Memory.Error)
deriving DecidableEq

/-- What is reported about a failure, the outermost cause first. -/
def Failure.causes : Failure → List String
  | fault f => [f.message]
  | memory e => [e.message]
  | output reason => ["Failed to write program output", reason]
  | load e => ["Failed to load program", e.message]

/-- What a dump shows of the machine. -/
def dump (m : Machine) : Dump where
  pc := m.here
  window := Vector.ofFn fun i => (m.ram.read (m.pc + UInt64.ofNat i.val).toNat).toOption
  registers := m.registers

/-- The line of a dump. Its last address is a sum, which may overflow. -/
def trace [Build] (m : Machine) : Result Empty String :=
  if Overflows m.pc 2 then .overflow else .ok m.dump.text

/-- Places a program at address 0. -/
def load (m : Machine) (program : List UInt8) :
    Logged Record (EStateM.Result Failure Machine Unit) :=
  let warning := if program.isEmpty then [.emptyProgram] else []
  match m.ram.load program with
  | .ok _ ram => ⟨.ok () { m with ram }, warning ++ [.programLoaded program.length]⟩
  | .error e ram => ⟨.error (.load e) { m with ram }, warning⟩

/-! ### Addresses -/

theorem here_skip {m : Machine} {k : Nat} (h : m.here + k < UInt64.size) : (m.skip k).here = m.here + k :=
  toNat_add_ofNat h

/-- Within memory the program counter does not come near the end of its range. -/
theorem here_skip_of_lt {m : Machine} {k : Nat} (h : m.here < 256) (hk : k ≤ 256) :
    (m.skip k).here = m.here + k :=
  here_skip (Nat.lt_of_le_of_lt (Nat.add_le_add (Nat.le_of_lt h) hk) (by decide))

/-! ### Loading -/

theorem value_load (m : Machine) (program : List UInt8) :
    (m.load program).value =
      if program.length ≤ 256 then .ok () { m with ram := m.ram.overlay 0 program }
      else .error (.load (.programTooLarge program.length 256)) m := by
  rw [load, Memory.load_eq]
  by_cases h : program.length ≤ 256
  · simp only [h, if_true]
  · simp only [h, if_false]

end Machine

end LS8
