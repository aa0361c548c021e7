import LS8.Numeral

/-!
Memory of a fixed number of byte cells. Every access is checked, and a block is written either as a
whole or not at all.
-/

namespace LS8

/-- Cells with the addresses 0 to `size - 1`. -/
structure Memory (size : Nat) where
  cells : Vector UInt8 size
deriving DecidableEq

abbrev Ram := Memory 256

/-- Why memory refuses an access. -/
inductive Memory.Error where
  /-- The address is not below the size. -/
  | outOfRange (address size : Nat)
  /-- The program has more bytes than there are cells. -/
  | programTooLarge (length size : Nat)
deriving DecidableEq

namespace Memory

def Error.message : Error → String
  | .outOfRange address size =>
    s!"address `0x{Numeral.hex address}` is outside of memory (size {Numeral.decimal size})"
  | .programTooLarge length size =>
    s!"program of {Numeral.decimal length} bytes does not fit into " ++
      s!"{Numeral.decimal size} bytes of memory"

variable {size : Nat}

/-- Memory in which every cell is zero. -/
def zero : Memory size := ⟨Vector.replicate size 0⟩

instance : Inhabited (Memory size) := ⟨zero⟩

/-- The byte at an address. -/
def read (m : Memory size) (address : Nat) : Except Error UInt8 :=
  if h : address < size then .ok m.cells[address] else .error (.outOfRange address size)

/-- Replaces the byte at an address. -/
def write (m : Memory size) (address : Nat) (value : UInt8) : EStateM.Result Error (Memory size) Unit :=
  if h : address < size then .ok () ⟨m.cells.set address value⟩
  else .error (.outOfRange address size) m

/-- The cells from `start` on, as many as there are bytes, hold the bytes; the others are kept. -/
def overlay (m : Memory size) (start : Nat) (bytes : List UInt8) : Memory size :=
  ⟨Vector.ofFn fun i =>
    if h : start ≤ i.val ∧ i.val < start + bytes.length then bytes[i.val - start]
    else m.cells[i]⟩

/-- Writes a block of bytes. A block that does not fit is refused with the address of its last
byte. -/
def writeBlock (m : Memory size) (start : Nat) (bytes : List UInt8) :
    EStateM.Result Error (Memory size) Unit :=
  if start + bytes.length ≤ size then .ok () (m.overlay start bytes)
  else .error (.outOfRange (start + bytes.length - 1) size) m

/-- Writes a program to the cells from 0 on; the cells after it are kept. -/
def load (m : Memory size) (program : List UInt8) : EStateM.Result Error (Memory size) Unit :=
  if program.length ≤ size then m.writeBlock 0 program
  else .error (.programTooLarge program.length size) m

/-! ### Reading -/

theorem read_eq_ok_iff {m : Memory size} {x : Nat} {b : UInt8} :
    m.read x = .ok b ↔ ∃ h : x < size, m.cells[x] = b := by
  by_cases h : x < size <;> simp [read, h]

theorem read_of_lt (m : Memory size) {x : Nat} (h : x < size) : m.read x = .ok m.cells[x] := by
  simp [read, h]

theorem read_of_ge (m : Memory size) {x : Nat} (h : size ≤ x) :
    m.read x = .error (.outOfRange x size) := by
  simp [read, Nat.not_lt.mpr h]

/-! ### Writing -/

theorem write_of_lt (m : Memory size) {x : Nat} (h : x < size) (v : UInt8) :
    m.write x v = .ok () ⟨m.cells.set x v⟩ := by
  simp [write, h]

theorem write_of_ge (m : Memory size) {x : Nat} (h : size ≤ x) (v : UInt8) :
    m.write x v = .error (.outOfRange x size) m := by
  simp [write, Nat.not_lt.mpr h]

theorem read_overlay (m : Memory size) (start : Nat) (bytes : List UInt8) {x : Nat}
    (hx : x < size) : (m.overlay start bytes).read x =
      if h : start ≤ x ∧ x < start + bytes.length then .ok bytes[x - start] else m.read x := by
  simp only [read, overlay, hx, dite_true, Vector.getElem_ofFn]
  split <;> rfl

theorem load_eq (m : Memory size) (program : List UInt8) :
    m.load program =
      if program.length ≤ size then .ok () (m.overlay 0 program)
      else .error (.programTooLarge program.length size) m := by
  by_cases h : program.length ≤ size <;> simp [load, writeBlock, h]

theorem load_eq_ok_iff {m m' : Memory size} {program : List UInt8} :
    m.load program = .ok () m' ↔ program.length ≤ size ∧ m.overlay 0 program = m' := by
  rw [load_eq]
  split <;> simp [*]

end Memory

end LS8
