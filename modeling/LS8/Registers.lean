import LS8.Fault

/-!
The registers `R0` to `R7`. The last one is the stack pointer, which starts at `0xF4`.
-/

namespace LS8

/-- Eight bytes, `R0` first. -/
structure Registers where
  values : Vector UInt8 8
deriving DecidableEq

namespace Registers

/-- Where the stack pointer starts; the stack grows down from there. -/
def spStart : UInt8 := 0xF4

/-- All registers zero but the stack pointer. -/
def initial : Registers := ⟨(Vector.replicate 8 0).set 7 spStart⟩

instance : Inhabited Registers := ⟨initial⟩

/-- The value of the register with an index. -/
def read (r : Registers) (index : UInt8) : Except Fault UInt8 :=
  if h : index.toNat < 8 then .ok r.values[index.toNat] else .error (.noRegister index)

/-- Replaces the value of the register with an index. -/
def write (r : Registers) (index value : UInt8) : EStateM.Result Fault Registers Unit :=
  if h : index.toNat < 8 then .ok () ⟨r.values.set index.toNat value⟩ else .error (.noRegister index) r

def sp (r : Registers) : UInt8 := r.values[7]

def setSp (r : Registers) (value : UInt8) : Registers := ⟨r.values.set 7 value⟩

def toList (r : Registers) : List UInt8 := r.values.toList

/-! ### Reading -/

theorem read_of_lt (r : Registers) {i : UInt8} (h : i.toNat < 8) :
    r.read i = .ok r.values[i.toNat] := by
  simp [read, h]

theorem read_of_ge (r : Registers) {i : UInt8} (h : 8 ≤ i.toNat) :
    r.read i = .error (.noRegister i) := by
  simp [read, Nat.not_lt.mpr h]

/-! ### Writing -/

theorem write_of_lt (r : Registers) {i : UInt8} (h : i.toNat < 8) (v : UInt8) :
    r.write i v = .ok () ⟨r.values.set i.toNat v⟩ := by
  simp [write, h]

theorem write_of_ge (r : Registers) {i : UInt8} (h : 8 ≤ i.toNat) (v : UInt8) :
    r.write i v = .error (.noRegister i) r := by
  simp [write, Nat.not_lt.mpr h]

end Registers

end LS8
