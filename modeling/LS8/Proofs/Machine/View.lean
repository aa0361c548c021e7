import LS8.Machine.Run
import Mathlib.Tactic.Common

/-!
Registers and memory as total functions: the `value` of a register and the `cell` at an address, with
`update` and `put` to replace one of them.  A checked access is the total one behind its bound
(`read_eq`, `write_eq`), so that a proof about the machine keeps the bound and the value apart.
-/

namespace LS8

theorem set_eq_setIfInBounds {n i : Nat} (xs : Vector UInt8 n) (h : i < n) (v : UInt8) :
    xs.set i v = xs.setIfInBounds i v := by
  apply Vector.ext
  intro j hj
  rw [Vector.getElem_set, Vector.getElem_setIfInBounds]

namespace Registers

variable (r : Registers)

/-- The value of a register; zero where there is no such register. -/
def value (i : UInt8) : UInt8 := r.values[i.toNat]?.getD 0

/-- The registers with one value replaced; the same registers where there is no such one. -/
def update (i v : UInt8) : Registers := ⟨r.values.setIfInBounds i.toNat v⟩

theorem read_eq (i : UInt8) :
    r.read i = if i < 8 then .ok (r.value i) else .error (.noRegister i) := by
  by_cases h : i.toNat < 8
  · have hi : i < 8 := h
    simp [read_of_lt r h, value, h, hi]
  · have hi : ¬ i < 8 := h
    rw [read_of_ge r (by omega), if_neg hi]

theorem write_eq (i v : UInt8) :
    r.write i v = if i < 8 then .ok () (r.update i v) else .error (.noRegister i) r := by
  by_cases h : i.toNat < 8
  · have hi : i < 8 := h
    rw [write_of_lt r h, if_pos hi, update, set_eq_setIfInBounds]
  · have hi : ¬ i < 8 := h
    rw [write_of_ge r (by omega), if_neg hi]

theorem value_update {i : UInt8} (h : i < 8) (v j : UInt8) :
    (r.update i v).value j = if j = i then v else r.value j := by
  have hi : i.toNat < 8 := h
  by_cases hj : j = i
  · subst hj
    simp [value, update, hi]
  · have hne : i.toNat ≠ j.toNat := fun e => hj (UInt8.toNat_inj.mp e.symm)
    simp [value, update, hj, hne]

theorem sp_eq_value : r.sp = r.value 7 := rfl

theorem setSp_eq_update (v : UInt8) : r.setSp v = r.update 7 v := by
  rw [setSp, set_eq_setIfInBounds]
  rfl

theorem sp_update {i : UInt8} (h : i < 8) (v : UInt8) :
    (r.update i v).sp = if i = 7 then v else r.sp := by
  rw [sp_eq_value, value_update r h, sp_eq_value]
  simp only [eq_comm]

theorem value_update_seven (v j : UInt8) : (r.update 7 v).value j = if j = 7 then v else r.value j :=
  value_update r (by decide) v j

theorem sp_update_seven (v : UInt8) : (r.update 7 v).sp = v := by
  rw [sp_update r (by decide), if_pos rfl]

theorem update_value {i : UInt8} (h : i < 8) : r.update i (r.value i) = r := by
  have hi : i.toNat < 8 := h
  obtain ⟨values⟩ := r
  rw [update, value, Vector.getElem?_eq_getElem hi, Option.getD_some, ← set_eq_setIfInBounds values hi,
    Vector.set_getElem_self]

theorem update_update (i v v' : UInt8) : (r.update i v).update i v' = r.update i v' := by
  simp only [update, Vector.setIfInBounds_setIfInBounds]

end Registers

namespace Memory

variable {size : Nat} (m : Memory size)

/-- The byte at an address; zero outside of memory. -/
def cell (x : Nat) : UInt8 := m.cells[x]?.getD 0

/-- Memory with one cell replaced; the same memory for an address outside of it. -/
def put (x : Nat) (v : UInt8) : Memory size := ⟨m.cells.setIfInBounds x v⟩

theorem cell_of_ge {x : Nat} (h : size ≤ x) : m.cell x = 0 := by
  rw [cell, Vector.getElem?_eq_none h, Option.getD_none]

theorem read_eq (x : Nat) :
    m.read x = if x < size then .ok (m.cell x) else .error (.outOfRange x size) := by
  by_cases h : x < size
  · simp [read_of_lt m h, cell, h]
  · rw [read_of_ge m (by omega), if_neg h]

theorem write_eq (x : Nat) (v : UInt8) :
    m.write x v = if x < size then .ok () (m.put x v) else .error (.outOfRange x size) m := by
  by_cases h : x < size
  · rw [write_of_lt m h, if_pos h, put, set_eq_setIfInBounds]
  · rw [write_of_ge m (by omega), if_neg h]

theorem cell_put {x : Nat} (h : x < size) (v : UInt8) (y : Nat) :
    (m.put x v).cell y = if y = x then v else m.cell y := by
  by_cases hy : y = x
  · subst hy
    simp [cell, put, h]
  · have hne : x ≠ y := fun e => hy e.symm
    simp [cell, put, hy, hne]

theorem read_put {x : Nat} (h : x < size) (v : UInt8) (y : Nat) :
    (m.put x v).read y = if y = x then .ok v else m.read y := by
  rw [read_eq, read_eq, cell_put m h]
  by_cases hy : y = x
  · rw [if_pos hy, if_pos hy, if_pos (hy ▸ h)]
  · rw [if_neg hy, if_neg hy]

theorem cell_zero (x : Nat) : (zero : Memory size).cell x = 0 := by
  by_cases h : x < size
  · simp [cell, zero, h]
  · exact cell_of_ge _ (by omega)

theorem cell_overlay (start : Nat) (bytes : List UInt8) {x : Nat} (h : x < size) :
    (m.overlay start bytes).cell x = (if start ≤ x then bytes[x - start]? else none).getD (m.cell x) := by
  simp only [cell, overlay, h, Vector.getElem?_eq_getElem, Vector.getElem_ofFn, Option.getD_some]
  by_cases hs : start ≤ x
  · by_cases hb : x < start + bytes.length
    · rw [dif_pos ⟨hs, hb⟩, if_pos hs, List.getElem?_eq_getElem (by omega), Option.getD_some]
    · rw [dif_neg (fun h => hb h.2), if_pos hs, List.getElem?_eq_none (by omega), Option.getD_none]
      rfl
  · rw [dif_neg (fun h => hs h.1), if_neg hs, Option.getD_none]
    rfl

theorem overlay_singleton {x : Nat} (h : x < size) (v : UInt8) : m.overlay x [v] = ⟨m.cells.set x v⟩ := by
  unfold overlay
  congr
  apply Vector.ext
  intro i hi
  rw [Vector.getElem_ofFn, Vector.getElem_set]
  by_cases hx : x = i
  · subst hx
    simp
  · rw [dif_neg (by simp only [List.length_singleton]; omega), if_neg hx]
    rfl

end Memory

end LS8
