/-!
Sums of 64 bits. Addresses and counts have 64 bits, and a sum of them can be too large for that. What happens then is up
to the build: one that checks its sums gives up, another one goes on with the sum modulo `2 ^ 64`.
-/

namespace LS8

/-- How the program has been built. -/
class Build where
  /-- Whether sums are checked. -/
  checksSums : Bool

/-- A build checks its sums unless it is asked not to. -/
instance Build.default : Build := ⟨true⟩

section

variable [Build] {x : UInt64} {j k : Nat}

/-- The build gives up at the sum of `x` and `k`. -/
def Overflows (x : UInt64) (k : Nat) : Prop := Build.checksSums = true ∧ UInt64.size ≤ x.toNat + k

instance (x : UInt64) (k : Nat) : Decidable (Overflows x k) := inferInstanceAs (Decidable (_ ∧ _))

/-! ### Sums -/

omit [Build] in
theorem toNat_add_ofNat (h : x.toNat + k < UInt64.size) : (x + UInt64.ofNat k).toNat = x.toNat + k := by
  rw [UInt64.toNat_add, UInt64.toNat_ofNat', Nat.add_mod_mod, Nat.mod_eq_of_lt h]

omit [Build] in
theorem add_ofNat_add_ofNat (x : UInt64) (j k : Nat) :
    x + UInt64.ofNat j + UInt64.ofNat k = x + UInt64.ofNat (j + k) := by
  rw [UInt64.add_assoc, ← UInt64.ofNat_add]

theorem not_overflows_of_lt (h : x.toNat + k < UInt64.size) : ¬ Overflows x k := fun ho => Nat.not_le.mpr h ho.2

/-- A sum of small numbers does not overflow. -/
theorem not_overflows_of_le (hx : x.toNat ≤ 256) (hk : k ≤ 256) : ¬ Overflows x k :=
  not_overflows_of_lt (Nat.lt_of_le_of_lt (Nat.add_le_add hx hk) (by decide))

theorem not_overflows_zero (x : UInt64) : ¬ Overflows x 0 := not_overflows_of_lt x.toNat_lt

theorem Overflows.mono (h : Overflows x j) (hjk : j ≤ k) : Overflows x k :=
  ⟨h.1, Nat.le_trans h.2 (Nat.add_le_add_left hjk _)⟩

/-- After a sum the next one overflows if both together do. -/
theorem overflows_add_iff (h : ¬ Overflows x j) : Overflows (x + UInt64.ofNat j) k ↔ Overflows x (j + k) := by
  refine and_congr_right fun hb => ?_
  have hlt : x.toNat + j < UInt64.size := Nat.lt_of_not_le fun hle => h ⟨hb, hle⟩
  rw [toNat_add_ofNat hlt, Nat.add_assoc]

end

end LS8
