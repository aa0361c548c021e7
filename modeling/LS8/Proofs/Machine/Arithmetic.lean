import LS8.Proofs.Machine.Rules

/-!
Arithmetic on two registers, for whatever instruction it is asked.  What is promised of it is a relation of its own
(`Promised`), with exactly one answer to each request.  Registers are read before the instruction is looked at, so that
a register that does not exist is reported of every instruction; there, and only there, the promise is not kept.  Main
statement: `arithmetic_reads_registers_first`.
-/

namespace LS8.Machine

variable {m : Machine} {i : Instruction} {a b c x y z : UInt8} {r r' : EStateM.Result Fault Machine Effect}

def IsArithmetic (i : Instruction) : Prop := i = .add ∨ i = .mul

instance : DecidablePred IsArithmetic := fun i => inferInstanceAs (Decidable (i = .add ∨ i = .mul))

/-- An arithmetic instruction makes `z` of `x` and `y`. -/
inductive Computes : Instruction → UInt8 → UInt8 → UInt8 → Prop
  | add {x y z : UInt8} (hz : z.toNat = (x.toNat + y.toNat) % 256) : Computes .add x y z
  | mul {x y z : UInt8} (hz : z.toNat = (x.toNat * y.toNat) % 256) : Computes .mul x y z

/-- The first of two bytes that names no register. -/
def missing? (a b : UInt8) : Option UInt8 := [a, b].find? fun c => 8 ≤ c

/-- What is promised of arithmetic on the registers `a` and `b`. -/
inductive Promised (m : Machine) (i : Instruction) (a b : UInt8) : EStateM.Result Fault Machine Effect → Prop
  /-- The first register takes the result, and nothing else changes. -/
  | done {z : UInt8} (h : missing? a b = none) (hz : Computes i (m.registers.value a) (m.registers.value b) z) :
      Promised m i a b
        (.ok (.combined i a b (m.registers.value a) (m.registers.value b) z)
          { m with registers := m.registers.update a z })
  | noRegister {c : UInt8} (h : missing? a b = some c) (hi : IsArithmetic i) :
      Promised m i a b (.error (.noRegister c) m)
  /-- Any other instruction is rejected, whatever the registers are. -/
  | notArithmetic (hi : ¬ IsArithmetic i) : Promised m i a b (.error (.notArithmetic i) m)

/-! ### Operations -/

theorem isArithmetic_iff : IsArithmetic i ↔ ∃ op, operation? i = some op := by
  cases i <;> simp [IsArithmetic, operation?]

theorem computes_iff : Computes i x y z ↔ ∃ op, operation? i = some op ∧ z = op x y := by
  constructor
  · intro h
    cases h with
    | add hz => exact ⟨_, rfl, UInt8.toNat_inj.mp (hz.trans (UInt8.toNat_add x y).symm)⟩
    | mul hz => exact ⟨_, rfl, UInt8.toNat_inj.mp (hz.trans (UInt8.toNat_mul x y).symm)⟩
  · rintro ⟨op, hi, rfl⟩
    cases i <;> cases hi
    · exact .add (UInt8.toNat_add x y)
    · exact .mul (UInt8.toNat_mul x y)

theorem Computes.isArithmetic (h : Computes i x y z) : IsArithmetic i := by
  cases h with
  | add => exact .inl rfl
  | mul => exact .inr rfl

theorem Computes.unique {z' : UInt8} (h : Computes i x y z) (h' : Computes i x y z') : z = z' := by
  obtain ⟨op, hi, rfl⟩ := computes_iff.mp h
  obtain ⟨op', hi', rfl⟩ := computes_iff.mp h'
  rw [Option.some.inj (hi.symm.trans hi')]

/-! ### Registers that do not exist -/

theorem missing?_eq (a b : UInt8) : missing? a b = if a < 8 then if b < 8 then none else some b else some a := by
  by_cases ha : a < 8
  · by_cases hb : b < 8
    · simp [missing?, ha, hb]
    · simp [missing?, ha, hb, UInt8.not_lt.mp hb]
  · simp [missing?, ha, UInt8.not_lt.mp ha]

theorem missing?_eq_none_iff : missing? a b = none ↔ a < 8 ∧ b < 8 := by
  rw [missing?_eq]
  by_cases ha : a < 8 <;> by_cases hb : b < 8 <;> simp [ha, hb]

/-- A register that does not exist is reported of every instruction. -/
theorem combine_of_missing (h : missing? a b = some c) : (combine i a b).run m = .error (.noRegister c) m := by
  rw [missing?_eq] at h
  rw [combine_eq]
  by_cases ha : a < 8
  · by_cases hb : b < 8
    · simp [ha, hb] at h
    · obtain rfl : b = c := by simpa [ha, hb] using h
      rw [if_pos ha, if_neg hb]
  · obtain rfl : a = c := by simpa [ha] using h
    rw [if_neg ha]

theorem combine_of_not_isArithmetic (h : missing? a b = none) (hi : ¬ IsArithmetic i) :
    (combine i a b).run m = .error (.notArithmetic i) m := by
  obtain ⟨ha, hb⟩ := missing?_eq_none_iff.mp h
  have hop : operation? i = none := by
    rw [Option.eq_none_iff_forall_ne_some]
    exact fun op hop => hi (isArithmetic_iff.mpr ⟨op, hop⟩)
  rw [combine_eq, if_pos ha, if_pos hb, hop]

/-! ### What is promised and what is answered -/

theorem Promised.unique (h : Promised m i a b r) (h' : Promised m i a b r') : r = r' := by
  cases h with
  | done hno hz =>
    cases h' with
    | done _ hz' => rw [hz.unique hz']
    | noRegister hc => cases hno.symm.trans hc
    | notArithmetic hi => exact absurd hz.isArithmetic hi
  | noRegister hc hi =>
    cases h' with
    | done hno => cases hno.symm.trans hc
    | noRegister hc' => rw [Option.some.inj (hc.symm.trans hc')]
    | notArithmetic hi' => exact absurd hi hi'
  | notArithmetic hi =>
    cases h' with
    | done _ hz => exact absurd hz.isArithmetic hi
    | noRegister _ hi' => exact absurd hi' hi
    | notArithmetic => rfl

theorem promised_of_no_missing (h : missing? a b = none) :
    Promised m i a b ((combine i a b).run m) := by
  by_cases hi : IsArithmetic i
  · obtain ⟨op, hop⟩ := isArithmetic_iff.mp hi
    obtain ⟨ha, hb⟩ := missing?_eq_none_iff.mp h
    rw [combine_eq, if_pos ha, if_pos hb, hop]
    exact .done h (computes_iff.mpr ⟨op, hop, rfl⟩)
  · rw [combine_of_not_isArithmetic h hi]
    exact .notArithmetic hi

/-- The promise is kept unless another instruction comes with a register that does not exist. -/
theorem promised_iff :
    Promised m i a b ((combine i a b).run m) ↔ IsArithmetic i ∨ missing? a b = none := by
  cases hc : missing? a b with
  | none => exact iff_of_true (promised_of_no_missing hc) (.inr rfl)
  | some c =>
    rw [combine_of_missing hc]
    constructor
    · intro h
      -- what is reported is the register, so the instruction is not the reason
      cases h with
      | noRegister _ hi => exact .inl hi
    · rintro (hi | hnone)
      · exact .noRegister hc hi
      · cases hnone

theorem exists_promised (m : Machine) (i : Instruction) (a b : UInt8) : ∃ r, Promised m i a b r := by
  by_cases hi : IsArithmetic i
  · exact ⟨_, promised_iff.mpr (.inl hi)⟩
  · exact ⟨_, .notArithmetic hi⟩

/-- **Arithmetic reads its registers first.**  Of all answers to a request one is promised.  It is given exactly if the
instruction is arithmetic or both registers exist; a register that does not exist is reported of every instruction, and
the machine is left as it was. -/
theorem arithmetic_reads_registers_first (m : Machine) (i : Instruction) (a b : UInt8) :
    let r := (combine i a b).run m
    (∃! r', Promised m i a b r') ∧
      (Promised m i a b r ↔ IsArithmetic i ∨ missing? a b = none) ∧
      ∀ c, missing? a b = some c → r = .error (.noRegister c) m := by
  intro r
  obtain ⟨r', hr'⟩ := exists_promised m i a b
  exact ⟨⟨r', hr', fun _ h => h.unique hr'⟩, promised_iff, fun _ h => combine_of_missing h⟩

/-- `MUL R7 R7` squares the stack pointer; `POP R9 R8` is told about `R9`. -/
theorem pointer_is_squared_and_first_register_reported :
    let m : Machine := {}
    let squared : Machine := { m with registers := m.registers.update 7 0x90 }
    Promised m .mul 7 7 ((combine .mul 7 7).run m) ∧
      (combine .mul 7 7).run m = .ok (.combined .mul 7 7 0xF4 0xF4 0x90) squared ∧
      missing? 9 8 = some 9 ∧ (combine .pop 9 8).run m = .error (.noRegister 9) m := by
  intro m squared
  have hsp : m.registers.value 7 = 0xF4 := by decide
  have hsquared : Promised m .mul 7 7 (.ok (.combined .mul 7 7 0xF4 0xF4 0x90) squared) :=
    hsp ▸ .done (by decide) (.mul (by decide))
  have hmissing : missing? 9 8 = some 9 := by decide
  obtain ⟨hone, hkept, -⟩ := arithmetic_reads_registers_first m .mul 7 7
  obtain ⟨-, -, hreported⟩ := arithmetic_reads_registers_first m .pop 9 8
  have hmul := hkept.mpr (.inl (by decide))
  exact ⟨hmul, hone.unique hmul hsquared, hmissing, hreported 9 hmissing⟩

/-- `HLT` is no arithmetic, but with `R8` it is told about the register. -/
theorem hlt_with_missing_register_breaks_promise :
    ¬ ∀ (m : Machine) (i : Instruction) (a b : UInt8), Promised m i a b ((combine i a b).run m) := by
  intro h
  have hmissing : missing? 8 0 = some 8 := by decide
  have hhlt := h {} .hlt 8 0
  rw [combine_of_missing hmissing] at hhlt
  cases hhlt with
  | noRegister _ hi => exact absurd hi (by decide)

end LS8.Machine
