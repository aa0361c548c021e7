import LS8.Proofs.Machine.View

/-!
The rules of the machine, one for each way an instruction or a step can end: `Performs` and `Stops` for an
instruction, `Executes` for an instruction with its output, `StepsTo` for a step.  The functions of the machine end
by these rules only (`executes_execute`, `stepsTo_step`), so that an invariant is a case analysis over them.
-/

namespace LS8.Machine

variable {m m' : Machine} {i : Instruction} {a b : UInt8} {e : Effect} {f : Failure}

/-- The cell at the stack pointer. -/
def top (m : Machine) : UInt8 := m.ram.cell m.registers.sp.toNat

/-- The registers once `PUSH` has moved the stack pointer. -/
def lowered (m : Machine) : Registers := m.registers.update 7 (m.registers.sp - 1)

/-- The registers once `POP` has stored the top of the stack. -/
def popped (m : Machine) (a : UInt8) : Registers := m.registers.update a m.top

theorem withSp_eq (m : Machine) (sp : UInt8) : m.withSp sp = { m with registers := m.registers.update 7 sp } := by
  rw [withSp, Registers.setSp_eq_update]

/-! ### Arithmetic instructions -/

theorem ne_hlt_of_operation {op : UInt8 → UInt8 → UInt8} (hi : operation? i = some op) : i ≠ .hlt := by
  rintro rfl
  cases hi

theorem mem_of_operation {op : UInt8 → UInt8 → UInt8} (hi : operation? i = some op) :
    i ∈ [Instruction.add, .mul] := by
  cases i <;> cases hi <;> simp

theorem operandCount_of_operation {op : UInt8 → UInt8 → UInt8} (hi : operation? i = some op) :
    i.operandCount = 2 := by
  cases i <;> cases hi <;> rfl

/-! ### Registers and cells -/

theorem readRegister_eq (i : UInt8) (m : Machine) :
    (readRegister i).run m = if i < 8 then .ok (m.registers.value i) m else .error (.noRegister i) m := by
  dsimp only [readRegister, EStateM.run]
  rw [Registers.read_eq]
  by_cases hi : i < 8
  · simp only [hi, if_true]
  · simp only [hi, if_false]

theorem writeRegister_eq (i v : UInt8) (m : Machine) :
    (writeRegister i v).run m =
      if i < 8 then .ok () { m with registers := m.registers.update i v } else .error (.noRegister i) m := by
  dsimp only [writeRegister, EStateM.run]
  rw [Registers.write_eq]
  by_cases hi : i < 8
  · simp only [hi, if_true]
  · simp only [hi, if_false]

/-- Every byte is the address of a cell. -/
theorem readCell_toNat (x : UInt8) (m : Machine) : (readCell x.toNat).run m = .ok (m.ram.cell x.toNat) m := by
  dsimp only [readCell, EStateM.run]
  rw [Memory.read_eq, if_pos x.toNat_lt]

theorem writeCell_toNat (x v : UInt8) (m : Machine) :
    (writeCell x.toNat v).run m = .ok () { m with ram := m.ram.put x.toNat v } := by
  dsimp only [writeCell, EStateM.run]
  rw [Memory.write_eq, if_pos x.toNat_lt]

theorem orFault_of_ok {α : Type} {call : EStateM Fault Machine α} {x : α} (h : call.run m = .ok x m') :
    (orFault call).run m = .ok x m' := by
  unfold EStateM.run at h
  simp only [orFault, EStateM.run, EStateM.adaptExcept, h]

theorem orFault_of_error {α : Type} {call : EStateM Fault Machine α} {x : Fault} (h : call.run m = .error x m') :
    (orFault call).run m = .error (.fault x) m' := by
  unfold EStateM.run at h
  simp only [orFault, EStateM.run, EStateM.adaptExcept, h]

theorem bind_of_ok {ε α β : Type} {call : EStateM ε Machine α} {x : α} (h : call.run m = .ok x m')
    (next : α → EStateM ε Machine β) : (call >>= next).run m = (next x).run m' := by
  unfold EStateM.run at h
  show EStateM.bind call next m = next x m'
  simp only [EStateM.bind, h]

theorem bind_of_error {ε α β : Type} {call : EStateM ε Machine α} {x : ε} (h : call.run m = .error x m')
    (next : α → EStateM ε Machine β) : (call >>= next).run m = .error x m' := by
  unfold EStateM.run at h
  show EStateM.bind call next m = _
  simp only [EStateM.bind, h]

theorem run_get_bind {ε α : Type} (next : Machine → EStateM ε Machine α) (m : Machine) :
    (get >>= next).run m = (next m).run m := rfl

theorem run_modify_bind {ε α : Type} (g : Machine → Machine) (next : Unit → EStateM ε Machine α) (m : Machine) :
    (modify g >>= next).run m = (next ()).run (g m) := rfl

/-! ### The three instructions that do more than one thing -/

theorem combine_eq : (combine i a b).run m =
    if a < 8 then
      if b < 8 then
        match operation? i with
        | some op =>
          .ok (.combined i a b (m.registers.value a) (m.registers.value b)
              (op (m.registers.value a) (m.registers.value b)))
            { m with registers := m.registers.update a (op (m.registers.value a) (m.registers.value b)) }
        | none => .error (.notArithmetic i) m
      else .error (.noRegister b) m
    else .error (.noRegister a) m := by
  unfold combine
  by_cases ha : a < 8
  · rw [if_pos ha, bind_of_ok (by rw [readRegister_eq, if_pos ha])]
    by_cases hb : b < 8
    · rw [if_pos hb, bind_of_ok (by rw [readRegister_eq, if_pos hb])]
      cases operation? i with
      | none => rfl
      | some op => exact bind_of_ok (by rw [writeRegister_eq, if_pos ha]) _
    · rw [if_neg hb]
      exact bind_of_error (by rw [readRegister_eq, if_neg hb]) _
  · rw [if_neg ha]
    exact bind_of_error (by rw [readRegister_eq, if_neg ha]) _

theorem push_eq : (push a).run m =
    if m.registers.sp = 0 then .error (.fault .stackOverflow) m
    else if a < 8 then
      .ok (.pushed a (m.lowered.value a) (m.registers.sp - 1))
        { m with registers := m.lowered, ram := m.ram.put (m.registers.sp - 1).toNat (m.lowered.value a) }
    else .error (.fault (.noRegister a)) { m with registers := m.lowered } := by
  unfold push
  rw [run_get_bind]
  by_cases hsp : m.registers.sp = 0
  · simp only [hsp, if_true]
    rfl
  · simp only [hsp, if_false]
    rw [run_modify_bind, withSp_eq]
    by_cases ha : a < 8
    · rw [if_pos ha, bind_of_ok (orFault_of_ok (by rw [readRegister_eq, if_pos ha])),
        bind_of_ok (writeCell_toNat _ _ _)]
      rfl
    · rw [if_neg ha]
      exact bind_of_error (orFault_of_error (by rw [readRegister_eq, if_neg ha]; rfl)) _

theorem pop_eq : (pop a).run m =
    if m.registers.sp = 255 then .error (.fault .stackUnderflow) m
    else if a < 8 then
      if (m.popped a).sp = 255 then .error (.fault .stackUnderflow) { m with registers := m.popped a }
      else .ok (.popped a m.top m.registers.sp)
        { m with registers := (m.popped a).update 7 ((m.popped a).sp + 1) }
    else .error (.fault (.noRegister a)) m := by
  unfold pop
  rw [run_get_bind]
  by_cases hsp : m.registers.sp = 255
  · simp only [hsp, if_true]
    rfl
  · simp only [hsp, if_false]
    rw [bind_of_ok (readCell_toNat _ _)]
    by_cases ha : a < 8
    · have hwrite : (writeRegister a (m.ram.cell m.registers.sp.toNat)).run m =
          .ok () { m with registers := m.popped a } := by
        rw [writeRegister_eq, if_pos ha]
        rfl
      rw [if_pos ha, bind_of_ok (orFault_of_ok hwrite), run_get_bind]
      by_cases hp : (m.popped a).sp = 255
      · simp only [hp, if_true]
        rfl
      · simp only [hp, if_false]
        rw [run_modify_bind, withSp_eq]
        rfl
    · rw [if_neg ha]
      exact bind_of_error (orFault_of_error (by rw [writeRegister_eq, if_neg ha])) _

/-! ### Instructions -/

/-- An instruction does its work: the effect it reports and the machine it leaves, whose program counter is still at
the instruction. -/
inductive Performs (m : Machine) : Instruction → UInt8 → UInt8 → Effect → Machine → Prop
  | hlt (a b : UInt8) : Performs m .hlt a b .stopped { m with running := false }
  | ldi {a : UInt8} (b : UInt8) (ha : a < 8) :
      Performs m .ldi a b (.loaded a b) { m with registers := m.registers.update a b }
  | prn {a : UInt8} (b : UInt8) (ha : a < 8) : Performs m .prn a b (.printed a (m.registers.value a)) m
  | combine {i : Instruction} {op : UInt8 → UInt8 → UInt8} {a b : UInt8} (hi : operation? i = some op)
      (ha : a < 8) (hb : b < 8) :
      Performs m i a b
        (.combined i a b (m.registers.value a) (m.registers.value b)
          (op (m.registers.value a) (m.registers.value b)))
        { m with registers := m.registers.update a (op (m.registers.value a) (m.registers.value b)) }
  | push {a : UInt8} (b : UInt8) (hsp : m.registers.sp ≠ 0) (ha : a < 8) :
      Performs m .push a b (.pushed a (m.lowered.value a) (m.registers.sp - 1))
        { m with registers := m.lowered, ram := m.ram.put (m.registers.sp - 1).toNat (m.lowered.value a) }
  | pop {a : UInt8} (b : UInt8) (hsp : m.registers.sp ≠ 255) (ha : a < 8) (hp : (m.popped a).sp ≠ 255) :
      Performs m .pop a b (.popped a m.top m.registers.sp)
        { m with registers := (m.popped a).update 7 ((m.popped a).sp + 1) }

/-- An instruction fails: the failure and the machine it leaves. -/
inductive Stops (m : Machine) : Instruction → UInt8 → UInt8 → Failure → Machine → Prop
  | ldi {a : UInt8} (b : UInt8) (ha : ¬ a < 8) : Stops m .ldi a b (.fault (.noRegister a)) m
  | prn {a : UInt8} (b : UInt8) (ha : ¬ a < 8) : Stops m .prn a b (.fault (.noRegister a)) m
  | first {i : Instruction} {op : UInt8 → UInt8 → UInt8} {a : UInt8} (b : UInt8)
      (hi : operation? i = some op) (ha : ¬ a < 8) : Stops m i a b (.fault (.noRegister a)) m
  | second {i : Instruction} {op : UInt8 → UInt8 → UInt8} {a b : UInt8} (hi : operation? i = some op)
      (ha : a < 8) (hb : ¬ b < 8) : Stops m i a b (.fault (.noRegister b)) m
  | full (a b : UInt8) (hsp : m.registers.sp = 0) : Stops m .push a b (.fault .stackOverflow) m
  /-- `PUSH` finds out about its register when the stack pointer has moved. -/
  | lowered {a : UInt8} (b : UInt8) (hsp : m.registers.sp ≠ 0) (ha : ¬ a < 8) :
      Stops m .push a b (.fault (.noRegister a)) { m with registers := m.lowered }
  | empty (a b : UInt8) (hsp : m.registers.sp = 255) : Stops m .pop a b (.fault .stackUnderflow) m
  | popped {a : UInt8} (b : UInt8) (hsp : m.registers.sp ≠ 255) (ha : ¬ a < 8) :
      Stops m .pop a b (.fault (.noRegister a)) m
  /-- `POP` finds out about the new stack pointer when it has stored it. -/
  | brimmed (b : UInt8) (hsp : m.registers.sp ≠ 255) (htop : m.top = 255) :
      Stops m .pop 7 b (.fault .stackUnderflow) { m with registers := m.registers.update 7 255 }

theorem sp_popped_eq_iff (ha : a < 8) (hsp : m.registers.sp ≠ 255) :
    (m.popped a).sp = 255 ↔ a = 7 ∧ m.top = 255 := by
  rw [popped, Registers.sp_update _ ha]
  by_cases h : a = 7 <;> simp [h, hsp]

theorem perform_of_operation {op : UInt8 → UInt8 → UInt8} (hi : operation? i = some op) :
    perform i a b = orFault (combine i a b) := by
  cases i <;> first | rfl | simp [operation?] at hi

theorem perform_of_performs (h : Performs m i a b e m') : (perform i a b).run m = .ok e m' := by
  cases h with
  | hlt => rfl
  | ldi b ha => exact bind_of_ok (orFault_of_ok (by rw [writeRegister_eq, if_pos ha])) _
  | prn b ha => exact bind_of_ok (orFault_of_ok (by rw [readRegister_eq, if_pos ha])) _
  | combine hi ha hb =>
    rw [perform_of_operation hi]
    exact orFault_of_ok (by rw [combine_eq, if_pos ha, if_pos hb, hi])
  | push b hsp ha => simp only [perform, push_eq, hsp, ha, if_false, if_true]
  | pop b hsp ha hp => simp only [perform, pop_eq, hsp, ha, hp, if_false, if_true]

theorem perform_of_stops (h : Stops m i a b f m') : (perform i a b).run m = .error f m' := by
  cases h with
  | ldi b ha => exact bind_of_error (orFault_of_error (by rw [writeRegister_eq, if_neg ha])) _
  | prn b ha => exact bind_of_error (orFault_of_error (by rw [readRegister_eq, if_neg ha])) _
  | first b hi ha =>
    rw [perform_of_operation hi]
    exact orFault_of_error (by rw [combine_eq, if_neg ha])
  | second hi ha hb =>
    rw [perform_of_operation hi]
    exact orFault_of_error (by rw [combine_eq, if_pos ha, if_neg hb])
  | full a b hsp => simp only [perform, push_eq, hsp, if_true]
  | lowered b hsp ha => simp only [perform, push_eq, hsp, ha, if_false]
  | empty a b hsp => simp only [perform, pop_eq, hsp, if_true]
  | popped b hsp ha => simp only [perform, pop_eq, hsp, ha, if_false]
  | brimmed b hsp htop =>
    have h7 : (7 : UInt8) < 8 := by decide
    have hp : (m.popped 7).sp = 255 := (sp_popped_eq_iff h7 hsp).mpr ⟨rfl, htop⟩
    simp only [perform, pop_eq, hsp, h7, hp, if_false, if_true]
    rw [popped, htop]

/-- **An instruction does its work or fails by a rule.** -/
theorem performs_or_stops (m : Machine) (i : Instruction) (a b : UInt8) :
    (∃ e m', Performs m i a b e m') ∨ ∃ f m', Stops m i a b f m' := by
  have arithmetic : ∀ {i op}, operation? i = some op →
      (∃ e m', Performs m i a b e m') ∨ ∃ f m', Stops m i a b f m' := by
    intro i op hi
    by_cases ha : a < 8
    · by_cases hb : b < 8
      · exact .inl ⟨_, _, .combine hi ha hb⟩
      · exact .inr ⟨_, _, .second hi ha hb⟩
    · exact .inr ⟨_, _, .first b hi ha⟩
  cases i with
  | hlt => exact .inl ⟨_, _, .hlt a b⟩
  | ldi =>
    by_cases ha : a < 8
    · exact .inl ⟨_, _, .ldi b ha⟩
    · exact .inr ⟨_, _, .ldi b ha⟩
  | prn =>
    by_cases ha : a < 8
    · exact .inl ⟨_, _, .prn b ha⟩
    · exact .inr ⟨_, _, .prn b ha⟩
  | add => exact arithmetic rfl
  | mul => exact arithmetic rfl
  | push =>
    by_cases hsp : m.registers.sp = 0
    · exact .inr ⟨_, _, .full a b hsp⟩
    · by_cases ha : a < 8
      · exact .inl ⟨_, _, .push b hsp ha⟩
      · exact .inr ⟨_, _, .lowered b hsp ha⟩
  | pop =>
    by_cases hsp : m.registers.sp = 255
    · exact .inr ⟨_, _, .empty a b hsp⟩
    · by_cases ha : a < 8
      · by_cases hp : (m.popped a).sp = 255
        · obtain ⟨rfl, htop⟩ := (sp_popped_eq_iff ha hsp).mp hp
          exact .inr ⟨_, _, .brimmed b hsp htop⟩
        · exact .inl ⟨_, _, .pop b hsp ha hp⟩
      · exact .inr ⟨_, _, .popped b hsp ha⟩

theorem pc_of_performs (h : Performs m i a b e m') : m'.pc = m.pc := by
  cases h <;> rfl

theorem cycles_of_performs (h : Performs m i a b e m') : m'.cycles = m.cycles := by
  cases h <;> rfl

theorem running_of_performs (h : Performs m i a b e m') (hi : i ≠ .hlt) : m'.running = m.running := by
  cases h with
  | hlt => exact absurd rfl hi
  | _ => rfl

/-- A failing instruction changes the registers at most. -/
theorem registers_of_stops (h : Stops m i a b f m') : ∃ r, m' = { m with registers := r } := by
  cases h <;> exact ⟨_, rfl⟩

section

variable {σ : Type} [Writer σ] {w : σ}

/-- Output is refused to `PRN` only. -/
theorem prn_of_refused (h : Performs m i a b e m') (hw : Writer.fits w e.output = false) : i = .prn ∧ m' = m := by
  cases h with
  | prn => exact ⟨rfl, rfl⟩
  | _ => simp [Effect.output] at hw

end

/-! ### Instructions with their output -/

/-- The text that an instruction puts out stands between the two records of its step. -/
theorem printed_done (d r : Record) (cs : List Char) : Event.printed [.record d, .output cs, .record r] = cs := by
  simp [Event.printed]

section

variable [Build] {σ : Type} [Writer σ] {w : σ} {r : Attempt Failure Unit σ}

/-- The attempt that executing an instruction comes to. -/
inductive Executes (m : Machine) (w : σ) (i : Instruction) (a b : UInt8) : Attempt Failure Unit σ → Prop
  | stopped {f : Failure} {m' : Machine} (hs : Stops m i a b f m') : Executes m w i a b ⟨.error f, m', w, []⟩
  | refused {e : Effect} {m' : Machine} (hp : Performs m i a b e m') (hw : Writer.fits w e.output = false) :
      Executes m w i a b
        ⟨.error (.output (Writer.refusal w e.output)), m', Writer.after w e.output,
          [.output (Writer.accepted w e.output)]⟩
  /-- The program counter cannot be moved on. -/
  | overflowed {e : Effect} {m' : Machine} (hp : Performs m i a b e m') (hw : Writer.fits w e.output = true)
      (ho : Overflows m.pc i.size) :
      Executes m w i a b ⟨.overflow, m', Writer.after w e.output, [.output e.output, .record (.executed e)]⟩
  | done {e : Effect} {m' : Machine} (hp : Performs m i a b e m') (hw : Writer.fits w e.output = true)
      (ho : ¬ Overflows m.pc i.size) :
      Executes m w i a b
        ⟨.ok (), m'.skip i.size, Writer.after w e.output, [.output e.output, .record (.executed e)]⟩

theorem execute_of_stops (h : Stops m i a b f m') (w : σ) : m.execute w i a b = ⟨.error f, m', w, []⟩ := by
  unfold execute
  rw [perform_of_stops h]

theorem execute_of_refused (h : Performs m i a b e m') (hw : Writer.fits w e.output = false) :
    m.execute w i a b =
      ⟨.error (.output (Writer.refusal w e.output)), m', Writer.after w e.output,
        [.output (Writer.accepted w e.output)]⟩ := by
  unfold execute
  rw [perform_of_performs h]
  simp only [hw]
  rfl

theorem execute_of_performs (h : Performs m i a b e m') (hw : Writer.fits w e.output = true) :
    m.execute w i a b =
      if Overflows m.pc i.size then
        ⟨.overflow, m', Writer.after w e.output, [.output e.output, .record (.executed e)]⟩
      else ⟨.ok (), m'.skip i.size, Writer.after w e.output, [.output e.output, .record (.executed e)]⟩ := by
  unfold execute
  rw [perform_of_performs h]
  simp only [hw, if_true, Writer.accepted_of_fits hw, pc_of_performs h]

theorem executes_execute (m : Machine) (w : σ) (i : Instruction) (a b : UInt8) :
    Executes m w i a b (m.execute w i a b) := by
  rcases performs_or_stops m i a b with ⟨e, m', hp⟩ | ⟨f, m', hs⟩
  · by_cases hw : Writer.fits w e.output = true
    · rw [execute_of_performs hp hw]
      split
      · next ho => exact .overflowed hp hw ho
      · next ho => exact .done hp hw ho
    · have hw : Writer.fits w e.output = false := by simpa using hw
      rw [execute_of_refused hp hw]
      exact .refused hp hw
  · rw [execute_of_stops hs w]
    exact .stopped hs

/-! ### Steps -/

/-- The machine once a step counts as begun. -/
def begun (m : Machine) : Machine := { m with cycles := m.cycles + 1 }

/-- One more step can be counted. -/
def Counts (m : Machine) : Prop := ¬ Overflows m.cycles 1

instance (m : Machine) : Decidable m.Counts := inferInstanceAs (Decidable (¬ _))

/-- The instruction at the program counter, with its operands, lies in memory as a whole. -/
structure Fetches (m : Machine) (i : Instruction) (a b : UInt8) : Prop where
  opcode : m.ram.cell m.here = i.opcode
  fits : m.here + i.operandCount < 256
  first : a = if 1 ≤ i.operandCount then m.ram.cell (m.here + 1) else 0
  second : b = if 2 ≤ i.operandCount then m.ram.cell (m.here + 2) else 0

/-- The attempt that a step comes to. -/
inductive StepsTo (m : Machine) (w : σ) : Attempt Failure Unit σ → Prop
  | unreadable (hpc : 256 ≤ m.here) : StepsTo m w ⟨.error (.fault (.pastEnd m.here)), m, w, []⟩
  | overflowed (hpc : m.here < 256) (hc : ¬ m.Counts) : StepsTo m w ⟨.overflow, m, w, []⟩
  | skipped (hpc : m.here < 256) (hc : m.Counts) (hop : ∀ i : Instruction, m.ram.cell m.here ≠ i.opcode) :
      StepsTo m w
        ⟨.ok (), m.begun.skip 1, w,
          [.record (.dumped m.dump), .record (.unrecognised m.here (m.ram.cell m.here))]⟩
  | cut {i : Instruction} (hpc : m.here < 256) (hc : m.Counts) (hop : m.ram.cell m.here = i.opcode)
      (hend : 256 ≤ m.here + i.operandCount) :
      StepsTo m w ⟨.error (.fault (.pastEnd m.here)), m.begun, w, [.record (.dumped m.dump)]⟩
  | stopped {i : Instruction} {a b : UInt8} {f : Failure} {m' : Machine} (hf : Fetches m i a b) (hc : m.Counts)
      (hs : Stops m.begun i a b f m') : StepsTo m w ⟨.error f, m', w, [.record (.dumped m.dump)]⟩
  | refused {i : Instruction} {a b : UInt8} {e : Effect} {m' : Machine} (hf : Fetches m i a b) (hc : m.Counts)
      (hp : Performs m.begun i a b e m') (hw : Writer.fits w e.output = false) :
      StepsTo m w
        ⟨.error (.output (Writer.refusal w e.output)), m', Writer.after w e.output,
          [.record (.dumped m.dump), .output (Writer.accepted w e.output)]⟩
  | done {i : Instruction} {a b : UInt8} {e : Effect} {m' : Machine} (hf : Fetches m i a b) (hc : m.Counts)
      (hp : Performs m.begun i a b e m') (hw : Writer.fits w e.output = true) :
      StepsTo m w
        ⟨.ok (), m'.skip i.size, Writer.after w e.output,
          [.record (.dumped m.dump), .output e.output, .record (.executed e)]⟩

omit [Build] in
theorem Fetches.here_lt (h : Fetches m i a b) : m.here < 256 := Nat.lt_of_le_of_lt (Nat.le_add_right _ _) h.fits

omit [Build] in
theorem Fetches.unique {i' : Instruction} {a' b' : UInt8} (h : Fetches m i a b) (h' : Fetches m i' a' b') :
    i = i' ∧ a = a' ∧ b = b' := by
  obtain rfl := Instruction.opcode_injective (h.opcode.symm.trans h'.opcode)
  exact ⟨rfl, h.first.trans h'.first.symm, h.second.trans h'.second.symm⟩

/-- The program counter of a machine at an instruction can be moved on. -/
theorem Fetches.not_overflows (h : Fetches m i a b) : ¬ Overflows m.pc i.size :=
  not_overflows_of_le (Nat.le_of_lt h.here_lt) (Nat.le_trans i.size_le (by decide))

omit [Build] in
/-- An instruction that has been fetched ends at the end of memory at most. -/
theorem Fetches.here_skip (h : Fetches m i a b) : (m.skip i.size).here = m.here + i.size ∧ m.here + i.size ≤ 256 := by
  have hfits := h.fits
  refine ⟨here_skip_of_lt h.here_lt ?_, ?_⟩
  all_goals
    unfold Instruction.size
    omega

omit [Build] in
theorem fetch_eq (m : Machine) (k : Nat) :
    m.fetch k = if m.here + k < 256 then .ok (m.ram.cell (m.here + k)) else .error (.pastEnd m.here) := by
  unfold fetch
  rw [Memory.read_eq]
  split <;> rfl

omit [Build] in
theorem operands_eq (m : Machine) (i : Instruction) (hpc : m.here < 256) :
    m.operands i =
      if m.here + i.operandCount < 256 then
        .ok (if 1 ≤ i.operandCount then m.ram.cell (m.here + 1) else 0,
          if 2 ≤ i.operandCount then m.ram.cell (m.here + 2) else 0)
      else .error (.pastEnd m.here) := by
  have hn := i.operandCount_le_two
  unfold operands
  generalize i.operandCount = n at *
  obtain rfl | rfl | rfl : n = 0 ∨ n = 1 ∨ n = 2 := by omega
  · simp [hpc]; rfl
  · by_cases h1 : m.here + 1 < 256
    · simp [fetch_eq, h1]; rfl
    · simp [fetch_eq, h1]; rfl
  · by_cases h2 : m.here + 2 < 256
    · have h1 : m.here + 1 < 256 := by omega
      simp [fetch_eq, h1, h2]; rfl
    · by_cases h1 : m.here + 1 < 256
      · simp [fetch_eq, h1, h2]; rfl
      · simp [fetch_eq, h1, h2]; rfl

theorem step_of_unreadable (hpc : 256 ≤ m.here) (w : σ) : m.step w = ⟨.error (.fault (.pastEnd m.here)), m, w, []⟩ := by
  unfold step
  rw [fetch_eq, Nat.add_zero, if_neg (Nat.not_lt.mpr hpc)]

theorem step_of_overflows (hpc : m.here < 256) (hc : ¬ m.Counts) (w : σ) : m.step w = ⟨.overflow, m, w, []⟩ := by
  have ho : Overflows m.cycles 1 := Decidable.not_not.mp hc
  unfold step
  rw [fetch_eq, Nat.add_zero, if_pos hpc]
  simp only [ho, if_true]

/-- A step that counts is decided by its opcode. -/
theorem step_of_counts (hpc : m.here < 256) (hc : m.Counts) (w : σ) :
    m.step w =
      match Instruction.decode (m.ram.cell m.here) with
      | .error _ =>
        ⟨.ok (), m.begun.skip 1, w, [.record (.dumped m.dump), .record (.unrecognised m.here (m.ram.cell m.here))]⟩
      | .ok i =>
        match m.begun.operands i with
        | .error f => ⟨.error (.fault f), m.begun, w, [.record (.dumped m.dump)]⟩
        | .ok (a, b) => (m.begun.execute w i a b).after [.record (.dumped m.dump)] := by
  have ho : ¬ Overflows m.cycles 1 := hc
  unfold step
  rw [fetch_eq, Nat.add_zero, if_pos hpc]
  simp only [ho, if_false]
  rfl

theorem step_of_unknown (hpc : m.here < 256) (hc : m.Counts) (hop : ∀ i : Instruction, m.ram.cell m.here ≠ i.opcode)
    (w : σ) :
    m.step w =
      ⟨.ok (), m.begun.skip 1, w, [.record (.dumped m.dump), .record (.unrecognised m.here (m.ram.cell m.here))]⟩ := by
  rw [step_of_counts hpc hc]
  cases hd : Instruction.decode (m.ram.cell m.here) with
  | error u => rfl
  | ok i => exact absurd (Instruction.decode_eq_ok_iff.mp hd).symm (hop i)

theorem step_of_cut (hpc : m.here < 256) (hc : m.Counts) (hop : m.ram.cell m.here = i.opcode)
    (hend : 256 ≤ m.here + i.operandCount) (w : σ) :
    m.step w = ⟨.error (.fault (.pastEnd m.here)), m.begun, w, [.record (.dumped m.dump)]⟩ := by
  have hcut : ¬ m.begun.here + i.operandCount < 256 := Nat.not_lt.mpr hend
  rw [step_of_counts hpc hc, hop, Instruction.decode_opcode]
  simp only [operands_eq m.begun i hpc, hcut, if_false]
  rfl

/-- A step at an instruction that lies in memory as a whole is its execution. -/
theorem step_of_fetches (hf : Fetches m i a b) (hc : m.Counts) (w : σ) :
    m.step w = (m.begun.execute w i a b).after [.record (.dumped m.dump)] := by
  have hfits : m.begun.here + i.operandCount < 256 := hf.fits
  rw [step_of_counts hf.here_lt hc, hf.opcode, Instruction.decode_opcode, hf.first, hf.second]
  simp only [operands_eq m.begun i hf.here_lt, hfits, if_true]
  rfl

theorem step_of_stops (hf : Fetches m i a b) (hc : m.Counts) (hs : Stops m.begun i a b f m') (w : σ) :
    m.step w = ⟨.error f, m', w, [.record (.dumped m.dump)]⟩ := by
  rw [step_of_fetches hf hc, execute_of_stops hs]
  rfl

theorem step_of_refused (hf : Fetches m i a b) (hc : m.Counts) (hp : Performs m.begun i a b e m')
    (hw : Writer.fits w e.output = false) :
    m.step w = ⟨.error (.output (Writer.refusal w e.output)), m', Writer.after w e.output,
      [.record (.dumped m.dump), .output (Writer.accepted w e.output)]⟩ := by
  rw [step_of_fetches hf hc, execute_of_refused hp hw]
  rfl

theorem step_of_performs (hf : Fetches m i a b) (hc : m.Counts) (hp : Performs m.begun i a b e m')
    (hw : Writer.fits w e.output = true) :
    m.step w = ⟨.ok (), m'.skip i.size, Writer.after w e.output,
      [.record (.dumped m.dump), .output e.output, .record (.executed e)]⟩ := by
  have ho : ¬ Overflows m.begun.pc i.size := hf.not_overflows
  rw [step_of_fetches hf hc, execute_of_performs hp hw, if_neg ho]
  rfl

/-- **A step ends by one of the rules.** -/
theorem stepsTo_step (m : Machine) (w : σ) : StepsTo m w (m.step w) := by
  by_cases hpc : m.here < 256
  · by_cases hc : m.Counts
    · by_cases hop : ∃ i : Instruction, m.ram.cell m.here = i.opcode
      · obtain ⟨i, hop⟩ := hop
        by_cases hend : m.here + i.operandCount < 256
        · have hf : Fetches m i _ _ := ⟨hop, hend, rfl, rfl⟩
          rcases performs_or_stops m.begun i _ _ with ⟨e, m', hp⟩ | ⟨f, m', hs⟩
          · cases hw : Writer.fits w e.output with
            | true => exact step_of_performs hf hc hp hw ▸ .done hf hc hp hw
            | false => exact step_of_refused hf hc hp hw ▸ .refused hf hc hp hw
          · exact step_of_stops hf hc hs w ▸ .stopped hf hc hs
        · have hend := Nat.le_of_not_lt hend
          exact step_of_cut hpc hc hop hend w ▸ .cut hpc hc hop hend
      · have hop := not_exists.mp hop
        exact step_of_unknown hpc hc hop w ▸ .skipped hpc hc hop
    · exact step_of_overflows hpc hc w ▸ .overflowed hpc hc
  · have hpc := Nat.le_of_not_lt hpc
    exact step_of_unreadable hpc w ▸ .unreadable hpc

/-- A step ends by no other rule. -/
theorem StepsTo.eq_step (h : StepsTo m w r) : r = m.step w := by
  cases h with
  | unreadable hpc => exact (step_of_unreadable hpc w).symm
  | overflowed hpc hc => exact (step_of_overflows hpc hc w).symm
  | skipped hpc hc hop => exact (step_of_unknown hpc hc hop w).symm
  | cut hpc hc hop hend => exact (step_of_cut hpc hc hop hend w).symm
  | stopped hf hc hs => exact (step_of_stops hf hc hs w).symm
  | refused hf hc hp hw => exact (step_of_refused hf hc hp hw).symm
  | done hf hc hp hw => exact (step_of_performs hf hc hp hw).symm

end

end LS8.Machine
