import LS8.Proofs.Machine.Trail
import LS8.Proofs.Numeral

/-!
The dispatch table of the machine by opcode bytes: `Row` says what each opcode makes of the machine and prints,
`Admitted` says when a step succeeds.  Main statement: `step_follows_table`, a step does what the row of its opcode says
and nothing else, and does it exactly if it is admitted.
-/

namespace LS8.Machine

variable {σ : Type} [Writer σ] {m m' : Machine} {w : σ} {i : Instruction} {a b A B op : UInt8} {e : Effect}
  {f : Failure}

/-- The bytes that are opcodes. -/
def opcodes : List UInt8 := [0x01, 0x82, 0x47, 0xA0, 0xA2, 0x45, 0x46]

/-- The table: from a machine whose step has begun, with the opcode `op` and the two bytes `A` and `B` after it, to the
machine after the step and the text that is printed. -/
inductive Row (m : Machine) (A B : UInt8) : UInt8 → Machine → List Char → Prop
  | hlt : Row m A B 0x01 { m with running := false, pc := m.pc + 1 } []
  | ldi : Row m A B 0x82 { m with registers := m.registers.update A B, pc := m.pc + 3 } []
  | prn {cs : List Char} (hcs : Numeral.IsDecimal (m.registers.value A).toNat cs) :
      Row m A B 0x47 { m with pc := m.pc + 2 } (cs ++ ['\n'])
  | add {x : UInt8} (hx : x.toNat = ((m.registers.value A).toNat + (m.registers.value B).toNat) % 256) :
      Row m A B 0xA0 { m with registers := m.registers.update A x, pc := m.pc + 3 } []
  | mul {x : UInt8} (hx : x.toNat = ((m.registers.value A).toNat * (m.registers.value B).toNat) % 256) :
      Row m A B 0xA2 { m with registers := m.registers.update A x, pc := m.pc + 3 } []
  | push {r : Registers} (hr : r = m.registers.update 7 (m.registers.value 7 - 1)) :
      Row m A B 0x45
        { m with registers := r, ram := m.ram.put (r.value 7).toNat (r.value A), pc := m.pc + 2 } []
  | pop {r : Registers} (hr : r = m.registers.update A (m.ram.cell (m.registers.value 7).toNat)) :
      Row m A B 0x46 { m with registers := r.update 7 (r.value 7 + 1), pc := m.pc + 2 } []
  | other {op : UInt8} (hop : op ∉ opcodes) : Row m A B op { m with pc := m.pc + 1 } []

/-- The step with the opcode `op` and the bytes `A` and `B` after it has all it asks for. -/
structure Admitted (m : Machine) (w : σ) (op A B : UInt8) : Prop where
  /-- The operands, as many as the two high bits say, lie in memory. -/
  operands : op ∈ opcodes → m.here + (op >>> 6).toNat < 256
  first : op ∈ opcodes → op ≠ 0x01 → A < 8
  second : op = 0xA0 ∨ op = 0xA2 → B < 8
  print : op = 0x47 → ∀ cs, Numeral.IsDecimal (m.registers.value A).toNat cs → Writer.fits w (cs ++ ['\n']) = true
  push : op = 0x45 → m.registers.value 7 ≠ 0
  pop : op = 0x46 → m.registers.value 7 ≠ 0xFF ∧ (A = 7 → m.ram.cell (m.registers.value 7).toNat ≠ 0xFF)

theorem opcode_of_operation {o : UInt8 → UInt8 → UInt8} (hi : operation? i = some o) :
    i.opcode = 0xA0 ∨ i.opcode = 0xA2 := by
  cases i <;> cases hi <;> decide

theorem mem_opcodes_iff : op ∈ opcodes ↔ ∃ i : Instruction, op = i.opcode := by
  constructor
  · intro h
    simp only [opcodes, List.mem_cons, List.not_mem_nil, or_false] at h
    rcases h with rfl | rfl | rfl | rfl | rfl | rfl | rfl
    · exact ⟨.hlt, rfl⟩
    · exact ⟨.ldi, rfl⟩
    · exact ⟨.prn, rfl⟩
    · exact ⟨.add, rfl⟩
    · exact ⟨.mul, rfl⟩
    · exact ⟨.push, rfl⟩
    · exact ⟨.pop, rfl⟩
  · rintro ⟨i, rfl⟩
    cases i <;> decide

/-- An instruction that does its work follows its row. -/
theorem row_of_performs (h : Performs m i a b e m') (hA : i ≠ .hlt → a = A) (hB : i.operandCount = 2 → b = B) :
    Row m A B i.opcode (m'.skip i.size) e.output := by
  cases h with
  | hlt => exact .hlt
  | ldi =>
    obtain rfl := hA nofun
    obtain rfl := hB rfl
    exact .ldi
  | prn =>
    obtain rfl := hA nofun
    exact .prn (Numeral.isDecimal_decimal _)
  | combine hi =>
    obtain rfl := hA (ne_hlt_of_operation hi)
    obtain rfl := hB (operandCount_of_operation hi)
    cases i <;> cases hi
    · exact .add (UInt8.toNat_add _ _)
    · exact .mul (UInt8.toNat_mul _ _)
  | push =>
    obtain rfl := hA nofun
    have hsp : m.lowered.value 7 = m.registers.sp - 1 := Registers.sp_update_seven _ _
    rw [← hsp]
    exact .push rfl
  | pop =>
    obtain rfl := hA nofun
    exact .pop rfl

/-! ### When a step succeeds -/

theorem one_le_operandCount (hi : i ≠ .hlt) : 1 ≤ i.operandCount := by
  cases i with
  | hlt => exact absurd rfl hi
  | _ => decide

theorem Fetches.first_eq (h : Fetches m i a b) (hi : i ≠ .hlt) : a = m.ram.cell (m.here + 1) := by
  rw [h.first, if_pos (one_le_operandCount hi)]

theorem Fetches.second_eq (h : Fetches m i a b) (hi : i.operandCount = 2) : b = m.ram.cell (m.here + 2) := by
  rw [h.second, hi, if_pos (Nat.le_refl 2)]

theorem admitted_of_not_mem (hop : op ∉ opcodes) : Admitted m w op A B where
  operands h := absurd h hop
  first h := absurd h hop
  second h := by rcases h with rfl | rfl <;> exact absurd (by decide) hop
  print h := absurd (by subst h; decide) hop
  push h := absurd (by subst h; decide) hop
  pop h := absurd (by subst h; decide) hop

theorem admitted_of_performs (hf : Fetches m i a b) (hp : Performs m.begun i a b e m')
    (hw : Writer.fits w e.output = true) :
    Admitted m w (m.ram.cell m.here) (m.ram.cell (m.here + 1)) (m.ram.cell (m.here + 2)) := by
  have hfits := hf.fits
  have hA := hf.first_eq
  have hB := hf.second_eq
  rw [hf.opcode]
  refine ⟨fun _ => hfits, ?_, ?_, ?_, ?_, ?_⟩
  · intro _ hne
    cases hp with
    | hlt => exact absurd rfl hne
    | ldi b ha | prn b ha | push b _ ha | pop b _ ha => exact hA nofun ▸ ha
    | combine hi ha => exact hA (ne_hlt_of_operation hi) ▸ ha
  · intro h
    cases hp with
    | combine hi ha hb => exact hB (operandCount_of_operation hi) ▸ hb
    | _ => exact absurd h (by decide)
  · intro h
    cases hp with
    | combine hi => rcases opcode_of_operation hi with hop | hop <;> simp [hop] at h
    | prn =>
      intro cs hcs
      rw [← hA nofun] at hcs
      rw [Numeral.isDecimal_iff.mp hcs]
      exact hw
    | _ => exact absurd h (by decide)
  · intro h
    cases hp with
    | combine hi => rcases opcode_of_operation hi with hop | hop <;> simp [hop] at h
    | push b hsp => exact hsp
    | _ => exact absurd h (by decide)
  · intro h
    cases hp with
    | combine hi => rcases opcode_of_operation hi with hop | hop <;> simp [hop] at h
    | pop b hsp ha hp =>
      rw [← hA nofun]
      refine ⟨hsp, fun ha7 htop => hp ((sp_popped_eq_iff ha hsp).mpr ⟨ha7, htop⟩)⟩
    | _ => exact absurd h (by decide)

theorem not_admitted_of_stops (hf : Fetches m i a b) (hs : Stops m.begun i a b f m') :
    ¬ Admitted m w (m.ram.cell m.here) (m.ram.cell (m.here + 1)) (m.ram.cell (m.here + 2)) := by
  have hA := hf.first_eq
  have hB := hf.second_eq
  rw [hf.opcode]
  intro h
  have hfirst := h.first (mem_opcodes_iff.mpr ⟨i, rfl⟩)
  cases hs with
  | ldi b ha | prn b ha | lowered b _ ha | popped b _ ha =>
    exact ha (hA nofun ▸ hfirst nofun)
  | first b hi ha =>
    have hne := ne_hlt_of_operation hi
    exact ha (hA hne ▸ hfirst fun hop => hne (Instruction.opcode_injective hop))
  | second hi ha hb => exact hb (hB (operandCount_of_operation hi) ▸ h.second (opcode_of_operation hi))
  | full a b hsp => exact h.push rfl hsp
  | empty a b hsp => exact (h.pop rfl).1 hsp
  | brimmed b hsp htop => exact (h.pop rfl).2 (hA nofun).symm htop

theorem not_admitted_of_refused (hf : Fetches m i a b) (hp : Performs m.begun i a b e m')
    (hw : Writer.fits w e.output = false) :
    ¬ Admitted m w (m.ram.cell m.here) (m.ram.cell (m.here + 1)) (m.ram.cell (m.here + 2)) := by
  have hA := hf.first_eq
  rw [hf.opcode]
  intro h
  cases hp with
  | prn =>
    have hfits := h.print rfl _ (Numeral.isDecimal_decimal _)
    rw [← hA nofun] at hfits
    exact Bool.false_ne_true (hw.symm.trans hfits)
  | _ => simp [Effect.output] at hw

theorem not_admitted_of_cut (hop : m.ram.cell m.here = i.opcode) (hend : 256 ≤ m.here + i.operandCount) :
    ¬ Admitted m w (m.ram.cell m.here) A B := by
  intro h
  rw [hop] at h
  have hfits : m.here + i.operandCount < 256 := h.operands (mem_opcodes_iff.mpr ⟨i, rfl⟩)
  omega

section

variable [Build] {r : Attempt Failure Unit σ}

/-- A step that counts succeeds exactly if it is admitted. -/
theorem stepsTo_ok_iff (h : StepsTo m w r) (hpc : m.here < 256) (hc : m.Counts) :
    r.result = .ok () ↔ Admitted m w (m.ram.cell m.here) (m.ram.cell (m.here + 1)) (m.ram.cell (m.here + 2)) := by
  cases h with
  | unreadable hge => exact absurd hpc (Nat.not_lt.mpr hge)
  | overflowed _ hno => exact absurd hc hno
  | skipped _ _ hop =>
    refine iff_of_true rfl (admitted_of_not_mem fun hmem => ?_)
    obtain ⟨i, hi⟩ := mem_opcodes_iff.mp hmem
    exact hop i hi
  | cut _ _ hop hend => exact iff_of_false nofun (not_admitted_of_cut hop hend)
  | stopped hf _ hs => exact iff_of_false nofun (not_admitted_of_stops hf hs)
  | refused hf _ hp hw => exact iff_of_false nofun (not_admitted_of_refused hf hp hw)
  | done hf _ hp hw => exact iff_of_true rfl (admitted_of_performs hf hp hw)

theorem row_of_stepsTo (h : StepsTo m w r) (hr : r.result = .ok ()) :
    Row m.begun (m.ram.cell (m.here + 1)) (m.ram.cell (m.here + 2)) (m.ram.cell m.here) r.machine
        (Event.printed r.events) ∧
      r.sink = Writer.after w (Event.printed r.events) := by
  cases h with
  | unreadable | overflowed | cut | stopped | refused => cases hr
  | skipped _ _ hop =>
    refine ⟨.other fun hmem => ?_, (Writer.after_nil w).symm⟩
    obtain ⟨i, hi⟩ := mem_opcodes_iff.mp hmem
    exact hop i hi
  | done hf _ hp hw =>
    have hrow := row_of_performs hp hf.first_eq hf.second_eq
    rw [← hf.opcode] at hrow
    exact ⟨(printed_done _ _ _).symm ▸ hrow, congrArg (Writer.after w) (printed_done _ _ _).symm⟩

/-- **A step does what the row of its opcode says.** -/
theorem step_follows_table (m : Machine) (w : σ) (hpc : m.here < 256) (hroom : m.cycles.toNat + 1 < UInt64.size) :
    let r := m.step w
    let op := m.ram.cell m.here
    let A := m.ram.cell (m.here + 1)
    let B := m.ram.cell (m.here + 2)
    r.machine.cycles.toNat = m.cycles.toNat + 1 ∧ r.result ≠ .overflow ∧
      (r.result = .ok () →
        Row { m with cycles := m.cycles + 1 } A B op r.machine (Event.printed r.events) ∧
        r.sink = Writer.after w (Event.printed r.events)) ∧
      (r.result = .ok () ↔ Admitted m w op A B) := by
  intro r op A B
  have h : StepsTo m w r := stepsTo_step m w
  have hc : m.Counts := not_overflows_of_lt hroom
  refine ⟨?_, fun ho => ((overflow_of_stepsTo h).mp ho).2 hc, row_of_stepsTo h, stepsTo_ok_iff h hpc hc⟩
  have hb : m.Begins := ⟨hpc, hc⟩
  rw [cycles_of_stepsTo h, if_pos hb]
  exact toNat_add_ofNat hroom

end

/-- `POP R7` of a zero leaves the stack pointer at one. -/
theorem pop_into_pointer_follows_table :
    let m : Machine := { ram := Memory.zero.overlay 0 [0x46, 7] }
    m.here < 256 ∧ m.cycles.toNat + 1 < UInt64.size ∧ Admitted m Sink.unlimited 0x46 7 0 ∧
      (m.step Sink.unlimited).result = .ok () ∧
      Row { m with cycles := 1 } 7 0 0x46 (m.step Sink.unlimited).machine
        (Event.printed (m.step Sink.unlimited).events) ∧
      (m.step Sink.unlimited).machine.registers.value 7 = 1 := by
  intro m
  have hpc : m.here < 256 := by decide
  have hroom : m.cycles.toNat + 1 < UInt64.size := by decide
  have hop : m.ram.cell m.here = 0x46 := by decide +kernel
  have hA : m.ram.cell (m.here + 1) = 7 := by decide +kernel
  have hB : m.ram.cell (m.here + 2) = 0 := by decide +kernel
  have hadm : Admitted m Sink.unlimited 0x46 7 0 :=
    ⟨by decide, by decide, by decide, nofun, by decide, by decide +kernel⟩
  have hsp : (m.step Sink.unlimited).machine.registers.value 7 = 1 := by decide +kernel
  have h := step_follows_table m Sink.unlimited hpc hroom
  simp only [hop, hA, hB] at h
  obtain ⟨-, -, hrow, hiff⟩ := h
  have hok := hiff.mpr hadm
  exact ⟨hpc, hroom, hadm, hok, (hrow hok).1, hsp⟩

end LS8.Machine
