import LS8.Proofs.Machine.Sweep

/-!
Where the machine gets to and how it can fail.  No call takes the program counter past the end of memory, so that every
machine that is loaded, stepped and run as one likes has it at 256 at most (`Reachable.here_le`).  A step fails because
its instruction does not fit, or because the instruction is blocked (`Regular`); the checks that memory and arithmetic
make of their own accord never fail.  Main statement: `machine_stays_in_memory`.
-/

namespace LS8

/-- Below the end of memory only an opcode makes an instruction that does not fit. -/
theorem Sweep.overruns_iff {ram : Ram} {p : Nat} (hp : p ≤ 256) :
    Overruns ram p ↔ p = 256 ∨ ∃ i : Instruction, ram.cell p = i.opcode ∧ 256 < p + i.size := by
  unfold Overruns
  constructor
  · intro h
    by_cases hop : ∃ i : Instruction, ram.cell p = i.opcode
    · obtain ⟨i, hi⟩ := hop
      rw [width_of_opcode hi] at h
      exact .inr ⟨i, hi, h⟩
    · rw [width_of_no_opcode (not_exists.mp hop)] at h
      exact .inl (by omega)
  · rintro (rfl | ⟨i, hi, h⟩)
    · have := width_pos ram 256
      omega
    · rwa [width_of_opcode hi]

namespace Machine

section

variable [Build] {σ : Type} [Writer σ] {m m' : Machine} {w : σ} {f : Failure} {r : Attempt Failure Unit σ}
  {starts : List (Machine × σ)} {q : Attempt Interruption UInt64 σ}

/-- The machines that come of a new one by calls; a call that fails counts with what it leaves. -/
inductive Reachable : Machine → Prop
  | new : Reachable {}
  | load {m : Machine} (h : Reachable m) (program : List UInt8) : Reachable (stateOf (m.load program).value)
  | step {m : Machine} {σ : Type} [Writer σ] (h : Reachable m) (w : σ) : Reachable (m.step w).machine
  | run {m : Machine} {σ : Type} [Writer σ] (h : Reachable m) (w : σ) : Reachable (m.run w).machine

/-- A failure of the step at an address: the instruction there does not fit, or it is blocked. -/
def Regular (p : Nat) (f : Failure) : Prop := f = .fault (.pastEnd p) ∨ Blocked f

omit [Build] in
theorem Regular.ne_memory {p : Nat} (h : Regular p f) (e : Memory.Error) : f ≠ .memory e := by
  rintro rfl
  rcases h with h | h
  · cases h
  · cases h

omit [Build] in
theorem Regular.ne_notArithmetic {p : Nat} (h : Regular p f) (i : Instruction) :
    f ≠ .fault (.notArithmetic i) := by
  rintro rfl
  rcases h with h | h
  · cases h
  · cases h

/-! ### Steps -/

theorem here_step_le (w : σ) (h : m.here ≤ 256) : (m.step w).machine.here ≤ 256 := by
  have hstep := stepsTo_step m w
  by_cases hr : (m.step w).result = .ok ()
  · exact (here_of_stepsTo_ok hstep hr).2.2
  · rwa [here, (kept_of_stepsTo hstep hr).1]

theorem regular_of_stepsTo (h : StepsTo m w r) (hr : r.result = .error f) : Regular m.here f :=
  (failure_of_stepsTo h hr).imp_left And.right

/-- A step has an instruction that does not fit exactly if it fails for that, whatever else there is to fail for.  It
has to count, though, unless there is no opcode. -/
theorem pastEnd_iff (h : StepsTo m w r) {p : Nat} :
    r.result = .error (.fault (.pastEnd p)) ↔
      p = m.here ∧ Sweep.Overruns m.ram m.here ∧ (m.here < 256 → m.Counts) := by
  constructor
  · intro hr
    have hc := counts_of_stepsTo h (by rw [hr]; exact nofun)
    rcases failure_of_stepsTo h hr with ⟨hover, hp⟩ | hb
    · cases hp
      exact ⟨rfl, hover, hc⟩
    · cases hb
  · rintro ⟨rfl, hover, hcounts⟩
    have fits : ∀ {i a b}, Fetches m i a b → ¬ Sweep.Overruns m.ram m.here := by
      intro i a b hf
      rw [Sweep.Overruns, Sweep.width_of_opcode hf.opcode]
      exact Nat.not_lt.mpr hf.here_skip.2
    cases h with
    | unreadable | cut => rfl
    | overflowed hpc hc => exact absurd (hcounts hpc) hc
    | skipped hpc hc hop =>
      rw [Sweep.Overruns, Sweep.width_of_no_opcode hop] at hover
      omega
    | stopped hf | refused hf | done hf => exact absurd hover (fits hf)

/-! ### Runs -/

/-- What every step keeps a run keeps. -/
theorem Trail.keeps {P : Machine → Prop} (h : Trail m w starts q)
    (hstep : ∀ (m : Machine) (w : σ), P m → P (m.step w).machine) (hm : P m) : P q.machine := by
  induction h with
  | halted => exact hm
  | @failed m w | @overflowed m w => exact hstep m w hm
  | @stepped m w _ _ _ _ _ ih => exact ih (hstep m w hm)

/-- A run that fails has a step that fails in the same way at the address that is reported. -/
theorem Trail.exists_failed {e : Interruption} (h : Trail m w starts q) (hq : q.result = .error e) :
    ∃ s ∈ starts, s.1.here = e.pc ∧ (s.1.step s.2).result = .error e.failure := by
  induction h with
  | halted | overflowed => cases hq
  | @failed m w f hm hs =>
    cases hq
    exact ⟨(m, w), List.mem_singleton_self _, rfl, hs⟩
  | stepped hm hs ht ih =>
    obtain ⟨s, hmem, hs'⟩ := ih hq
    exact ⟨s, List.mem_cons_of_mem _ hmem, hs'⟩

theorem here_run_le (w : σ) (h : m.here ≤ 256) : (m.run w).machine.here ≤ 256 := by
  obtain ⟨starts, ht⟩ := exists_trail m w
  exact ht.keeps (P := fun m => m.here ≤ 256) (fun m w hm => here_step_le w hm) h

theorem regular_of_run {e : Interruption} (hr : (m.run w).result = .error e) : Regular e.pc e.failure := by
  obtain ⟨starts, ht⟩ := exists_trail m w
  obtain ⟨s, -, hpc, hs⟩ := ht.exists_failed hr
  rw [← hpc]
  exact regular_of_stepsTo (stepsTo_step s.1 s.2) hs

/-! ### Reachable machines -/

omit [Build] in
theorem pc_load (m : Machine) (program : List UInt8) : (stateOf (m.load program).value).pc = m.pc := by
  rw [value_load]
  by_cases h : program.length ≤ 256
  · rw [if_pos h, stateOf]
  · rw [if_neg h, stateOf]

theorem Reachable.here_le (h : Reachable m) : m.here ≤ 256 := by
  induction h with
  | new => decide
  | @load m h program ih =>
    show (Machine.pc _).toNat ≤ 256
    rwa [pc_load]
  | step h w ih => exact here_step_le w ih
  | run h w ih => exact here_run_le w ih

/-- What holds of the calls on a machine whose program counter is at most at the end of memory. -/
structure InMemory (m : Machine) (w : σ) : Prop where
  pc_step : (m.step w).machine.here ≤ 256
  pc_run : (m.run w).machine.here ≤ 256
  step_regular : ∀ f, (m.step w).result = .error f →
    Regular m.here f ∧ (∀ e, f ≠ .memory e) ∧ ∀ i, f ≠ .fault (.notArithmetic i)
  run_regular : ∀ e, (m.run w).result = .error e →
    Regular e.pc e.failure ∧ (∀ e', e.failure ≠ .memory e') ∧ ∀ i, e.failure ≠ .fault (.notArithmetic i)
  overflow_iff : (m.step w).result = .overflow ↔ m.here < 256 ∧ ¬ m.Counts
  pastEnd_iff : ∀ p, (m.step w).result = .error (.fault (.pastEnd p)) ↔
    p = m.here ∧
      (m.here = 256 ∨ m.Counts ∧ ∃ i : Instruction, m.ram.cell m.here = i.opcode ∧ 256 < m.here + i.size)
  skips : m.here < 256 → m.Counts → (∀ i : Instruction, m.ram.cell m.here ≠ i.opcode) →
    (m.step w).result = .ok () ∧ (m.step w).machine = { m with pc := m.pc + 1, cycles := m.cycles + 1 }

theorem inMemory_of_here_le (w : σ) (h : m.here ≤ 256) : InMemory m w where
  pc_step := here_step_le w h
  pc_run := here_run_le w h
  step_regular f hr := by
    have hf := regular_of_stepsTo (stepsTo_step m w) hr
    exact ⟨hf, hf.ne_memory, hf.ne_notArithmetic⟩
  run_regular e hr := by
    have he := regular_of_run hr
    exact ⟨he, he.ne_memory, he.ne_notArithmetic⟩
  overflow_iff := overflow_of_stepsTo (stepsTo_step m w)
  pastEnd_iff p := by
    rw [Machine.pastEnd_iff (stepsTo_step m w), Sweep.overruns_iff h]
    refine and_congr_right fun _ => ?_
    constructor
    · rintro ⟨hend | hop, hc⟩
      · exact .inl hend
      · rcases Nat.lt_or_eq_of_le h with hlt | hend
        · exact .inr ⟨hc hlt, hop⟩
        · exact .inl hend
    · rintro (hend | ⟨hc, hop⟩)
      · exact ⟨.inl hend, fun hlt => absurd hend (Nat.ne_of_lt hlt)⟩
      · exact ⟨.inr hop, fun _ => hc⟩
  skips hpc hc hno := by
    rw [step_of_unknown hpc hc hno]
    exact ⟨rfl, rfl⟩

/-- **The machine stays in memory.**  Whatever is loaded, stepped and run, the program counter is never past the end of
memory, and steps and runs fail for an instruction that does not fit or one that is blocked, the first of these before
all others.  A step with an opcode gives up if it cannot be counted, and else a byte that is no opcode is skipped. -/
theorem machine_stays_in_memory :
    (∀ m, Reachable m → m.here ≤ 256) ∧
      ∀ {σ : Type} [Writer σ] (m : Machine) (w : σ), m.here ≤ 256 → InMemory m w :=
  ⟨fun _ h => h.here_le, fun _ w h => inMemory_of_here_le w h⟩

end

/-- A `PUSH` in the last cell runs past the end of memory, although its stack is full as well; a byte there that only
looks like an opcode with two operands is skipped. -/
theorem last_cell_stays_in_memory :
    let full := Registers.initial.setSp 0
    let push : Machine := { pc := 255, registers := full, ram := Memory.zero.overlay 255 [0x45] }
    let other : Machine := { push with ram := Memory.zero.overlay 255 [0xC0] }
    let loaded : Machine := { ram := Memory.zero.overlay 0 [0x82, 7, 0] }
    (push.step Sink.unlimited).result = .error (.fault (.pastEnd 255)) ∧
      (other.step Sink.unlimited).result = .ok () ∧ (other.step Sink.unlimited).machine.here = 256 ∧
      (loaded.step Sink.unlimited).machine.registers.sp = 0 ∧
      ((loaded.step Sink.unlimited).machine.run Sink.unlimited).machine.here ≤ 256 := by
  intro full push other loaded
  have hpush : InMemory push Sink.unlimited := machine_stays_in_memory.2 push Sink.unlimited (by decide)
  have hother : InMemory other Sink.unlimited := machine_stays_in_memory.2 other Sink.unlimited (by decide)
  have hcell : ∀ byte, (Memory.zero.overlay 255 [byte] : Ram).cell 255 = byte := fun byte =>
    Memory.cell_overlay _ 255 [byte] (by decide)
  have hover : push.ram.cell 255 = Instruction.push.opcode ∧ 256 < 255 + Instruction.push.size :=
    ⟨hcell 0x45, by decide⟩
  have hno : ∀ i : Instruction, other.ram.cell 255 ≠ i.opcode := by
    intro i
    rw [hcell]
    cases i <;> decide
  have hloaded : Reachable loaded := Reachable.new.load [0x82, 7, 0]
  obtain ⟨hskip, hnext⟩ := hother.skips (by decide) (by decide) hno
  refine ⟨(hpush.pastEnd_iff 255).mpr ⟨rfl, .inr ⟨by decide, .push, hover⟩⟩, hskip, ?_, by decide +kernel, ?_⟩
  · rw [hnext]
    decide
  · exact machine_stays_in_memory.1 _ ((hloaded.step Sink.unlimited).run Sink.unlimited)

end Machine

end LS8
