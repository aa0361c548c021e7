import LS8.Proofs.Machine.Trail
import LS8.Proofs.Numeral

/-!
What a failure leaves of the machine.  It leaves the machine as it was, a step with one more step begun if there was an
opcode to read; only two failing instructions have changed something by then, and both of them the stack pointer
(`Spoils`).  Main statement: `failure_leaves_machine`.
-/

namespace LS8.Machine

variable {m m' : Machine} {i : Instruction} {a b sp : UInt8} {e : Effect} {f : Failure}

/-- The two instructions that fail after a change: the failure and the stack pointer they leave. -/
inductive Spoils (m : Machine) : Instruction → UInt8 → Failure → UInt8 → Prop
  /-- `PUSH` of a register that does not exist. -/
  | push {a : UInt8} (hsp : m.registers.sp ≠ 0) (ha : 8 ≤ a) :
      Spoils m .push a (.fault (.noRegister a)) (m.registers.sp - 1)
  /-- `POP` of the last address into the stack pointer. -/
  | pop (hsp : m.registers.sp ≠ 0xFF) (htop : m.ram.read m.registers.sp.toNat = .ok 0xFF) :
      Spoils m .pop 7 (.fault .stackUnderflow) 0xFF

/-- A failure `f` leaves `m'` of `m`: the same machine, unless it is one of the failures that spoil the stack
pointer. -/
def Leaves (spoils : Failure → UInt8 → Prop) (m : Machine) (f : Failure) (m' : Machine) : Prop :=
  (∃ sp, spoils f sp ∧ m' = m.withSp sp) ∨ ((¬ ∃ f' sp, spoils f' sp) ∧ m' = m)

/-! ### Instructions -/

theorem top_eq_iff : m.top = 0xFF ↔ m.ram.read m.registers.sp.toNat = .ok 0xFF := by
  rw [Memory.read_eq, if_pos (UInt8.toNat_lt _), top]
  simp

theorem Spoils.sp_ne (h : Spoils m i a f sp) : sp ≠ m.registers.sp := by
  cases h with
  | push => grind
  | pop hsp => exact hsp.symm

theorem Spoils.stops (h : Spoils m i a f sp) (b : UInt8) : Stops m i a b f (m.withSp sp) := by
  rw [withSp_eq]
  cases h with
  | push hsp ha => exact .lowered b hsp (UInt8.not_lt.mpr ha)
  | pop hsp htop => exact .brimmed b hsp (top_eq_iff.mpr htop)

theorem leaves_of_stops (h : Stops m i a b f m') : Leaves (Spoils m i a) m f m' := by
  -- all rules but `lowered` and `brimmed` leave `m`, and then it is to be seen that nothing spoils
  have same : (∀ f' sp, ¬ Spoils m i a f' sp) → Leaves (Spoils m i a) m f m := fun hno =>
    .inr ⟨fun ⟨f', sp, hs⟩ => hno f' sp hs, rfl⟩
  cases h with
  | ldi | prn => exact same fun f' sp hs => nomatch hs
  | first b hi | second hi =>
    refine same fun f' sp hs => ?_
    cases hs <;> cases hi
  | full a b hsp =>
    refine same fun f' sp hs => ?_
    cases hs with
    | push hsp' => exact hsp' hsp
  | lowered b hsp ha =>
    refine .inl ⟨_, .push hsp (UInt8.not_lt.mp ha), ?_⟩
    rw [withSp_eq]
    rfl
  | empty a b hsp =>
    refine same fun f' sp hs => ?_
    cases hs with
    | pop hsp' => exact hsp' hsp
  | popped b hsp ha =>
    refine same fun f' sp hs => ?_
    cases hs with
    | pop => exact absurd (by decide) ha
  | brimmed b hsp htop =>
    exact .inl ⟨_, .pop hsp (top_eq_iff.mp htop), by rw [withSp_eq]⟩

section

variable [Build] {σ : Type} [Writer σ] {w : σ} {r : Attempt Failure Unit σ}

omit [Build] in
theorem not_spoils_of_refused (hp : Performs m i a b e m') (hw : Writer.fits w e.output = false) :
    ¬ ∃ f sp, Spoils m i a f sp := by
  obtain ⟨rfl, -⟩ := prn_of_refused hp hw
  exact fun ⟨f, sp, hs⟩ => nomatch hs

theorem leaves_of_executes (h : Executes m w i a b r) (hr : r.result = .error f) :
    Leaves (Spoils m i a) m f r.machine := by
  cases h with
  | stopped hs =>
    cases hr
    exact leaves_of_stops hs
  | refused hp hw => exact .inr ⟨not_spoils_of_refused hp hw, (prn_of_refused hp hw).2⟩
  | overflowed | done => cases hr

theorem Spoils.execute (h : Spoils m i a f sp) (w : σ) (b : UInt8) :
    m.execute w i a b = ⟨.error f, m.withSp sp, w, []⟩ :=
  execute_of_stops (h.stops b) w

/-! ### Steps and runs -/

/-- The instruction at the program counter is one of the two. -/
def SpoilsAt (m : Machine) (f : Failure) (sp : UInt8) : Prop := ∃ i a b, Fetches m i a b ∧ Spoils m i a f sp

omit [Build] in
theorem spoils_begun_iff : Spoils m.begun i a f sp ↔ Spoils m i a f sp := by
  constructor
  · intro h
    cases h with
    | push hsp ha => exact .push hsp ha
    | pop hsp htop => exact .pop hsp htop
  · intro h
    cases h with
    | push hsp ha => exact .push hsp ha
    | pop hsp htop => exact .pop hsp htop

theorem leaves_of_stepsTo (h : StepsTo m w r) (hr : r.result = .error f) :
    Leaves m.SpoilsAt { m with cycles := m.cycles + if m.here < 256 then 1 else 0 } f r.machine := by
  -- an instruction that has been fetched spoils at its step what it spoils by itself
  have fetched : ∀ {i a b f m'}, Fetches m i a b → Leaves (Spoils m.begun i a) m.begun f m' →
      Leaves m.SpoilsAt { m with cycles := m.cycles + if m.here < 256 then 1 else 0 } f m' := by
    intro i a b f m' hf hleft
    simp only [hf.here_lt, if_true]
    rcases hleft with ⟨sp, hs, hm⟩ | ⟨hno, hm⟩
    · exact .inl ⟨sp, ⟨i, a, b, hf, spoils_begun_iff.mp hs⟩, hm⟩
    · refine .inr ⟨?_, hm⟩
      rintro ⟨f', sp, i', a', b', hf', hs⟩
      obtain ⟨rfl, rfl, rfl⟩ := hf.unique hf'
      exact hno ⟨f', sp, spoils_begun_iff.mpr hs⟩
  cases h with
  | unreadable hpc =>
    refine .inr ⟨?_, by simp [Nat.not_lt.mpr hpc]⟩
    rintro ⟨f', sp, i, a, b, hf, -⟩
    exact absurd hf.here_lt (Nat.not_lt.mpr hpc)
  | overflowed | skipped | done => cases hr
  | cut hpc hc hop hend =>
    refine .inr ⟨?_, by simp [hpc, begun]⟩
    rintro ⟨f', sp, i, a, b, hf, -⟩
    obtain rfl := Instruction.opcode_injective (hop.symm.trans hf.opcode)
    exact absurd hf.fits (Nat.not_lt.mpr hend)
  | stopped hf hc hs =>
    cases hr
    exact fetched hf (leaves_of_stops hs)
  | refused hf hc hp hw => exact fetched hf (.inr ⟨not_spoils_of_refused hp hw, (prn_of_refused hp hw).2⟩)

theorem SpoilsAt.step (h : m.SpoilsAt f sp) (hc : m.Counts) (w : σ) :
    m.step w = ⟨.error f, m.begun.withSp sp, w, [.record (.dumped m.dump)]⟩ := by
  obtain ⟨i, a, b, hf, hs⟩ := h
  exact step_of_stops hf hc ((spoils_begun_iff.mpr hs).stops b) w

theorem Trail.error {starts : List (Machine × σ)} {q : Attempt Interruption UInt64 σ} {e : Interruption}
    (h : Trail m w starts q) (hq : q.result = .error e) :
    e.pc = q.machine.here ∧ q.machine.running = true ∧ m.running = true := by
  induction h with
  | halted | overflowed => cases hq
  | @failed m w f hm hs =>
    obtain ⟨hpc, hrun⟩ := kept_of_stepsTo (stepsTo_step m w) (by rw [hs]; exact nofun)
    cases hq
    exact ⟨congrArg UInt64.toNat hpc.symm, hrun.trans hm, hm⟩
  | stepped hm hs ht ih =>
    obtain ⟨hpc, hrun, -⟩ := ih hq
    exact ⟨hpc, hrun, hm⟩

/-- **What a failure leaves of the machine.** -/
theorem failure_leaves_machine (m : Machine) (w : σ) :
    (∀ i a b f, (m.execute w i a b).result = .error f →
      Leaves (Spoils m i a) m f (m.execute w i a b).machine) ∧
    (∀ i a b f sp, Spoils m i a f sp →
      sp ≠ m.registers.sp ∧ (m.execute w i a b).result = .error f ∧ (m.execute w i a b).machine = m.withSp sp) ∧
    (∀ f, (m.step w).result = .error f →
      Leaves m.SpoilsAt { m with cycles := m.cycles + if m.here < 256 then 1 else 0 } f (m.step w).machine ∧
      (m.step w).machine.pc = m.pc ∧ (m.step w).machine.running = m.running) ∧
    (m.Counts → ∀ f sp, m.SpoilsAt f sp →
      (m.step w).result = .error f ∧ (m.step w).machine = { m with cycles := m.cycles + 1 }.withSp sp) ∧
    ∀ e, (m.run w).result = .error e →
      e.pc = (m.run w).machine.here ∧ (m.run w).machine.running = m.running ∧
      ∃ address, Numeral.IsHex (m.run w).machine.here address ∧
        e.causes = ("Execution failed at 0x" ++ String.ofList address) :: e.failure.causes := by
  have hstep := stepsTo_step m w
  refine ⟨fun i a b f hr => leaves_of_executes (executes_execute m w i a b) hr, fun i a b f sp hs => ?_,
    fun f hr => ⟨leaves_of_stepsTo hstep hr, kept_of_stepsTo hstep (by rw [hr]; exact nofun)⟩,
    fun hc f sp hs => ?_, fun e he => ?_⟩
  · rw [hs.execute w b]
    exact ⟨hs.sp_ne, rfl, rfl⟩
  · rw [hs.step hc]
    exact ⟨rfl, rfl⟩
  · obtain ⟨starts, ht⟩ := exists_trail m w
    obtain ⟨hpc, hrun, hm⟩ := ht.error he
    refine ⟨hpc, hrun.trans hm.symm, _, Numeral.isHex_hexPair _, ?_⟩
    rw [← hpc, String.ofList_toList]
    rfl

end

/-- `PUSH R9` moves the stack pointer from `0xF4` to `0xF3` and fails. -/
theorem push_without_register_leaves_pointer :
    let m : Machine := { ram := Memory.zero.overlay 0 [0x45, 9] }
    let f : Failure := .fault (.noRegister 9)
    Spoils m .push 9 f 0xF3 ∧ m.SpoilsAt f 0xF3 ∧ m.Counts ∧
      (m.execute Sink.unlimited .push 9 0).machine = m.withSp 0xF3 ∧
      (m.step Sink.unlimited).result = .error f ∧
      (m.step Sink.unlimited).machine = { m with cycles := 1 }.withSp 0xF3 ∧
      (m.step Sink.unlimited).machine.pc = 0 ∧
      (m.run Sink.unlimited).result = .error ⟨0, f⟩ ∧ (m.run Sink.unlimited).machine.here = 0 := by
  intro m f
  have hsp : m.registers.sp ≠ 0 := by decide
  have ha : (8 : UInt8) ≤ 9 := by decide
  have hlow : m.registers.sp - 1 = 0xF3 := by decide
  have hs : Spoils m .push 9 f 0xF3 := hlow ▸ .push hsp ha
  have hat : m.SpoilsAt f 0xF3 :=
    ⟨.push, 9, 0, ⟨by decide +kernel, by decide, by decide +kernel, by decide⟩, hs⟩
  have hc : m.Counts := by decide
  have hrun : (m.run Sink.unlimited).result = .error ⟨0, f⟩ := by decide +kernel
  obtain ⟨-, hexec, hstep, hspoils, he⟩ := failure_leaves_machine m Sink.unlimited
  obtain ⟨-, -, hleft⟩ := hexec .push 9 0 f 0xF3 hs
  obtain ⟨hr, hm⟩ := hspoils hc f 0xF3 hat
  obtain ⟨-, hpc, -⟩ := hstep f hr
  exact ⟨hs, hat, hc, hleft, hr, hm, hpc, hrun, (he ⟨0, f⟩ hrun).1.symm⟩

end LS8.Machine
