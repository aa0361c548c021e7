import LS8.Machine.Execute

/-!
Steps and runs. A step fetches the instruction at the program counter and executes it; a byte that
is no opcode is skipped. Nothing moves the program counter back, so a step that succeeds brings it
nearer to the end of memory (`here_lt_of_step`), and a run ends.
-/

namespace LS8.Machine

/-- A byte of the instruction at the program counter. -/
def fetch (m : Machine) (offset : Nat) : Except Fault UInt8 :=
  (m.ram.read (m.here + offset)).mapError fun _ => .pastEnd m.here

/-- The operands of the instruction at the program counter; zero stands for those it does not
have. -/
def operands (m : Machine) (i : Instruction) : Except Fault (UInt8 × UInt8) := do
  let a ← if 1 ≤ i.operandCount then m.fetch 1 else .ok 0
  let b ← if 2 ≤ i.operandCount then m.fetch 2 else .ok 0
  return (a, b)

theorem fetch_eq_ok_iff {m : Machine} {offset : Nat} {b : UInt8} :
    m.fetch offset = .ok b ↔ m.ram.read (m.here + offset) = .ok b :=
  mapError_eq_ok_iff

variable {σ : Type} [Build] [Writer σ]

/-- One step. A step counts as begun once there is an opcode. From there on the program counter is within memory, and
only the count can overflow. -/
def step (m : Machine) (sink : σ) : Attempt Failure Unit σ :=
  match m.fetch 0 with
  | .error f => ⟨.error (.fault f), m, sink, []⟩
  | .ok opcode =>
    if Overflows m.cycles 1 then ⟨.overflow, m, sink, []⟩
    else
      let dumped := .record (.dumped m.dump)
      let m := { m with cycles := m.cycles + 1 }
      match Instruction.decode opcode with
      | .error _ => ⟨.ok (), m.skip 1, sink, [dumped, .record (.unrecognised m.here opcode)]⟩
      | .ok i =>
        match m.operands i with
        | .error f => ⟨.error (.fault f), m, sink, [dumped]⟩
        | .ok (a, b) => (m.execute sink i a b).after [dumped]

/-! ### Progress of the program counter -/

theorem here_lt_of_step {m : Machine} {sink : σ} (h : (m.step sink).result = .ok ()) :
    m.here < 256 ∧ m.here < (m.step sink).machine.here := by
  unfold step at h ⊢
  split at h
  · cases h
  · next opcode hop =>
    have hlt : m.here < 256 := (Memory.read_eq_ok_iff.mp (fetch_eq_ok_iff.mp hop)).1
    have hskip : ∀ {k}, 1 ≤ k → k ≤ 3 → m.here < (m.pc + UInt64.ofNat k).toNat := by
      intro k h1 h3
      have := here_skip_of_lt hlt (Nat.le_trans h3 (by decide))
      show m.here < (m.skip k).here
      omega
    refine ⟨hlt, ?_⟩
    split at h
    · cases h
    · next ho =>
      simp only [ho, if_false] at h ⊢
      split at h
      · exact hskip (Nat.le_refl 1) (by decide)
      · split at h
        · cases h
        · next i _ _ a b _ =>
          have hpc := pc_of_execute h
          show m.here < (Machine.pc _).toNat
          rw [Attempt.after, hpc]
          exact hskip (Nat.le_add_right 1 _) i.size_le

/-- A failure together with the address of the step that failed. -/
structure Interruption where
  pc : Nat
  failure : Failure
deriving DecidableEq

/-- What is reported about an interruption, the outermost cause first. -/
def Interruption.causes (i : Interruption) : List String :=
  s!"Execution failed at 0x{Numeral.hexPair i.pc}" :: i.failure.causes

/-- Steps until the machine has been stopped, and gives the number of steps begun since it was
new. -/
def run (m : Machine) (sink : σ) : Attempt Interruption UInt64 σ :=
  if m.running then
    let attempt := m.step sink
    match _h : attempt.result with
    | .ok () => (run attempt.machine attempt.sink).after attempt.events
    | .error failure => { attempt with result := .error ⟨m.here, failure⟩ }
    | .overflow => { attempt with result := .overflow }
  else ⟨.ok m.cycles, m, sink, [.record (.halted m.cycles)]⟩
termination_by 256 - m.here
decreasing_by
  have := here_lt_of_step _h
  omega

end LS8.Machine
