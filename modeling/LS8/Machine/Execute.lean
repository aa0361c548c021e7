import LS8.Machine.Basic

/-!
What each instruction does to the machine. A call on the machine leaves one also where it fails: `PUSH` has moved the
stack pointer before it looks at its register, and `POP` into the stack pointer has stored the popped value before it
finds that it cannot be incremented.
-/

namespace LS8.Machine

/-! ### Calls on a part of the machine -/

def readRegister (index : UInt8) : EStateM Fault Machine UInt8 := fun m =>
  match m.registers.read index with
  | .ok value => .ok value m
  | .error f => .error f m

def writeRegister (index value : UInt8) : EStateM Fault Machine Unit := fun m =>
  match m.registers.write index value with
  | .ok _ registers => .ok () { m with registers }
  | .error f registers => .error f { m with registers }

def readCell (address : Nat) : EStateM Failure Machine UInt8 := fun m =>
  match m.ram.read address with
  | .ok value => .ok value m
  | .error e => .error (.memory e) m

def writeCell (address : Nat) (value : UInt8) : EStateM Failure Machine Unit := fun m =>
  match m.ram.write address value with
  | .ok _ ram => .ok () { m with ram }
  | .error e ram => .error (.memory e) { m with ram }

/-- A call that can only fail for a fault, among others that can fail. -/
def orFault {α : Type} (call : EStateM Fault Machine α) : EStateM Failure Machine α :=
  EStateM.adaptExcept .fault call

/-! ### Instructions -/

/-- The arithmetic instructions; values wrap around at 256. -/
def operation? : Instruction → Option (UInt8 → UInt8 → UInt8)
  | .add => some (· + ·)
  | .mul => some (· * ·)
  | _ => none

/-- Combines two registers into the first. Both registers are read before the instruction is looked
at. -/
def combine (instruction : Instruction) (first second : UInt8) : EStateM Fault Machine Effect := do
  let x ← readRegister first
  let y ← readRegister second
  match operation? instruction with
  | none => throw (.notArithmetic instruction)
  | some op =>
    writeRegister first (op x y)
    return .combined instruction first second x y (op x y)

/-- Stores a register below the stack. The stack pointer moves first, so that `PUSH R7` stores the
address it is stored at. -/
def push (register : UInt8) : EStateM Failure Machine Effect := do
  let sp := (← get).registers.sp
  if sp = 0 then throw (.fault .stackOverflow)
  else
    modify fun m => m.withSp (sp - 1)
    let value ← orFault (readRegister register)
    writeCell (sp - 1).toNat value
    return .pushed register value (sp - 1)

/-- Takes the top of the stack into a register. The stack pointer moves last, so that `POP R7`
leaves it one above the popped value. -/
def pop (register : UInt8) : EStateM Failure Machine Effect := do
  let sp := (← get).registers.sp
  if sp = 255 then throw (.fault .stackUnderflow)
  else
    let value ← readCell sp.toNat
    orFault (writeRegister register value)
    let next := (← get).registers.sp
    if next = 255 then throw (.fault .stackUnderflow)
    else
      modify fun m => m.withSp (next + 1)
      return .popped register value sp

/-- What an instruction does, apart from its output and from moving the program counter. -/
def perform (i : Instruction) (a b : UInt8) : EStateM Failure Machine Effect :=
  match i with
  | .hlt => do
    modify fun m => { m with running := false }
    return .stopped
  | .ldi => do
    orFault (writeRegister a b)
    return .loaded a b
  | .prn => do
    let value ← orFault (readRegister a)
    return .printed a value
  | .add => orFault (combine .add a b)
  | .mul => orFault (combine .mul a b)
  | .push => push a
  | .pop => pop a

/-! ### Calls that leave the program counter alone -/

/-- The call leaves the program counter where it is, whether it fails or not. -/
def KeepsPc {ε α : Type} (call : EStateM ε Machine α) : Prop := ∀ m, (stateOf (call.run m)).pc = m.pc

section

variable {ε α β : Type} {x : EStateM ε Machine α}

theorem keepsPc_pure (a : α) : KeepsPc (pure a : EStateM ε Machine α) := fun _ => rfl

theorem keepsPc_throw (e : ε) : KeepsPc (throw e : EStateM ε Machine α) := fun _ => rfl

theorem keepsPc_get : KeepsPc (get : EStateM ε Machine Machine) := fun _ => rfl

theorem KeepsPc.bind (hx : KeepsPc x) {f : α → EStateM ε Machine β} (hf : ∀ a, KeepsPc (f a)) :
    KeepsPc (x >>= f) := by
  intro m
  have hm := hx m
  show (stateOf (EStateM.bind x f m)).pc = m.pc
  unfold EStateM.bind
  dsimp only [EStateM.run] at hm
  cases h : x m with
  | ok a m' =>
    rw [h] at hm
    exact (hf a m').trans hm
  | error e m' =>
    rw [h] at hm
    exact hm

theorem KeepsPc.orFault {x : EStateM Fault Machine α} (hx : KeepsPc x) : KeepsPc (orFault x) := by
  intro m
  have hm := hx m
  dsimp only [EStateM.run] at hm
  dsimp only [Machine.orFault, EStateM.adaptExcept, EStateM.run]
  cases h : x m with
  | ok a m' =>
    rw [h] at hm
    exact hm
  | error e m' =>
    rw [h] at hm
    exact hm

end

theorem keepsPc_readRegister (i : UInt8) : KeepsPc (readRegister i) := by
  intro m
  dsimp only [readRegister, EStateM.run]
  split <;> rfl

theorem keepsPc_writeRegister (i v : UInt8) : KeepsPc (writeRegister i v) := by
  intro m
  dsimp only [writeRegister, EStateM.run]
  split <;> rfl

theorem keepsPc_readCell (x : Nat) : KeepsPc (readCell x) := by
  intro m
  dsimp only [readCell, EStateM.run]
  split <;> rfl

theorem keepsPc_writeCell (x : Nat) (v : UInt8) : KeepsPc (writeCell x v) := by
  intro m
  dsimp only [writeCell, EStateM.run]
  split <;> rfl

theorem keepsPc_combine (i : Instruction) (a b : UInt8) : KeepsPc (combine i a b) := by
  refine (keepsPc_readRegister a).bind fun x => (keepsPc_readRegister b).bind fun y => ?_
  split
  · exact keepsPc_throw _
  · exact (keepsPc_writeRegister a _).bind fun _ => keepsPc_pure _

theorem keepsPc_push (a : UInt8) : KeepsPc (push a) := by
  refine keepsPc_get.bind fun m => ?_
  dsimp only
  split
  · exact keepsPc_throw _
  · exact .bind (fun _ => rfl) fun _ => (keepsPc_readRegister a).orFault.bind fun v =>
      (keepsPc_writeCell _ v).bind fun _ => keepsPc_pure _

theorem keepsPc_pop (a : UInt8) : KeepsPc (pop a) := by
  refine keepsPc_get.bind fun m => ?_
  dsimp only
  split
  · exact keepsPc_throw _
  · refine (keepsPc_readCell _).bind fun v => (keepsPc_writeRegister a v).orFault.bind fun _ =>
      keepsPc_get.bind fun m => ?_
    split
    · exact keepsPc_throw _
    · exact .bind (fun _ => rfl) fun _ => keepsPc_pure _

theorem keepsPc_perform (i : Instruction) (a b : UInt8) : KeepsPc (perform i a b) := by
  cases i with
  | hlt => exact .bind (fun _ => rfl) fun _ => keepsPc_pure _
  | ldi => exact (keepsPc_writeRegister a b).orFault.bind fun _ => keepsPc_pure _
  | prn => exact (keepsPc_readRegister a).orFault.bind fun _ => keepsPc_pure _
  | add => exact (keepsPc_combine .add a b).orFault
  | mul => exact (keepsPc_combine .mul a b).orFault
  | push => exact keepsPc_push a
  | pop => exact keepsPc_pop a

/-! ### Instructions with their output -/

/-- What an attempt came to: its result, the machine and the writer it left, and what it put out. -/
structure Attempt (ε α : Type) (σ : Type := Sink) where
  result : Result ε α
  machine : Machine
  sink : σ
  events : List (Event Record)

variable {σ : Type}

/-- Puts earlier events in front. -/
def Attempt.after {ε α : Type} (attempt : Attempt ε α σ) (earlier : List (Event Record)) :
    Attempt ε α σ :=
  { attempt with events := earlier ++ attempt.events }

variable [Build] [Writer σ]

/-- Executes an instruction with its operands. The output is written once the instruction has done
all else but move the program counter. -/
def execute (m : Machine) (sink : σ) (i : Instruction) (a b : UInt8) : Attempt Failure Unit σ :=
  match (perform i a b).run m with
  | .error failure m' => ⟨.error failure, m', sink, []⟩
  | .ok effect m' =>
    let written := .output (Writer.accepted sink effect.output)
    let after := Writer.after sink effect.output
    if Writer.fits sink effect.output then
      let events := [written, .record (.executed effect)]
      if Overflows m'.pc i.size then ⟨.overflow, m', after, events⟩
      else ⟨.ok (), m'.skip i.size, after, events⟩
    else ⟨.error (.output (Writer.refusal sink effect.output)), m', after, [written]⟩

theorem pc_of_execute {m : Machine} {sink : σ} {i : Instruction} {a b : UInt8}
    (h : (m.execute sink i a b).result = .ok ()) :
    (m.execute sink i a b).machine.pc = m.pc + UInt64.ofNat i.size := by
  have hkeeps := keepsPc_perform i a b m
  unfold execute at h ⊢
  split at h
  · cases h
  · next effect m' hp =>
    rw [hp] at hkeeps
    dsimp only at h ⊢
    split at h
    · next hfits =>
      split at h
      · cases h
      · next ho =>
        rw [if_pos hfits, if_neg ho]
        exact congrArg (· + UInt64.ofNat i.size) hkeeps
    · cases h

end LS8.Machine
