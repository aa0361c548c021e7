import LS8.Proofs.Machine.Sweep

/-!
What steps leave in memory.  A step changes one cell at most, and only a `PUSH` that succeeds changes any: the cell
below the stack pointer, so that the last cell of memory is out of reach (`ChangesOneCell`).  Hence a cell holds the
byte that the last `PUSH` has stored to it, after any number of steps and whether or not some of them have failed.
Main statement: `last_push_wins`.
-/

namespace LS8.Machine

section

variable [Build] {σ : Type} [Writer σ] {m : Machine} {w : σ} {i : Instruction} {a b v : UInt8} {f : Failure} {x : Nat}

/-- The step stores this byte to an address: the register of its `PUSH` as it is once the stack pointer has moved. -/
structure StoresByte (m : Machine) (w : σ) (x : Nat) (v : UInt8) : Prop where
  stores : Stores m w x
  value : ∃ a b, Fetches m .push a b ∧ v = m.lowered.value a

/-- The machine after a step with each of the writers, one after the other; a step that fails counts with what it
leaves. -/
def stepAll (m : Machine) (ws : List σ) : Machine := ws.foldl (fun m w => (m.step w).machine) m

/-- The states in which those steps start. -/
def startsOf (m : Machine) : List σ → List (Machine × σ)
  | [] => []
  | w :: ws => (m, w) :: (m.step w).machine.startsOf ws

/-- What a step may do to memory, and what an instruction may that is executed on its own. -/
structure ChangesOneCell (m : Machine) (w : σ) : Prop where
  one : ∃ x, ∀ y, y ≠ x → (m.step w).machine.ram.read y = m.ram.read y
  failed : (m.step w).result ≠ .ok () → (m.step w).machine.ram = m.ram
  other : (¬ ∃ a b, Fetches m .push a b) → (m.step w).machine.ram = m.ram
  failed_instruction : ∀ i a b f, (m.execute w i a b).result = .error f → (m.execute w i a b).machine.ram = m.ram
  other_instruction : ∀ i a b, i ≠ .push → (m.execute w i a b).machine.ram = m.ram

/-! ### One step -/

theorem Stores.lt (h : Stores m w x) : x < 255 := by
  have hlt := m.registers.sp.toNat_lt
  have hsp := h.pointer
  omega

/-- A step that stores to a cell leaves the byte of its `PUSH` there. -/
theorem Stores.cell_step (h : Stores m w x) : StoresByte m w x ((m.step w).machine.ram.cell x) := by
  refine ⟨h, ?_⟩
  rcases ram_of_stepsTo_ok (stepsTo_step m w) h.succeeds with ⟨hno, -⟩ | ⟨a, b, hf, hsp, hram⟩
  · exact absurd h.push hno
  · have hpointer := h.pointer
    have hnat := toNat_sub_one hsp
    refine ⟨a, b, hf, ?_⟩
    rw [hram, Memory.cell_put _ (UInt8.toNat_lt _), if_pos (by omega)]

theorem cell_step_of_not_stores (h : ¬ Stores m w x) : (m.step w).machine.ram.cell x = m.ram.cell x :=
  (cell_step m w x).resolve_left h

theorem ram_of_execute_error (h : (m.execute w i a b).result = .error f) :
    (m.execute w i a b).machine.ram = m.ram := by
  have hx := executes_execute m w i a b
  generalize m.execute w i a b = r at h hx ⊢
  cases hx with
  | stopped hs =>
    obtain ⟨r, rfl⟩ := registers_of_stops hs
    rfl
  | refused hp hw =>
    obtain ⟨-, rfl⟩ := prn_of_refused hp hw
    rfl
  | overflowed | done => cases h

theorem ram_of_execute (w : σ) (a b : UInt8) (hi : i ≠ .push) : (m.execute w i a b).machine.ram = m.ram := by
  have kept : ∀ {e m'}, Performs m i a b e m' → m'.ram = m.ram := fun hp =>
    (ram_of_performs hp).elim And.right fun h => absurd h.1 hi
  have hx := executes_execute m w i a b
  generalize m.execute w i a b = r at hx ⊢
  cases hx with
  | stopped hs =>
    obtain ⟨r, rfl⟩ := registers_of_stops hs
    rfl
  | refused hp | overflowed hp => exact kept hp
  | done hp =>
    have hram := kept hp
    exact hram

/-- All cells but one are as before: at most the one below the stack pointer is not. -/
theorem read_step_of_ne (m : Machine) (w : σ) {y : Nat} (hy : y ≠ m.registers.sp.toNat - 1) :
    (m.step w).machine.ram.read y = m.ram.read y := by
  have hno : ¬ Stores m w y := by
    intro h
    have hsp := h.pointer
    omega
  rw [Memory.read_eq, Memory.read_eq, cell_step_of_not_stores hno]

theorem changesOneCell (m : Machine) (w : σ) : ChangesOneCell m w where
  one := ⟨m.registers.sp.toNat - 1, fun _ hy => read_step_of_ne m w hy⟩
  failed hr := ram_of_stepsTo (stepsTo_step m w) hr
  other hno := by
    by_cases hr : (m.step w).result = .ok ()
    · rcases ram_of_stepsTo_ok (stepsTo_step m w) hr with ⟨-, hram⟩ | ⟨a, b, hf, -⟩
      · exact hram
      · exact absurd ⟨a, b, hf⟩ hno
    · exact ram_of_stepsTo (stepsTo_step m w) hr
  failed_instruction _ _ _ _ hr := ram_of_execute_error hr
  other_instruction _ a b hi := ram_of_execute w a b hi

/-! ### Many steps -/

/-- The last of the steps that store to `x` stores `v`. -/
def LastStored (starts : List (Machine × σ)) (x : Nat) (v : UInt8) : Prop :=
  ∃ before s after, starts = before ++ s :: after ∧ StoresByte s.1 s.2 x v ∧ ∀ t ∈ after, ¬ Stores t.1 t.2 x

theorem LastStored.cons {starts : List (Machine × σ)} (h : LastStored starts x v) (s : Machine × σ) :
    LastStored (s :: starts) x v := by
  obtain ⟨before, t, after, rfl, ht, hafter⟩ := h
  exact ⟨s :: before, t, after, rfl, ht, hafter⟩

theorem LastStored.lt {starts : List (Machine × σ)} (h : LastStored starts x v) : x < 255 := by
  obtain ⟨before, s, after, heq, hs, hafter⟩ := h
  exact hs.stores.lt

theorem cell_stepAll (m : Machine) (ws : List σ) (x : Nat) :
    LastStored (m.startsOf ws) x ((m.stepAll ws).ram.cell x) ∨
      (∀ s ∈ m.startsOf ws, ¬ Stores s.1 s.2 x) ∧ (m.stepAll ws).ram.cell x = m.ram.cell x := by
  -- from the first step on: what it leaves in the cell is what the others start with
  induction ws generalizing m with
  | nil => exact .inr ⟨List.forall_mem_nil _, rfl⟩
  | cons w ws ih =>
    rcases ih (m.step w).machine with hlast | ⟨hno, hcell⟩
    · exact .inl (hlast.cons (m, w))
    · by_cases hst : Stores m w x
      · refine .inl ⟨[], (m, w), (m.step w).machine.startsOf ws, rfl, ?_, hno⟩
        rw [stepAll, List.foldl_cons, ← stepAll, hcell]
        exact hst.cell_step
      · exact .inr ⟨List.forall_mem_cons.mpr ⟨hst, hno⟩, hcell.trans (cell_step_of_not_stores hst)⟩

/-- A run is a sequence of steps. -/
theorem Trail.stepAll {starts : List (Machine × σ)} {q : Attempt Interruption UInt64 σ} (h : Trail m w starts q) :
    m.startsOf (starts.map Prod.snd) = starts ∧ m.stepAll (starts.map Prod.snd) = q.machine := by
  induction h with
  | halted | failed | overflowed => exact ⟨rfl, rfl⟩
  | @stepped m w starts q _ _ _ ih =>
    obtain ⟨hstarts, hfinal⟩ := ih
    refine ⟨?_, hfinal⟩
    rw [List.map_cons, startsOf, hstarts]

/-- **The last `PUSH` wins.**  A step changes one cell at most, none if it fails or is no `PUSH`.  After any steps a
cell reads as the last `PUSH` that succeeded with the stack pointer one above it has stored, and as before if there is
none; the last cell of memory reads as before in any case.  A run is such a sequence of steps. -/
theorem last_push_wins (m : Machine) (w : σ) (ws : List σ) :
    ChangesOneCell m w ∧
    (∀ x, (∃ v, LastStored (m.startsOf ws) x v ∧ (m.stepAll ws).ram.read x = .ok v) ∨
      (∀ s ∈ m.startsOf ws, ¬ Stores s.1 s.2 x) ∧ (m.stepAll ws).ram.read x = m.ram.read x) ∧
    (m.stepAll ws).ram.read 0xFF = m.ram.read 0xFF ∧
    ∃ ws', Trail m w (m.startsOf ws') (m.run w) ∧ m.stepAll ws' = (m.run w).machine := by
  refine ⟨changesOneCell m w, fun x => ?_, ?_, ?_⟩
  · rcases cell_stepAll m ws x with hlast | ⟨hno, hcell⟩
    · refine .inl ⟨_, hlast, ?_⟩
      rw [Memory.read_eq, if_pos (Nat.lt_trans hlast.lt (by decide))]
    · refine .inr ⟨hno, ?_⟩
      rw [Memory.read_eq, Memory.read_eq, hcell]
  · rcases cell_stepAll m ws 0xFF with hlast | ⟨-, hcell⟩
    · exact absurd hlast.lt (Nat.lt_irrefl 255)
    · rw [Memory.read_eq, Memory.read_eq, hcell]
  · obtain ⟨starts, ht⟩ := exists_trail m w
    obtain ⟨hstarts, hfinal⟩ := ht.stepAll
    exact ⟨starts.map Prod.snd, hstarts.symm ▸ ht, hfinal⟩

end

/-- The second `PUSH` stores over the first; the ones after it fail for their register with the stack pointer moved. -/
theorem pointer_pushed_over_value :
    let m : Machine := { ram := Memory.zero.overlay 0 [0x82, 0, 5, 0x45, 0, 0x46, 1, 0x45, 7, 0x45, 9] }
    let ws := List.replicate 6 Sink.unlimited
    LastStored (m.startsOf ws) 0xF3 0xF3 ∧ (m.stepAll ws).ram.read 0xF3 = .ok 0xF3 ∧
      (m.stepAll ws).registers.sp = 0xF1 ∧ (m.stepAll ws).ram.read 0xFF = .ok 0 := by
  intro m ws
  have hread : (m.stepAll ws).ram.read 0xF3 = .ok 0xF3 := by decide +kernel
  have hbefore : m.ram.read 0xF3 = .ok 0 := by decide +kernel
  have htop : m.ram.read 0xFF = .ok 0 := by decide +kernel
  obtain ⟨-, hcells, hlast, -⟩ := last_push_wins m Sink.unlimited ws
  refine ⟨?_, hread, by decide +kernel, hlast.trans htop⟩
  rcases hcells 0xF3 with ⟨v, hv, hv'⟩ | ⟨-, hkept⟩
  · obtain rfl : v = 0xF3 := Except.ok.inj (hv'.symm.trans hread)
    exact hv
  · rw [hread, hbefore] at hkept
    cases hkept

end LS8.Machine
