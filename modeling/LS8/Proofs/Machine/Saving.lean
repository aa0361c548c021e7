import LS8.Proofs.Machine.Stack

/-!
Saving registers on the stack.  After a `PUSH` of each register of a list and a `POP` of each from the last one back
all registers are as before, the stack pointer too, which may itself be among them: a `POP` finds its register with the
value that the matching `PUSH` has stored, and the stack pointer where that `PUSH` has moved it (`execute_pop_back`).
The calls give up if they take the program counter past the end of its range.  Main statement:
`saved_registers_come_back`.
-/

namespace LS8.Machine

section

variable [Build] {σ : Type} [Writer σ] {m m' : Machine} {w : σ} {i : Instruction} {a b : UInt8} {f : Failure}
  {rs : List UInt8} {c : Call} {cs ds : List Call}

/-- Executes calls one after the other, up to the first that does not succeed. -/
def callAll (m : Machine) (w : σ) : List Call → Attempt Failure Unit σ
  | [] => ⟨.ok (), m, w, []⟩
  | c :: cs =>
    let attempt := m.execute w c.instruction c.first c.second
    match attempt.result with
    | .ok () => (attempt.machine.callAll attempt.sink cs).after attempt.events
    | _ => attempt

/-- A `PUSH` of each register; the second operand of a `PUSH` is not looked at. -/
def saves (rs : List UInt8) : List Call := rs.map fun r => ⟨.push, r, 0⟩

/-- A `POP` of each register, the last one first; the second operand of a `POP` is not looked at. -/
def restores (rs : List UInt8) : List Call := rs.reverse.map fun r => ⟨.pop, r, 0⟩

/-- The byte that a register is saved as by a `PUSH` after `k` others: the stack pointer as the address that it is
stored at. -/
def savedAs (m : Machine) (k : Nat) (r : UInt8) : UInt8 :=
  if r = 7 then UInt8.ofNat (m.registers.sp.toNat - 1 - k) else m.registers.value r

/-- What is left when the registers `rs` have been saved and restored. -/
structure Restored (m : Machine) (w : σ) (rs : List UInt8) (q : Attempt Failure Unit σ) : Prop where
  result : q.result = .ok ()
  registers : q.machine.registers = m.registers
  running : q.machine.running = m.running
  cycles : q.machine.cycles = m.cycles
  pc : q.machine.pc = m.pc + UInt64.ofNat (4 * rs.length)
  sink : q.sink = w
  printed : Event.printed q.events = []
  /-- The cells that the stack has not grown over are as before. -/
  kept : ∀ x, ¬ (m.registers.sp.toNat - rs.length ≤ x ∧ x < m.registers.sp.toNat) →
    q.machine.ram.read x = m.ram.read x
  /-- The others hold what has been saved, the first register in the highest cell. -/
  saved : ∀ k (h : k < rs.length), q.machine.ram.read (m.registers.sp.toNat - 1 - k) = .ok (m.savedAs k rs[k])

/-! ### A `PUSH` and its `POP` -/

/-- The machine after a `PUSH` that succeeds. -/
def afterPush (m : Machine) (a : UInt8) : Machine :=
  { m with
    registers := m.lowered
    ram := m.ram.put (m.registers.sp - 1).toNat (m.lowered.value a)
    pc := m.pc + 2 }

omit [Build] in
theorem ne_zero_of_lt {sp : UInt8} {k : Nat} (h : k < sp.toNat) : sp ≠ 0 := by
  rintro rfl
  exact absurd h (Nat.not_lt_zero k)

omit [Build] in
theorem sp_lowered (m : Machine) : m.lowered.sp = m.registers.sp - 1 := Registers.sp_update_seven _ _

omit [Build] in
theorem toNat_sp_lowered (hsp : m.registers.sp ≠ 0) : m.lowered.sp.toNat = m.registers.sp.toNat - 1 := by
  have hnat := toNat_sub_one hsp
  rw [sp_lowered]
  omega

/-- An instruction without output has nothing that could be refused. -/
theorem execute_of_silent {e : Effect} (h : Performs m i a b e m') (he : e.output = []) (w : σ) :
    m.execute w i a b =
      if Overflows m.pc i.size then ⟨.overflow, m', w, [.output [], .record (.executed e)]⟩
      else ⟨.ok (), m'.skip i.size, w, [.output [], .record (.executed e)]⟩ := by
  have hfits : Writer.fits w e.output = true := by rw [he, Writer.fits_nil]
  rw [execute_of_performs h hfits, he, Writer.after_nil]

theorem execute_push (hsp : m.registers.sp ≠ 0) (ha : a < 8) (ho : ¬ Overflows m.pc 2) (w : σ) (b : UInt8) :
    ∃ e : Effect, m.execute w .push a b = ⟨.ok (), m.afterPush a, w, [.output [], .record (.executed e)]⟩ :=
  ⟨_, (execute_of_silent (.push b hsp ha) rfl w).trans (if_neg ho)⟩

theorem execute_push_overflow (hsp : m.registers.sp ≠ 0) (ha : a < 8) (ho : Overflows m.pc 2) (w : σ) (b : UInt8) :
    (m.execute w .push a b).result = .overflow := by
  rw [execute_of_silent (.push b hsp ha) rfl w]
  exact congrArg Attempt.result (if_pos ho)

/-- The `POP` that matches a `PUSH` undoes it, but for the cell that has been stored to. -/
theorem execute_pop_back (hsp : m.registers.sp ≠ 0) (ha : a < 8) (hregisters : m'.registers = m.lowered)
    (hcell : m'.ram.cell (m.registers.sp - 1).toNat = m.lowered.value a) (w : σ) (b : UInt8) :
    ∃ e : Effect, m'.execute w .pop a b =
      if Overflows m'.pc 2 then ⟨.overflow, { m' with registers := m.registers }, w, [.output [], .record (.executed e)]⟩
      else ⟨.ok (), { m' with registers := m.registers, pc := m'.pc + 2 }, w, [.output [], .record (.executed e)]⟩ := by
  have hsp' : m'.registers.sp = m.registers.sp - 1 := by rw [hregisters, sp_lowered]
  have hne : m.registers.sp - 1 ≠ 255 := by
    have hnat := toNat_sub_one hsp
    have hlt := m.registers.sp.toNat_lt
    intro h
    have h255 : (m.registers.sp - 1).toNat = 255 := congrArg UInt8.toNat h
    omega
  have htop : m'.top = m.lowered.value a := by rw [top, hsp', hcell]
  -- the register has the value that is popped already
  have hpopped : m'.popped a = m.lowered := by rw [popped, hregisters, htop, Registers.update_value _ ha]
  have hsp_popped : (m'.popped a).sp = m.registers.sp - 1 := by rw [hpopped, sp_lowered]
  have hback : (m'.popped a).update 7 ((m'.popped a).sp + 1) = m.registers := by
    rw [hsp_popped, hpopped, lowered, UInt8.sub_add_cancel, Registers.update_update]
    exact Registers.update_value _ (by decide)
  have hperforms := Performs.pop (m := m') b (by rwa [hsp']) ha (by rwa [hsp_popped])
  rw [hback] at hperforms
  exact ⟨_, execute_of_silent hperforms rfl w⟩

theorem execute_push_full (hsp : m.registers.sp = 0) (w : σ) (a b : UInt8) :
    m.execute w .push a b = ⟨.error (.fault .stackOverflow), m, w, []⟩ :=
  execute_of_stops (.full a b hsp) w

/-! ### Sequences of calls -/

theorem callAll_cons_of_ok (h : (m.execute w c.instruction c.first c.second).result = .ok ()) (cs : List Call) :
    let first := m.execute w c.instruction c.first c.second
    m.callAll w (c :: cs) = (first.machine.callAll first.sink cs).after first.events := by
  rw [callAll]
  simp only [h]

theorem callAll_cons_of_ne_ok (h : (m.execute w c.instruction c.first c.second).result ≠ .ok ()) (cs : List Call) :
    m.callAll w (c :: cs) = m.execute w c.instruction c.first c.second := by
  rw [callAll]
  split
  · next hok => exact absurd hok h
  · rfl

omit [Build] [Writer σ] in
theorem after_after {ε α : Type} (r : Attempt ε α σ) (es es' : List (Event Record)) :
    (r.after es).after es' = r.after (es' ++ es) := by
  rw [Attempt.after, Attempt.after, Attempt.after, List.append_assoc]

/-- Calls that succeed are followed by the calls after them. -/
theorem callAll_append (h : (m.callAll w cs).result = .ok ()) (ds : List Call) :
    m.callAll w (cs ++ ds) =
      ((m.callAll w cs).machine.callAll (m.callAll w cs).sink ds).after (m.callAll w cs).events := by
  induction cs generalizing m w with
  | nil => rfl
  | cons c cs ih =>
    by_cases hc : (m.execute w c.instruction c.first c.second).result = .ok ()
    · rw [callAll_cons_of_ok hc] at h
      rw [List.cons_append, callAll_cons_of_ok hc, callAll_cons_of_ok hc, ih h, after_after]
      rfl
    · rw [callAll_cons_of_ne_ok hc] at h
      exact absurd h hc

/-- No call follows one that does not succeed. -/
theorem callAll_append_of_ne_ok (h : (m.callAll w cs).result ≠ .ok ()) (ds : List Call) :
    (m.callAll w (cs ++ ds)).result = (m.callAll w cs).result := by
  induction cs generalizing m w with
  | nil => exact absurd rfl h
  | cons c cs ih =>
    by_cases hc : (m.execute w c.instruction c.first c.second).result = .ok ()
    · rw [callAll_cons_of_ok hc] at h
      rw [List.cons_append, callAll_cons_of_ok hc, callAll_cons_of_ok hc]
      exact ih h
    · rw [List.cons_append, callAll_cons_of_ne_ok hc, callAll_cons_of_ne_ok hc]

/-! ### Saving and restoring -/

omit [Build] in
theorem saves_cons (r : UInt8) (rs : List UInt8) : saves (r :: rs) = ⟨.push, r, 0⟩ :: saves rs := rfl

omit [Build] in
theorem restores_cons (r : UInt8) (rs : List UInt8) : restores (r :: rs) = restores rs ++ [⟨.pop, r, 0⟩] := by
  simp [restores]

omit [Build] in
theorem toNat_sp_afterPush (hsp : m.registers.sp ≠ 0) :
    (m.afterPush a).registers.sp.toNat = m.registers.sp.toNat - 1 :=
  toNat_sp_lowered hsp

omit [Build] in
theorem value_lowered_eq_savedAs (hsp : m.registers.sp ≠ 0) (r : UInt8) : m.lowered.value r = m.savedAs 0 r := by
  rw [lowered, Registers.value_update_seven, savedAs]
  by_cases hr : r = 7
  · have hnat := toNat_sub_one hsp
    have haddress : m.registers.sp.toNat - 1 - 0 = (m.registers.sp - 1).toNat := by omega
    rw [if_pos hr, if_pos hr, haddress, UInt8.ofNat_toNat]
  · rw [if_neg hr, if_neg hr]

omit [Build] in
/-- After a `PUSH` the registers are saved as they were to be saved, each with one more before it. -/
theorem savedAs_afterPush (hsp : m.registers.sp ≠ 0) (k : Nat) (r : UInt8) :
    (m.afterPush a).savedAs k r = m.savedAs (k + 1) r := by
  rw [savedAs, savedAs]
  by_cases hr : r = 7
  · have haddress : (m.afterPush a).registers.sp.toNat - 1 - k = m.registers.sp.toNat - 1 - (k + 1) := by
      rw [toNat_sp_afterPush hsp]
      omega
    rw [if_pos hr, if_pos hr, haddress]
  · rw [if_neg hr, if_neg hr]
    exact (Registers.value_update_seven _ _ _).trans (if_neg hr)

omit [Build] in
theorem read_afterPush (hsp : m.registers.sp ≠ 0) (x : Nat) :
    (m.afterPush a).ram.read x =
      if x = m.registers.sp.toNat - 1 then .ok (m.savedAs 0 a) else m.ram.read x := by
  have hnat := toNat_sub_one hsp
  have haddress : (m.registers.sp - 1).toNat = m.registers.sp.toNat - 1 := by omega
  rw [afterPush, Memory.read_put _ (UInt8.toNat_lt _), haddress, value_lowered_eq_savedAs hsp]

variable {q : Attempt Failure Unit σ}

omit [Build] [Writer σ] in
/-- Calls between a `PUSH` and its `POP` that restore what they save leave the cell of the `PUSH`. -/
theorem Restored.cell_of_push (h : Restored (m.afterPush a) w rs q) (hsp : m.registers.sp ≠ 0) :
    q.machine.ram.cell (m.registers.sp - 1).toNat = m.lowered.value a := by
  have hnat := toNat_sub_one hsp
  have hread := h.kept (m.registers.sp - 1).toNat (by rw [toNat_sp_afterPush hsp]; omega)
  rw [read_afterPush hsp, if_pos (by omega), Memory.read_eq, if_pos (UInt8.toNat_lt _)] at hread
  rw [value_lowered_eq_savedAs hsp]
  exact Except.ok.inj hread

omit [Build] [Writer σ] in
/-- With a `PUSH` before them and its `POP` after them such calls restore one more register. -/
theorem Restored.around {es es' : List (Event Record)} (h : Restored (m.afterPush a) w rs q)
    (hlen : rs.length < m.registers.sp.toNat) (hes : Event.printed es = []) (hes' : Event.printed es' = []) :
    Restored m w (a :: rs)
      ⟨.ok (), { q.machine with registers := m.registers, pc := q.machine.pc + 2 }, w, es ++ (q.events ++ es')⟩ := by
  have hsp := ne_zero_of_lt hlen
  have hnat := toNat_sp_afterPush (a := a) hsp
  refine ⟨rfl, rfl, h.running, h.cycles, ?_, rfl, ?_, fun x hx => ?_, fun k hk => ?_⟩
  · have hpc : q.machine.pc = m.pc + UInt64.ofNat 2 + UInt64.ofNat (4 * rs.length) := h.pc
    have hsum : 2 + (4 * rs.length + 2) = 4 * (a :: rs).length := by
      rw [List.length_cons]
      omega
    show q.machine.pc + UInt64.ofNat 2 = _
    rw [hpc, add_ofNat_add_ofNat, add_ofNat_add_ofNat, hsum]
  · rw [Event.printed_append, Event.printed_append, hes, h.printed, hes']
    rfl
  · rw [List.length_cons] at hx
    rw [h.kept x (by omega), read_afterPush hsp, if_neg (by omega)]
  · cases k with
    | zero =>
      rw [List.getElem_cons_zero, h.kept _ (by omega), read_afterPush hsp, if_pos (by omega)]
    | succ k =>
      rw [List.getElem_cons_succ, ← savedAs_afterPush (a := a) hsp, ← h.saved k (by simpa using hk), hnat]
      congr 1
      omega

theorem restored_callAll (m : Machine) (w : σ) (hrs : ∀ r ∈ rs, r < 8) (hlen : rs.length ≤ m.registers.sp.toNat) :
    if Overflows m.pc (4 * rs.length) then (m.callAll w (saves rs ++ restores rs)).result = .overflow
    else Restored m w rs (m.callAll w (saves rs ++ restores rs)) := by
  -- the first `PUSH` and the last `POP` belong together
  induction rs generalizing m with
  | nil =>
    rw [List.length_nil, Nat.mul_zero, if_neg (not_overflows_zero m.pc)]
    exact ⟨rfl, rfl, rfl, rfl, (UInt64.add_zero _).symm, rfl, rfl, fun _ _ => rfl,
      fun k hk => absurd hk (Nat.not_lt_zero k)⟩
  | cons a rs ih =>
    obtain ⟨ha, hrs⟩ := List.forall_mem_cons.mp hrs
    rw [List.length_cons] at hlen
    have hsp := ne_zero_of_lt hlen
    have hrest := ih (m.afterPush a) hrs (by rw [toNat_sp_afterPush hsp]; omega)
    have hcalls : saves (a :: rs) ++ restores (a :: rs) =
        ⟨.push, a, 0⟩ :: ((saves rs ++ restores rs) ++ [⟨.pop, a, 0⟩]) := by
      rw [saves_cons, restores_cons, List.cons_append, List.append_assoc]
    rw [hcalls, List.length_cons]
    by_cases hfirst : Overflows m.pc 2
    · have hpush := execute_push_overflow hsp ha hfirst w 0
      rw [if_pos (hfirst.mono (by omega)), callAll_cons_of_ne_ok (by simp [hpush]), hpush]
    · obtain ⟨e, hpush⟩ := execute_push hsp ha hfirst w 0
      have hinner : ∀ {k}, Overflows (m.afterPush a).pc k ↔ Overflows m.pc (2 + k) := overflows_add_iff hfirst
      rw [callAll_cons_of_ok (by rw [hpush]), hpush]
      by_cases hbetween : Overflows (m.afterPush a).pc (4 * rs.length)
      · rw [if_pos hbetween] at hrest
        rw [if_pos ((hinner.mp hbetween).mono (by omega)), Attempt.after,
          callAll_append_of_ne_ok (by simp [hrest]), hrest]
      · rw [if_neg hbetween] at hrest
        rw [callAll_append hrest.result, hrest.sink]
        obtain ⟨e', hpop⟩ := execute_pop_back hsp ha hrest.registers (hrest.cell_of_push hsp) w 0
        have hlast : Overflows ((m.afterPush a).callAll w (saves rs ++ restores rs)).machine.pc 2 ↔
            Overflows m.pc (4 * (rs.length + 1)) := by
          have hsum : 2 + (4 * rs.length + 2) = 4 * (rs.length + 1) := by omega
          rw [hrest.pc, overflows_add_iff hbetween, hinner, hsum]
        by_cases ho : Overflows m.pc (4 * (rs.length + 1))
        · rw [if_pos (hlast.mpr ho)] at hpop
          rw [if_pos ho, callAll_cons_of_ne_ok (by simp [hpop]), hpop]
          rfl
        · rw [if_neg (mt hlast.mp ho)] at hpop
          rw [if_neg ho, callAll_cons_of_ok (by rw [hpop]), hpop]
          exact hrest.around hlen rfl rfl

/-! ### Too many registers -/

/-- As many registers as there is room for are saved, and the stack pointer goes down by one for each. -/
theorem callAll_saves (m : Machine) (w : σ) (hrs : ∀ r ∈ rs, r < 8) (hlen : rs.length ≤ m.registers.sp.toNat) :
    if Overflows m.pc (2 * rs.length) then (m.callAll w (saves rs)).result = .overflow
    else (m.callAll w (saves rs)).result = .ok () ∧ (m.callAll w (saves rs)).sink = w ∧
      (m.callAll w (saves rs)).machine.registers.sp.toNat = m.registers.sp.toNat - rs.length := by
  induction rs generalizing m with
  | nil =>
    rw [List.length_nil, Nat.mul_zero, if_neg (not_overflows_zero m.pc)]
    exact ⟨rfl, rfl, rfl⟩
  | cons a rs ih =>
    obtain ⟨ha, hrs⟩ := List.forall_mem_cons.mp hrs
    rw [List.length_cons] at hlen ⊢
    have hsp := ne_zero_of_lt hlen
    have hnat := toNat_sp_afterPush (a := a) hsp
    have hrest := ih (m.afterPush a) hrs (by omega)
    rw [saves_cons]
    by_cases hfirst : Overflows m.pc 2
    · have hpush := execute_push_overflow hsp ha hfirst w 0
      rw [if_pos (hfirst.mono (by omega)), callAll_cons_of_ne_ok (by simp [hpush]), hpush]
    · obtain ⟨e, hpush⟩ := execute_push hsp ha hfirst w 0
      have hinner : Overflows (m.afterPush a).pc (2 * rs.length) ↔ Overflows m.pc (2 * (rs.length + 1)) := by
        rw [Nat.mul_succ, Nat.add_comm]
        exact overflows_add_iff hfirst
      rw [callAll_cons_of_ok (by rw [hpush]), hpush]
      by_cases ho : Overflows m.pc (2 * (rs.length + 1))
      · rw [if_pos (hinner.mpr ho)] at hrest
        rwa [if_pos ho]
      · rw [if_neg (mt hinner.mp ho)] at hrest
        obtain ⟨hok, hsink, hpointer⟩ := hrest
        rw [if_neg ho]
        exact ⟨hok, hsink, by rw [Attempt.after, hpointer]; omega⟩

/-- What is left when the registers `rs` have been saved as far as there is room, which is used up. -/
structure Filled (m : Machine) (w : σ) (rs : List UInt8) (full : Attempt Failure Unit σ) : Prop where
  result : full.result = .ok ()
  sink : full.sink = w
  /-- The next `PUSH` fails and changes nothing. -/
  next : ∀ r b, full.machine.execute w .push r b = ⟨.error (.fault .stackOverflow), full.machine, w, []⟩
  /-- The calls for all of the registers come to this `PUSH`. -/
  stops : m.callAll w (saves rs) = { full with result := .error (.fault .stackOverflow) }

theorem filled_callAll (m : Machine) (w : σ) (hrs : ∀ r ∈ rs, r < 8) (hlen : m.registers.sp.toNat < rs.length) :
    if Overflows m.pc (2 * m.registers.sp.toNat) then (m.callAll w (saves rs)).result = .overflow
    else Filled m w rs (m.callAll w (saves (rs.take m.registers.sp.toNat))) := by
  have htake : (rs.take m.registers.sp.toNat).length = m.registers.sp.toNat :=
    List.length_take_of_le (Nat.le_of_lt hlen)
  have hsaves := callAll_saves m w (fun r hr => hrs r (List.mem_of_mem_take hr)) (Nat.le_of_eq htake)
  have hsplit : saves rs =
      saves (rs.take m.registers.sp.toNat) ++
        ⟨.push, rs[m.registers.sp.toNat], 0⟩ :: saves (rs.drop (m.registers.sp.toNat + 1)) := by
    rw [← saves_cons, ← List.drop_eq_getElem_cons hlen, saves, saves, saves, ← List.map_append,
      List.take_append_drop]
  rw [htake] at hsaves
  by_cases ho : Overflows m.pc (2 * m.registers.sp.toNat)
  · rw [if_pos ho] at hsaves
    rw [if_pos ho, hsplit, callAll_append_of_ne_ok (by rw [hsaves]; exact nofun), hsaves]
  · rw [if_neg ho] at hsaves
    rw [if_neg ho]
    obtain ⟨hok, hsink, hpointer⟩ := hsaves
    generalize hfull : m.callAll w (saves (rs.take m.registers.sp.toNat)) = full at hok hsink hpointer ⊢
    have hzero : full.machine.registers.sp = 0 := by
      apply UInt8.toNat_inj.mp
      rw [hpointer, Nat.sub_self]
      rfl
    have hnext := fun r b => execute_push_full hzero w r b
    refine ⟨hok, hsink, hnext, ?_⟩
    have hstop := hnext rs[m.registers.sp.toNat] 0
    rw [hsplit, callAll_append (by rw [hfull, hok]), hfull, hsink,
      callAll_cons_of_ne_ok (by rw [hstop]; exact nofun), hstop, Attempt.after, List.append_nil, ← hsink]

/-- **Saved registers come back.**  If there is room, saving any registers and restoring them from the last one back
leaves all registers as they were and the saved bytes below the stack.  If there is none, as many are saved as there is
room for, and the next `PUSH` fails.  In both cases the calls give up if they get to the end of the range of the program
counter. -/
theorem saved_registers_come_back (m : Machine) (w : σ) (rs : List UInt8) (hrs : ∀ r ∈ rs, r < 8) :
    (rs.length ≤ m.registers.sp.toNat →
      if Overflows m.pc (4 * rs.length) then (m.callAll w (saves rs ++ restores rs)).result = .overflow
      else Restored m w rs (m.callAll w (saves rs ++ restores rs))) ∧
    (m.registers.sp.toNat < rs.length →
      if Overflows m.pc (2 * m.registers.sp.toNat) then (m.callAll w (saves rs)).result = .overflow
      else Filled m w rs (m.callAll w (saves (rs.take m.registers.sp.toNat)))) ∧
    ∀ (m : Machine) (w : σ) (a b : UInt8),
      m.execute w .push a b = m.execute w .push a 0 ∧ m.execute w .pop a b = m.execute w .pop a 0 :=
  ⟨restored_callAll m w hrs, filled_callAll m w hrs, fun _ _ _ _ => ⟨rfl, rfl⟩⟩

end

/-- With the stack pointer at 2 it can be saved after another register, and then there is no room for a third. -/
theorem pointer_comes_back :
    let m : Machine := { registers := ⟨#v[9, 0, 0, 0, 0, 0, 0, 2]⟩ }
    let q := m.callAll Sink.unlimited (saves [0, 7] ++ restores [0, 7])
    let full := m.callAll Sink.unlimited (saves [0, 7])
    q.result = .ok () ∧ q.machine.registers = m.registers ∧ q.machine.pc = 8 ∧
      q.machine.ram.read 1 = .ok 9 ∧ q.machine.ram.read 0 = .ok 0 ∧
      m.callAll Sink.unlimited (saves [0, 7, 0]) = { full with result := .error (.fault .stackOverflow) } := by
  intro m q full
  have hlen : [0, 7].length ≤ m.registers.sp.toNat := by decide
  obtain ⟨hroom, -⟩ := saved_registers_come_back m Sink.unlimited [0, 7] (by simp)
  obtain ⟨-, hfull, -⟩ := saved_registers_come_back m Sink.unlimited [0, 7, 0] (by simp)
  have h := hroom hlen
  rw [if_neg (by decide)] at h
  have hfilled := hfull (by decide)
  rw [if_neg (by decide)] at hfilled
  have hsaved := h.saved
  exact ⟨h.result, h.registers, h.pc, hsaved 0 (by decide), hsaved 1 (by decide), hfilled.stops⟩

end LS8.Machine
