import LS8.Proofs.Machine.Rules

/-!
The stack of the machine as a list: the cells from the stack pointer on, without the last one of memory, which no stack
can reach.  As long as instructions leave the stack pointer to `PUSH` and `POP`, the list is one of 255 bytes at most to
which `PUSH` adds and from which `POP` takes (`Refines`).  Main statement: `stack_refines_list`, also that a `POP` takes
back what the matching `PUSH` has stored.  A call gives up, its work done, where the program counter cannot be moved on.
-/

namespace LS8.Machine

variable {m m' : Machine} {i : Instruction} {a b v : UInt8} {e : Effect} {f : Failure}

/-- The bytes from `sp` on, as a stack with its top in front. -/
def region (ram : Ram) (sp : UInt8) : List UInt8 := (List.range' sp.toNat (255 - sp.toNat)).map ram.cell

def stack (m : Machine) : List UInt8 := region m.ram m.registers.sp

/-- The byte that `PUSH` of a register stores: for the stack pointer the address it is stored at. -/
def pushed (m : Machine) (a : UInt8) : UInt8 :=
  if a = 7 then UInt8.ofNat (254 - m.stack.length) else m.registers.value a

/-! ### Regions of memory -/

variable {ram : Ram} {sp : UInt8}

theorem toNat_sub_one (h : sp ≠ 0) : (sp - 1).toNat + 1 = sp.toNat := by
  have h0 : sp.toNat ≠ 0 := fun h0 => h (UInt8.toNat_inj.mp h0)
  have hlt := sp.toNat_lt
  rw [UInt8.toNat_sub]
  simp only [UInt8.toNat_one]
  omega

theorem toNat_add_one (h : sp ≠ 255) : (sp + 1).toNat = sp.toNat + 1 := by
  have h255 : sp.toNat ≠ 255 := fun h255 => h (UInt8.toNat_inj.mp h255)
  have hlt := sp.toNat_lt
  rw [UInt8.toNat_add]
  simp only [UInt8.toNat_one]
  omega

theorem length_region : (region ram sp).length = 255 - sp.toNat := by
  simp [region]

theorem region_cons (h : sp ≠ 255) : region ram sp = ram.cell sp.toNat :: region ram (sp + 1) := by
  have hnat := toNat_add_one h
  have hlt := (sp + 1).toNat_lt
  have hlen : 255 - sp.toNat = (255 - (sp.toNat + 1)) + 1 := by omega
  rw [region, region, hnat, hlen, List.range'_succ, List.map_cons]

theorem region_put {x : Nat} (h : x < sp.toNat) : region (ram.put x v) sp = region ram sp := by
  have hlt := sp.toNat_lt
  refine List.map_congr_left fun y hy => ?_
  have hy := (List.mem_range'_1.mp hy).1
  rw [Memory.cell_put _ (by omega), if_neg (by omega)]

/-! ### What instructions do to the stack -/

theorem length_stack_eq_iff : m.stack.length = 255 ↔ m.registers.sp = 0 := by
  have hlt := m.registers.sp.toNat_lt
  rw [stack, length_region, ← UInt8.toNat_inj]
  simp only [UInt8.toNat_zero]
  omega

theorem stack_eq_nil_iff : m.stack = [] ↔ m.registers.sp = 255 := by
  have hlt := m.registers.sp.toNat_lt
  rw [← List.length_eq_zero_iff, stack, length_region, ← UInt8.toNat_inj]
  show _ ↔ m.registers.sp.toNat = 255
  omega

/-- `PUSH` stores the register as it is once the stack pointer has moved. -/
theorem value_lowered (hsp : m.registers.sp ≠ 0) : m.lowered.value a = m.pushed a := by
  rw [lowered, Registers.value_update_seven, pushed]
  by_cases ha : a = 7
  · have hlen : 254 - m.stack.length = (m.registers.sp - 1).toNat := by
      have hnat := toNat_sub_one hsp
      have hlt := m.registers.sp.toNat_lt
      rw [stack, length_region]
      omega
    rw [if_pos ha, if_pos ha, hlen, UInt8.ofNat_toNat]
  · rw [if_neg ha, if_neg ha]

theorem stack_push (hsp : m.registers.sp ≠ 0) :
    stack { m with registers := m.lowered, ram := m.ram.put (m.registers.sp - 1).toNat v } = v :: m.stack := by
  have hlt := m.registers.sp.toNat_lt
  have hnat := toNat_sub_one hsp
  have hne : m.registers.sp - 1 ≠ 255 := fun h => by
    have h255 : (m.registers.sp - 1).toNat = 255 := congrArg UInt8.toNat h
    omega
  have hsucc : m.registers.sp - 1 + 1 = m.registers.sp := UInt8.sub_add_cancel _ _
  have hlow : m.lowered.sp = m.registers.sp - 1 := Registers.sp_update_seven _ _
  -- the byte is written just below the old stack
  rw [stack, hlow, region_cons hne, hsucc, Memory.cell_put _ (by omega), if_pos rfl]
  rw [region_put (by omega), stack]

theorem stack_eq_top_cons (hsp : m.registers.sp ≠ 255) :
    m.stack = m.top :: region m.ram (m.registers.sp + 1) := by
  rw [stack, region_cons hsp, top]

theorem sp_popped (m : Machine) (ha : a < 8) (h7 : a ≠ 7) : (m.popped a).sp = m.registers.sp := by
  rw [popped, Registers.sp_update _ ha, if_neg h7]

theorem stack_pop (m : Machine) (ha : a < 8) (h7 : a ≠ 7) :
    stack { m with registers := (m.popped a).update 7 ((m.popped a).sp + 1) } =
      region m.ram (m.registers.sp + 1) := by
  rw [stack, Registers.sp_update_seven, sp_popped m ha h7]

/-- `POP` stores the top of the stack, unless that is overwritten by the stack pointer. -/
theorem value_pop (m : Machine) (ha : a < 8) (h7 : a ≠ 7) :
    ((m.popped a).update 7 ((m.popped a).sp + 1)).value a = m.top := by
  rw [Registers.value_update_seven, if_neg h7, popped, Registers.value_update _ ha, if_pos rfl]

/-- The other instructions leave the stack as long as they leave the stack pointer. -/
theorem stack_of_performs (h : Performs m i a b e m') (hpush : i ≠ .push) (hpop : i ≠ .pop)
    (h7 : i ∈ [Instruction.ldi, .add, .mul] → a ≠ 7) : m'.stack = m.stack := by
  cases h with
  | hlt | prn => rfl
  | ldi b ha =>
    rw [stack, Registers.sp_update _ ha, if_neg (h7 (by decide))]
    rfl
  | combine hi ha =>
    have h7 : a ≠ 7 := h7 (List.mem_cons_of_mem _ (mem_of_operation hi))
    rw [stack, Registers.sp_update _ ha, if_neg h7]
    rfl
  | push => exact absurd rfl hpush
  | pop => exact absurd rfl hpop

/-! ### Calls -/

/-- The registers of an instruction exist, and it leaves the stack pointer to `PUSH` and `POP`. -/
structure Disciplined (i : Instruction) (a b : UInt8) : Prop where
  first : i ≠ .hlt → a < 8
  second : i ∈ [Instruction.add, .mul] → b < 8
  destination : i ∈ [Instruction.ldi, .add, .mul, .pop] → a ≠ 7

section

variable [Build]

/-- Executes an instruction with output that is never refused. -/
def call (m : Machine) (i : Instruction) (a b : UInt8) : Attempt Failure Unit := m.execute Sink.unlimited i a b

/-- What a call comes to once its instruction has done its work. -/
def advance (m : Machine) (i : Instruction) : Result Failure Unit :=
  if Overflows m.pc i.size then .overflow else .ok ()

/-- What a call does to the stack: `PUSH` and `POP` work on a list of 255 bytes at most. -/
structure Refines (m : Machine) (i : Instruction) (a b : UInt8) : Prop where
  push (h : i = .push) (hroom : m.stack.length < 255) :
    (m.call i a b).result = m.advance i ∧ (m.call i a b).machine.stack = m.pushed a :: m.stack
  push_full (h : i = .push) (hfull : m.stack.length = 255) :
    (m.call i a b).result = .error (.fault .stackOverflow) ∧ (m.call i a b).machine = m
  pop (h : i = .pop) {v : UInt8} {s : List UInt8} (hs : m.stack = v :: s) :
    (m.call i a b).result = m.advance i ∧ (m.call i a b).machine.registers.read a = .ok v ∧
      (m.call i a b).machine.stack = s
  pop_empty (h : i = .pop) (hs : m.stack = []) :
    (m.call i a b).result = .error (.fault .stackUnderflow) ∧ (m.call i a b).machine = m
  other (hpush : i ≠ .push) (hpop : i ≠ .pop) :
    (m.call i a b).result = m.advance i ∧ (m.call i a b).machine.stack = m.stack

omit [Build] in
theorem length_stack_le (m : Machine) : m.stack.length ≤ 255 := by
  rw [stack, length_region]
  omega

theorem call_of_performs (h : Performs m i a b e m') :
    (m.call i a b).result = m.advance i ∧ ∃ pc, (m.call i a b).machine = { m' with pc } := by
  rw [call, execute_of_performs h rfl, advance]
  split
  · exact ⟨rfl, m'.pc, rfl⟩
  · exact ⟨rfl, _, rfl⟩

theorem call_of_stops (h : Stops m i a b f m') :
    (m.call i a b).result = .error f ∧ (m.call i a b).machine = m' := by
  rw [call, execute_of_stops h]
  exact ⟨rfl, rfl⟩

omit [Build] in
/-- An instruction whose registers exist fails for the bounds of the stack only. -/
theorem Disciplined.performs (hc : Disciplined i a b) (hpush : i ≠ .push) (hpop : i ≠ .pop) (m : Machine) :
    ∃ e m', Performs m i a b e m' := by
  rcases performs_or_stops m i a b with hp | ⟨f, m', hs⟩
  · exact hp
  · exfalso
    cases hs with
    | ldi b ha | prn b ha => exact ha (hc.first nofun)
    | first b hi ha => exact ha (hc.first (ne_hlt_of_operation hi))
    | second hi ha hb => exact hb (hc.second (mem_of_operation hi))
    | full | lowered => exact hpush rfl
    | empty | popped | brimmed => exact hpop rfl

theorem refines_call (m : Machine) (hc : Disciplined i a b) : Refines m i a b where
  push h hroom := by
    subst h
    have hsp : m.registers.sp ≠ 0 := fun h => by
      rw [← length_stack_eq_iff] at h
      omega
    obtain ⟨hok, pc, hm⟩ := call_of_performs (.push b hsp (hc.first nofun))
    refine ⟨hok, ?_⟩
    rw [hm, ← value_lowered hsp]
    exact stack_push hsp
  push_full h hfull := by
    subst h
    exact call_of_stops (.full a b (length_stack_eq_iff.mp hfull))
  pop h v s hs := by
    subst h
    have ha : a < 8 := hc.first nofun
    have h7 : a ≠ 7 := hc.destination (by decide)
    have hsp : m.registers.sp ≠ 255 := fun h => by
      rw [stack_eq_nil_iff.mpr h] at hs
      cases hs
    have hp : (m.popped a).sp ≠ 255 := by rwa [sp_popped m ha h7]
    rw [stack_eq_top_cons hsp] at hs
    obtain ⟨rfl, rfl⟩ := List.cons.inj hs
    obtain ⟨hok, pc, hm⟩ := call_of_performs (.pop b hsp ha hp)
    rw [hm, Registers.read_eq, if_pos ha]
    exact ⟨hok, congrArg Except.ok (value_pop m ha h7), stack_pop m ha h7⟩
  pop_empty h hs := by
    subst h
    exact call_of_stops (.empty a b (stack_eq_nil_iff.mp hs))
  other hpush hpop := by
    obtain ⟨e, m', hp⟩ := hc.performs hpush hpop m
    obtain ⟨hok, pc, hm⟩ := call_of_performs hp
    have hstack : m'.stack = m.stack :=
      stack_of_performs hp hpush hpop fun hi => hc.destination (List.mem_append_left [Instruction.pop] hi)
    rw [hm]
    exact ⟨hok, hstack⟩

/-! ### Sequences of calls -/

/-- An instruction with its two operand bytes. -/
structure Call where
  instruction : Instruction
  first : UInt8
  second : UInt8

/-- The machine after a sequence of calls, failing ones included. -/
def calls (m : Machine) (cs : List Call) : Machine :=
  cs.foldl (fun m c => (m.call c.instruction c.first c.second).machine) m

/-- The stack never gets lower than it is before the calls, and is as high after them.  A call that fails counts for
nothing. -/
def Balanced (m : Machine) (cs : List Call) : Prop :=
  (∀ ds, ds <+: cs → m.stack.length ≤ (m.calls ds).stack.length) ∧ (m.calls cs).stack.length = m.stack.length

theorem calls_append (m : Machine) (cs ds : List Call) : m.calls (cs ++ ds) = (m.calls cs).calls ds :=
  List.foldl_append

/-- A call changes the stack by one byte at its top at most. -/
theorem stack_call (m : Machine) (hc : Disciplined i a b) :
    (m.call i a b).machine.stack = m.stack ∨ (∃ v, (m.call i a b).machine.stack = v :: m.stack) ∨
      ∃ v, m.stack = v :: (m.call i a b).machine.stack := by
  have h := refines_call m hc
  by_cases hpush : i = .push
  · rcases Nat.lt_or_eq_of_le m.length_stack_le with hroom | hfull
    · exact .inr (.inl ⟨_, (h.push hpush hroom).2⟩)
    · exact .inl (by rw [(h.push_full hpush hfull).2])
  · by_cases hpop : i = .pop
    · cases hs : m.stack with
      | nil => exact .inl (by rw [(h.pop_empty hpop hs).2, hs])
      | cons v s => exact .inr (.inr ⟨v, by rw [(h.pop hpop hs).2.2]⟩)
    · exact .inl (h.other hpush hpop).2

/-- The bytes at the bottom stay as long as the stack does not get lower than they are. -/
theorem suffix_call {base : List UInt8} (hc : Disciplined i a b) (hbase : base <:+ m.stack)
    (hlow : base.length ≤ (m.call i a b).machine.stack.length) : base <:+ (m.call i a b).machine.stack := by
  rcases stack_call m hc with h | ⟨v, h⟩ | ⟨v, h⟩
  · rwa [h]
  · rw [h]
    exact hbase.trans (List.suffix_cons v m.stack)
  · rw [h] at hbase
    rcases List.suffix_cons_iff.mp hbase with rfl | hbase
    · -- a `POP` out of the base would leave the stack lower than the base
      exact absurd hlow (Nat.not_succ_le_self _)
    · exact hbase

theorem suffix_calls {base : List UInt8} {cs : List Call}
    (hcs : ∀ c ∈ cs, Disciplined c.instruction c.first c.second) (hbase : base <:+ m.stack)
    (hlow : ∀ ds, ds <+: cs → base.length ≤ (m.calls ds).stack.length) : base <:+ (m.calls cs).stack := by
  induction cs generalizing m with
  | nil => exact hbase
  | cons c cs ih =>
    obtain ⟨hc, hcs⟩ := List.forall_mem_cons.mp hcs
    have hfirst := suffix_call hc hbase (hlow [c] (by simp))
    exact ih hcs hfirst fun ds hds => hlow (c :: ds) (List.cons_prefix_cons.mpr ⟨rfl, hds⟩)

theorem Balanced.stack_eq {cs : List Call} (h : Balanced m cs)
    (hcs : ∀ c ∈ cs, Disciplined c.instruction c.first c.second) : (m.calls cs).stack = m.stack :=
  ((suffix_calls hcs List.suffix_rfl h.1).eq_of_length h.2.symm).symm

/-- **The stack is a list of 255 bytes at most.**  Every call of a sequence works on it as `Refines` says, and a `POP`
that matches a `PUSH`, with balanced calls in between, takes back the byte that was stored. -/
theorem stack_refines_list (m : Machine) (cs : List Call)
    (hcs : ∀ c ∈ cs, Disciplined c.instruction c.first c.second) :
    (∀ before c after, cs = before ++ c :: after →
      (m.calls before).stack.length ≤ 255 ∧ Refines (m.calls before) c.instruction c.first c.second) ∧
    ∀ before between after a b x y, cs = before ++ ⟨.push, a, x⟩ :: between ++ ⟨.pop, b, y⟩ :: after →
      (m.calls before).stack.length < 255 → Balanced (m.calls (before ++ [⟨.push, a, x⟩])) between →
      let r := (m.calls (before ++ ⟨.push, a, x⟩ :: between)).call .pop b y
      r.result = (m.calls (before ++ ⟨.push, a, x⟩ :: between)).advance .pop ∧
        r.machine.registers.read b = .ok ((m.calls before).pushed a) ∧
        r.machine.stack = (m.calls before).stack := by
  refine ⟨?_, ?_⟩
  · rintro before c after rfl
    exact ⟨length_stack_le _, refines_call _ (hcs c (by simp))⟩
  · rintro before between after a b x y rfl hroom hbalanced r
    have hpush := refines_call (m.calls before) (hcs ⟨.push, a, x⟩ (by simp))
    have hpop := refines_call (m.calls (before ++ ⟨.push, a, x⟩ :: between)) (hcs ⟨.pop, b, y⟩ (by simp))
    -- after the balanced calls the stack is as `PUSH` has left it
    have hstack : (m.calls (before ++ ⟨.push, a, x⟩ :: between)).stack =
        (m.calls before).pushed a :: (m.calls before).stack := by
      rw [List.append_cons, calls_append, hbalanced.stack_eq fun c hc => hcs c (by simp [hc]), calls_append]
      exact (hpush.push rfl hroom).2
    exact hpop.pop rfl hstack

end

/-- The second `POP` takes back what the first `PUSH` has stored; in between the stack pointer is pushed and popped. -/
theorem pop_takes_back_push :
    let m : Machine := {}
    let before : List Call := [⟨.ldi, 0, 8⟩]
    let between : List Call := [⟨.push, 7, 0⟩, ⟨.pop, 1, 0⟩]
    let r := (m.calls (before ++ ⟨.push, 0, 0⟩ :: between)).call .pop 2 0
    Balanced (m.calls (before ++ [⟨.push, 0, 0⟩])) between ∧
      r.result = .ok () ∧ r.machine.registers.read 2 = .ok 8 ∧ r.machine.stack = (m.calls before).stack := by
  intro m before between
  have hcs : ∀ c ∈ before ++ ⟨.push, 0, 0⟩ :: between ++ [⟨.pop, 2, 0⟩],
      Disciplined (Call.instruction c) c.first c.second := by
    intro c hc
    simp only [before, between, List.cons_append, List.nil_append, List.mem_cons, List.not_mem_nil, or_false] at hc
    rcases hc with rfl | rfl | rfl | rfl | rfl <;> exact ⟨by decide, by decide, by decide⟩
  have hroom : (m.calls before).stack.length < 255 := by decide +kernel
  have hbalanced : Balanced (m.calls (before ++ [⟨.push, 0, 0⟩])) between := by
    refine ⟨fun ds hds => ?_, by decide +kernel⟩
    rcases List.prefix_cons_iff.mp hds with rfl | ⟨ds, rfl, hpop⟩
    · decide +kernel
    · rcases List.prefix_cons_iff.mp hpop with rfl | ⟨ds, rfl, hnil⟩
      · decide +kernel
      · obtain rfl := List.prefix_nil.mp hnil
        decide +kernel
  have hvalue : (m.calls before).pushed 0 = 8 := by decide +kernel
  obtain ⟨-, hlifo⟩ := stack_refines_list m _ hcs
  obtain ⟨hok, hread, hstack⟩ := hlifo before between [] 0 2 0 0 rfl hroom hbalanced
  have hadvance : (m.calls (before ++ ⟨.push, 0, 0⟩ :: between)).advance .pop = .ok () := by decide +kernel
  rw [hvalue] at hread
  exact ⟨hbalanced, hok.trans hadvance, hread, hstack⟩

end LS8.Machine
