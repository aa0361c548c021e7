import LS8.Proofs.Machine.Stack
import LS8.Proofs.Machine.Trail

/-!
Runs of code that does not change itself.  A sweep decodes memory from an address on, one instruction after the other,
and ends at a `HLT` or where an instruction does not fit.  As long as no `PUSH` stores to what is still ahead of it in
the sweep, the steps of a run start where the sweep goes and find the bytes that the sweep has found (`Intact`), and the
run ends as the sweep does, if its steps can be counted.  Main statement: `run_follows_sweep`.
-/

namespace LS8

/-! ### Sweeps -/

namespace Sweep

variable {ram ram' : Ram} {p y : Nat} {i : Instruction}

/-- The number of bytes of the instruction at an address; a byte that is no opcode is on its own. -/
def width (ram : Ram) (p : Nat) : Nat :=
  match Instruction.decode (ram.cell p) with
  | .ok i => i.size
  | .error _ => 1

/-- There is a `HLT` at the address. -/
def HltAt (ram : Ram) (p : Nat) : Prop := p < 256 ∧ ram.cell p = 0x01

/-- The instruction at the address has bytes past the end of memory.  At the end itself and after it there is nothing
but such bytes. -/
def Overruns (ram : Ram) (p : Nat) : Prop := 256 < p + width ram p

instance : Decidable (HltAt ram p) := inferInstanceAs (Decidable (_ ∧ _))

instance : Decidable (Overruns ram p) := inferInstanceAs (Decidable (_ < _))

theorem width_pos (ram : Ram) (p : Nat) : 0 < width ram p := by
  unfold width
  split
  · exact Nat.lt_of_lt_of_le Nat.one_pos (Nat.le_add_right 1 _)
  · exact Nat.one_pos

theorem width_of_opcode (h : ram.cell p = i.opcode) : width ram p = i.size := by
  rw [width, h, Instruction.decode_opcode]

theorem width_of_no_opcode (h : ∀ i : Instruction, ram.cell p ≠ i.opcode) : width ram p = 1 := by
  unfold width
  split
  · next i hi => exact absurd (Instruction.decode_eq_ok_iff.mp hi).symm (h i)
  · rfl

theorem width_congr (h : ram'.cell p = ram.cell p) : width ram' p = width ram p := by
  rw [width, h, width]

theorem HltAt.width (h : HltAt ram p) : width ram p = 1 := width_of_opcode (i := .hlt) h.2

theorem HltAt.not_overruns (h : HltAt ram p) : ¬ Overruns ram p := by
  have := h.1
  rw [Overruns, h.width]
  omega

/-- The addresses of the sweep from an address.  At the last one there is a `HLT` or an instruction that does not fit,
or it is the end of memory. -/
def addresses (ram : Ram) (p : Nat) : List Nat :=
  if HltAt ram p ∨ Overruns ram p then [p] else p :: addresses ram (p + width ram p)
termination_by 256 - p
decreasing_by
  next h =>
    have := width_pos ram p
    simp only [Overruns, not_or] at h
    omega

theorem addresses_of_ends (h : HltAt ram p ∨ Overruns ram p) : addresses ram p = [p] := by
  rw [addresses, if_pos h]

theorem addresses_of_not_ends (h : ¬ (HltAt ram p ∨ Overruns ram p)) :
    addresses ram p = p :: addresses ram (p + width ram p) := by
  rw [addresses, if_neg h]

theorem addresses_eq_cons (ram : Ram) (p : Nat) : ∃ ps, addresses ram p = p :: ps := by
  rw [addresses]
  split <;> exact ⟨_, rfl⟩

theorem addresses_ne_nil (ram : Ram) (p : Nat) : addresses ram p ≠ [] := by
  obtain ⟨ps, hps⟩ := addresses_eq_cons ram p
  rw [hps]
  exact List.cons_ne_nil p ps

/-- The address at which the sweep ends. -/
def last (ram : Ram) (p : Nat) : Nat := (addresses ram p).getLast (addresses_ne_nil ram p)

/-- The first address that does not matter to the sweep: the one after the `HLT`, or the end of memory if there is
none. -/
def limit (ram : Ram) (p : Nat) : Nat := if HltAt ram (last ram p) then last ram p + 1 else 256

theorem last_of_ends (h : HltAt ram p ∨ Overruns ram p) : last ram p = p := by
  simp only [last, addresses_of_ends h, List.getLast_singleton]

theorem last_of_not_ends (h : ¬ (HltAt ram p ∨ Overruns ram p)) : last ram p = last ram (p + width ram p) := by
  simp only [last, addresses_of_not_ends h, List.getLast_cons (addresses_ne_nil ram _)]

theorem limit_of_not_ends (h : ¬ (HltAt ram p ∨ Overruns ram p)) : limit ram p = limit ram (p + width ram p) := by
  rw [limit, limit, last_of_not_ends h]

theorem le_last (ram : Ram) (p : Nat) : p ≤ last ram p := by
  fun_induction addresses ram p with
  | case1 p h => exact Nat.le_of_eq (last_of_ends h).symm
  | case2 p h ih =>
    rw [last_of_not_ends h]
    omega

/-- The bytes that are decoded at an address lie before the limit as far as they exist. -/
theorem lt_limit (hy : y < p + width ram p) (hy' : y < 256) : y < limit ram p := by
  unfold limit
  split
  · next hlt =>
    by_cases h : HltAt ram p ∨ Overruns ram p
    · rw [last_of_ends h] at hlt ⊢
      rwa [← hlt.width]
    · have := le_last ram (p + width ram p)
      rw [last_of_not_ends h]
      omega
  · exact hy'

end Sweep

namespace Machine

section

variable [Build] {σ : Type} [Writer σ] {m m' : Machine} {w : σ} {i : Instruction} {a b : UInt8} {e : Effect}
  {f : Failure} {r : Attempt Failure Unit σ} {starts : List (Machine × σ)} {q : Attempt Interruption UInt64 σ}
  {ram : Ram}

/-! ### What a step does to memory -/

/-- The step stores to an address: it is a `PUSH` that succeeds, and the stack pointer is one above the address. -/
structure Stores (m : Machine) (w : σ) (x : Nat) : Prop where
  push : ∃ a b, Fetches m .push a b
  succeeds : (m.step w).result = .ok ()
  pointer : m.registers.sp.toNat = x + 1

omit [Build] in
theorem ram_of_performs (h : Performs m i a b e m') :
    (i ≠ .push ∧ m'.ram = m.ram) ∨
      i = .push ∧ m.registers.sp ≠ 0 ∧ m'.ram = m.ram.put (m.registers.sp - 1).toNat (m.lowered.value a) := by
  cases h with
  | push b hsp ha => exact .inr ⟨rfl, hsp, rfl⟩
  | combine hi =>
    refine .inl ⟨?_, rfl⟩
    rintro rfl
    cases hi
  | _ => exact .inl ⟨nofun, rfl⟩

/-- A step that does not succeed leaves memory as it is. -/
theorem ram_of_stepsTo (h : StepsTo m w r) (hr : r.result ≠ .ok ()) : r.machine.ram = m.ram := by
  cases h with
  | unreadable | overflowed | cut => rfl
  | skipped | done => exact absurd rfl hr
  | stopped hf hc hs =>
    obtain ⟨r, rfl⟩ := registers_of_stops hs
    rfl
  | refused hf hc hp hw =>
    obtain ⟨-, rfl⟩ := prn_of_refused hp hw
    rfl

theorem ram_of_stepsTo_ok (h : StepsTo m w r) (hr : r.result = .ok ()) :
    ((¬ ∃ a b, Fetches m .push a b) ∧ r.machine.ram = m.ram) ∨
      ∃ a b, Fetches m .push a b ∧ m.registers.sp ≠ 0 ∧
        r.machine.ram = m.ram.put (m.registers.sp - 1).toNat (m.lowered.value a) := by
  cases h with
  | unreadable | overflowed | cut | stopped | refused => cases hr
  | skipped hpc hc hop => exact .inl ⟨fun ⟨a, b, hf⟩ => hop _ hf.opcode, rfl⟩
  | @done i a b e m' hf hc hp =>
    rcases ram_of_performs hp with ⟨hi, hram⟩ | ⟨rfl, hsp, hram⟩
    · exact .inl ⟨fun ⟨a, b, hf'⟩ => hi (hf.unique hf').1, hram⟩
    · exact .inr ⟨a, b, hf, hsp, hram⟩

/-- A step replaces the cell it stores to, if there is one, and leaves the others. -/
theorem cell_step (m : Machine) (w : σ) (y : Nat) :
    Stores m w y ∨ (m.step w).machine.ram.cell y = m.ram.cell y := by
  have h := stepsTo_step m w
  by_cases hr : (m.step w).result = .ok ()
  · rcases ram_of_stepsTo_ok h hr with ⟨-, hram⟩ | ⟨a, b, hf, hsp, hram⟩
    · exact .inr (by rw [hram])
    · have hnat := toNat_sub_one hsp
      rw [hram, Memory.cell_put _ (UInt8.toNat_lt _)]
      by_cases hy : y = (m.registers.sp - 1).toNat
      · exact .inl ⟨⟨a, b, hf⟩, hr, by omega⟩
      · exact .inr (if_neg hy)
  · exact .inr (by rw [ram_of_stepsTo h hr])

/-! ### Where a step goes -/

/-- The failures of an instruction that has been fetched as a whole. -/
inductive Blocked : Failure → Prop
  | noRegister (index : UInt8) : Blocked (.fault (.noRegister index))
  | stackOverflow : Blocked (.fault .stackOverflow)
  | stackUnderflow : Blocked (.fault .stackUnderflow)
  | output (reason : String) : Blocked (.output reason)

omit [Build] in
theorem blocked_of_stops (h : Stops m i a b f m') : Blocked f := by
  cases h <;> constructor

/-- A step that succeeds goes on after its instruction. -/
theorem here_eq_of_stepsTo_ok (h : StepsTo m w r) (hr : r.result = .ok ()) :
    r.machine.here = m.here + Sweep.width m.ram m.here ∧ ¬ Sweep.Overruns m.ram m.here := by
  unfold Sweep.Overruns
  cases h with
  | unreadable | overflowed | cut | stopped | refused => cases hr
  | skipped hpc hc hop =>
    rw [Sweep.width_of_no_opcode hop]
    exact ⟨here_skip_of_lt (m := m.begun) hpc (by decide), Nat.not_lt.mpr hpc⟩
  | @done i a b e m' hf hc hp =>
    have hpc := pc_of_performs hp
    rw [Sweep.width_of_opcode hf.opcode]
    refine ⟨?_, Nat.not_lt.mpr hf.here_skip.2⟩
    simp only [here, skip, hpc]
    exact hf.here_skip.1

/-- A step that fails has an instruction that does not fit or one that is blocked. -/
theorem failure_of_stepsTo (h : StepsTo m w r) (hr : r.result = .error f) :
    (Sweep.Overruns m.ram m.here ∧ f = .fault (.pastEnd m.here)) ∨ Blocked f := by
  cases h with
  | unreadable hpc =>
    cases hr
    have := Sweep.width_pos m.ram m.here
    exact .inl ⟨by unfold Sweep.Overruns; omega, rfl⟩
  | overflowed | skipped | done => cases hr
  | cut hpc hc hop hend =>
    cases hr
    refine .inl ⟨?_, rfl⟩
    rw [Sweep.Overruns, Sweep.width_of_opcode hop, Instruction.size]
    omega
  | stopped hf hc hs =>
    cases hr
    exact .inr (blocked_of_stops hs)
  | refused =>
    cases hr
    exact .inr (.output _)

/-! ### Runs along a sweep -/

/-- The machine has what a sweep of `ram` from its program counter decodes. -/
def Intact (ram : Ram) (m : Machine) : Prop := ∀ y, m.here ≤ y → y < Sweep.limit ram m.here → m.ram.cell y = ram.cell y

omit [Build] in
theorem Intact.cell {y : Nat} (h : Intact ram m) (hy : m.here ≤ y) (hy' : y < m.here + Sweep.width ram m.here) :
    m.ram.cell y = ram.cell y := by
  by_cases hlt : y < 256
  · exact h y hy (Sweep.lt_limit hy' hlt)
  · rw [Memory.cell_of_ge _ (by omega), Memory.cell_of_ge _ (by omega)]

omit [Build] in
theorem Intact.cell_here (h : Intact ram m) : m.ram.cell m.here = ram.cell m.here :=
  h.cell (Nat.le_refl _) (Nat.lt_add_of_pos_right (Sweep.width_pos ram m.here))

omit [Build] in
theorem Intact.read {k : Nat} (h : Intact ram m) (hk : k < Sweep.width ram m.here) :
    m.ram.read (m.here + k) = ram.read (m.here + k) := by
  rw [Memory.read_eq, Memory.read_eq, h.cell (Nat.le_add_right _ _) (Nat.add_lt_add_left hk _)]

omit [Build] in
theorem Intact.overruns_iff (h : Intact ram m) : Sweep.Overruns m.ram m.here ↔ Sweep.Overruns ram m.here := by
  rw [Sweep.Overruns, Sweep.width_congr h.cell_here, Sweep.Overruns]

/-- A step that stores nothing ahead of itself and below the limit goes on along the sweep. -/
theorem Intact.step (h : Intact ram m) (hs : (m.step w).result = .ok ()) (hlt : ¬ Sweep.HltAt ram m.here)
    (hstores : ∀ x, Stores m w x → m.here + 2 ≤ x → Sweep.limit ram m.here ≤ x) :
    ¬ (Sweep.HltAt ram m.here ∨ Sweep.Overruns ram m.here) ∧
      (m.step w).machine.here = m.here + Sweep.width ram m.here ∧ Intact ram (m.step w).machine := by
  obtain ⟨hpc, hfits⟩ := here_eq_of_stepsTo_ok (stepsTo_step m w) hs
  rw [Sweep.width_congr h.cell_here] at hpc
  rw [h.overruns_iff] at hfits
  have hends := not_or.mpr ⟨hlt, hfits⟩
  refine ⟨hends, hpc, fun y hy hy' => ?_⟩
  rw [hpc] at hy
  rw [hpc, ← Sweep.limit_of_not_ends hends] at hy'
  have heq := h y (by omega) hy'
  rcases cell_step m w y with hst | hcell
  · -- the step is a `PUSH`, whose two bytes are over, and what comes next is out of its reach
    obtain ⟨a, b, hf⟩ := hst.push
    have hwidth : Sweep.width ram m.here = 2 := Sweep.width_of_opcode (h.cell_here.symm.trans hf.opcode)
    have := hstores y hst (by omega)
    omega
  · rw [hcell, heq]

/-- A run along a sweep of `ram`: its steps start at the addresses of the sweep, one after the other, with the bytes
that the sweep decodes there, and if no instruction is blocked it ends as the sweep does. -/
structure Along (ram : Ram) (m : Machine) (starts : List (Machine × σ)) (q : Attempt Interruption UInt64 σ) : Prop where
  addresses : starts.map (·.1.here) <+: Sweep.addresses ram m.here
  intact : ∀ s ∈ starts, Intact ram s.1
  ends : q.result ≠ .overflow → (∀ s ∈ starts, ∀ f, (s.1.step s.2).result = .error f → ¬ Blocked f) →
    starts.map (·.1.here) = Sweep.addresses ram m.here ∧
      q.result =
        if Sweep.HltAt ram (Sweep.last ram m.here) then .ok (m.cycles + UInt64.ofNat starts.length)
        else .error ⟨Sweep.last ram m.here, .fault (.pastEnd (Sweep.last ram m.here))⟩

omit [Build] [Writer σ] in
theorem singleton_prefix_addresses (ram : Ram) (m : Machine) (w : σ) :
    [(m, w)].map (·.1.here) <+: Sweep.addresses ram m.here := by
  obtain ⟨ps, hps⟩ := Sweep.addresses_eq_cons ram m.here
  rw [hps, List.map_singleton]
  exact List.cons_prefix_cons.mpr ⟨rfl, List.nil_prefix⟩

theorem along_of_failed (h : Intact ram m) (hf : (m.step w).result = .error f) :
    Along ram m [(m, w)] { m.step w with result := .error ⟨m.here, f⟩ } where
  addresses := singleton_prefix_addresses ram m w
  intact := List.forall_mem_singleton.mpr h
  ends _ hblocked := by
    rcases failure_of_stepsTo (stepsTo_step m w) hf with ⟨hover, rfl⟩ | hb
    · rw [h.overruns_iff] at hover
      have hlt : ¬ Sweep.HltAt ram m.here := fun hlt => hlt.not_overruns hover
      rw [Sweep.addresses_of_ends (.inr hover), Sweep.last_of_ends (.inr hover), if_neg hlt]
      exact ⟨rfl, rfl⟩
    · exact absurd hb (hblocked (m, w) (List.mem_singleton_self _) f hf)

theorem along_of_overflow (h : Intact ram m) (hq : q.result = .overflow) : Along ram m [(m, w)] q where
  addresses := singleton_prefix_addresses ram m w
  intact := List.forall_mem_singleton.mpr h
  ends hno := absurd hq hno

theorem along_of_hlt (h : Intact ram m) (hlt : Sweep.HltAt ram m.here) (hq : q.result = .ok (m.cycles + 1)) :
    Along ram m [(m, w)] q where
  addresses := by
    rw [Sweep.addresses_of_ends (.inl hlt)]
    exact List.prefix_refl _
  intact := List.forall_mem_singleton.mpr h
  ends _ _ := by
    rw [Sweep.addresses_of_ends (.inl hlt), Sweep.last_of_ends (.inl hlt), if_pos hlt]
    exact ⟨rfl, hq⟩

theorem Along.stepped (hnext : Along ram (m.step w).machine starts q) (h : Intact ram m)
    (hs : (m.step w).result = .ok ()) (hends : ¬ (Sweep.HltAt ram m.here ∨ Sweep.Overruns ram m.here))
    (hpc : (m.step w).machine.here = m.here + Sweep.width ram m.here) :
    Along ram m ((m, w) :: starts) (q.after (m.step w).events) := by
  have haddresses : Sweep.addresses ram m.here = m.here :: Sweep.addresses ram (m.step w).machine.here := by
    rw [Sweep.addresses_of_not_ends hends, hpc]
  have hcycles : (m.step w).machine.cycles = m.cycles + 1 := by
    have := cycles_of_stepsTo (stepsTo_step m w)
    rwa [if_pos (here_of_stepsTo_ok (stepsTo_step m w) hs).1] at this
  refine ⟨?_, List.forall_mem_cons.mpr ⟨h, hnext.intact⟩, fun hno hblocked => ?_⟩
  · rw [haddresses, List.map_cons, List.cons_prefix_cons]
    exact ⟨rfl, hnext.addresses⟩
  · obtain ⟨hall, hresult⟩ := hnext.ends hno (List.forall_mem_cons.mp hblocked).2
    refine ⟨by rw [haddresses, List.map_cons, hall], ?_⟩
    have hcount : m.cycles + 1 + UInt64.ofNat starts.length = m.cycles + UInt64.ofNat (starts.length + 1) := by
      rw [Nat.add_comm starts.length]
      exact add_ofNat_add_ofNat m.cycles 1 starts.length
    rw [Attempt.after, hresult, Sweep.last_of_not_ends hends, ← hpc, hcycles, hcount, List.length_cons]

theorem Trail.along (ht : Trail m w starts q) (hm : m.running = true) (h : Intact ram m)
    (hstores : ∀ s ∈ starts, ∀ x, Stores s.1 s.2 x → s.1.here + 2 ≤ x → Sweep.limit ram m.here ≤ x) :
    Along ram m starts q := by
  induction ht with
  | halted hm' => simp [hm] at hm'
  | failed hm' hf => exact along_of_failed h hf
  | overflowed => exact along_of_overflow h rfl
  | @stepped m w starts q hm' hs ht ih =>
    obtain ⟨hfirst, hrest⟩ := List.forall_mem_cons.mp hstores
    by_cases hlt : Sweep.HltAt ram m.here
    · -- the machine has been stopped, so that this step is the last one
      have hb := (here_of_stepsTo_ok (stepsTo_step m w) hs).1
      have hstop := (step_of_atHlt ⟨hlt.1, h.cell_here.trans hlt.2⟩ hb.2 w).2
      obtain ⟨rfl, rfl⟩ := ht.of_not_running (by rw [hstop]; rfl)
      exact along_of_hlt h hlt (by rw [hstop]; rfl)
    · obtain ⟨hends, hpc, hnext⟩ := h.step hs hlt hfirst
      have hrun := running_of_stepsTo (stepsTo_step m w) fun hat => hlt ⟨hat.1, h.cell_here.symm.trans hat.2⟩
      have hlimit := Sweep.limit_of_not_ends hends
      rw [hlimit, ← hpc] at hrest
      exact (ih (hrun.trans hm) hnext hrest).stepped h hs hends hpc

/-- **Code that is not stored to runs as its sweep.**  If no `PUSH` stores ahead of itself and below the limit of the
sweep, the steps of the run start at the addresses of the sweep, one after the other, with the bytes that stood there at
first.  If moreover no instruction is blocked, the run gets to the end of the sweep: it halts at the `HLT`, or it fails
for the address at which the sweep ends.  It gives up on the way if that takes more steps than can be counted. -/
theorem run_follows_sweep (m : Machine) (w : σ) (hm : m.running = true) :
    ∃ starts : List (Machine × σ),
      (∀ starts' q, Trail m w starts' q ↔ starts' = starts ∧ q = m.run w) ∧
      ((∀ s ∈ starts, ∀ x, Stores s.1 s.2 x → s.1.here + 2 ≤ x → Sweep.limit m.ram m.here ≤ x) →
        (∀ (i : Nat) (s : Machine × σ), starts[i]? = some s → (Sweep.addresses m.ram m.here)[i]? = some s.1.here ∧
          ∀ k < Sweep.width m.ram s.1.here, s.1.ram.read (s.1.here + k) = m.ram.read (s.1.here + k)) ∧
        ((∀ s ∈ starts, ∀ f, (s.1.step s.2).result = .error f → ¬ Blocked f) →
          if Overflows m.cycles ((Sweep.addresses m.ram m.here).countP (· < 256)) then
            (m.run w).result = .overflow
          else
            starts.map (·.1.here) = Sweep.addresses m.ram m.here ∧
            (m.run w).result =
              if Sweep.HltAt m.ram (Sweep.last m.ram m.here) then
                .ok (m.cycles + UInt64.ofNat (Sweep.addresses m.ram m.here).length)
              else .error ⟨Sweep.last m.ram m.here, .fault (.pastEnd (Sweep.last m.ram m.here))⟩)) := by
  obtain ⟨starts, hiff⟩ := trail_iff m w
  have ht : Trail m w starts (m.run w) := (hiff starts _).mpr ⟨rfl, rfl⟩
  refine ⟨starts, hiff, fun hstores => ?_⟩
  have halong := ht.along hm (fun _ _ _ => rfl) hstores
  refine ⟨fun i s hs => ⟨?_, fun k hk => Intact.read (halong.intact s (List.mem_of_getElem? hs)) hk⟩, fun hblocked => ?_⟩
  · obtain ⟨hi, rfl⟩ := List.getElem?_eq_some_iff.mp hs
    have haddress := List.prefix_iff_getElem?.mp halong.addresses i (by rwa [List.length_map])
    rwa [List.getElem_map] at haddress
  · have hcount : (starts.countP fun s => s.1.here < 256) = (starts.map (·.1.here)).countP (· < 256) := by
      rw [List.countP_map]
      rfl
    by_cases ho : (m.run w).result = .overflow
    · -- the steps until then are some of those of the sweep
      have hsome := ht.overflow_iff.mp ho
      rw [hcount] at hsome
      rwa [if_pos (hsome.mono (halong.addresses.sublist.countP_le))]
    · obtain ⟨hall, hresult⟩ := halong.ends ho hblocked
      have hno := mt ht.overflow_iff.mpr ho
      rw [hcount, hall] at hno
      rw [if_neg hno]
      refine ⟨hall, ?_⟩
      rw [hresult, ← hall, List.length_map]

end

/-- A program that stores to an operand it is done with, and has a byte that is no opcode before its `HLT`. -/
theorem run_follows_sweep_past_store :
    let m : Machine := { ram := Memory.zero.overlay 0 [0x82, 7, 3, 0x45, 0, 0, 1] }
    Sweep.addresses m.ram m.here = [0, 3, 5, 6] ∧ Sweep.limit m.ram m.here = 7 ∧
      Stores (m.step Sink.unlimited).machine Sink.unlimited 2 ∧
      (m.run Sink.unlimited).result = .ok 4 ∧
      ∃ starts, Trail m Sink.unlimited starts (m.run Sink.unlimited) ∧ starts.map (·.1.here) = [0, 3, 5, 6] := by
  intro m
  have haddresses : Sweep.addresses m.ram m.here = [0, 3, 5, 6] := by decide +kernel
  have hlimit : Sweep.limit m.ram m.here = 7 := by decide +kernel
  -- the states of the run, one step after the other
  let w := Sink.unlimited
  let m₁ := (m.step w).machine
  let w₁ := (m.step w).sink
  let m₂ := (m₁.step w₁).machine
  let w₂ := (m₁.step w₁).sink
  let m₃ := (m₂.step w₂).machine
  let w₃ := (m₂.step w₂).sink
  have h₃ : Trail m₃ w₃ [(m₃, w₃)] _ :=
    .stepped (by decide +kernel) (by decide +kernel) (.halted (by decide +kernel))
  have h₂ : Trail m₂ w₂ [(m₂, w₂), (m₃, w₃)] _ := .stepped (by decide +kernel) (by decide +kernel) h₃
  have h₁ : Trail m₁ w₁ [(m₁, w₁), (m₂, w₂), (m₃, w₃)] _ := .stepped (by decide +kernel) (by decide +kernel) h₂
  have ht : Trail m w [(m, w), (m₁, w₁), (m₂, w₂), (m₃, w₃)] _ := .stepped rfl (by decide +kernel) h₁
  obtain ⟨starts, hiff, h⟩ := run_follows_sweep m w rfl
  obtain ⟨rfl, hrun⟩ := (hiff _ _).mp ht
  have hok : ∀ s ∈ [(m, w), (m₁, w₁), (m₂, w₂), (m₃, w₃)], (s.1.step s.2).result = .ok () := by decide +kernel
  have hbehind : ∀ s ∈ [(m, w), (m₁, w₁), (m₂, w₂), (m₃, w₃)],
      s.1.ram.cell s.1.here = 0x45 → s.1.registers.sp.toNat < s.1.here + 3 := by decide +kernel
  obtain ⟨-, hend⟩ := h fun s hs x hst hx => by
    obtain ⟨a, b, hf⟩ := hst.push
    have hsp := hbehind s hs hf.opcode
    have hx' := hst.pointer
    omega
  have hrest := hend fun s hs f hf => by
    rw [hok s hs] at hf
    cases hf
  have hno : ¬ Overflows m.cycles (List.countP (· < 256) [0, 3, 5, 6]) := by decide
  rw [haddresses, if_neg hno] at hrest
  obtain ⟨hall, hresult⟩ := hrest
  refine ⟨haddresses, hlimit, ⟨⟨0, 0, ⟨by decide +kernel, by decide +kernel, by decide +kernel, by decide⟩⟩,
    by decide +kernel, by decide +kernel⟩, ?_, _, hrun ▸ ht, hall⟩
  rw [hresult, if_pos (by decide +kernel)]
  rfl

end Machine

end LS8
