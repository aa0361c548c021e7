import LS8.Proofs.Machine.Sweep

/-!
What a run depends on.  Of the memory it starts with, a run depends on its footprint only: the cells that one of its
steps reads before any step has stored to them.  With another memory that has the same footprint every step does the
same (`alike_step`), and what a step stores it stores to both memories, so that they agree after the run wherever they
agreed before it or the run has stored.  Main statement: `run_depends_on_footprint`.
-/

namespace LS8.Machine

section

variable [Build] {σ : Type} [Writer σ] {m m' : Machine} {w : σ} {i : Instruction} {a b : UInt8} {e : Effect}
  {f : Failure} {r : Attempt Failure Unit σ} {starts : List (Machine × σ)} {q : Attempt Interruption UInt64 σ}
  {ram : Ram} {x : Nat}

/-- The step reads a cell: one of the bytes of its instruction, or the cell that a `POP` takes its value from. -/
inductive Reads (m : Machine) : Nat → Prop
  | code {x : Nat} (hle : m.here ≤ x) (hlt : x < m.here + Sweep.width m.ram m.here) (hx : x < 256) : Reads m x
  | top {a b : UInt8} (hf : Fetches m .pop a b) (hsp : m.registers.sp ≠ 255) : Reads m m.registers.sp.toNat

/-- The cells that a run reads before it stores to them, where `starts` are the states its steps start in. -/
def Footprint (starts : List (Machine × σ)) (x : Nat) : Prop :=
  ∃ before s after, starts = before ++ s :: after ∧ Reads s.1 x ∧ ∀ t ∈ before, ¬ Stores t.1 t.2 x

/-- The machine with another memory. -/
def onRam (m : Machine) (ram : Ram) : Machine := { m with ram }

/-- Two attempts come to the same, memory apart: they have the same result and the same output, and leave the same
writer and the same machine.  Their memories agree at certain addresses. -/
structure Alike {ε α : Type} (agreed : Nat → Prop) (r r' : Attempt ε α σ) : Prop where
  result : r'.result = r.result
  printed : Event.printed r'.events = Event.printed r.events
  sink : r'.sink = r.sink
  machine : r'.machine = r.machine.onRam r'.machine.ram
  memory : ∀ x, agreed x → r'.machine.ram.cell x = r.machine.ram.cell x

omit [Build] [Writer σ] in
theorem Alike.mono {ε α : Type} {agreed agreed' : Nat → Prop} {r r' : Attempt ε α σ} (h : Alike agreed r r')
    (hsub : ∀ x, agreed' x → agreed x) : Alike agreed' r r' :=
  ⟨h.result, h.printed, h.sink, h.machine, fun x hx => h.memory x (hsub x hx)⟩

/-! ### Footprints -/

/-- A run reads what its first step reads, and what the others read unless the first step has stored to it. -/
theorem footprint_cons_iff :
    Footprint ((m, w) :: starts) x ↔ Reads m x ∨ ¬ Stores m w x ∧ Footprint starts x := by
  constructor
  · rintro ⟨before, s, after, heq, hreads, hbefore⟩
    cases before with
    | nil =>
      obtain ⟨rfl, -⟩ := List.cons.inj heq
      exact .inl hreads
    | cons t before =>
      obtain ⟨rfl, rfl⟩ := List.cons.inj heq
      obtain ⟨ht, hbefore⟩ := List.forall_mem_cons.mp hbefore
      exact .inr ⟨ht, before, s, after, rfl, hreads, hbefore⟩
  · rintro (hreads | ⟨hs, before, s, after, rfl, hreads, hbefore⟩)
    · exact ⟨[], (m, w), starts, rfl, hreads, by simp⟩
    · exact ⟨(m, w) :: before, s, after, rfl, hreads, List.forall_mem_cons.mpr ⟨hs, hbefore⟩⟩

theorem not_footprint_nil : ¬ Footprint ([] : List (Machine × σ)) x := by
  rintro ⟨before, s, after, heq, -⟩
  simp at heq

omit [Build] in
theorem Reads.lt (h : Reads m x) (hpop : m.ram.cell m.here ≠ 0x46) : x < m.here + Sweep.width m.ram m.here := by
  cases h with
  | code hle hlt hx => exact hlt
  | top hf => exact absurd hf.opcode hpop

/-! ### Instructions on another memory -/

/-- The other memory has the byte that a `POP` takes. -/
def SameTop (m : Machine) (ram : Ram) (i : Instruction) : Prop :=
  i = .pop → m.registers.sp ≠ 255 → (m.onRam ram).top = m.top

omit [Build] in
theorem ram_of_stops (h : Stops m i a b f m') : m'.ram = m.ram := by
  obtain ⟨r, rfl⟩ := registers_of_stops h
  rfl

omit [Build] in
theorem Stops.onRam (h : Stops m i a b f m') (htop : SameTop m ram i) :
    Stops (m.onRam ram) i a b f (m'.onRam ram) := by
  cases h with
  | ldi b ha => exact .ldi b ha
  | prn b ha => exact .prn b ha
  | first b hi ha => exact .first b hi ha
  | second hi ha hb => exact .second hi ha hb
  | full a b hsp => exact .full a b hsp
  | lowered b hsp ha => exact .lowered b hsp ha
  | empty a b hsp => exact .empty a b hsp
  | popped b hsp ha => exact .popped b hsp ha
  | brimmed b hsp h255 => exact .brimmed b hsp ((htop rfl hsp).trans h255)

omit [Build] in
/-- An instruction that does its work does the same on the other memory; if it stores a byte, it stores it to both. -/
theorem Performs.onRam (h : Performs m i a b e m') (htop : SameTop m ram i) :
    ∃ ram', Performs (m.onRam ram) i a b e (m'.onRam ram') ∧
      ∀ x, ram.cell x = m.ram.cell x ∨ (i = .push ∧ m.registers.sp.toNat = x + 1) →
        ram'.cell x = m'.ram.cell x := by
  have kept : i ≠ .push → ∀ x, ram.cell x = m.ram.cell x ∨ (i = .push ∧ m.registers.sp.toNat = x + 1) →
      ram.cell x = m.ram.cell x := by
    intro hi x hx
    exact hx.resolve_right fun h => hi h.1
  cases h with
  | hlt => exact ⟨ram, .hlt a b, kept nofun⟩
  | ldi b ha => exact ⟨ram, .ldi b ha, kept nofun⟩
  | prn b ha => exact ⟨ram, .prn b ha, kept nofun⟩
  | combine hi ha hb =>
    refine ⟨ram, .combine hi ha hb, kept ?_⟩
    rintro rfl
    cases hi
  | push b hsp ha =>
    refine ⟨ram.put (m.registers.sp - 1).toNat (m.lowered.value a), .push b hsp ha, ?_⟩
    intro x hx
    have hnat := toNat_sub_one hsp
    have hlt := m.registers.sp.toNat_lt
    show (ram.put _ _).cell x = (m.ram.put _ _).cell x
    rw [Memory.cell_put _ (by omega), Memory.cell_put _ (by omega)]
    by_cases hx' : x = (m.registers.sp - 1).toNat
    · rw [if_pos hx', if_pos hx']
    · rw [if_neg hx', if_neg hx']
      exact hx.resolve_right fun h => hx' (by omega)
  | pop b hsp ha hp =>
    have htop := htop rfl hsp
    have hpopped : (m.onRam ram).popped a = m.popped a := by
      unfold popped
      rw [htop]
      rfl
    have hperforms : Performs (m.onRam ram) .pop a b _ _ := .pop b hsp ha (by rwa [hpopped])
    rw [hpopped, htop] at hperforms
    exact ⟨ram, hperforms, kept nofun⟩

/-! ### Steps on another memory -/

/-- The other memory has all cells that the step reads. -/
def SameReads (m : Machine) (ram : Ram) : Prop := ∀ x, Reads m x → ram.cell x = m.ram.cell x

omit [Build] in
theorem SameReads.cell {k : Nat} (h : SameReads m ram) (hk : k < Sweep.width m.ram m.here) :
    ram.cell (m.here + k) = m.ram.cell (m.here + k) := by
  by_cases hx : m.here + k < 256
  · exact h _ (.code (by omega) (by omega) hx)
  · rw [Memory.cell_of_ge _ (by omega), Memory.cell_of_ge _ (by omega)]

omit [Build] in
theorem SameReads.opcode (h : SameReads m ram) : ram.cell m.here = m.ram.cell m.here :=
  h.cell (k := 0) (Sweep.width_pos m.ram m.here)

omit [Build] in
theorem SameReads.fetches (h : SameReads m ram) (hf : Fetches m i a b) : Fetches (m.onRam ram) i a b := by
  have hwidth : Sweep.width m.ram m.here = 1 + i.operandCount := Sweep.width_of_opcode hf.opcode
  refine ⟨h.opcode.trans hf.opcode, hf.fits, ?_, ?_⟩
  · rw [hf.first]
    by_cases hk : 1 ≤ i.operandCount
    · rw [if_pos hk, if_pos hk]
      exact (h.cell (by omega)).symm
    · rw [if_neg hk, if_neg hk]
  · rw [hf.second]
    by_cases hk : 2 ≤ i.operandCount
    · rw [if_pos hk, if_pos hk]
      exact (h.cell (by omega)).symm
    · rw [if_neg hk, if_neg hk]

omit [Build] in
theorem SameReads.sameTop (h : SameReads m ram) (hf : Fetches m i a b) : SameTop m.begun ram i := by
  rintro rfl hsp
  exact h _ (.top hf hsp)

/-- The addresses at which memories agree after a step: those at which they agreed before it, and the one it stores
to. -/
def Settled (m : Machine) (w : σ) (ram : Ram) (x : Nat) : Prop := ram.cell x = m.ram.cell x ∨ Stores m w x

/-- A step that stores nothing leaves the memories as they were. -/
theorem Settled.resolve (h : Settled m w ram x)
    (hs : (m.step w).result ≠ .ok () ∨ ¬ ∃ a b, Fetches m .push a b) : ram.cell x = m.ram.cell x :=
  h.resolve_right fun hst => hs.elim (fun hr => hr hst.succeeds) fun hno => hno hst.push

theorem StepsTo.onRam (hr : StepsTo m w r) (h : SameReads m ram) :
    ∃ r', StepsTo (m.onRam ram) w r' ∧ Alike (Settled m w ram) r r' := by
  have heq := hr.eq_step
  have hop := h.opcode
  cases hr with
  | unreadable hpc =>
    exact ⟨_, .unreadable hpc, rfl, rfl, rfl, rfl, fun x hx => hx.resolve (.inl (heq ▸ nofun))⟩
  | overflowed hpc hc =>
    exact ⟨_, .overflowed hpc hc, rfl, rfl, rfl, rfl, fun x hx => hx.resolve (.inl (heq ▸ nofun))⟩
  | skipped hpc hc hno =>
    refine ⟨_, .skipped hpc hc fun i hi => hno i (hop.symm.trans hi), rfl, rfl, rfl, rfl,
      fun x hx => hx.resolve (.inr ?_)⟩
    rintro ⟨a, b, hf⟩
    exact hno .push hf.opcode
  | cut hpc hc hi hend =>
    exact ⟨_, .cut hpc hc (hop.trans hi) hend, rfl, rfl, rfl, rfl, fun x hx => hx.resolve (.inl (heq ▸ nofun))⟩
  | stopped hf hc hs =>
    refine ⟨_, .stopped (h.fetches hf) hc (hs.onRam (h.sameTop hf)), rfl, rfl, rfl, rfl, fun x hx => ?_⟩
    have hcell := hx.resolve (.inl (heq ▸ nofun))
    simp only [ram_of_stops hs]
    exact hcell
  | refused hf hc hp hw =>
    obtain ⟨ram', hp', hcells⟩ := hp.onRam (h.sameTop hf)
    exact ⟨_, .refused (h.fetches hf) hc hp' hw, rfl, rfl, rfl, rfl,
      fun x hx => hcells x (.inl (hx.resolve (.inl (heq ▸ nofun))))⟩
  | done hf hc hp hw =>
    obtain ⟨ram', hp', hcells⟩ := hp.onRam (h.sameTop hf)
    refine ⟨_, .done (h.fetches hf) hc hp' hw, rfl, rfl, rfl, rfl, fun x hx => hcells x ?_⟩
    rcases hx with hx | hst
    · exact .inl hx
    · obtain ⟨a', b', hf'⟩ := hst.push
      exact .inr ⟨(hf.unique hf').1, hst.pointer⟩

/-- **A step does the same with another memory that has the cells it reads.** -/
theorem alike_step (w : σ) (h : SameReads m ram) :
    Alike (Settled m w ram) (m.step w) ((m.onRam ram).step w) := by
  obtain ⟨r', hr', halike⟩ := (stepsTo_step m w).onRam h
  rwa [← hr'.eq_step]

/-! ### Runs on another memory -/

/-- What a run has stored to, where `starts` are the states its steps start in. -/
def Stored (starts : List (Machine × σ)) (x : Nat) : Prop := ∃ s ∈ starts, Stores s.1 s.2 x

theorem stored_of_mem (hmem : (m, w) ∈ starts) (hst : Stores m w x) : Stored starts x := ⟨(m, w), hmem, hst⟩

/-- A step with which the run ends comes to the same also as a run. -/
theorem Alike.last {r' : Attempt Failure Unit σ} (h : Alike (Settled m w ram) (m.step w) r')
    (result : Result Interruption UInt64) :
    Alike (fun x => ram.cell x = m.ram.cell x ∨ Stored [(m, w)] x) { m.step w with result } { r' with result } := by
  refine ⟨rfl, h.printed, h.sink, h.machine, fun x hx => h.memory x ?_⟩
  rcases hx with hx | ⟨s, hmem, hst⟩
  · exact .inl hx
  · obtain rfl := List.mem_singleton.mp hmem
    exact .inr hst

theorem Trail.onRam (ht : Trail m w starts q) (h : ∀ x, Footprint starts x → ram.cell x = m.ram.cell x) :
    ∃ starts' q', Trail (m.onRam ram) w starts' q' ∧
      Alike (fun x => ram.cell x = m.ram.cell x ∨ Stored starts x) q q' := by
  induction ht generalizing ram with
  | halted hm =>
    refine ⟨_, _, .halted hm, rfl, rfl, rfl, rfl, fun x hx => hx.resolve_right ?_⟩
    rintro ⟨s, hs, -⟩
    cases hs
  | @failed m w f hm hs =>
    have hstep := alike_step w fun x hx => h x (footprint_cons_iff.mpr (.inl hx))
    exact ⟨_, _, .failed hm (hstep.result.trans hs), hstep.last _⟩
  | @overflowed m w hm hs =>
    have hstep := alike_step w fun x hx => h x (footprint_cons_iff.mpr (.inl hx))
    exact ⟨_, _, .overflowed hm (hstep.result.trans hs), hstep.last _⟩
  | @stepped m w starts q hm hs ht ih =>
    have hstep := alike_step w fun x hx => h x (footprint_cons_iff.mpr (.inl hx))
    -- a cell that the rest of the run reads is in the footprint, or both memories have it from this step
    have hrest : ∀ x, Footprint starts x →
        ((m.onRam ram).step w).machine.ram.cell x = (m.step w).machine.ram.cell x := by
      intro x hx
      apply hstep.memory
      by_cases hst : Stores m w x
      · exact .inr hst
      · exact .inl (h x (footprint_cons_iff.mpr (.inr ⟨hst, hx⟩)))
    obtain ⟨starts', q', ht', halike⟩ := ih hrest
    rw [← hstep.machine, ← hstep.sink] at ht'
    refine ⟨_, _, .stepped hm (hstep.result.trans hs) ht', halike.result, ?_, halike.sink, halike.machine, ?_⟩
    · simp only [Attempt.after, Event.printed_append, hstep.printed, halike.printed]
    · intro x hx
      apply halike.memory
      rcases hx with hx | ⟨s, hmem, hst⟩
      · exact .inl (hstep.memory x (.inl hx))
      · rcases List.mem_cons.mp hmem with rfl | hmem
        · exact .inl (hstep.memory x (.inr hst))
        · exact .inr ⟨s, hmem, hst⟩

theorem Trail.alike_run (ht : Trail m w starts q) (h : ∀ x, Footprint starts x → ram.cell x = m.ram.cell x) :
    Alike (fun x => ram.cell x = m.ram.cell x ∨ Stored starts x) (m.run w) ((m.onRam ram).run w) := by
  obtain ⟨starts', q', ht', halike⟩ := ht.onRam h
  rwa [← ht.eq_run, ← ht'.eq_run]

/-! ### Programs loaded over other programs -/

omit [Build] in
/-- Cells that hold a byte of the program, and cells that were empty before, are the same as on empty memory. -/
theorem cell_overlay_zero {program : List UInt8} (h : x < program.length ∨ ram.cell x = 0) :
    ((.zero : Ram).overlay 0 program).cell x = (ram.overlay 0 program).cell x := by
  by_cases hx : x < 256
  · rw [Memory.cell_overlay _ _ _ hx, Memory.cell_overlay _ _ _ hx, Memory.cell_zero]
    by_cases hin : x < program.length
    · simp [hin]
    · simp [hin, h.resolve_left hin]
  · rw [Memory.cell_of_ge _ (by omega), Memory.cell_of_ge _ (by omega)]

/-- **A run depends on its footprint only.**  With another memory that has the footprint of the run it comes to the
same, and the memories agree afterwards wherever they agreed before or the run has stored.  So a program that is loaded
over the remains of another one runs as it does on empty memory, as long as its footprint has no cell of the remains. -/
theorem run_depends_on_footprint (w : σ) :
    (∀ (m : Machine) (ram : Ram), ∃ starts : List (Machine × σ),
      (∀ starts' q, Trail m w starts' q ↔ starts' = starts ∧ q = m.run w) ∧
      ((∀ x, Footprint starts x → ram.cell x = m.ram.cell x) →
        Alike (fun x => ram.cell x = m.ram.cell x ∨ Stored starts x) (m.run w) ((m.onRam ram).run w))) ∧
    ∀ (m loaded : Machine) (program : List UInt8), (m.load program).value = .ok () loaded →
      ∃ (fresh : Machine) (starts : List (Machine × σ)),
        ((m.onRam .zero).load program).value = .ok () fresh ∧
        (∀ starts' q, Trail loaded w starts' q ↔ starts' = starts ∧ q = loaded.run w) ∧
        ((∀ x, Footprint starts x → program.length ≤ x → m.ram.cell x = 0) →
          Alike (fun x => x < program.length ∨ m.ram.cell x = 0 ∨ Stored starts x) (loaded.run w) (fresh.run w)) := by
  refine ⟨fun m ram => ?_, fun m loaded program hload => ?_⟩
  · obtain ⟨starts, hiff⟩ := trail_iff m w
    exact ⟨starts, hiff, fun h => ((hiff starts _).mpr ⟨rfl, rfl⟩).alike_run h⟩
  · rw [value_load] at hload
    split at hload
    · next hlen =>
      cases hload
      obtain ⟨starts, hiff⟩ := trail_iff { m with ram := m.ram.overlay 0 program } w
      have ht := (hiff starts _).mpr ⟨rfl, rfl⟩
      refine ⟨_, starts, by rw [value_load, if_pos hlen], hiff, fun h => ?_⟩
      have hagree : ∀ x, Footprint starts x →
          ((.zero : Ram).overlay 0 program).cell x = (m.ram.overlay 0 program).cell x := by
        intro x hx
        rcases Nat.lt_or_ge x program.length with hlt | hge
        · exact cell_overlay_zero (.inl hlt)
        · exact cell_overlay_zero (.inr (h x hx hge))
      refine (ht.alike_run hagree).mono ?_
      intro x hx
      rw [← or_assoc] at hx
      exact hx.imp_left cell_overlay_zero
    · cases hload

end

/-- A program that stores the `HLT` it halts at halts also where the remains of another program have a `PRN`. -/
theorem run_over_remains :
    let old : Machine := { ram := Memory.zero.overlay 0 [0, 0, 0, 0, 0, 0, 0, 0, 0x47, 3] }
    let loaded : Machine := { ram := old.ram.overlay 0 [0x82, 7, 9, 0x82, 0, 1, 0x45, 0] }
    let fresh : Machine := { ram := Memory.zero.overlay 0 [0x82, 7, 9, 0x82, 0, 1, 0x45, 0] }
    (old.load [0x82, 7, 9, 0x82, 0, 1, 0x45, 0]).value = .ok () loaded ∧ loaded.ram.cell 8 = 0x47 ∧
      (loaded.run Sink.unlimited).result = .ok 4 ∧ (fresh.run Sink.unlimited).result = .ok 4 ∧
      (fresh.run Sink.unlimited).machine.ram.cell 8 = (loaded.run Sink.unlimited).machine.ram.cell 8 := by
  intro old loaded fresh
  have hload : (old.load [0x82, 7, 9, 0x82, 0, 1, 0x45, 0]).value = .ok () loaded := rfl
  have hfresh : ((old.onRam .zero).load [0x82, 7, 9, 0x82, 0, 1, 0x45, 0]).value = .ok () fresh := rfl
  have hrun : (loaded.run Sink.unlimited).result = .ok 4 := by decide +kernel
  -- the states of the run, one step after the other
  let w := Sink.unlimited
  let m₁ := (loaded.step w).machine
  let w₁ := (loaded.step w).sink
  let m₂ := (m₁.step w₁).machine
  let w₂ := (m₁.step w₁).sink
  let m₃ := (m₂.step w₂).machine
  let w₃ := (m₂.step w₂).sink
  have h₃ : Trail m₃ w₃ [(m₃, w₃)] _ :=
    .stepped (by decide +kernel) (by decide +kernel) (.halted (by decide +kernel))
  have h₂ : Trail m₂ w₂ [(m₂, w₂), (m₃, w₃)] _ := .stepped (by decide +kernel) (by decide +kernel) h₃
  have h₁ : Trail m₁ w₁ [(m₁, w₁), (m₂, w₂), (m₃, w₃)] _ := .stepped (by decide +kernel) (by decide +kernel) h₂
  have ht : Trail loaded w [(loaded, w), (m₁, w₁), (m₂, w₂), (m₃, w₃)] _ := .stepped rfl (by decide +kernel) h₁
  obtain ⟨fresh', starts, hfresh', hiff, h⟩ := (run_depends_on_footprint Sink.unlimited).2 old loaded _ hload
  cases hfresh.symm.trans hfresh'
  obtain ⟨rfl, -⟩ := (hiff _ _).mp ht
  have hstores : Stores m₂ w₂ 8 :=
    ⟨⟨0, 0, by decide +kernel, by decide +kernel, by decide +kernel, by decide⟩, by decide +kernel, by decide +kernel⟩
  have hstored : Stored [(loaded, w), (m₁, w₁), (m₂, w₂), (m₃, w₃)] 8 := stored_of_mem (by simp) hstores
  -- the first three steps read the program, and the last one reads what the third has stored
  have hcode : ∀ m ∈ [loaded, m₁, m₂], m.ram.cell m.here ≠ 0x46 ∧ m.here + Sweep.width m.ram m.here ≤ 8 := by
    decide +kernel
  have hlast : m₃.ram.cell m₃.here ≠ 0x46 ∧ m₃.here + Sweep.width m₃.ram m₃.here ≤ 9 := by decide +kernel
  have hprogram : ∀ m ∈ [loaded, m₁, m₂], ∀ x, Reads m x → x < 8 := fun m hm x hx =>
    Nat.lt_of_lt_of_le (hx.lt (hcode m hm).1) (hcode m hm).2
  have hfootprint : ∀ x, Footprint [(loaded, w), (m₁, w₁), (m₂, w₂), (m₃, w₃)] x → x < 8 := by
    intro x hx
    rcases footprint_cons_iff.mp hx with hx | ⟨-, hx⟩
    · exact hprogram loaded (by simp) x hx
    rcases footprint_cons_iff.mp hx with hx | ⟨-, hx⟩
    · exact hprogram m₁ (by simp) x hx
    rcases footprint_cons_iff.mp hx with hx | ⟨hno, hx⟩
    · exact hprogram m₂ (by simp) x hx
    rcases footprint_cons_iff.mp hx with hx | ⟨-, hx⟩
    · have hlt := hx.lt hlast.1
      have hne : x ≠ 8 := by
        rintro rfl
        exact hno hstores
      omega
    · exact absurd hx not_footprint_nil
  have halike := h fun x hx hge => absurd (hfootprint x hx) (Nat.not_lt.mpr hge)
  refine ⟨hload, by decide +kernel, hrun, halike.result.trans hrun, ?_⟩
  exact halike.memory 8 (.inr (.inr hstored))

end LS8.Machine
