import LS8.Proofs.Machine.Rules

/-!
Runs as sequences of steps.  `Trail` takes steps as long as the machine is running and none fails, and lists the states
they start in; it says nothing about an end.  Every step that succeeds moves the program counter up
(`here_of_stepsTo_ok`) and never past the end of memory, so that there is one trail from every state and it is the run
(`trail_iff`).  It is cut short only where the count of steps overflows (`Trail.overflow_iff`).  Main statement:
`run_ends_by_halting_or_failing`, what the trail of a run looks like.
-/

namespace LS8.Machine

section

variable [Build] {σ : Type} [Writer σ] {m m' : Machine} {w : σ} {i : Instruction} {a b : UInt8} {e : Effect}
  {f : Failure} {r : Attempt Failure Unit σ}

/-! ### What a step does to the program counter, the flag and the count -/

/-- A step from here counts as begun. -/
def Begins (m : Machine) : Prop := m.here < 256 ∧ m.Counts

instance (m : Machine) : Decidable m.Begins := inferInstanceAs (Decidable (_ ∧ _))

theorem cycles_of_stepsTo (h : StepsTo m w r) : r.machine.cycles = m.cycles + if m.Begins then 1 else 0 := by
  have hbegun : m.here < 256 → m.Counts → m.begun.cycles = m.cycles + if m.Begins then 1 else 0 :=
    fun hpc hc => by rw [if_pos (show m.Begins from ⟨hpc, hc⟩), begun]
  cases h with
  | unreadable hpc => rw [if_neg fun hb : m.Begins => Nat.not_lt.mpr hpc hb.1, UInt64.add_zero]
  | overflowed _ hc => rw [if_neg fun hb : m.Begins => hc hb.2, UInt64.add_zero]
  | skipped hpc hc => exact hbegun hpc hc
  | cut hpc hc => exact hbegun hpc hc
  | stopped hf hc hs =>
    obtain ⟨r, rfl⟩ := registers_of_stops hs
    exact hbegun hf.here_lt hc
  | refused hf hc hp => exact (cycles_of_performs hp).trans (hbegun hf.here_lt hc)
  | done hf hc hp => exact (cycles_of_performs hp).trans (hbegun hf.here_lt hc)

/-- A step that does not succeed leaves the program counter at the instruction and the machine running. -/
theorem kept_of_stepsTo (h : StepsTo m w r) (hr : r.result ≠ .ok ()) :
    r.machine.pc = m.pc ∧ r.machine.running = m.running := by
  cases h with
  | unreadable | overflowed | cut => exact ⟨rfl, rfl⟩
  | skipped | done => exact absurd rfl hr
  | stopped hf hc hs =>
    obtain ⟨r, rfl⟩ := registers_of_stops hs
    exact ⟨rfl, rfl⟩
  | refused hf hc hp hw =>
    obtain ⟨-, rfl⟩ := prn_of_refused hp hw
    exact ⟨rfl, rfl⟩

/-- A step that succeeds counts, and moves the program counter up, to the end of memory at most. -/
theorem here_of_stepsTo_ok (h : StepsTo m w r) (hr : r.result = .ok ()) :
    m.Begins ∧ m.here < r.machine.here ∧ r.machine.here ≤ 256 := by
  cases h with
  | unreadable | overflowed | cut | stopped | refused => cases hr
  | skipped hpc hc =>
    have hhere : (m.begun.skip 1).here = m.here + 1 := here_skip_of_lt hpc (by decide)
    simp only [hhere]
    exact ⟨⟨hpc, hc⟩, Nat.lt_succ_self _, hpc⟩
  | @done i a b e m' hf hc hp hw =>
    have hpc := pc_of_performs hp
    have hhere : (m'.skip i.size).here = m.here + i.size := by
      rw [here, skip, hpc]
      exact hf.here_skip.1
    have hsize : 1 ≤ i.size := Nat.le_add_right 1 _
    simp only [hhere]
    exact ⟨⟨hf.here_lt, hc⟩, Nat.lt_add_of_pos_right hsize, hf.here_skip.2⟩

/-- A step gives up exactly if it has an opcode and cannot be counted. -/
theorem overflow_of_stepsTo (h : StepsTo m w r) : r.result = .overflow ↔ m.here < 256 ∧ ¬ m.Counts := by
  cases h with
  | unreadable hpc => simp [Nat.not_lt.mpr hpc]
  | overflowed hpc hc => simp [hpc, hc]
  | skipped _ hc | cut _ hc => simp [hc]
  | stopped _ hc | refused _ hc | done _ hc => simp [hc]

theorem counts_of_stepsTo (h : StepsTo m w r) (hr : r.result ≠ .overflow) (hpc : m.here < 256) : m.Counts :=
  not_not.mp fun hc => hr ((overflow_of_stepsTo h).mpr ⟨hpc, hc⟩)

/-! ### `HLT` -/

/-- The step at hand is a `HLT`. -/
def AtHlt (m : Machine) : Prop := m.here < 256 ∧ m.ram.cell m.here = 0x01

omit [Build] in
theorem Fetches.atHlt_iff (h : Fetches m i a b) : AtHlt m ↔ i = .hlt := by
  refine ⟨fun hm => Instruction.opcode_injective (h.opcode.symm.trans hm.2), ?_⟩
  rintro rfl
  exact ⟨h.here_lt, h.opcode⟩

theorem step_of_atHlt (hm : AtHlt m) (hc : m.Counts) (w : σ) :
    (m.step w).result = .ok () ∧ (m.step w).machine = { m.begun with running := false }.skip 1 := by
  have hf : Fetches m .hlt 0 0 := ⟨hm.2, hm.1, rfl, rfl⟩
  rw [step_of_performs hf hc (.hlt 0 0) (Writer.fits_nil w)]
  exact ⟨rfl, rfl⟩

/-- Nothing but `HLT` stops the machine. -/
theorem running_of_stepsTo (h : StepsTo m w r) (hm : ¬ AtHlt m) : r.machine.running = m.running := by
  by_cases hr : r.result = .ok ()
  · cases h with
    | unreadable | overflowed | cut | stopped | refused => cases hr
    | skipped => rfl
    | done hf hc hp =>
      rw [hf.atHlt_iff] at hm
      have hrun := running_of_performs hp hm
      exact hrun
  · exact (kept_of_stepsTo h hr).2

/-! ### Trails -/

/-- From `m` and `w` steps are taken as long as the machine is running and none fails: `starts` are the states they
start in, the last one included, and the attempt is what it all comes to. -/
inductive Trail : Machine → σ → List (Machine × σ) → Attempt Interruption UInt64 σ → Prop
  | halted {m : Machine} {w : σ} (hm : m.running = false) :
      Trail m w [] ⟨.ok m.cycles, m, w, [.record (.halted m.cycles)]⟩
  | failed {m : Machine} {w : σ} {f : Failure} (hm : m.running = true) (hs : (m.step w).result = .error f) :
      Trail m w [(m, w)] { m.step w with result := .error ⟨m.here, f⟩ }
  | overflowed {m : Machine} {w : σ} (hm : m.running = true) (hs : (m.step w).result = .overflow) :
      Trail m w [(m, w)] { m.step w with result := .overflow }
  | stepped {m : Machine} {w : σ} {starts : List (Machine × σ)} {r : Attempt Interruption UInt64 σ}
      (hm : m.running = true) (hs : (m.step w).result = .ok ())
      (ht : Trail (m.step w).machine (m.step w).sink starts r) :
      Trail m w ((m, w) :: starts) (r.after (m.step w).events)

/-- The run is the end of a trail. -/
theorem exists_trail (m : Machine) (w : σ) : ∃ starts, Trail m w starts (m.run w) := by
  fun_induction run m w with
  | case1 m w hm attempt hs ih =>
    obtain ⟨starts, ht⟩ := ih
    exact ⟨_, .stepped hm hs ht⟩
  | case2 m w hm attempt f hs => exact ⟨_, .failed hm hs⟩
  | case3 m w hm attempt hs => exact ⟨_, .overflowed hm hs⟩
  | case4 m w hm => exact ⟨_, .halted (by simpa using hm)⟩

variable {starts starts' : List (Machine × σ)} {q q' : Attempt Interruption UInt64 σ}

theorem Trail.unique (h : Trail m w starts q) (h' : Trail m w starts' q') : starts = starts' ∧ q = q' := by
  induction h generalizing starts' q' with
  | halted hm =>
    cases h' with
    | halted => exact ⟨rfl, rfl⟩
    | failed hm' | overflowed hm' | stepped hm' => simp [hm] at hm'
  | failed hm hs =>
    cases h' with
    | halted hm' => simp [hm] at hm'
    | failed hm' hs' =>
      obtain rfl : _ = _ := Result.error.inj (hs.symm.trans hs')
      exact ⟨rfl, rfl⟩
    | overflowed hm' hs' | stepped hm' hs' => simp [hs] at hs'
  | overflowed hm hs =>
    cases h' with
    | halted hm' => simp [hm] at hm'
    | overflowed => exact ⟨rfl, rfl⟩
    | failed hm' hs' | stepped hm' hs' => simp [hs] at hs'
  | stepped hm hs ht ih =>
    cases h' with
    | halted hm' => simp [hm] at hm'
    | failed hm' hs' | overflowed hm' hs' => simp [hs] at hs'
    | stepped hm' hs' ht' =>
      obtain ⟨rfl, rfl⟩ := ih ht'
      exact ⟨rfl, rfl⟩

theorem Trail.eq_run (h : Trail m w starts q) : q = m.run w := by
  obtain ⟨starts', ht⟩ := exists_trail m w
  exact (h.unique ht).2

/-- There is one trail from every state, and it is the run. -/
theorem trail_iff (m : Machine) (w : σ) :
    ∃ starts, ∀ starts' q, Trail m w starts' q ↔ starts' = starts ∧ q = m.run w := by
  obtain ⟨starts, ht⟩ := exists_trail m w
  refine ⟨starts, fun starts' q => ⟨fun h => h.unique ht, ?_⟩⟩
  rintro ⟨rfl, rfl⟩
  exact ht

theorem run_of_not_running (hm : m.running = false) (w : σ) :
    m.run w = ⟨.ok m.cycles, m, w, [.record (.halted m.cycles)]⟩ :=
  (Trail.halted hm).eq_run.symm

theorem run_of_error (hm : m.running = true) (hs : (m.step w).result = .error f) :
    m.run w = { m.step w with result := .error ⟨m.here, f⟩ } :=
  (Trail.failed hm hs).eq_run.symm

theorem run_of_overflow (hm : m.running = true) (hs : (m.step w).result = .overflow) :
    m.run w = { m.step w with result := .overflow } :=
  (Trail.overflowed hm hs).eq_run.symm

theorem run_of_ok (hm : m.running = true) (hs : (m.step w).result = .ok ()) :
    m.run w = ((m.step w).machine.run (m.step w).sink).after (m.step w).events := by
  obtain ⟨starts, ht⟩ := exists_trail (m.step w).machine (m.step w).sink
  exact (Trail.stepped hm hs ht).eq_run.symm

/-! ### Where the steps of a trail start -/

theorem Trail.here_le (h : Trail m w starts q) : ∀ s ∈ starts, m.here ≤ s.1.here := by
  induction h with
  | halted | failed | overflowed => simp
  | @stepped m w _ _ _ hs _ ih =>
    have hpc := (here_of_stepsTo_ok (stepsTo_step m w) hs).2.1
    intro s hmem
    rcases List.mem_cons.mp hmem with rfl | hmem
    · exact Nat.le_refl _
    · have := ih s hmem
      omega

/-- The addresses at which steps start ascend. -/
theorem Trail.ascending (h : Trail m w starts q) : (starts.map (·.1.here)).Pairwise (· < ·) := by
  induction h with
  | halted | failed | overflowed => simp
  | @stepped m w _ _ _ hs ht ih =>
    have hpc := (here_of_stepsTo_ok (stepsTo_step m w) hs).2.1
    rw [List.map_cons, List.pairwise_cons]
    refine ⟨?_, ih⟩
    rintro _ hmem
    obtain ⟨s, hs', rfl⟩ := List.mem_map.mp hmem
    have := ht.here_le s hs'
    show m.here < s.1.here
    omega

theorem Trail.countP_le (h : Trail m w starts q) : (starts.countP fun s => s.1.here < 256) ≤ 256 - m.here := by
  induction h with
  | halted => simp
  | @failed m | @overflowed m =>
    by_cases hpc : m.here < 256
    · simp [hpc]
      omega
    · simp [hpc]
  | @stepped m w _ _ hm hs ht ih =>
    obtain ⟨⟨hpc, -⟩, hlt, -⟩ := here_of_stepsTo_ok (stepsTo_step m w) hs
    simp only [hpc, List.countP_cons, decide_true, if_true]
    omega

/-- Only a step with an opcode can succeed. -/
theorem countP_ok_le (starts : List (Machine × σ)) :
    (starts.countP fun s => (s.1.step s.2).result.isOk) ≤ starts.countP fun s => s.1.here < 256 := by
  refine List.countP_mono_left fun s _ hs => ?_
  cases hr : (s.1.step s.2).result with
  | error f => simp [hr, Result.isOk] at hs
  | overflow => simp [hr, Result.isOk] at hs
  | ok => simpa using (here_of_stepsTo_ok (stepsTo_step s.1 s.2) hr).1.1

/-! ### The count of steps -/

theorem Trail.cycles (h : Trail m w starts q) :
    q.machine.cycles = m.cycles + UInt64.ofNat (starts.countP fun s => s.1.Begins) := by
  induction h with
  | halted => exact (UInt64.add_zero _).symm
  | @failed m w | @overflowed m w =>
    rw [cycles_of_stepsTo (stepsTo_step m w)]
    by_cases hb : m.Begins <;> simp [hb]
  | @stepped m w _ _ hm hs ht ih =>
    have hb := (here_of_stepsTo_ok (stepsTo_step m w) hs).1
    rw [Attempt.after, ih, cycles_of_stepsTo (stepsTo_step m w), if_pos hb, List.countP_cons_of_pos (by simpa using hb),
      Nat.add_comm]
    exact add_ofNat_add_ofNat m.cycles 1 _

/-- A build that checks its sums counts every step that begins. -/
theorem Trail.toNat_cycles (h : Trail m w starts q) (hb : Build.checksSums = true) :
    q.machine.cycles.toNat = m.cycles.toNat + starts.countP fun s => s.1.Begins := by
  have step (m : Machine) (w : σ) :
      (m.step w).machine.cycles.toNat = m.cycles.toNat + if m.Begins then 1 else 0 := by
    rw [cycles_of_stepsTo (stepsTo_step m w)]
    split
    · next hbegins => exact toNat_add_ofNat (Nat.lt_of_not_le fun hle => hbegins.2 ⟨hb, hle⟩)
    · rw [UInt64.add_zero, Nat.add_zero]
  induction h with
  | halted => rfl
  | @failed m w | @overflowed m w => simp only [step, List.countP_singleton, decide_eq_true_eq]
  | @stepped m w _ _ _ _ _ ih =>
    simp only [Attempt.after, ih, step, List.countP_cons, decide_eq_true_eq]
    omega

/-- A run gives up exactly if there are too many steps to count. -/
theorem Trail.overflow_iff (h : Trail m w starts q) :
    q.result = .overflow ↔ Overflows m.cycles (starts.countP fun s => s.1.here < 256) := by
  induction h with
  | @halted m => simp [not_overflows_zero m.cycles]
  | @failed m w f hm hs =>
    have hcounts := counts_of_stepsTo (stepsTo_step m w) (by rw [hs]; exact nofun)
    refine iff_of_false nofun fun ho => ?_
    by_cases hpc : m.here < 256
    · simp only [List.countP_singleton, hpc, decide_true, if_true] at ho
      exact hcounts hpc ho
    · simp only [List.countP_singleton, hpc, decide_false, Bool.false_eq_true, if_false] at ho
      exact not_overflows_zero m.cycles ho
  | @overflowed m w hm hs =>
    obtain ⟨hpc, hc⟩ := (overflow_of_stepsTo (stepsTo_step m w)).mp hs
    simp only [List.countP_singleton, hpc, decide_true, if_true, true_iff]
    exact not_not.mp hc
  | @stepped m w _ _ hm hs ht ih =>
    have hb := (here_of_stepsTo_ok (stepsTo_step m w) hs).1
    rw [Attempt.after, ih, cycles_of_stepsTo (stepsTo_step m w), if_pos hb,
      List.countP_cons_of_pos (by simpa using hb.1), Nat.add_comm]
    exact overflows_add_iff (j := 1) hb.2

/-- A run that has room to count 256 steps does not give up. -/
theorem Trail.ne_overflow (h : Trail m w starts q) (hroom : m.cycles.toNat + 256 < UInt64.size) :
    q.result ≠ .overflow := by
  have hle := h.countP_le
  rw [Ne, h.overflow_iff]
  exact not_overflows_of_lt (by omega)

/-- In a run that does not give up every step with an opcode counts. -/
theorem Trail.countP_begins (h : Trail m w starts q) (hq : q.result ≠ .overflow) :
    (starts.countP fun s => s.1.Begins) = starts.countP fun s => s.1.here < 256 := by
  induction h with
  | halted => rfl
  | @failed m w f hm hs =>
    have hcounts := counts_of_stepsTo (stepsTo_step m w) (by rw [hs]; exact nofun)
    have hb : m.Begins ↔ m.here < 256 := ⟨And.left, fun hpc => ⟨hpc, hcounts hpc⟩⟩
    simp only [List.countP_singleton, hb]
  | overflowed => exact absurd rfl hq
  | @stepped m w _ _ hm hs ht ih =>
    have hb := (here_of_stepsTo_ok (stepsTo_step m w) hs).1
    rw [List.countP_cons_of_pos (by simpa using hb), List.countP_cons_of_pos (by simpa using hb.1), ih hq]

/-! ### Where a trail ends -/

theorem Trail.of_not_running (h : Trail m w starts q) (hm : m.running = false) :
    starts = [] ∧ q = ⟨.ok m.cycles, m, w, [.record (.halted m.cycles)]⟩ :=
  h.unique (.halted hm)

/-- A trail along which some step is a `HLT` does not fail. -/
theorem Trail.ok_of_atHlt (h : Trail m w starts q) (hq : q.result ≠ .overflow) {s : Machine × σ} (hs : s ∈ starts)
    (hlt : AtHlt s.1) : ∃ n, q.result = .ok n := by
  induction h with
  | halted => cases hs
  | @failed m w f hm hf =>
    obtain rfl := List.mem_singleton.mp hs
    have hc := counts_of_stepsTo (stepsTo_step m w) (by rw [hf]; exact nofun) hlt.1
    rw [(step_of_atHlt hlt hc w).1] at hf
    cases hf
  | overflowed => exact absurd rfl hq
  | @stepped m w starts q hm hok ht ih =>
    rcases List.mem_cons.mp hs with rfl | hs
    · -- the machine has been stopped, so that this step is the last one
      have hb := (here_of_stepsTo_ok (stepsTo_step m w) hok).1
      have hstop := (step_of_atHlt hlt hb.2 w).2
      obtain ⟨-, rfl⟩ := ht.of_not_running (by rw [hstop]; rfl)
      exact ⟨_, rfl⟩
    · exact ih hq hs

/-- What the end of a trail that does not fail looks like: its last step is its only `HLT`. -/
structure EndsAtHlt (starts : List (Machine × σ)) (final : Machine) : Prop where
  last : ∃ before s, starts = before ++ [s] ∧ AtHlt s.1 ∧ (∀ t ∈ before, ¬ AtHlt t.1) ∧
    final = { s.1.begun with running := false }.skip 1
  begins : ∀ s ∈ starts, s.1.Begins

theorem Trail.endsAtHlt (h : Trail m w starts q) (hm : m.running = true) {n : UInt64} (hq : q.result = .ok n) :
    EndsAtHlt starts q.machine ∧ n = q.machine.cycles := by
  induction h with
  | halted hm' => simp [hm] at hm'
  | failed | overflowed => cases hq
  | @stepped m w starts q hm' hok ht ih =>
    have hb := (here_of_stepsTo_ok (stepsTo_step m w) hok).1
    by_cases hlt : AtHlt m
    · -- nothing follows a `HLT`, it is the last step
      have hstop := (step_of_atHlt hlt hb.2 w).2
      obtain ⟨rfl, rfl⟩ := ht.of_not_running (by rw [hstop]; rfl)
      refine ⟨⟨⟨[], (m, w), rfl, hlt, by simp, hstop⟩, ?_⟩, ?_⟩
      · simpa using hb
      · exact (Result.ok.inj hq).symm
    · -- any other step leaves the machine running, and the end is that of the rest of the trail
      have hrun := running_of_stepsTo (stepsTo_step m w) hlt
      obtain ⟨⟨⟨before, s, hstarts, hs, hbefore, hfinal⟩, hbegins⟩, hn⟩ := ih (hrun.trans hm) hq
      refine ⟨⟨⟨(m, w) :: before, s, by rw [hstarts]; rfl, hs, ?_, hfinal⟩, ?_⟩, hn⟩
      · exact List.forall_mem_cons.mpr ⟨hlt, hbefore⟩
      · exact List.forall_mem_cons.mpr ⟨hb, hbegins⟩

omit [Writer σ] in
theorem EndsAtHlt.here_eq {final : Machine} (h : EndsAtHlt starts final) :
    ∃ s ∈ starts, final.here = s.1.here + 1 ∧ s.1.here < 256 ∧ final.ram.read s.1.here = .ok 0x01 := by
  obtain ⟨before, s, rfl, ⟨hpc, hop⟩, -, rfl⟩ := h.last
  refine ⟨s, by simp, here_skip_of_lt hpc (by decide), hpc, ?_⟩
  show s.1.ram.read s.1.here = .ok 0x01
  rw [Memory.read_eq, if_pos hpc, hop]

omit [Writer σ] in
theorem EndsAtHlt.memory {final : Machine} (h : EndsAtHlt starts final) :
    final.here ≤ 256 ∧ final.running = false ∧ final.ram.read (final.here - 1) = .ok 0x01 := by
  obtain ⟨s, -, hhere, hpc, hcell⟩ := h.here_eq
  obtain ⟨before, s', -, -, -, hfinal⟩ := h.last
  rw [hhere, Nat.add_sub_cancel]
  exact ⟨hpc, congrArg running hfinal, hcell⟩

omit [Writer σ] in
theorem EndsAtHlt.countP_eq {final : Machine} (h : EndsAtHlt starts final) :
    (starts.countP fun s => s.1.here < 256) = starts.length := by
  rw [List.countP_eq_length]
  intro s hs
  simpa using (h.begins s hs).1

theorem EndsAtHlt.here_lt {final : Machine} (h : EndsAtHlt starts final) (ht : Trail m w starts q) :
    m.here < final.here := by
  obtain ⟨s, hs, hhere, -, -⟩ := h.here_eq
  have := ht.here_le s hs
  omega

/-- **Every run ends, by halting or by failing.**  There is one trail from every state; its steps start at ascending
addresses below the end of memory, the count of steps grows by one for each opcode read, and the run does not fail
exactly if one of its steps is a `HLT`, which then is the last one.  The count has to have room for the steps, of which
there are 256 at most. -/
theorem run_ends_by_halting_or_failing (m : Machine) (w : σ) (hroom : m.cycles.toNat + 256 < UInt64.size) :
    (m.running = false → m.run w = ⟨.ok m.cycles, m, w, [.record (.halted m.cycles)]⟩) ∧
    (m.run w).result ≠ .overflow ∧
    ∃ starts : List (Machine × σ),
      (∀ starts' q, Trail m w starts' q ↔ starts' = starts ∧ q = m.run w) ∧
      (m.running = true →
        (starts.map (·.1.here)).Pairwise (· < ·) ∧
        (starts.countP fun s => (s.1.step s.2).result.isOk) ≤ 256 - m.here ∧
        (m.run w).machine.cycles.toNat = m.cycles.toNat + (starts.countP fun s => s.1.here < 256) ∧
        (starts.countP fun s => s.1.here < 256) ≤ 256 - m.here ∧
        ((∃ n, (m.run w).result = .ok n) ↔ ∃ s ∈ starts, AtHlt s.1) ∧
        ∀ n, (m.run w).result = .ok n →
          (∃ before s, starts = before ++ [s] ∧ AtHlt s.1 ∧ ∀ t ∈ before, ¬ AtHlt t.1) ∧
          n.toNat = m.cycles.toNat + starts.length ∧
          m.here < (m.run w).machine.here ∧ (m.run w).machine.here ≤ 256 ∧
          (m.run w).machine.ram.read ((m.run w).machine.here - 1) = .ok 0x01 ∧
          (m.run w).machine.running = false ∧
          ∀ w' : σ, (m.run w).machine.run w' = ⟨.ok n, (m.run w).machine, w', [.record (.halted n)]⟩) := by
  refine ⟨fun hm => run_of_not_running hm w, ?_⟩
  obtain ⟨starts, hiff⟩ := trail_iff m w
  have ht : Trail m w starts (m.run w) := (hiff starts _).mpr ⟨rfl, rfl⟩
  have hle := ht.countP_le
  have hno : (m.run w).result ≠ .overflow := ht.ne_overflow hroom
  have hcycles : (m.run w).machine.cycles.toNat = m.cycles.toNat + starts.countP fun s => s.1.here < 256 := by
    rw [ht.cycles, ht.countP_begins hno]
    exact toNat_add_ofNat (by omega)
  refine ⟨hno, starts, hiff, fun hm => ⟨ht.ascending, Nat.le_trans (countP_ok_le starts) hle, hcycles,
    hle, ⟨?_, ?_⟩, ?_⟩⟩
  · rintro ⟨n, hn⟩
    obtain ⟨before, s, rfl, hs, -, -⟩ := (ht.endsAtHlt hm hn).1.last
    exact ⟨s, by simp, hs⟩
  · rintro ⟨s, hmem, hs⟩
    exact ht.ok_of_atHlt hno hmem hs
  · intro n hn
    obtain ⟨hend, rfl⟩ := ht.endsAtHlt hm hn
    obtain ⟨hpc, hstop, hcell⟩ := hend.memory
    obtain ⟨before, s, hstarts, hs, hbefore, -⟩ := hend.last
    rw [hend.countP_eq] at hcycles
    exact ⟨⟨before, s, hstarts, hs, hbefore⟩, hcycles, hend.here_lt ht, hpc, hcell, hstop,
      run_of_not_running hstop⟩

end

/-- A program that stores the `HLT` it halts at: `PUSH` puts it into the cell that is executed next. -/
theorem run_halts_at_stored_hlt :
    let m : Machine := { ram := Memory.zero.overlay 0 [0x82, 7, 9, 0x82, 0, 1, 0x45, 0] }
    m.cycles.toNat + 256 < UInt64.size ∧ m.running = true ∧ (m.run Sink.unlimited).result = .ok 4 ∧
      (m.run Sink.unlimited).machine.here ≤ 256 ∧
      (m.run Sink.unlimited).machine.ram.read ((m.run Sink.unlimited).machine.here - 1) = .ok 0x01 ∧
      ((m.run Sink.unlimited).machine.run Sink.unlimited).result = .ok 4 := by
  intro m
  have hroom : m.cycles.toNat + 256 < UInt64.size := by decide
  have hn : (m.run Sink.unlimited).result = .ok 4 := by decide +kernel
  obtain ⟨-, -, starts, -, h⟩ := run_ends_by_halting_or_failing m Sink.unlimited hroom
  obtain ⟨-, -, -, -, -, h⟩ := h rfl
  obtain ⟨-, -, -, hpc, hcell, -, hagain⟩ := h 4 hn
  exact ⟨hroom, rfl, hn, hpc, hcell, congrArg Attempt.result (hagain Sink.unlimited)⟩

end LS8.Machine
