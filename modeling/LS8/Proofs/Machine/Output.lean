import LS8.Proofs.Machine.Failure
import LS8.Proofs.Numeral

/-!
The output of a run.  It lists the values that are printed, each in decimal on a line of its own, and can be read back
(`Listing.unique`).  A writer that runs out of room takes as much of it as there is room for: up to the `PRN` whose text
does not fit the run is the same, and there it fails (`CutAt`).  Main statement: `full_writer_cuts_output`.
-/

namespace LS8.Machine

section

variable [Build] {σ : Type} [Writer σ] {m m' : Machine} {w : σ} {i : Instruction} {a b v : UInt8} {e : Effect}
  {r : Attempt Failure Unit σ} {starts : List (Machine × σ)} {q : Attempt Interruption UInt64 σ} {vs vs' : List UInt8}
  {text text' : List Char} {n : Nat} {reason : String}

/-- The step prints a value: it is a `PRN` that succeeds, of a register with this value. -/
structure Prints (m : Machine) (w : σ) (v : UInt8) : Prop where
  register : ∃ a b, Fetches m .prn a b ∧ v = m.registers.value a
  succeeds : (m.step w).result = .ok ()

/-- The values that steps print, one after the other. -/
inductive PrintedBy : List (Machine × σ) → List UInt8 → Prop
  | nil : PrintedBy [] []
  | silent {s : Machine × σ} {starts : List (Machine × σ)} {vs : List UInt8} (hs : ∀ v, ¬ Prints s.1 s.2 v)
      (h : PrintedBy starts vs) : PrintedBy (s :: starts) vs
  | prints {s : Machine × σ} {starts : List (Machine × σ)} {v : UInt8} {vs : List UInt8} (hs : Prints s.1 s.2 v)
      (h : PrintedBy starts vs) : PrintedBy (s :: starts) (v :: vs)

/-- A text that has the values in decimal, each on a line of its own. -/
inductive Listing : List UInt8 → List Char → Prop
  | nil : Listing [] []
  | cons {v : UInt8} {vs : List UInt8} {cs text : List Char} (hcs : Numeral.IsDecimal v.toNat cs)
      (h : Listing vs text) : Listing (v :: vs) (cs ++ '\n' :: text)

/-- The output of steps, where `starts` are the states they start in. -/
def outputOf (starts : List (Machine × σ)) : List Char :=
  starts.flatMap fun s => Event.printed (s.1.step s.2).events

/-- The writer takes any text, whatever has been written to it before. -/
def Willing (w : σ) : Prop := ∀ (before : List (List Char)) cs, Writer.fits (before.foldl Writer.after w) cs = true

/-! ### Listings -/

omit [Build] in
theorem append_feed_inj {cs cs' rest rest' : List Char} (h : '\n' ∉ cs) (h' : '\n' ∉ cs')
    (heq : cs ++ '\n' :: rest = cs' ++ '\n' :: rest') : cs = cs' ∧ rest = rest' := by
  induction cs generalizing cs' with
  | nil =>
    cases cs' with
    | nil => exact ⟨rfl, (List.cons.inj heq).2⟩
    | cons c cs' =>
      obtain ⟨rfl, -⟩ := List.cons.inj heq
      exact absurd List.mem_cons_self h'
  | cons c cs ih =>
    cases cs' with
    | nil =>
      obtain ⟨rfl, -⟩ := List.cons.inj heq
      exact absurd List.mem_cons_self h
    | cons c' cs' =>
      obtain ⟨rfl, htail⟩ := List.cons.inj heq
      obtain ⟨rfl, hrest⟩ := ih (List.not_mem_of_not_mem_cons h) (List.not_mem_of_not_mem_cons h') htail
      exact ⟨rfl, hrest⟩

omit [Build] in
theorem feed_not_mem_of_isDecimal {k : Nat} {cs : List Char} (h : Numeral.IsDecimal k cs) : '\n' ∉ cs :=
  fun hmem => absurd (h.isDigit _ hmem) (by decide)

omit [Build] in
/-- **A listing can be read back.** -/
theorem Listing.unique (h : Listing vs text) (h' : Listing vs' text') (heq : text = text') : vs = vs' := by
  induction h generalizing vs' text' with
  | nil =>
    cases h' with
    | nil => rfl
    | cons => simp at heq
  | @cons v vs cs text hcs h ih =>
    cases h' with
    | nil => simp at heq
    | @cons v' vs' cs' text' hcs' h' =>
      obtain ⟨rfl, htext⟩ :=
        append_feed_inj (feed_not_mem_of_isDecimal hcs) (feed_not_mem_of_isDecimal hcs') heq
      have hv : v = v' := UInt8.toNat_inj.mp (hcs.value.symm.trans hcs'.value)
      rw [hv, ih h' htext]

omit [Build] in
/-- A listing goes on from line to line. -/
theorem Listing.of_line {cs rest : List Char} (h : Listing vs text) (heq : text = cs ++ '\n' :: rest)
    (hcs : '\n' ∉ cs) : (∃ k, Numeral.IsDecimal k cs) ∧ ∃ vs', Listing vs' rest := by
  cases h with
  | nil => simp at heq
  | cons hdecimal h =>
    obtain ⟨rfl, rfl⟩ := append_feed_inj (feed_not_mem_of_isDecimal hdecimal) hcs heq
    exact ⟨⟨_, hdecimal⟩, _, h⟩

/-! ### Steps with and without output -/

/-- A step that no writer can refuse anything: it skips a byte, it fails for a fault, or it gives up. -/
structure Silent (m : Machine) (result : Result Failure Unit) (m' : Machine) (rs : List Record) : Prop where
  step : ∀ {σ : Type} [Writer σ] (w : σ), m.step w = ⟨result, m', w, rs.map .record⟩
  skips : result = .ok () → ∀ i : Instruction, m.ram.cell m.here ≠ i.opcode
  fault : ∀ f, result = .error f → ∃ x, f = .fault x

/-- A step does the work of its instruction if the writer takes the output, or it is silent. -/
theorem performs_or_silent (m : Machine) :
    (∃ i a b e m', Fetches m i a b ∧ m.Counts ∧ Performs m.begun i a b e m') ∨
      ∃ result m' rs, Silent m result m' rs := by
  have hstep := stepsTo_step m Sink.unlimited
  generalize m.step Sink.unlimited = r at hstep
  cases hstep with
  | unreadable hpc =>
    refine .inr ⟨_, _, [], step_of_unreadable hpc, nofun, fun f hf => ?_⟩
    exact ⟨_, (Result.error.inj hf).symm⟩
  | overflowed hpc hc => exact .inr ⟨_, _, [], step_of_overflows hpc hc, nofun, nofun⟩
  | skipped hpc hc hop => exact .inr ⟨_, _, [_, _], step_of_unknown hpc hc hop, fun _ => hop, nofun⟩
  | cut hpc hc hop hend =>
    refine .inr ⟨_, _, [_], step_of_cut hpc hc hop hend, nofun, fun f hf => ?_⟩
    exact ⟨_, (Result.error.inj hf).symm⟩
  | stopped hf hc hs =>
    refine .inr ⟨_, _, [_], step_of_stops hf hc hs, nofun, fun f hf => ?_⟩
    obtain rfl := Result.error.inj hf
    cases hs <;> exact ⟨_, rfl⟩
  | refused hf hc hp | done hf hc hp => exact .inl ⟨_, _, _, _, _, hf, hc, hp⟩

theorem Silent.printed {result : Result Failure Unit} {rs : List Record} (h : Silent m result m' rs) (w : σ) :
    Event.printed (m.step w).events = [] := by
  rw [h.step w]
  simp [Event.printed]

/-- With a writer that refuses nothing a step prints a line for a `PRN` that succeeds, and nothing otherwise. -/
theorem prints_or_silent (m : Machine) :
    (∃ v cs, Prints m Sink.unlimited v ∧ Numeral.IsDecimal v.toNat cs ∧
      Event.printed (m.step Sink.unlimited).events = cs ++ ['\n']) ∨
    (∀ v, ¬ Prints m Sink.unlimited v) ∧ Event.printed (m.step Sink.unlimited).events = [] := by
  rcases performs_or_silent m with ⟨i, a, b, e, m', hf, hc, hp⟩ | ⟨result, m', rs, h⟩
  · have hstep := step_of_performs (w := Sink.unlimited) hf hc hp rfl
    have other : i ≠ .prn → ∀ v, ¬ Prints m Sink.unlimited v := by
      rintro hi v ⟨⟨a', b', hf', -⟩, -⟩
      exact hi (hf.unique hf').1
    rw [hstep, printed_done]
    cases hp with
    | prn =>
      exact .inl ⟨_, _, ⟨⟨a, b, hf, rfl⟩, congrArg Attempt.result hstep⟩, Numeral.isDecimal_decimal _, rfl⟩
    | combine hi => exact .inr ⟨other (by rintro rfl; cases hi), rfl⟩
    | hlt | ldi | push | pop => exact .inr ⟨other nofun, rfl⟩
  · refine .inr ⟨?_, h.printed _⟩
    rintro v ⟨⟨a, b, hf, -⟩, hok⟩
    rw [h.step] at hok
    exact h.skips hok _ hf.opcode

/-! ### The same step with another writer -/

theorem sink_step_unlimited (m : Machine) : (m.step Sink.unlimited).sink = .unlimited := by
  rcases performs_or_silent m with ⟨i, a, b, e, m', hf, hc, hp⟩ | ⟨result, m', rs, h⟩
  · rw [step_of_performs hf hc hp rfl]
    rfl
  · rw [h.step]

/-- With a writer that refuses nothing a step can only fail for a fault. -/
theorem exists_fault_of_step {f : Failure} (hr : (m.step Sink.unlimited).result = .error f) : ∃ x, f = .fault x := by
  rcases performs_or_silent m with ⟨i, a, b, e, m', hf, hc, hp⟩ | ⟨result, m', rs, h⟩
  · rw [step_of_performs hf hc hp rfl] at hr
    cases hr
  · rw [h.step] at hr
    exact h.fault f hr

/-- Another writer with room for what a step prints does not change the step. -/
theorem step_of_fits (m : Machine) (w : σ)
    (hw : Writer.fits w (Event.printed (m.step Sink.unlimited).events) = true) :
    m.step w = ⟨(m.step Sink.unlimited).result, (m.step Sink.unlimited).machine,
      Writer.after w (Event.printed (m.step Sink.unlimited).events), (m.step Sink.unlimited).events⟩ := by
  rcases performs_or_silent m with ⟨i, a, b, e, m', hf, hc, hp⟩ | ⟨result, m', rs, h⟩
  · rw [step_of_performs (w := Sink.unlimited) hf hc hp rfl, printed_done] at hw ⊢
    exact step_of_performs hf hc hp hw
  · rw [h.printed, Writer.after_nil, h.step w, h.step Sink.unlimited]

/-- Another writer without room for what a step prints makes the step fail before it has done anything. -/
theorem step_of_not_fits (m : Machine) (w : σ)
    (hw : Writer.fits w (Event.printed (m.step Sink.unlimited).events) = false) :
    let text := Event.printed (m.step Sink.unlimited).events
    m.step w = ⟨.error (.output (Writer.refusal w text)), m.begun, Writer.after w text,
      [.record (.dumped m.dump), .output (Writer.accepted w text)]⟩ := by
  rcases performs_or_silent m with ⟨i, a, b, e, m', hf, hc, hp⟩ | ⟨result, m', rs, h⟩
  · rw [step_of_performs (w := Sink.unlimited) hf hc hp rfl, printed_done] at hw ⊢
    obtain ⟨-, hm⟩ := prn_of_refused hp hw
    rw [hm] at hp
    exact step_of_refused hf hc hp hw
  · rw [h.printed, Writer.fits_nil] at hw
    cases hw

/-! ### The output of a run -/

theorem Prints.unique {v' : UInt8} (h : Prints m w v) (h' : Prints m w v') : v = v' := by
  obtain ⟨a, b, hf, rfl⟩ := h.register
  obtain ⟨a', b', hf', rfl⟩ := h'.register
  rw [(hf.unique hf').2.1]

theorem PrintedBy.unique (h : PrintedBy starts vs) (h' : PrintedBy starts vs') : vs = vs' := by
  induction h generalizing vs' with
  | nil =>
    cases h'
    rfl
  | silent hs _ ih =>
    cases h' with
    | silent _ h' => exact ih h'
    | prints hs' => exact absurd hs' (hs _)
  | prints hs _ ih =>
    cases h' with
    | silent hs' => exact absurd hs (hs' _)
    | prints hs' h' => rw [hs.unique hs', ih h']

theorem Trail.unlimited {starts : List (Machine × Sink)} {q : Attempt Interruption UInt64}
    (h : Trail m Sink.unlimited starts q) : ∀ s ∈ starts, s.2 = .unlimited := by
  generalize hw : Sink.unlimited = w at h
  induction h with
  | halted => nofun
  | failed | overflowed => simp
  | @stepped m w starts q hm hs ht ih =>
    subst hw
    have hsink := sink_step_unlimited m
    exact List.forall_mem_cons.mpr ⟨rfl, fun s hmem => (ih hsink.symm s hmem).trans hsink⟩

@[simp] theorem outputOf_nil : outputOf ([] : List (Machine × σ)) = [] := rfl

@[simp] theorem outputOf_cons (s : Machine × σ) (starts : List (Machine × σ)) :
    outputOf (s :: starts) = Event.printed (s.1.step s.2).events ++ outputOf starts := rfl

theorem Trail.printed (h : Trail m w starts q) : Event.printed q.events = outputOf starts := by
  induction h with
  | halted => rfl
  | failed | overflowed => simp
  | stepped hm hs ht ih => rw [Attempt.after, Event.printed_append, ih, outputOf_cons]

/-- Steps whose writer refuses nothing list the values they print. -/
theorem exists_listing {starts : List (Machine × Sink)} (h : ∀ s ∈ starts, s.2 = .unlimited) :
    ∃ vs, PrintedBy starts vs ∧ Listing vs (outputOf starts) := by
  induction starts with
  | nil => exact ⟨[], .nil, .nil⟩
  | cons s starts ih =>
    obtain ⟨m, w⟩ := s
    obtain ⟨rfl, hrest⟩ := List.forall_mem_cons.mp h
    obtain ⟨vs, hby, hlist⟩ := ih hrest
    rcases prints_or_silent m with ⟨v, cs, hv, hcs, htext⟩ | ⟨hno, htext⟩
    · refine ⟨v :: vs, .prints hv hby, ?_⟩
      rw [outputOf_cons, htext, List.append_assoc]
      exact .cons hcs hlist
    · refine ⟨vs, .silent hno hby, ?_⟩
      rw [outputOf_cons, htext]
      exact hlist

theorem exists_listing_run (m : Machine) : ∃ vs, Listing vs (Event.printed (m.run Sink.unlimited).events) := by
  obtain ⟨starts, ht⟩ := exists_trail m Sink.unlimited
  obtain ⟨vs, -, hlisting⟩ := exists_listing ht.unlimited
  exact ⟨vs, ht.printed.symm ▸ hlisting⟩

/-! ### The same run with another writer -/

/-- After a step whose output is taken the run goes on with what the writer has become. -/
theorem run_of_step_fits (hm : m.running = true) (hs : (m.step Sink.unlimited).result = .ok ())
    (hw : Writer.fits w (Event.printed (m.step Sink.unlimited).events) = true) :
    m.run w = ((m.step Sink.unlimited).machine.run
      (Writer.after w (Event.printed (m.step Sink.unlimited).events))).after (m.step Sink.unlimited).events := by
  have hstep := step_of_fits m w hw
  rw [run_of_ok hm (by rw [hstep, hs]), hstep]

/-- Another writer that takes all of the output does not change the run.  It takes what `P` says, piece by piece. -/
theorem Trail.run_of_takes {P : σ → List Char → Prop}
    (hP : ∀ {w cs rest}, P w (cs ++ rest) → Writer.fits w cs = true ∧ P (Writer.after w cs) rest)
    {starts : List (Machine × Sink)} {q : Attempt Interruption UInt64} (h : Trail m Sink.unlimited starts q)
    (hw : P w (outputOf starts)) :
    (m.run w).result = q.result ∧ (m.run w).machine = q.machine ∧ (m.run w).events = q.events := by
  generalize hu : Sink.unlimited = u at h
  induction h generalizing w with
  | halted hm =>
    rw [run_of_not_running hm w]
    exact ⟨rfl, rfl, rfl⟩
  | @failed m u f hm hs =>
    subst hu
    have hstep := step_of_fits m w (hP hw).1
    rw [run_of_error hm (by rw [hstep, hs]), hstep]
    exact ⟨rfl, rfl, rfl⟩
  | @overflowed m u hm hs =>
    subst hu
    have hstep := step_of_fits m w (hP hw).1
    rw [run_of_overflow hm (by rw [hstep, hs]), hstep]
    exact ⟨rfl, rfl, rfl⟩
  | @stepped m u starts q hm hs ht ih =>
    subst hu
    obtain ⟨hfits, hrest⟩ := hP hw
    obtain ⟨hresult, hmachine, hevents⟩ := ih hrest (sink_step_unlimited m).symm
    rw [run_of_step_fits hm hs hfits]
    exact ⟨hresult, hmachine, congrArg ((m.step Sink.unlimited).events ++ ·) hevents⟩

omit [Build] in
theorem willing_unlimited : Willing Sink.unlimited := by
  intro before cs
  induction before with
  | nil => rfl
  | cons _ before ih => exact ih

/-- A writer that takes any text does not change a run. -/
theorem run_of_willing (hw : Willing w) (m : Machine) :
    (m.run w).result = (m.run Sink.unlimited).result ∧ (m.run w).machine = (m.run Sink.unlimited).machine ∧
      (m.run w).events = (m.run Sink.unlimited).events := by
  obtain ⟨starts, ht⟩ := exists_trail m Sink.unlimited
  refine ht.run_of_takes (P := fun w _ => Willing w) (fun {_ cs _} h => ⟨h [] cs, fun before => ?_⟩) hw
  exact h (cs :: before)

/-! ### Runs with limited room -/

/-- The step `s` prints, and its text is the first that ends after `n` characters of the output. -/
def CutAt (starts : List (Machine × σ)) (n : Nat) (s : Machine × σ) : Prop :=
  (∃ v, Prints s.1 s.2 v) ∧ ∃ before after, starts = before ++ s :: after ∧
    (outputOf before).length ≤ n ∧ n < (outputOf (before ++ [s])).length

theorem CutAt.head {s : Machine × σ} (hv : ∃ v, Prints s.1 s.2 v)
    (hn : n < (Event.printed (s.1.step s.2).events).length) : CutAt (s :: starts) n s :=
  ⟨hv, [], starts, rfl, Nat.zero_le n, by simpa using hn⟩

theorem CutAt.tail {s t : Machine × σ} (hroom : (Event.printed (t.1.step t.2).events).length ≤ n)
    (h : CutAt starts (n - (Event.printed (t.1.step t.2).events).length) s) : CutAt (t :: starts) n s := by
  obtain ⟨hv, before, after, rfl, hle, hlt⟩ := h
  refine ⟨hv, t :: before, after, rfl, ?_, ?_⟩
  · rw [outputOf_cons, List.length_append]
    omega
  · rw [List.cons_append, outputOf_cons, List.length_append]
    omega

variable {starts : List (Machine × Sink)} {q : Attempt Interruption UInt64}

omit [Build] in
theorem fits_limited {cs : List Char} (h : cs.length ≤ n) : Writer.fits (Sink.limited n reason) cs = true :=
  decide_eq_true h

/-- With room for all of the output the run is the same. -/
theorem Trail.run_of_room (h : Trail m Sink.unlimited starts q) (hn : (outputOf starts).length ≤ n) :
    (m.run (Sink.limited n reason)).result = q.result ∧ (m.run (Sink.limited n reason)).machine = q.machine ∧
      (m.run (Sink.limited n reason)).events = q.events := by
  refine h.run_of_takes (P := fun w text => ∃ n, w = Sink.limited n reason ∧ text.length ≤ n) ?_ ⟨n, rfl, hn⟩
  rintro _ cs rest ⟨n, rfl, hle⟩
  rw [List.length_append] at hle
  exact ⟨fits_limited (by omega), n - cs.length, rfl, by omega⟩

theorem run_of_full (hm : m.running = true)
    (hn : n < (Event.printed (m.step Sink.unlimited).events).length) :
    (∃ v, Prints m Sink.unlimited v) ∧
      (m.run (Sink.limited n reason)).result = .error ⟨m.here, .output reason⟩ ∧
      (m.run (Sink.limited n reason)).machine = m.begun ∧
      Event.printed (m.run (Sink.limited n reason)).events =
        (Event.printed (m.step Sink.unlimited).events).take n := by
  have hfull : Writer.fits (Sink.limited n reason) (Event.printed (m.step Sink.unlimited).events) = false :=
    decide_eq_false (Nat.not_le.mpr hn)
  have hstep := step_of_not_fits m (Sink.limited n reason) hfull
  refine ⟨?_, ?_⟩
  · rcases prints_or_silent m with ⟨v, cs, hv, -⟩ | ⟨-, htext⟩
    · exact ⟨v, hv⟩
    · rw [htext] at hn
      exact absurd hn (Nat.not_lt_zero n)
  · rw [run_of_error hm (congrArg Attempt.result hstep), hstep]
    exact ⟨rfl, rfl, List.append_nil _⟩

/-- With less room the run fails at the step that is cut, which is undone, and the output is cut there. -/
theorem Trail.run_of_no_room (h : Trail m Sink.unlimited starts q) (hn : n < (outputOf starts).length) :
    ∃ s, CutAt starts n s ∧
      (m.run (Sink.limited n reason)).result = .error ⟨s.1.here, .output reason⟩ ∧
      (m.run (Sink.limited n reason)).machine = s.1.begun ∧
      Event.printed (m.run (Sink.limited n reason)).events = (outputOf starts).take n := by
  generalize hw : Sink.unlimited = w at h
  induction h generalizing n with
  | halted => simp at hn
  | @failed m w _ hm | @overflowed m w hm =>
    subst hw
    simp only [outputOf_cons, outputOf_nil, List.append_nil] at hn ⊢
    obtain ⟨hv, hresult, hmachine, hprinted⟩ := run_of_full hm hn
    exact ⟨(m, .unlimited), .head hv hn, hresult, hmachine, hprinted⟩
  | @stepped m w starts q hm hs ht ih =>
    subst hw
    by_cases hfull : n < (Event.printed (m.step Sink.unlimited).events).length
    · obtain ⟨hv, hresult, hmachine, hprinted⟩ := run_of_full hm hfull
      refine ⟨(m, .unlimited), .head hv hfull, hresult, hmachine, ?_⟩
      rw [hprinted, outputOf_cons, List.take_append_of_le_length (Nat.le_of_lt hfull)]
    · have hroom := Nat.not_lt.mp hfull
      simp only [outputOf_cons, List.length_append] at hn
      obtain ⟨s, hcut, hresult, hmachine, hprinted⟩ :=
        ih (n := n - (Event.printed (m.step Sink.unlimited).events).length) (by omega) (sink_step_unlimited m).symm
      rw [run_of_step_fits hm hs (fits_limited hroom)]
      refine ⟨s, hcut.tail hroom, hresult, hmachine, ?_⟩
      rw [Attempt.after, Event.printed_append, outputOf_cons, List.take_append, List.take_of_length_le hroom]
      exact congrArg _ hprinted

/-- **A writer that fills up cuts the output of a run.**  The output of a run whose writer refuses nothing lists the
values that are printed, and determines them.  With room for `n` characters the run is the same if its output fits;
otherwise it fails at the first `PRN` whose text ends after `n` characters, for the reason that the writer gives, with
the machine as it was before that step but for the count, and the first `n` characters have been written. -/
theorem full_writer_cuts_output (m : Machine) :
    let q := m.run Sink.unlimited
    let text := Event.printed q.events
    ∃ starts : List (Machine × Sink),
      (∀ starts' q', Trail m Sink.unlimited starts' q' ↔ starts' = starts ∧ q' = q) ∧
      text = outputOf starts ∧
      (∃ vs, (∀ vs', PrintedBy starts vs' ↔ vs' = vs) ∧ ∀ vs', Listing vs' text ↔ vs' = vs) ∧
      ∀ (n : Nat) (reason : String),
        let p := m.run (Sink.limited n reason)
        (text.length ≤ n → p.result = q.result ∧ p.machine = q.machine ∧ p.events = q.events) ∧
        (n < text.length →
          Event.printed p.events = text.take n ∧
          ∃ s, CutAt starts n s ∧ p.machine = { s.1 with cycles := s.1.cycles + 1 } ∧
            ∃ e address, p.result = .error e ∧ Numeral.IsHex s.1.here address ∧ e.causes =
              ["Execution failed at 0x" ++ String.ofList address, "Failed to write program output", reason]) := by
  intro q text
  obtain ⟨starts, hiff⟩ := trail_iff m Sink.unlimited
  have ht : Trail m Sink.unlimited starts q := (hiff starts q).mpr ⟨rfl, rfl⟩
  have htext : text = outputOf starts := ht.printed
  refine ⟨starts, hiff, htext, ?_, fun n reason => ⟨fun hn => ht.run_of_room (htext ▸ hn), fun hn => ?_⟩⟩
  · obtain ⟨vs, hby, hlist⟩ := exists_listing ht.unlimited
    refine ⟨vs, fun vs' => ⟨fun h => h.unique hby, ?_⟩, fun vs' => ⟨fun h => h.unique hlist htext, ?_⟩⟩
    · rintro rfl
      exact hby
    · rintro rfl
      rwa [htext]
  · obtain ⟨s, hcut, hresult, hmachine, hprinted⟩ := ht.run_of_no_room (htext ▸ hn)
    refine ⟨htext ▸ hprinted, s, hcut, hmachine, _, _, hresult, Numeral.isHex_hexPair _, ?_⟩
    rw [String.ofList_toList]
    rfl

end

/-- A program that prints 12 and 34, with room for four characters. -/
theorem second_number_is_cut :
    let m : Machine := { ram := Memory.zero.overlay 0 [0x82, 0, 12, 0x47, 0, 0x82, 0, 34, 0x47, 0, 1] }
    let p := m.run (Sink.limited 4 "output full")
    Event.printed (m.run Sink.unlimited).events = "12\n34\n".toList ∧
      Event.printed p.events = "12\n3".toList ∧ p.machine.pc = 8 ∧
      (∃ s : Machine, p.machine = { s with cycles := s.cycles + 1 } ∧ ∃ e address, p.result = .error e ∧
        Numeral.IsHex s.here address ∧ e.causes =
          ["Execution failed at 0x" ++ String.ofList address, "Failed to write program output", "output full"]) ∧
      (m.run (Sink.limited 6 "output full")).result = (m.run Sink.unlimited).result := by
  intro m p
  have htext : Event.printed (m.run Sink.unlimited).events = "12\n34\n".toList := by decide +kernel
  have hpc : p.machine.pc = 8 := by decide +kernel
  obtain ⟨starts, -, -, -, h⟩ := full_writer_cuts_output m
  have hlength : (Event.printed (m.run Sink.unlimited).events).length = 6 := by rw [htext]; rfl
  obtain ⟨hprinted, s, -, hmachine, herror⟩ := (h 4 "output full").2 (by rw [hlength]; decide)
  refine ⟨htext, ?_, hpc, ⟨s.1, hmachine, herror⟩, ((h 6 "output full").1 (Nat.le_of_eq hlength)).1⟩
  rw [hprinted, htext]
  rfl

end LS8.Machine
