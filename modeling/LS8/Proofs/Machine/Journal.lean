import LS8.Proofs.Machine.Trail
import LS8.Proofs.Numeral

/-!
The journal of a run.  A step that reads an opcode notes the machine it starts from, and after that one thing more
unless it fails: a warning if the byte is no opcode, what has been done if it is one (`Notes`).  So the journal accounts
for the steps one by one, and for the count of steps.  Main statement: `journal_accounts_for_steps`.
-/

namespace LS8.Machine

section

variable [Build] {σ : Type} [Writer σ] {m m' : Machine} {w : σ} {i : Instruction} {a b : UInt8} {e : Effect}
  {f : Failure} {r : Attempt Failure Unit σ} {starts : List (Machine × σ)} {q : Attempt Interruption UInt64 σ}
  {es es' : List Entry} {result : Result Interruption UInt64}

/-- The entries that events make in a journal of which nothing is left out. -/
def entriesOf (events : List (Event Record)) : List Entry :=
  ((Event.records events).map Record.entry).filter fun e => (Verbosity.upTo .trace).shows e.level

/-- The text tells what an instruction did. -/
inductive Effect.Tells : Effect → String → Prop
  | stopped : Tells .stopped "HLT"
  | loaded {register value : UInt8} {r v : List Char} (hr : Numeral.IsDecimal register.toNat r)
      (hv : Numeral.IsDecimal value.toNat v) :
      Tells (.loaded register value) ("LDI R" ++ String.ofList r ++ " " ++ String.ofList v)
  | printed {register value : UInt8} {r v : List Char} (hr : Numeral.IsDecimal register.toNat r)
      (hv : Numeral.IsDecimal value.toNat v) :
      Tells (.printed register value) ("PRN R" ++ String.ofList r ++ ": " ++ String.ofList v)
  | combined {i : Instruction} {first second x y result : UInt8} {r s u v z : List Char}
      (hr : Numeral.IsDecimal first.toNat r) (hs : Numeral.IsDecimal second.toNat s) (hu : Numeral.IsDecimal x.toNat u)
      (hv : Numeral.IsDecimal y.toNat v) (hz : Numeral.IsDecimal result.toNat z) :
      Tells (.combined i first second x y result) (i.mnemonic ++ " R" ++ String.ofList r ++ " R" ++ String.ofList s ++
        ": " ++ (String.ofList u ++ " " ++ String.ofList v ++ " = " ++ String.ofList z))
  | pushed {register value address : UInt8} {r v x : List Char} (hr : Numeral.IsDecimal register.toNat r)
      (hv : Numeral.IsDecimal value.toNat v) (hx : Numeral.IsHex address.toNat x) :
      Tells (.pushed register value address)
        ("PUSH R" ++ String.ofList r ++ ": " ++ String.ofList v ++ " -> " ++ ("0x" ++ String.ofList x))
  | popped {register value address : UInt8} {r v x : List Char} (hr : Numeral.IsDecimal register.toNat r)
      (hv : Numeral.IsDecimal value.toNat v) (hx : Numeral.IsHex address.toNat x) :
      Tells (.popped register value address)
        ("POP R" ++ String.ofList r ++ ": " ++ String.ofList v ++ " <- " ++ ("0x" ++ String.ofList x))

/-- The entries of a step. -/
inductive Notes (m : Machine) (w : σ) : List Entry → Prop
  /-- There is no opcode to read. -/
  | unreadable (hpc : 256 ≤ m.here) : Notes m w []
  /-- The step cannot be counted. -/
  | overflowed (hpc : m.here < 256) (hs : (m.step w).result = .overflow) : Notes m w []
  /-- The byte is the opcode of no instruction. -/
  | skipped {line : String} {address bits : List Char} (hpc : m.here < 256) (hs : (m.step w).result = .ok ())
      (hop : ∀ i : Instruction, m.ram.cell m.here ≠ i.opcode) (hline : m.trace = .ok line)
      (haddress : Numeral.IsHex m.here address) (hbits : Numeral.IsBits (m.ram.cell m.here) bits) :
      Notes m w [⟨.trace, .machine, line⟩,
        ⟨.warn, .machine, "Instruction at 0x" ++ String.ofList address ++ " not recognized: 0b" ++ String.ofList bits⟩]
  /-- The instruction has been executed. -/
  | done {line text : String} {i : Instruction} {a b : UInt8} {e : Effect} {m' : Machine} (hf : Fetches m i a b)
      (hp : Performs m.begun i a b e m') (hs : (m.step w).result = .ok ()) (hline : m.trace = .ok line)
      (htext : e.Tells text) :
      Notes m w [⟨.trace, .machine, line⟩, ⟨.debug, if i = .add ∨ i = .mul then .arithmetic else .machine, text⟩]
  /-- The instruction has failed, or some of it lies past the end of memory. -/
  | failed {line : String} {f : Failure} (hpc : m.here < 256) (hs : (m.step w).result = .error f)
      (hline : m.trace = .ok line) : Notes m w [⟨.trace, .machine, line⟩]

/-- The entries of steps, one step after the other. -/
inductive NotedBy : List (Machine × σ) → List Entry → Prop
  | nil : NotedBy [] []
  | cons {s : Machine × σ} {starts : List (Machine × σ)} {es rest : List Entry} (hs : Notes s.1 s.2 es)
      (h : NotedBy starts rest) : NotedBy (s :: starts) (es ++ rest)

/-- The entries of the end of a run: only one that has halted has any, with the number it gives. -/
inductive Concludes : Result Interruption UInt64 → List Entry → Prop
  | halted {n : UInt64} {count : List Char} (hcount : Numeral.IsDecimal n.toNat count) :
      Concludes (.ok n) [⟨.info, .machine, "Program halted after " ++ String.ofList count ++ " steps"⟩]
  | failed (e : Interruption) : Concludes (.error e) []
  | overflowed : Concludes .overflow []

/-! ### Entries of events -/

omit [Build] in
theorem shows_upTo_trace (level : Level) : (Verbosity.upTo .trace).shows level = true := by
  cases level <;> rfl

omit [Build] in
theorem entriesOf_eq (events : List (Event Record)) :
    entriesOf events = (Event.records events).map Record.entry := by
  rw [entriesOf, List.filter_eq_self]
  exact fun e _ => shows_upTo_trace e.level

omit [Build] in
theorem entriesOf_append (es es' : List (Event Record)) : entriesOf (es ++ es') = entriesOf es ++ entriesOf es' := by
  simp only [entriesOf_eq, Event.records_append, List.map_append]

/-! ### One step -/

omit [Build] in
/-- One text tells what an instruction did. -/
theorem Effect.Tells.eq {text : String} (h : e.Tells text) : text = e.text := by
  cases h with
  | stopped => rfl
  | loaded hr hv | printed hr hv =>
    simp only [Numeral.isDecimal_iff.mp hr, Numeral.isDecimal_iff.mp hv, String.ofList_toList]
    rfl
  | combined hr hs hu hv hz =>
    simp only [Numeral.isDecimal_iff.mp hr, Numeral.isDecimal_iff.mp hs, Numeral.isDecimal_iff.mp hu,
      Numeral.isDecimal_iff.mp hv, Numeral.isDecimal_iff.mp hz, String.ofList_toList]
    rfl
  | pushed hr hv hx | popped hr hv hx =>
    simp only [Numeral.isDecimal_iff.mp hr, Numeral.isDecimal_iff.mp hv, Numeral.isHex_iff.mp hx, String.ofList_toList]
    rfl

omit [Build] in
theorem Effect.tells_text (e : Effect) : e.Tells e.text := by
  have hr (r : UInt8) := Numeral.isDecimal_decimal r.toNat
  have hx (x : UInt8) := Numeral.isHex_hexPair x.toNat
  obtain ⟨text, h⟩ : ∃ text, e.Tells text := by
    cases e with
    | stopped => exact ⟨_, .stopped⟩
    | loaded r v => exact ⟨_, .loaded (hr r) (hr v)⟩
    | printed r v => exact ⟨_, .printed (hr r) (hr v)⟩
    | combined i r s u v z => exact ⟨_, .combined (hr r) (hr s) (hr u) (hr v) (hr z)⟩
    | pushed r v x => exact ⟨_, .pushed (hr r) (hr v) (hx x)⟩
    | popped r v x => exact ⟨_, .popped (hr r) (hr v) (hx x)⟩
  rwa [h.eq] at h

omit [Build] in
theorem part_of_performs (h : Performs m i a b e m') :
    e.part = if i = .add ∨ i = .mul then .arithmetic else .machine := by
  cases h with
  | combine hi => exact (if_pos (by simpa using mem_of_operation hi)).symm
  | _ => rfl

/-- Within memory the dump of a machine has a line. -/
theorem trace_eq (hpc : m.here < 256) : m.trace = .ok m.dump.text := by
  rw [trace, if_neg (not_overflows_of_le (Nat.le_of_lt hpc) (by decide))]

omit [Build] in
theorem entry_unrecognised (p : Nat) (byte : UInt8) :
    (Record.unrecognised p byte).entry =
      ⟨.warn, .machine, "Instruction at 0x" ++ String.ofList (Numeral.hexPair p).toList ++ " not recognized: 0b" ++
        String.ofList (Numeral.bits byte).toList⟩ := by
  rw [String.ofList_toList, String.ofList_toList]
  rfl

theorem notes_of_stepsTo (h : StepsTo m w r) : Notes m w (entriesOf r.events) := by
  have hs : (m.step w).result = r.result := congrArg Attempt.result h.eq_step.symm
  rw [entriesOf_eq]
  cases h with
  | unreadable hpc => exact .unreadable hpc
  | overflowed hpc hc => exact .overflowed hpc hs
  | skipped hpc hc hop =>
    have hskipped := Notes.skipped hpc hs hop (trace_eq hpc) (Numeral.isHex_hexPair _) (Numeral.isBits_bits _)
    rw [← entry_unrecognised] at hskipped
    exact hskipped
  | cut hpc hc => exact .failed hpc hs (trace_eq hpc)
  | stopped hf hc | refused hf hc => exact .failed hf.here_lt hs (trace_eq hf.here_lt)
  | done hf hc hp =>
    have hdone := Notes.done hf hp hs (trace_eq hf.here_lt) (Effect.tells_text _)
    rw [← part_of_performs hp] at hdone
    exact hdone

theorem Notes.eq (h : Notes m w es) : es = entriesOf (m.step w).events := by
  rw [entriesOf_eq]
  cases h with
  | unreadable hpc => rw [step_of_unreadable hpc]; rfl
  | overflowed hpc hs => rw [step_of_overflows hpc ((overflow_of_stepsTo (stepsTo_step m w)).mp hs).2]; rfl
  | skipped hpc hs hop hline haddress hbits =>
    have hc := (here_of_stepsTo_ok (stepsTo_step m w) hs).1.2
    obtain rfl := Result.ok.inj (hline.symm.trans (trace_eq hpc))
    rw [Numeral.isHex_iff.mp haddress, Numeral.isBits_iff.mp hbits, ← entry_unrecognised, step_of_unknown hpc hc hop]
    rfl
  | done hf hp hs hline htext =>
    obtain rfl := htext.eq
    have hc := (here_of_stepsTo_ok (stepsTo_step m w) hs).1.2
    obtain rfl := Result.ok.inj (hline.symm.trans (trace_eq hf.here_lt))
    cases hw : Writer.fits w _ with
    | true => rw [step_of_performs hf hc hp hw, ← part_of_performs hp]; rfl
    | false =>
      rw [step_of_refused hf hc hp hw] at hs
      cases hs
  | failed hpc hs hline =>
    obtain rfl := Result.ok.inj (hline.symm.trans (trace_eq hpc))
    have hstep := stepsTo_step m w
    generalize m.step w = r at hs hstep ⊢
    cases hstep with
    | unreadable hge => exact absurd hpc (Nat.not_lt.mpr hge)
    | overflowed | skipped | done => cases hs
    | cut | stopped | refused => rfl

/-- A step has these entries and no others. -/
theorem notes_iff : Notes m w es ↔ es = entriesOf (m.step w).events := by
  refine ⟨Notes.eq, ?_⟩
  rintro rfl
  exact notes_of_stepsTo (stepsTo_step m w)

/-- A step that begins notes the machine once. -/
theorem Notes.countP_trace (h : Notes m w es) :
    (es.countP fun e => e.level = .trace) = if m.Begins then 1 else 0 := by
  have hstep := stepsTo_step m w
  cases h with
  | unreadable hpc =>
    rw [if_neg fun hb : m.Begins => Nat.not_lt.mpr hpc hb.1]
    rfl
  | overflowed hpc hs =>
    rw [if_neg fun hb : m.Begins => ((overflow_of_stepsTo hstep).mp hs).2 hb.2]
    rfl
  | skipped hpc hs | done _ _ hs =>
    rw [if_pos (here_of_stepsTo_ok hstep hs).1]
    rfl
  | failed hpc hs =>
    have hb : m.Begins := ⟨hpc, counts_of_stepsTo hstep (by rw [hs]; exact nofun) hpc⟩
    rw [if_pos hb]
    rfl

/-- A step that succeeds has one more entry. -/
theorem Notes.countP_done (h : Notes m w es) :
    (es.countP fun e => e.level = .warn) + (es.countP fun e => e.level = .debug) =
      if (m.step w).result.isOk then 1 else 0 := by
  cases h with
  | unreadable hpc => rw [step_of_unreadable hpc]; rfl
  | overflowed _ hs | skipped _ hs | done _ _ hs | failed _ hs => rw [hs]; rfl

/-! ### The steps of a run -/

theorem notedBy_iff : NotedBy starts es ↔ es = starts.flatMap fun s => entriesOf (s.1.step s.2).events := by
  constructor
  · intro h
    induction h with
    | nil => rfl
    | cons hs _ ih => rw [List.flatMap_cons, ← notes_iff.mp hs, ih]
  · rintro rfl
    induction starts with
    | nil => exact .nil
    | cons s starts ih => exact .cons (notes_iff.mpr rfl) ih

theorem NotedBy.countP_trace (h : NotedBy starts es) :
    (es.countP fun e => e.level = .trace) = starts.countP fun s => s.1.Begins := by
  induction h with
  | nil => rfl
  | cons hs _ ih => simp only [List.countP_append, hs.countP_trace, ih, List.countP_cons, decide_eq_true_eq, Nat.add_comm]

theorem NotedBy.countP_done (h : NotedBy starts es) :
    (es.countP fun e => e.level = .warn) + (es.countP fun e => e.level = .debug) =
      starts.countP fun s => (s.1.step s.2).result.isOk := by
  induction h with
  | nil => rfl
  | cons hs _ ih =>
    have := hs.countP_done
    simp only [List.countP_append, List.countP_cons, ← ih]
    omega

/-- A run notes what its steps note, and then its end. -/
theorem Trail.entries (h : Trail m w starts q) :
    ∃ last, Concludes q.result last ∧
      entriesOf q.events = (starts.flatMap fun s => entriesOf (s.1.step s.2).events) ++ last := by
  induction h with
  | @halted m w hm =>
    refine ⟨_, .halted (Numeral.isDecimal_decimal _), ?_⟩
    rw [String.ofList_toList]
    rfl
  | failed => exact ⟨[], .failed _, by simp⟩
  | overflowed => exact ⟨[], .overflowed, by simp⟩
  | stepped _ _ _ ih =>
    obtain ⟨last, hlast, heq⟩ := ih
    refine ⟨last, hlast, ?_⟩
    rw [Attempt.after, entriesOf_append, heq, List.flatMap_cons, List.append_assoc]

/-- Every step that begins succeeds, but for the one that a run fails at. -/
theorem Trail.countP_isOk (h : Trail m w starts q) :
    (starts.countP fun s => s.1.Begins) = (starts.countP fun s => (s.1.step s.2).result.isOk) +
      match q.result with
      | .ok _ => 0
      | .error e => if e.pc < 256 then 1 else 0
      | .overflow => 0 := by
  induction h with
  | halted => rfl
  | @failed m w f hm hs =>
    have hcounts := counts_of_stepsTo (stepsTo_step m w) (by rw [hs]; exact nofun)
    have hb : m.Begins ↔ m.here < 256 := ⟨And.left, fun hpc => ⟨hpc, hcounts hpc⟩⟩
    simp [hs, Result.isOk, hb]
  | @overflowed m w hm hs =>
    have hb : ¬ m.Begins := fun hb => ((overflow_of_stepsTo (stepsTo_step m w)).mp hs).2 hb.2
    simp [hs, Result.isOk, hb]
  | @stepped m w starts q hm hs ht ih =>
    have hb := (here_of_stepsTo_ok (stepsTo_step m w) hs).1
    rw [List.countP_cons_of_pos (by simpa using hb), List.countP_cons_of_pos (by simp [hs, Result.isOk]), ih]
    exact Nat.add_right_comm _ _ _

omit [Build] in
theorem Concludes.unique (h : Concludes result es) (h' : Concludes result es') : es = es' := by
  cases h with
  | halted hcount =>
    cases h' with
    | halted hcount' => rw [Numeral.isDecimal_iff.mp hcount, Numeral.isDecimal_iff.mp hcount']
  | failed =>
    cases h'
    rfl
  | overflowed =>
    cases h'
    rfl

omit [Build] in
theorem Concludes.countP {level : Level} (h : Concludes result es) (hlevel : level ≠ .info) :
    (es.countP fun e => e.level = level) = 0 := by
  cases h with
  | halted => simp [hlevel.symm]
  | failed | overflowed => rfl

/-- **The journal accounts for the steps of a run.**  It has the entries of each step, one step after the other, and at
the end what a run that halts notes.  There is one dump for each step that counts, and one warning or report for each
dump, but for a step that the run has failed at after its opcode could be read. -/
theorem journal_accounts_for_steps (m : Machine) (w : σ) :
    let q := m.run w
    let journal := entriesOf q.events
    let count := fun level => journal.countP fun e => e.level = level
    ∃ starts : List (Machine × σ),
      (∀ starts' q', Trail m w starts' q' ↔ starts' = starts ∧ q' = q) ∧
      (∃ noted last, (∀ es, NotedBy starts es ↔ es = noted) ∧ (∀ es, Concludes q.result es ↔ es = last) ∧
        journal = noted ++ last) ∧
      q.machine.cycles = m.cycles + UInt64.ofNat (count .trace) ∧
      (Build.checksSums = true → q.machine.cycles.toNat = m.cycles.toNat + count .trace) ∧
      count .trace = count .warn + count .debug +
        match q.result with
        | .ok _ => 0
        | .error e => if e.pc < 256 then 1 else 0
        | .overflow => 0 := by
  intro q journal count
  obtain ⟨starts, hiff⟩ := trail_iff m w
  have ht : Trail m w starts q := (hiff starts q).mpr ⟨rfl, rfl⟩
  obtain ⟨noted, hnoted⟩ : ∃ noted, NotedBy starts noted := ⟨_, notedBy_iff.mpr rfl⟩
  obtain ⟨last, hlast, heq⟩ := ht.entries
  have hjournal : journal = noted ++ last := by rw [notedBy_iff.mp hnoted, ← heq]
  have hcount : ∀ level, level ≠ .info → count level = noted.countP fun e => e.level = level := by
    intro level hlevel
    show journal.countP _ = _
    rw [hjournal, List.countP_append, hlast.countP hlevel, Nat.add_zero]
  have htrace : count .trace = starts.countP fun s => s.1.Begins := (hcount .trace nofun).trans hnoted.countP_trace
  refine ⟨starts, hiff, ⟨noted, last, fun es => ?_, fun es => ⟨fun h => h.unique hlast, ?_⟩, hjournal⟩, ?_, fun hb => ?_,
    ?_⟩
  · rw [notedBy_iff, notedBy_iff.mp hnoted]
  · rintro rfl
    exact hlast
  · rw [htrace]
    exact ht.cycles
  · rw [htrace]
    exact ht.toNat_cycles hb
  · rw [htrace, hcount .warn nofun, hcount .debug nofun, hnoted.countP_done]
    exact ht.countP_isOk

end

/-- A byte that is no opcode, and an instruction that prints a register there is none of. -/
theorem skipped_byte_is_noted :
    let m : Machine := { ram := Memory.zero.overlay 0 [0xFF, 0x47, 9] }
    let journal := entriesOf (m.run Sink.unlimited).events
    journal = [⟨.trace, .machine, "TRACE: 00 | FF 47 09 | 00 00 00 00 00 00 00 F4"⟩,
      ⟨.warn, .machine, "Instruction at 0x00 not recognized: 0b11111111"⟩,
      ⟨.trace, .machine, "TRACE: 01 | 47 09 00 | 00 00 00 00 00 00 00 F4"⟩] ∧
      (m.run Sink.unlimited).machine.cycles.toNat = 0 + 2 ∧
      (journal.countP fun e => e.level = .trace) = 1 + 0 + 1 := by
  intro m journal
  have hjournal : journal = [⟨.trace, .machine, "TRACE: 00 | FF 47 09 | 00 00 00 00 00 00 00 F4"⟩,
      ⟨.warn, .machine, "Instruction at 0x00 not recognized: 0b11111111"⟩,
      ⟨.trace, .machine, "TRACE: 01 | 47 09 00 | 00 00 00 00 00 00 00 F4"⟩] := by decide +kernel
  have hresult : (m.run Sink.unlimited).result = .error ⟨1, .fault (.noRegister 9)⟩ := by decide +kernel
  obtain ⟨-, -, -, -, hcycles, hcount⟩ := journal_accounts_for_steps m Sink.unlimited
  have htraces : (journal.countP fun e => e.level = .trace) = 2 := by
    rw [hjournal]
    rfl
  refine ⟨hjournal, ?_, ?_⟩
  · rw [hcycles rfl]
    exact congrArg (0 + ·) htraces
  · rw [hresult] at hcount
    refine hcount.trans ?_
    show (journal.countP _) + (journal.countP _) + 1 = _
    rw [hjournal]
    rfl

end LS8.Machine
