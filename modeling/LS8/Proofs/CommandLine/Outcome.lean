import LS8.Proofs.CommandLine.Weaving
import LS8.Proofs.Machine.Reachable
import LS8.Proofs.Program.Loading

/-!
What the command comes to.  On a host that serves it (`Host.Serves`) what is logged of the journal depends on the
flags of the command line, everything else on the file only: the exit status, the output of the program, the error
that is reported and the journal as a whole (`Outcome`).  What becomes of a file, whether it is missing, unreadable,
refused or loaded (`fate`), says what the outcome is.  Main statement: `outcome_depends_on_file_only`.
-/

namespace LS8

namespace Machine

theorem exists_fault_of_run [Build] {m : Machine} {e : Interruption}
    (h : (m.run Sink.unlimited).result = .error e) :
    e.pc = (m.run Sink.unlimited).machine.here ∧ ∃ x, e.failure = .fault x := by
  obtain ⟨starts, ht⟩ := exists_trail m Sink.unlimited
  obtain ⟨s, hmem, -, hs⟩ := ht.exists_failed h
  rw [ht.unlimited s hmem] at hs
  exact ⟨(ht.error h).1, exists_fault_of_step hs⟩

end Machine

namespace CommandLine

section

variable {content : Except Program.ReadError (List UInt8)} {ls : List (List Char)} {program : List UInt8} {m : Machine}

/-! ### What becomes of a file -/

/-- The file cannot be read as text, for another reason than that there is none. -/
def Unreadable (content : Except Program.ReadError (List UInt8)) : Prop :=
  (∃ reason, content = .error (.other reason)) ∨ ∃ bytes, content = .ok bytes ∧ Program.text? bytes = none

/-- The file is read as a text of these lines. -/
def HasLines (content : Except Program.ReadError (List UInt8)) (ls : List (List Char)) : Prop :=
  ∃ bytes text, content = .ok bytes ∧ Program.text? bytes = some text ∧ Text.Splits text.toList ls

/-- A line of the file is invalid, or there are more literals than memory has cells. -/
def Refused (content : Except Program.ReadError (List UInt8)) : Prop :=
  ∃ ls, HasLines content ls ∧ ((∃ n word, Program.RejectAt ls n word) ∨
    ∃ bytes, Program.Lists bytes (Program.ByteAt ls) ∧ 256 < bytes.length)

/-- The file is accepted with these bytes. -/
def Accepts (content : Except Program.ReadError (List UInt8)) (program : List UInt8) : Prop :=
  ∃ ls bytes, HasLines content ls ∧ (∀ n word, ¬ Program.RejectAt ls n word) ∧
    Program.Lists bytes (Program.ByteAt ls) ∧ bytes.length ≤ 256 ∧ program = bytes.map Prod.snd

/-- The file is accepted, and `m` is a new machine with its program in memory. -/
def Loads (content : Except Program.ReadError (List UInt8)) (m : Machine) : Prop :=
  ∃ program, Accepts content program ∧ (({} : Machine).load program).value = .ok () m

theorem Accepts.exists_loads (h : Accepts content program) : ∃ m, Loads content m := by
  have hlength : program.length ≤ 256 := by
    obtain ⟨ls, bytes, -, -, -, hle, rfl⟩ := h
    rwa [List.length_map]
  exact ⟨_, program, h, (Machine.value_load {} program).trans (if_pos hlength)⟩

/-- A file is missing, cannot be read, is refused or is accepted. -/
theorem fate (content : Except Program.ReadError (List UInt8)) :
    content = .error .notFound ∨ Unreadable content ∨ Refused content ∨ ∃ m, Loads content m := by
  cases content with
  | error e =>
    cases e with
    | notFound => exact .inl rfl
    | other reason => exact .inr (.inl (.inl ⟨reason, rfl⟩))
  | ok bytes =>
    cases htext : Program.text? bytes with
    | none => exact .inr (.inl (.inr ⟨bytes, rfl, htext⟩))
    | some text =>
      have hlines : HasLines (.ok bytes) (Text.lines text.toList) :=
        ⟨bytes, text, rfl, htext, Text.splits_lines text.toList⟩
      have hlists := Program.lists_literals (Text.lines text.toList)
      by_cases hno : ∀ n word, ¬ Program.RejectAt (Text.lines text.toList) n word
      · by_cases hle : (Program.literals (Text.lines text.toList)).length ≤ 256
        · have haccepts : Accepts (.ok bytes) _ := ⟨_, _, hlines, hno, hlists, hle, rfl⟩
          exact .inr (.inr (.inr haccepts.exists_loads))
        · exact .inr (.inr (.inl ⟨_, hlines, .inr ⟨_, hlists, Nat.lt_of_not_le hle⟩⟩))
      · simp only [not_forall, not_not] at hno
        exact .inr (.inr (.inl ⟨_, hlines, .inl hno⟩))

theorem HasLines.value_ofFile (h : HasLines content ls) (path : String) :
    ∃ text, Text.Splits text.toList ls ∧
      (Program.ofFile path content).value = (Program.ofText text).value.mapError (.invalid path) := by
  obtain ⟨bytes, text, rfl, htext, hls⟩ := h
  refine ⟨text, hls, ?_⟩
  simp only [Program.ofFile, htext]

theorem Unreadable.value_ofFile (h : Unreadable content) (path : String) :
    ∃ reason, (Program.ofFile path content).value = .error (.unreadable path reason) := by
  rcases h with ⟨reason, rfl⟩ | ⟨bytes, rfl, htext⟩
  · exact ⟨reason, rfl⟩
  · refine ⟨"stream did not contain valid UTF-8", ?_⟩
    simp only [Program.ofFile, htext]

theorem Refused.value_ofFile (h : Refused content) (path : String) :
    ∃ es, (Program.ofFile path content).value = .error (.invalid path es) := by
  obtain ⟨ls, hlines, hbad⟩ := h
  obtain ⟨text, hls, hvalue⟩ := hlines.value_ofFile path
  rw [hvalue]
  cases hp : (Program.ofText text).value with
  | error es => exact ⟨es, rfl⟩
  | ok p =>
    obtain ⟨hno, hle, -⟩ := (Program.parse_eq_ok_iff hls).mp hp
    rcases hbad with ⟨n, word, hreject⟩ | ⟨bytes, hbytes, hlt⟩
    · exact absurd hreject (Program.rejects_eq_nil_iff.mp hno n word)
    · obtain rfl := (Program.lists_literals ls).iff_eq.mp hbytes
      exact absurd hle (Nat.not_le.mpr hlt)

theorem Accepts.value_ofFile (h : Accepts content program) (path : String) :
    (Program.ofFile path content).value = .ok ⟨program⟩ := by
  obtain ⟨ls, bytes, hlines, hno, hbytes, hle, rfl⟩ := h
  obtain ⟨text, hls, hvalue⟩ := hlines.value_ofFile path
  obtain rfl := (Program.lists_literals ls).iff_eq.mp hbytes
  have hp : (Program.parse 256 text).value = .ok _ :=
    (Program.parse_eq_ok_iff hls).mpr ⟨Program.rejects_eq_nil_iff.mpr hno, hle, rfl⟩
  rw [hvalue, Program.ofText, hp]
  rfl

/-! ### What is logged -/

/-- The level that the flags of a command line choose: the machine before every instruction, errors only, or by default
what may be wrong. -/
inductive Chooses {ω : Type} (options : Options ω) : Level → Prop
  | trace (ht : options.trace = true) : Chooses options .trace
  | quiet (ht : options.trace = false) (hq : options.quiet = true) : Chooses options .error
  | neither (ht : options.trace = false) (hq : options.quiet = false) : Chooses options .warn

theorem exists_chooses {ω : Type} (options : Options ω) :
    ∃ level, Chooses options level ∧ options.verbosity = .upTo level := by
  unfold Options.verbosity
  cases ht : options.trace with
  | true => exact ⟨_, .trace ht, rfl⟩
  | false =>
    cases hq : options.quiet with
    | true => exact ⟨_, .quiet ht hq, rfl⟩
    | false => exact ⟨_, .neither ht hq, rfl⟩

/-- What is taken for granted of a host: nothing fails while it gets ready, an entry of the journal is logged as a
line of its own exactly if it is shown, such a line does not look like a number, and the standard output takes
everything. -/
structure Host.Serves {ω σ : Type} [Writer σ] (h : Host ω σ) (line : Nat → Entry → List Char) : Prop where
  install : h.install = .ok ()
  startLog : ∀ v, h.startLog v = .ok ()
  log : ∀ v n e, h.log v n e = if v.shows e.level then line n e ++ ['\n'] else []
  marked : ∀ n e, Marked (line n e)
  willing : Machine.Willing h.out

/-- What the command comes to, whatever is logged of its journal. -/
structure Outcome where
  status : Nat
  /-- The output of the program. -/
  printed : List Char
  journal : List Entry
  /-- The causes of the error that is reported, if there is one. -/
  causes : Option (List String)

/-- The answer shows the outcome, with the entries of the journal up to a level. -/
structure Answer.Shows {ω σ : Type} (a : Answer) (h : Host ω σ) (line : Nat → Entry → List Char) (level : Level)
    (o : Outcome) : Prop where
  status : a.status = o.status
  report : a.report = o.causes.elim [] h.report
  output : Woven o.printed (loggedLines line (.upTo level) 0 o.journal) a.output
  /-- The output of the program is what stands there without the log. -/
  unique : ∀ vs text, Machine.Listing vs text →
    Woven text (loggedLines line (.upTo level) 0 o.journal) a.output → text = o.printed

/-- The outcome of a session. -/
def Session.outcome (s : Session) : Outcome where
  status := match s.ending with
    | .returned => 0
    | .failed _ => 1
    | .exited status => status
    | .panicked => 101
  printed := Event.printed s.events
  journal := Event.records s.events
  causes := match s.ending with
    | .failed failure => some failure.causes
    | _ => none

theorem mem_loggedLines {line : Nat → Entry → List Char} {v : Verbosity} {n : Nat} {es : List Entry} {l : List Char}
    (h : l ∈ loggedLines line v n es) : ∃ k e, l = line k e := by
  obtain ⟨x, -, rfl⟩ := List.mem_map.mp h
  exact ⟨_, _, rfl⟩

theorem Session.shows {ω σ : Type} [Writer σ] {h : Host ω σ} {line : Nat → Entry → List Char}
    (hserves : h.Serves line) {s : Session} (hs : s.ending ≠ .panicked) (hlined : Lined s.events) {vs : List UInt8}
    (hl : Machine.Listing vs s.outcome.printed) (level : Level) :
    (h.close { s with verbosity := .upTo level }).Shows h line level s.outcome := by
  have houtput := woven_written (hserves.log (.upTo level)) hlined 0
  have hmarked : ∀ l ∈ loggedLines line (.upTo level) 0 (Event.records s.events), Marked l := by
    intro l hmem
    obtain ⟨k, e, rfl⟩ := mem_loggedLines hmem
    exact hserves.marked k e
  obtain ⟨ending, v, es⟩ := s
  cases ending with
  | panicked => exact absurd rfl hs
  | returned | failed | exited =>
    exact ⟨rfl, rfl, houtput, fun _ _ hl' h' => h'.unique houtput hmarked rfl hl' hl⟩

/-! ### What the command comes to for a file -/

theorem part_entry (r : Program.Record) : r.entry.part = .reader := by
  cases r <;> rfl

/-- The outcome where there is no program to run. -/
structure Idle (o : Outcome) : Prop where
  printed : o.printed = []
  causes : o.causes = none
  /-- No instruction is noted. -/
  journal : ∀ e ∈ o.journal, e.part = .reader ∨ e.part = .session

/-- The session has no program to run, and exits with this status. -/
structure Rejects (s : Session) (status : Nat) : Prop where
  ending : s.ending = .exited status
  idle : Idle s.outcome
  lined : Lined s.events

theorem Rejects.status {s : Session} {status : Nat} (h : Rejects s status) : s.outcome.status = status := by
  rw [Session.outcome, h.ending]

section

variable [Build]

theorem rejects_runFile {path : String} {e : Program.FileError} (h : (Program.ofFile path content).value = .error e) :
    Rejects (runFile Sink.unlimited path content) e.exitStatus := by
  have heq : runFile Sink.unlimited path content =
      { ending := .exited e.exitStatus
        events := (Program.ofFile path content).records.map (fun r => .record r.entry) ++
          [.record ⟨.error, .session, e.message⟩] } := by
    simp only [runFile, h]
  rw [heq]
  refine ⟨rfl, ⟨?_, rfl, fun entry hmem => ?_⟩, (lined_record _ _).append (lined_record id [_])⟩
  · simp only [Session.outcome, Event.printed_append, Event.printed_record]
    rfl
  · simp only [Session.outcome, Event.records_append, Event.records_record] at hmem
    rcases List.mem_append.mp hmem with hmem | hmem
    · obtain ⟨r, -, rfl⟩ := List.mem_map.mp hmem
      exact .inl (part_entry r)
    · obtain rfl := List.mem_singleton.mp hmem
      exact .inr rfl

/-- The outcome where a machine has been run, and the run has come to `q`. -/
structure Ran (q : Machine.Attempt Machine.Interruption UInt64) (o : Outcome) : Prop where
  printed : o.printed = Event.printed q.events
  /-- The entries of the run are the last ones. -/
  journal : (Event.records q.events).map Machine.Record.entry <:+ o.journal
  halted : ∀ n, q.result = .ok n → o.status = 0 ∧ o.causes = none
  failed : ∀ e, q.result = .error e → o.status = 1 ∧ o.causes = some e.causes

omit [Build] in
theorem ofRun_eq_panicked_iff {result : Result Machine.Interruption UInt64} :
    Ending.ofRun result = .panicked ↔ result = .overflow := by
  cases result <;> simp [Ending.ofRun]

/-- A new machine has room to count its steps. -/
theorem run_ne_overflow (hm : (({} : Machine).load program).value = .ok () m) :
    (m.run Sink.unlimited).result ≠ .overflow := by
  have hcycles : m.cycles = 0 := by
    rw [Machine.value_load] at hm
    split at hm
    · cases hm
      rfl
    · cases hm
  obtain ⟨starts, ht⟩ := Machine.exists_trail m Sink.unlimited
  refine ht.ne_overflow ?_
  rw [hcycles]
  decide

/-- A standard output that takes everything does not change the session. -/
theorem runFile_of_willing {σ : Type} [Writer σ] {out : σ} (hw : Machine.Willing out) (path : String)
    (content : Except Program.ReadError (List UInt8)) :
    runFile out path content = runFile Sink.unlimited path content := by
  have hprogram (p : Program) : runProgram out path p = runProgram Sink.unlimited path p := by
    unfold runProgram
    cases hm : (({} : Machine).load p.bytes).value with
    | error => simp only [hm]
    | ok _ m =>
      obtain ⟨hresult, -, hevents⟩ := Machine.run_of_willing hw m
      simp only [hm, hresult, hevents]
  simp only [runFile, hprogram]

theorem runFile_of_ok {path : String} {p : Program} (h : (Program.ofFile path content).value = .ok p)
    (hm : (({} : Machine).load p.bytes).value = .ok () m) :
    Ran (m.run Sink.unlimited) (runFile Sink.unlimited path content).outcome ∧
      Lined (runFile Sink.unlimited path content).events ∧
      (runFile Sink.unlimited path content).ending ≠ .panicked := by
  have heq : runFile Sink.unlimited path content =
      { ending := .ofRun (m.run Sink.unlimited).result
        events := (Program.ofFile path content).records.map (fun r => .record r.entry) ++
          ((({} : Machine).load p.bytes).records.map (fun r => .record r.entry) ++
            (m.run Sink.unlimited).events.map (Event.map Machine.Record.entry)) } := by
    simp only [runFile, runProgram, h, hm]
  have hno := run_ne_overflow hm
  rw [heq]
  refine ⟨⟨?_, ?_, fun n hn => ?_, fun e he => ?_⟩, ?_, ?_⟩
  · simp only [Session.outcome, Event.printed_append, Event.printed_record, Event.printed_map, List.nil_append]
  · simp only [Session.outcome, Event.records_append, Event.records_map, ← List.append_assoc]
    exact List.suffix_append _ _
  · simp only [Session.outcome, hn, Ending.ofRun, and_self]
  · simp only [Session.outcome, he, Ending.ofRun, Failure.causes, and_self]
  · exact (lined_record _ _).append ((lined_record _ _).append ((Machine.lined_run m).map _))
  · exact mt ofRun_eq_panicked_iff.mp hno

theorem Ran.failed_fault {o : Outcome} (h : Ran (m.run Sink.unlimited) o) {e : Machine.Interruption}
    (he : (m.run Sink.unlimited).result = .error e) :
    e.pc = (m.run Sink.unlimited).machine.here ∧ ∃ (f : Fault) (address : List Char), e.failure = .fault f ∧
      Numeral.IsHex e.pc address ∧ o.causes = some ["Execution failed at 0x" ++ String.ofList address, f.message] := by
  obtain ⟨hpc, f, hf⟩ := Machine.exists_fault_of_run he
  refine ⟨hpc, f, _, hf, Numeral.isHex_hexPair e.pc, (h.failed e he).2.trans ?_⟩
  rw [Machine.Interruption.causes, hf, String.ofList_toList]
  rfl

/-! ### Exit statuses -/

theorem rejects_of_notFound (path : String) (h : content = .error .notFound) :
    Rejects (runFile Sink.unlimited path content) 2 := by
  have hvalue : (Program.ofFile path content).value = .error (.notFound path) := by
    rw [h]
    rfl
  exact rejects_runFile hvalue

theorem Unreadable.rejects (path : String) (h : Unreadable content) :
    Rejects (runFile Sink.unlimited path content) 1 := by
  obtain ⟨reason, hvalue⟩ := h.value_ofFile path
  exact rejects_runFile hvalue

theorem Refused.rejects (path : String) (h : Refused content) : Rejects (runFile Sink.unlimited path content) 1 := by
  obtain ⟨es, hvalue⟩ := h.value_ofFile path
  exact rejects_runFile hvalue

theorem Loads.ran (path : String) (h : Loads content m) :
    Ran (m.run Sink.unlimited) (runFile Sink.unlimited path content).outcome ∧
      Lined (runFile Sink.unlimited path content).events ∧
      (runFile Sink.unlimited path content).ending ≠ .panicked := by
  obtain ⟨program, haccepts, hm⟩ := h
  exact runFile_of_ok (haccepts.value_ofFile path) hm

/-- A program that is loaded fails. -/
def Fails (content : Except Program.ReadError (List UInt8)) : Prop :=
  ∃ m e, Loads content m ∧ (m.run Sink.unlimited).result = .error e

/-- A program that is loaded halts. -/
def Halts (content : Except Program.ReadError (List UInt8)) : Prop :=
  ∃ m n, Loads content m ∧ (m.run Sink.unlimited).result = .ok n

theorem status_runFile (path : String) (content : Except Program.ReadError (List UInt8)) :
    let o := (runFile Sink.unlimited path content).outcome
    (o.status = 2 ↔ content = .error .notFound) ∧
      (o.status = 1 ↔ Unreadable content ∨ Refused content ∨ Fails content) ∧
      (o.status = 0 ↔ Halts content) ∧ o.status ≤ 2 := by
  intro o
  have htwo : content = .error .notFound → o.status = 2 := fun h => (rejects_of_notFound path h).status
  have hone : Unreadable content ∨ Refused content ∨ Fails content → o.status = 1 := by
    rintro (h | h | ⟨m, e, h, he⟩)
    · exact (h.rejects path).status
    · exact (h.rejects path).status
    · exact ((h.ran path).1.failed e he).1
  have hzero : Halts content → o.status = 0 := by
    rintro ⟨m, n, h, hn⟩
    exact ((h.ran path).1.halted n hn).1
  -- one of the three holds, so that no status goes with another
  have hfate : content = .error .notFound ∨ (Unreadable content ∨ Refused content ∨ Fails content) ∨ Halts content := by
    rcases fate content with h | h | h | ⟨m, h⟩
    · exact .inl h
    · exact .inr (.inl (.inl h))
    · exact .inr (.inl (.inr (.inl h)))
    · cases hr : (m.run Sink.unlimited).result with
      | ok n => exact .inr (.inr ⟨m, n, h, hr⟩)
      | error e => exact .inr (.inl (.inr (.inr ⟨m, e, h, hr⟩)))
      | overflow =>
        obtain ⟨program, -, hm⟩ := h
        exact absurd hr (run_ne_overflow hm)
  grind

/-! ### The whole command -/

section

variable {ω σ : Type} [Writer σ] {h : Host ω σ} {line : Nat → Entry → List Char}

omit [Build] in
theorem Rejects.shows (hserves : h.Serves line) {s : Session} {status : Nat} (hs : Rejects s status) (level : Level) :
    (h.close { s with verbosity := .upTo level }).Shows h line level s.outcome := by
  have hlisting : Machine.Listing [] s.outcome.printed := hs.idle.printed.symm ▸ .nil
  exact Session.shows hserves (by rw [hs.ending]; nofun) hs.lined hlisting level

/-- What is answered for a file shows its outcome. -/
theorem shows_runFile (hserves : h.Serves line) (path : String) (content : Except Program.ReadError (List UInt8))
    (level : Level) :
    (h.close { runFile Sink.unlimited path content with verbosity := .upTo level }).Shows h line level
      (runFile Sink.unlimited path content).outcome := by
  rcases fate content with h | h | h | ⟨m, h⟩
  · exact (rejects_of_notFound path h).shows hserves level
  · exact (h.rejects path).shows hserves level
  · exact (h.rejects path).shows hserves level
  · obtain ⟨hran, hlined, hending⟩ := h.ran path
    obtain ⟨vs, hlisting⟩ := Machine.exists_listing_run m
    exact Session.shows hserves hending hlined (hran.printed.symm ▸ hlisting) level

/-- Where the host serves it, the command reads the file that it is given and runs the program in it. -/
theorem Host.Serves.answer (hserves : h.Serves line) {arguments : List ω} {options : Options ω} {path : ω}
    (hparse : h.parse arguments = .ok options) (hpath : options.program = some path) :
    h.answer arguments =
      h.close { runFile Sink.unlimited (h.display path) (h.read path) with verbosity := options.verbosity } := by
  have hsession : h.session arguments =
      .ok { runFile h.out (h.display path) (h.read path) with verbosity := options.verbosity } := by
    simp only [Host.session, hserves.install, hparse, hserves.startLog, hpath]
  simp only [Host.answer, hsession, runFile_of_willing hserves.willing]

end

/-- **The outcome of the command depends on the file only.**  For every file there is an outcome that every command
line for it shows on every host that serves it, with the entries of the journal up to the level that the flags choose
between the lines of the program.  The exit status is 2 if the file is missing, 1 if it cannot be read, has an invalid
line or too many literals or if its program fails, and 0 if its program halts.  Without a program nothing is executed,
printed or reported; a program is run in a new machine, its output is printed, and a fault of it is reported after the
address of the instruction. -/
theorem outcome_depends_on_file_only (name : String) (content : Except Program.ReadError (List UInt8)) :
    ∃ o : Outcome,
      (∀ (ω σ : Type) [Writer σ] (h : Host ω σ) line arguments options path, h.Serves line →
        h.parse arguments = .ok options → options.program = some path → h.display path = name → h.read path = content →
        ∃ level, Chooses options level ∧ (h.answer arguments).Shows h line level o) ∧
      (o.status = 2 ↔ content = .error .notFound) ∧
      (o.status = 1 ↔ Unreadable content ∨ Refused content ∨ Fails content) ∧
      (o.status = 0 ↔ Halts content) ∧ o.status ≤ 2 ∧
      (content = .error .notFound ∨ Unreadable content ∨ Refused content → Idle o) ∧
      ∀ m, Loads content m → Ran (m.run Sink.unlimited) o ∧
        ∀ e, (m.run Sink.unlimited).result = .error e →
          e.pc = (m.run Sink.unlimited).machine.here ∧ ∃ (f : Fault) (address : List Char), e.failure = .fault f ∧
            Numeral.IsHex e.pc address ∧
            o.causes = some ["Execution failed at 0x" ++ String.ofList address, f.message] := by
  obtain ⟨htwo, hone, hzero, hle⟩ := status_runFile name content
  refine ⟨(runFile Sink.unlimited name content).outcome, ?_, htwo, hone, hzero, hle, ?_, ?_⟩
  · rintro ω σ _ h line arguments options path hserves hparse hpath rfl rfl
    obtain ⟨level, hlevel, hverbosity⟩ := exists_chooses options
    refine ⟨level, hlevel, ?_⟩
    rw [hserves.answer hparse hpath, hverbosity]
    exact shows_runFile hserves (h.display path) (h.read path) level
  · rintro (h | h | h)
    · exact (rejects_of_notFound name h).idle
    · exact (h.rejects name).idle
    · exact (h.rejects name).idle
  · intro m h
    have hran := (h.ran name).1
    exact ⟨hran, fun e he => hran.failed_fault he⟩

end

end

/-! ### A host -/

/-- A line of a log with the time, the level, the part of the program and the text of an entry. -/
def timedLine (_ : Nat) (e : Entry) : List Char :=
  let level := match e.level with
    | .error => "ERROR"
    | .warn => "WARN "
    | .info => "INFO "
    | .debug => "DEBUG"
    | .trace => "TRACE"
  let part := match e.part with
    | .session => "ls8"
    | .reader => "ls8::memory::parse"
    | .machine => "ls8::processor"
    | .arithmetic => "ls8::processor::alu"
  "2024-01-01 00:00:00,000 ".toList ++ (level ++ " [" ++ part ++ "] " ++ e.text).toList

/-- A host with one file, where flags stand before or after its name. -/
def plainHost (source : String) : Host String Sink where
  install := .ok ()
  parse
    | ["-t", path] => .ok ⟨some path, true, false⟩
    | [path, "--quiet"] => .ok ⟨some path, false, true⟩
    | _ => .error ⟨2, [], "error: unexpected argument found\n".toList⟩
  startLog _ := .ok ()
  log v n e := if v.shows e.level then timedLine n e ++ ['\n'] else []
  display := id
  read _ := .ok source.toUTF8.toList
  out := .unlimited
  report causes := ("Error: " ++ String.join (causes.zipIdx.map fun (cause, i) => s!"\n   {i}: {cause}") ++ "\n").toList
  panicReport := "The application panicked (crashed).\n".toList

theorem serves_plainHost (source : String) : (plainHost source).Serves timedLine where
  install := rfl
  startLog _ := rfl
  log _ _ _ := rfl
  marked n e := by
    refine ⟨'-', ?_, by decide⟩
    show '-' ∈ ("2024-01-01 00:00:00,000 ".toList ++ _).takeWhile _
    simp
  willing := Machine.willing_unlimited

/-- A program that prints 5 and fails for a register, traced and with errors only. -/
theorem fault_is_reported_with_every_flag :
    let host := plainHost "10000010\n0\n101\n01000111\n0\n01000111\n1001\n"
    let traced := host.answer ["-t", "p"]
    let quiet := host.answer ["p", "--quiet"]
    host.Serves timedLine ∧ traced.status = 1 ∧ quiet.status = 1 ∧ quiet.report = traced.report ∧
      traced.report = "Error: \n   0: Execution failed at 0x05\n   1: no register `R9`\n".toList ∧
      (∃ logged, Woven ['5', '\n'] logged traced.output) ∧ ∃ logged, Woven ['5', '\n'] logged quiet.output := by
  intro host traced quiet
  let source := "10000010\n0\n101\n01000111\n0\n01000111\n1001\n"
  let m : Machine := { ram := Memory.zero.overlay 0 [0x82, 0, 5, 0x47, 0, 0x47, 9] }
  have hserves : host.Serves timedLine := serves_plainHost source
  have htext : Program.text? source.toUTF8.toList = some source := by decide +kernel
  have hlines : HasLines (host.read "p") (Text.lines source.toList) :=
    ⟨_, source, rfl, htext, Text.splits_lines source.toList⟩
  have hno : ∀ n word, ¬ Program.RejectAt (Text.lines source.toList) n word :=
    Program.rejects_eq_nil_iff.mp (by decide +kernel)
  have haccepts : Accepts (host.read "p") [0x82, 0, 5, 0x47, 0, 0x47, 9] :=
    ⟨_, _, hlines, hno, Program.lists_literals _, by decide +kernel, by decide +kernel⟩
  have hloads : Loads (host.read "p") m := ⟨_, haccepts, rfl⟩
  have hresult : (m.run Sink.unlimited).result = .error ⟨5, .fault (.noRegister 9)⟩ := by decide +kernel
  have hprinted : Event.printed (m.run Sink.unlimited).events = ['5', '\n'] := by decide +kernel
  obtain ⟨o, hshows, -, -, -, -, -, hran⟩ := outcome_depends_on_file_only "p" (host.read "p")
  obtain ⟨_, -, htraced⟩ := hshows _ _ host timedLine ["-t", "p"] _ "p" hserves rfl rfl rfl rfl
  obtain ⟨_, -, hquiet⟩ := hshows _ _ host timedLine ["p", "--quiet"] _ "p" hserves rfl rfl rfl rfl
  obtain ⟨hran, -⟩ := hran m hloads
  obtain ⟨hstatus, hcauses⟩ := hran.failed _ hresult
  have hoprinted : o.printed = ['5', '\n'] := hran.printed.trans hprinted
  refine ⟨hserves, htraced.status.trans hstatus, hquiet.status.trans hstatus,
    hquiet.report.trans htraced.report.symm, ?_, ⟨_, hoprinted ▸ htraced.output⟩, ⟨_, hoprinted ▸ hquiet.output⟩⟩
  rw [htraced.report, hcauses]
  decide +kernel

end CommandLine

end LS8
