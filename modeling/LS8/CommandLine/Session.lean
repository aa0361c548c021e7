import LS8.Machine.Run
import LS8.Program.File

/-!
What the command does: it reads a program from a file, loads it into a new machine and runs it. What the command line
means, how a journal is logged and how an error is reported is a matter of the host.
-/

namespace LS8.CommandLine

/-- What a command line asks for. -/
structure Options (ω : Type) where
  program : Option ω
  /-- Whether the machine is logged before every instruction. -/
  trace : Bool
  /-- Whether only errors are logged. -/
  quiet : Bool

/-- How much of the journal is logged. -/
def Options.verbosity {ω : Type} (options : Options ω) : Verbosity :=
  if options.trace then .upTo .trace else if options.quiet then .upTo .error else .upTo .warn

/-- What the command leaves behind: an exit status, and what stands on the standard output and on the standard error. -/
structure Answer where
  status : Nat
  output : List Char
  report : List Char

/-- An error that the command hands back. -/
inductive Failure where
  | setUp (causes : List String)
  | log (reason : String)
  | load (path : String) (failure : Machine.Failure)
  | run (interruption : Machine.Interruption)

/-- What is reported about an error, the outermost cause first. -/
def Failure.causes : Failure → List String
  | setUp causes => causes
  | log reason => [s!"Failed to set up logging: {reason}"]
  | load path failure => s!"Failed to load `{path}`" :: failure.causes
  | run interruption => interruption.causes

/-- How the command ends. -/
inductive Ending where
  | returned
  | failed (failure : Failure)
  | exited (status : Nat)
  | panicked

/-- How the command ends with the run of a machine. -/
def Ending.ofRun : Result Machine.Interruption UInt64 → Ending
  | .ok _ => returned
  | .error interruption => failed (.run interruption)
  | .overflow => panicked

/-- What the command has done when it ends. -/
structure Session where
  ending : Ending
  verbosity : Verbosity := .silent
  events : List (Event Entry) := []

/-- What surrounds the command. The strings of the system need not be texts, they are of a type `ω`; the standard output
is a writer of a type `σ`. -/
structure Host (ω σ : Type) where
  /-- Gets ready to report errors, which may fail for some causes. -/
  install : Except (List String) Unit
  /-- What a command line asks for, unless it is answered by the host. -/
  parse : List ω → Except Answer (Options ω)
  /-- Gets ready to log a journal, which may fail for some reason. -/
  startLog : Verbosity → Except String Unit
  /-- What is written to the standard output about the `n`-th entry of a journal. -/
  log : Verbosity → Nat → Entry → List Char
  /-- A string of the system as a text. -/
  display : ω → String
  /-- The bytes of a file. -/
  read : ω → Except Program.ReadError (List UInt8)
  out : σ
  /-- What is written to the standard error about an error with some causes. -/
  report : List String → List Char
  /-- What is written to the standard error if the command panics. -/
  panicReport : List Char

/-- The answer where no program is named. -/
def noProgramLine : String :=
  "Error: no program given. Pass a program file as the first argument, " ++
    "e.g. `ls8 programs/print8.ls8`\n"

section

variable [Build] {ω σ : Type} [Writer σ]

/-- Loads a program into a new machine and runs it. -/
def runProgram (out : σ) (path : String) (program : Program) : Session :=
  let loaded := ({} : Machine).load program.bytes
  let noted := loaded.records.map fun r => Event.record r.entry
  match loaded.value with
  | .error failure _ => { ending := .failed (.load path failure), events := noted }
  | .ok _ machine =>
    let attempt := machine.run out
    { ending := .ofRun attempt.result
      events := noted ++ attempt.events.map (Event.map Machine.Record.entry) }

/-- Reads a program from a file and runs it. -/
def runFile (out : σ) (path : String) (content : Except Program.ReadError (List UInt8)) : Session :=
  let read := Program.ofFile path content
  let noted := read.records.map fun r => Event.record r.entry
  match read.value with
  | .error e =>
    { ending := .exited e.exitStatus, events := noted ++ [.record ⟨.error, .session, e.message⟩] }
  | .ok program =>
    let session := runProgram out path program
    { session with events := noted ++ session.events }

/-- Says that no program is named. -/
def reportNoProgram (out : σ) : Session where
  ending := if Writer.fits out noProgramLine.toList then .returned else .panicked
  events := [.output (Writer.accepted out noProgramLine.toList)]

namespace Host

/-- What the command does with a command line, unless the host has answered it. -/
def session (h : Host ω σ) (arguments : List ω) : Except Answer Session :=
  match h.install with
  | .error causes => .ok { ending := .failed (.setUp causes) }
  | .ok _ =>
    match h.parse arguments with
    | .error answer => .error answer
    | .ok options =>
      let verbosity := options.verbosity
      match h.startLog verbosity, options.program with
      | .error reason, _ => .ok { ending := .failed (.log reason) }
      | .ok _, none => .ok { reportNoProgram h.out with verbosity }
      | .ok _, some path => .ok { runFile h.out (h.display path) (h.read path) with verbosity }

omit [Build] [Writer σ]

/-- What events make of the standard output, where the entries are counted from `n` on. -/
def written (h : Host ω σ) (v : Verbosity) (n : Nat) : List (Event Entry) → List Char
  | [] => []
  | .output chars :: events => chars ++ h.written v n events
  | .record e :: events => h.log v n e ++ h.written v (n + 1) events

/-- What a session leaves behind. -/
def close (h : Host ω σ) (s : Session) : Answer :=
  let output := h.written s.verbosity 0 s.events
  match s.ending with
  | .returned => ⟨0, output, []⟩
  | .failed failure => ⟨1, output, h.report failure.causes⟩
  | .exited status => ⟨status, output, []⟩
  | .panicked => ⟨101, output, h.panicReport⟩

end Host

/-- The answer to a command line. -/
def Host.answer (h : Host ω σ) (arguments : List ω) : Answer :=
  match h.session arguments with
  | .error answer => answer
  | .ok s => h.close s

end

end LS8.CommandLine
