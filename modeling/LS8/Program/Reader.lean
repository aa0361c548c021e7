import LS8.Journal
import LS8.Program.Error
import LS8.Program.Literal

/-!
Programs and how they are read from a text with one literal per line. The reader goes over all
lines, whatever it meets: each bad literal is an error of its own, and a program that is too large
is one more error at the end.
-/

namespace LS8

/-- Machine code, to be placed at address 0. -/
structure Program where
  bytes : List UInt8
deriving DecidableEq

namespace Program

def length (p : Program) : Nat := p.bytes.length

def isEmpty (p : Program) : Bool := p.bytes.isEmpty

/-- What the reader notes in the journal. -/
inductive Record where
  /-- A file of so many bytes has been read. -/
  | fileRead (length : Nat) (path : String)
  /-- A line holds this byte. -/
  | byteFound (line : Nat) (byte : UInt8)
  | rejected (e : Error)
deriving DecidableEq

def Record.entry : Record → Entry
  | fileRead length path =>
    ⟨.debug, .reader, s!"Read {Numeral.decimal length} bytes from `{path}`"⟩
  | byteFound line byte =>
    ⟨.trace, .reader, s!"[{Numeral.decimal line}] Found byte 0b{Numeral.bits byte}"⟩
  | rejected e => ⟨.error, .reader, e.message⟩

/-- A reader between two lines. -/
structure Reader where
  /-- How many bytes the program may have. -/
  capacity : Nat
  line : Nat := 0
  bytes : Array UInt8 := #[]
  /-- The line of the first byte past the capacity. -/
  overflow : Option Nat := none
  errors : Array Error := #[]
  records : Array Record := #[]

namespace Reader

def reject (r : Reader) (e : Error) : Reader :=
  { r with errors := r.errors.push e, records := r.records.push (.rejected e) }

/-- Appends a byte found on the current line. -/
def accept (r : Reader) (byte : UInt8) : Reader :=
  { r with
    bytes := r.bytes.push byte
    overflow := if r.bytes.size = r.capacity ∧ r.overflow = none then some r.line else r.overflow
    records := r.records.push (.byteFound r.line byte) }

/-- Reads the next line. -/
def next (r : Reader) (line : List Char) : Reader :=
  let r := { r with line := r.line + 1 }
  match Literal.word? line with
  | none => r
  | some word =>
    match Literal.decode? word with
    | none => r.reject (.invalidLiteral r.line word)
    | some byte => r.accept byte

/-- Reports an overflow after the last line. -/
def close (r : Reader) : Reader :=
  match r.overflow with
  | none => r
  | some line => r.reject (.tooLarge line r.capacity r.bytes.size)

/-- The program, if no error has been noted. -/
def result (r : Reader) : Except (List Error) Program :=
  if r.errors.isEmpty then .ok ⟨r.bytes.toList⟩ else .error r.errors.toList

end Reader

/-- The reader after the last line of a text. -/
def readAll (capacity : Nat) (text : List Char) : Reader :=
  ((Text.lines text).foldl Reader.next { capacity }).close

/-- Reads a program of at most `capacity` bytes. -/
def parse (capacity : Nat) (text : String) : Logged Record (Except (List Error) Program) :=
  let r := readAll capacity text.toList
  ⟨r.result, r.records.toList⟩

/-- Reads a program that fits into the memory of the machine. -/
def ofText (text : String) : Logged Record (Except (List Error) Program) := parse 256 text

end Program

end LS8
