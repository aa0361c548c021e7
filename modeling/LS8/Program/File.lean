import LS8.Program.Reader

/-!
Programs from files. A file that is missing, one that cannot be read and one that holds no program
are told apart, by message and by exit status.
-/

namespace LS8.Program

/-- Why a file cannot be read. -/
inductive ReadError where
  | notFound
  /-- Any other refusal, in the words of the system. -/
  | other (reason : String)
deriving DecidableEq

/-- Why a file gives no program. -/
inductive FileError where
  | notFound (path : String)
  | unreadable (path reason : String)
  | invalid (path : String) (errors : List Error)
deriving DecidableEq

namespace FileError

def message : FileError → String
  | notFound path => s!"couldn't open `{path}`"
  | unreadable path reason => s!"failed to read `{path}`: {reason}"
  | invalid path errors =>
    s!"`{path}` is not a valid program ({Numeral.decimal errors.length} invalid line(s))"

def exitStatus : FileError → Nat
  | notFound _ => 2
  | unreadable .. => 1
  | invalid .. => 1

/-- The message of the cause below, if there is one. -/
def reason? : FileError → Option String
  | notFound _ => none
  | unreadable _ reason => some reason
  | invalid .. => none

end FileError

/-- The text written by bytes in UTF-8. -/
def text? (bytes : List UInt8) : Option String := String.fromUTF8? ⟨bytes.toArray⟩

/-- The program in a file, given what reading the file came to. -/
def ofFile (path : String) (content : Except ReadError (List UInt8)) :
    Logged Record (Except FileError Program) :=
  match content with
  | .error .notFound => ⟨.error (.notFound path), []⟩
  | .error (.other reason) => ⟨.error (.unreadable path reason), []⟩
  | .ok bytes =>
    match text? bytes with
    | none => ⟨.error (.unreadable path "stream did not contain valid UTF-8"), []⟩
    | some text =>
      let parsed := ofText text
      ⟨parsed.value.mapError (.invalid path), .fileRead bytes.length path :: parsed.records⟩

end LS8.Program
