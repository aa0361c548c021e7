import LS8.CommandLine.Session
import LS8.Proofs.Machine.View
import LS8.Proofs.Program.Acceptance

/-!
Programs that are accepted and memory that takes them.  The reader counts the bytes of a text while it reads them, and
memory asks for the length of a program; the two checks are the same (`parse_eq_ok_iff`, `Memory.load_eq_ok_iff`).  So a
program that is accepted can be loaded and the command never ends with one that cannot, and of a text of literals alone
both refuse too many bytes and nothing else.  Main statement: `accepted_programs_load`.
-/

namespace LS8

/-- What loading leaves in memory: the program in the cells from 0 on, and the cells after it as they were. -/
structure Memory.Loaded {size : Nat} (program : List UInt8) (m m' : Memory size) : Prop where
  load_eq : m.load program = .ok () m'
  read_program : ∀ x (h : x < program.length), m'.read x = .ok program[x]
  read_rest : ∀ x, program.length ≤ x → m'.read x = m.read x

theorem Memory.loaded_overlay {size : Nat} {program : List UInt8} (h : program.length ≤ size) (m : Memory size) :
    Loaded program m (m.overlay 0 program) where
  load_eq := load_eq_ok_iff.mpr ⟨h, rfl⟩
  read_program x hx := by
    rw [read_overlay _ _ _ (by omega), dif_pos ⟨Nat.zero_le x, by omega⟩]
    rfl
  read_rest x hx := by
    by_cases hs : x < size
    · rw [read_overlay _ _ _ hs, dif_neg (by omega)]
    · rw [read_of_ge _ (by omega), read_of_ge _ (by omega)]

namespace Machine

/-- What is noted about a program without bytes. -/
def emptyWarning : Entry := ⟨.warn, .machine, "Program was empty!"⟩

theorem warns_iff (m : Machine) (program : List UInt8) :
    emptyWarning ∈ (m.load program).records.map Record.entry ↔ program = [] := by
  have hloaded : ∀ n, (Record.programLoaded n).entry ≠ emptyWarning := fun n h => by
    cases congrArg Entry.level h
  unfold load
  cases program with
  | nil => cases m.ram.load [] <;> simp [emptyWarning, Record.entry]
  | cons b bs => cases m.ram.load (b :: bs) <;> simp [(hloaded _).symm]

theorem load_eq_tooLarge_iff (m : Machine) (program : List UInt8) :
    (m.load program).value = .error (.load (.programTooLarge program.length 256)) m ↔ 256 < program.length := by
  rw [value_load]
  by_cases h : program.length ≤ 256
  · rw [if_pos h]
    simp only [reduceCtorEq, false_iff]
    omega
  · rw [if_neg h]
    simp only [true_iff]
    omega

end Machine

namespace Program

variable {capacity size : Nat} {text : String} {ls : List (List Char)} {p : Program}

/-! ### The two checks -/

theorem loads_of_parse (hp : (parse capacity text).value = .ok p) (hsize : capacity ≤ size) :
    p.length ≤ capacity ∧ ∀ m : Memory size, ∃ m', m.Loaded p.bytes m' := by
  obtain ⟨-, hle, rfl⟩ := (parse_eq_ok_iff (Text.splits_lines _)).mp hp
  have hlength : length ⟨(literals (Text.lines text.toList)).map Prod.snd⟩ ≤ capacity := by
    rwa [length, List.length_map]
  exact ⟨hlength, fun m => ⟨_, Memory.loaded_overlay (Nat.le_trans hlength hsize) m⟩⟩

/-- A text that is accepted has a byte on some line exactly if its program has one. -/
theorem bytes_eq_nil_iff (hls : Text.Splits text.toList ls) (hp : (parse capacity text).value = .ok p) :
    p.bytes = [] ↔ ¬ ∃ n byte, ByteAt ls n byte := by
  obtain ⟨-, -, rfl⟩ := (parse_eq_ok_iff hls).mp hp
  rw [List.map_eq_nil_iff, List.eq_nil_iff_forall_not_mem]
  simp only [Prod.forall, (lists_literals ls).mem_iff, not_exists]

theorem machine_loads (hp : (ofText text).value = .ok p) (m : Machine) :
    ∃ ram, m.ram.Loaded p.bytes ram ∧ (m.load p.bytes).value = .ok () { m with ram } := by
  obtain ⟨hle, -⟩ := loads_of_parse hp (Nat.le_refl 256)
  refine ⟨m.ram.overlay 0 p.bytes, Memory.loaded_overlay hle m.ram, ?_⟩
  rw [Machine.value_load, if_pos (show p.bytes.length ≤ 256 from hle)]

theorem rejects_eq_nil (h : ∀ n word, WordAt ls n word → ∃ byte, Literal.Denotes word byte) : rejects ls = [] := by
  rw [rejects_eq_nil_iff]
  rintro n word ⟨hword, hno⟩
  obtain ⟨byte, hbyte⟩ := h n word hword
  exact hno byte hbyte

/-- Where every word denotes a byte, the reader and the machine refuse the same texts. -/
theorem ofText_fails_iff (hls : Text.Splits text.toList ls)
    (h : ∀ n word, WordAt ls n word → ∃ byte, Literal.Denotes word byte) {bytes : List (Nat × UInt8)}
    (hbytes : Lists bytes (ByteAt ls)) (m : Machine) :
    (∃ es, (ofText text).value = .error es) ↔
      (m.load (bytes.map Prod.snd)).value = .error (.load (.programTooLarge bytes.length 256)) m := by
  obtain rfl := (lists_literals ls).iff_eq.mp hbytes
  have hmachine := Machine.load_eq_tooLarge_iff m ((literals ls).map Prod.snd)
  rw [List.length_map] at hmachine
  rw [hmachine]
  constructor
  · rintro ⟨es, hes⟩
    by_contra hle
    rw [ofText, (parse_eq_ok_iff hls).mpr ⟨rejects_eq_nil h, Nat.le_of_not_lt hle, rfl⟩] at hes
    cases hes
  · intro hlt
    cases hvalue : (ofText text).value with
    | error es => exact ⟨es, rfl⟩
    | ok p =>
      obtain ⟨-, hle, -⟩ := (parse_eq_ok_iff hls).mp hvalue
      exact absurd hle (Nat.not_le.mpr hlt)

theorem exists_ofText_of_ofFile {path : String} {content : Except ReadError (List UInt8)}
    (h : (ofFile path content).value = .ok p) : ∃ text, (ofText text).value = .ok p := by
  unfold ofFile at h
  split at h
  · cases h
  · cases h
  · split at h
    · cases h
    · next text _ => exact ⟨text, mapError_eq_ok_iff.mp h⟩

end Program

/-! ### The end of the command -/

namespace CommandLine

section

variable [Build] {ω σ : Type} [Writer σ]

theorem ending_runProgram (out : σ) (path : String) {p : Program} {m : Machine}
    (h : (({} : Machine).load p.bytes).value = .ok () m) (name : String) (f : Machine.Failure) :
    (runProgram out path p).ending ≠ .failed (.load name f) := by
  simp only [runProgram, h]
  cases (m.run out).result <;> nofun

theorem ending_runFile (out : σ) (path : String) (content : Except Program.ReadError (List UInt8)) (name : String)
    (f : Machine.Failure) : (runFile out path content).ending ≠ .failed (.load name f) := by
  unfold runFile
  dsimp only
  split
  · nofun
  · next p hread =>
    obtain ⟨text, hp⟩ := Program.exists_ofText_of_ofFile hread
    obtain ⟨ram, -, hload⟩ := Program.machine_loads hp {}
    exact ending_runProgram out path hload name f

omit [Build] in
theorem ending_reportNoProgram (out : σ) (name : String) (f : Machine.Failure) :
    (reportNoProgram out).ending ≠ .failed (.load name f) := by
  unfold reportNoProgram
  dsimp only
  split <;> nofun

/-- The command does not end with a program that cannot be loaded. -/
theorem ending_session (h : Host ω σ) (arguments : List ω) {s : Session} (hs : h.session arguments = .ok s)
    (name : String) (f : Machine.Failure) : s.ending ≠ .failed (.load name f) := by
  unfold Host.session at hs
  split at hs
  · cases hs
    nofun
  · split at hs
    · cases hs
    · dsimp only at hs
      split at hs
      · cases hs
        nofun
      · cases hs
        exact ending_reportNoProgram h.out name f
      · next path _ _ =>
        cases hs
        exact ending_runFile h.out (h.display path) (h.read path) name f

end

end CommandLine

/-- **Programs that are accepted can be loaded.**  A program that the reader accepts with some capacity is in any
memory of at least that size after loading, with the other cells as they were.  The command's programs are loaded into
every machine, of which only the memory changes, with a warning if there is no byte on any line, and on no host does
the command end because one cannot be loaded.  If every word of a text denotes a byte, the reader refuses the text
exactly if a machine refuses its bytes for being too many. -/
theorem accepted_programs_load :
    (∀ (text : String) (capacity size : Nat) (p : Program), capacity ≤ size →
      (Program.parse capacity text).value = .ok p →
      p.length ≤ capacity ∧ ∀ m : Memory size, ∃ m', m.Loaded p.bytes m') ∧
    (∀ (text : String) (ls : List (List Char)), Text.Splits text.toList ls →
      (∀ p, (Program.ofText text).value = .ok p → ∀ m : Machine,
        (∃ ram, m.ram.Loaded p.bytes ram ∧ (m.load p.bytes).value = .ok () { m with ram }) ∧
        (Machine.emptyWarning ∈ (m.load p.bytes).records.map Machine.Record.entry ↔
          ¬ ∃ n byte, Program.ByteAt ls n byte)) ∧
      ((∀ n word, Program.WordAt ls n word → ∃ byte, Literal.Denotes word byte) →
        ∀ bytes, Program.Lists bytes (Program.ByteAt ls) → ∀ m : Machine,
          (∃ es, (Program.ofText text).value = .error es) ↔
            (m.load (bytes.map Prod.snd)).value = .error (.load (.programTooLarge bytes.length 256)) m)) ∧
    (∀ path content p, (Program.ofFile path content).value = .ok p →
      ∃ ram, (({} : Machine).load p.bytes).value = .ok () { ram }) ∧
    ∀ [Build] (ω σ : Type) [Writer σ] (h : CommandLine.Host ω σ) arguments s, h.session arguments = .ok s →
      ∀ name f, s.ending ≠ .failed (.load name f) := by
  refine ⟨?_, ?_, ?_, fun ω σ _ h arguments s hs => CommandLine.ending_session h arguments hs⟩
  · intro text capacity size p hsize hp
    exact Program.loads_of_parse hp hsize
  · intro text ls hls
    refine ⟨fun p hp m => ⟨Program.machine_loads hp m, ?_⟩, fun h bytes hbytes => Program.ofText_fails_iff hls h hbytes⟩
    rw [Machine.warns_iff, Program.bytes_eq_nil_iff hls hp]
  · intro path content p hread
    obtain ⟨text, hp⟩ := Program.exists_ofText_of_ofFile hread
    obtain ⟨ram, -, hload⟩ := Program.machine_loads hp {}
    exact ⟨ram, hload⟩

/-- Two bytes with a comment between them are accepted with a capacity of two, and any four cells take them. -/
theorem two_bytes_load :
    let text := "1\n# x\n10"
    let ls := [['1'], ['#', ' ', 'x'], ['1', '0']]
    let old : Machine := { pc := 7, ram := Memory.zero.overlay 1 [9, 9] }
    (Program.parse 2 text).value = .ok ⟨[1, 2]⟩ ∧ (∀ m : Memory 4, ∃ m', m.Loaded [1, 2] m') ∧
      Text.Splits text.toList ls ∧
      (∃ ram, ram.cell 2 = 9 ∧ (old.load [1, 2]).value = .ok () { old with ram }) ∧
      Machine.emptyWarning ∉ (old.load [1, 2]).records.map Machine.Record.entry ∧
      ((∃ es, (Program.ofText text).value = .error es) ↔
        (old.load [1, 2]).value = .error (.load (.programTooLarge 2 256)) old) := by
  intro text ls old
  have hls : Text.Splits text.toList ls := Text.splits_iff.mpr (by decide)
  have hparse : (Program.parse 2 text).value = .ok ⟨[1, 2]⟩ := by decide +kernel
  have htext : (Program.ofText text).value = .ok ⟨[1, 2]⟩ := by decide +kernel
  have hbytes : Program.Lists [(1, 1), (3, 2)] (Program.ByteAt ls) :=
    (Program.lists_literals ls).iff_eq.mpr (by decide +kernel)
  have hwords : ∀ n word, Program.WordAt ls n word → ∃ byte, Literal.Denotes word byte := by
    intro n word hword
    by_contra hno
    have hreject : Program.RejectAt ls n word := ⟨hword, not_exists.mp hno⟩
    exact Program.not_rejectAt_of_ok hls hparse hreject
  obtain ⟨hmemory, hmachine, -, -⟩ := accepted_programs_load
  obtain ⟨haccepted, hconverse⟩ := hmachine text ls hls
  obtain ⟨⟨ram, hloaded, hload⟩, hwarns⟩ := haccepted ⟨[1, 2]⟩ htext old
  refine ⟨hparse, (hmemory text 2 4 _ (by decide) hparse).2, hls, ⟨ram, ?_, hload⟩, ?_, ?_⟩
  · have hrest : ram.read 2 = .ok 9 := (hloaded.read_rest 2 (by decide)).trans (by decide +kernel)
    rw [Memory.read_eq, if_pos (by decide)] at hrest
    exact Except.ok.inj hrest
  · rw [hwarns, not_not]
    exact ⟨1, 1, (hbytes.mem_iff 1 1).mp (by decide)⟩
  · exact hconverse hwords _ hbytes old

end LS8
