import LS8.Machine.Basic
import LS8.Proofs.Numeral

/-!
What can be read off the line of a dump.  A line that consists of words, each after a blank, comes apart in one way
(`Fields.iff_eq`), and each of the words stands for one thing: the program counter, a byte, or the lack of one
(`isByte_field_iff`).  So two machines have the same line exactly if they have the same program counter, the same
registers and the same to read at it.  Main statement: `dump_faithful`.
-/

namespace LS8

namespace Dump

variable {line pc pc' : List Char} {cells cells' : Vector (List Char) 3} {registers registers' : Vector (List Char) 8}
  {d d' : Dump} {o o' : Option UInt8} {byte : UInt8}

/-- Words, each after a blank. -/
def spaced (words : List (List Char)) : List Char := words.flatMap fun word => ' ' :: word

/-- A line with fields: the program counter, three cells and eight registers, and bars between them. -/
structure Fields (line pc : List Char) (cells : Vector (List Char) 3) (registers : Vector (List Char) 8) : Prop where
  line_eq : line = "TRACE:".toList ++ spaced (pc :: ['|'] :: (cells.toList ++ ['|'] :: registers.toList))
  not_mem : ∀ word ∈ pc :: (cells.toList ++ registers.toList), ' ' ∉ word

/-- The word is a byte in hexadecimal, with two digits. -/
structure IsByte (byte : UInt8) (word : List Char) : Prop where
  length_eq : word.length = 2
  isHex : Numeral.IsHex byte.toNat word

/-- The word for a cell of the dump. -/
def field : Option UInt8 → List Char
  | some byte => (Numeral.hexPair byte.toNat).toList
  | none => ['-', '-']

/-! ### Words -/

theorem takeWhile_spaced {word : List Char} (h : ' ' ∉ word) (words : List (List Char)) :
    (word ++ spaced words).takeWhile (· != ' ') = word := by
  have hword : ∀ c ∈ word, (c != ' ') = true := fun c hc => bne_iff_ne.mpr (ne_of_mem_of_not_mem hc h)
  have hwords : (spaced words).takeWhile (· != ' ') = [] := by cases words <;> rfl
  rw [List.takeWhile_append_of_pos hword, hwords, List.append_nil]

theorem spaced_inj {words words' : List (List Char)} (h : ∀ word ∈ words, ' ' ∉ word)
    (h' : ∀ word ∈ words', ' ' ∉ word) (heq : spaced words = spaced words') : words = words' := by
  induction words generalizing words' with
  | nil =>
    cases words' with
    | nil => rfl
    | cons word' words' => cases heq
  | cons word words ih =>
    cases words' with
    | nil => cases heq
    | cons word' words' =>
      obtain ⟨hword, hwords⟩ := List.forall_mem_cons.mp h
      obtain ⟨hword', hwords'⟩ := List.forall_mem_cons.mp h'
      have hrest : word ++ spaced words = word' ++ spaced words' := (List.cons.inj heq).2
      obtain rfl : word = word' := by
        rw [← takeWhile_spaced hword words, hrest, takeWhile_spaced hword']
      rw [ih hwords hwords' (List.append_cancel_left hrest)]

theorem isByte_field (byte : UInt8) : IsByte byte (field (some byte)) where
  length_eq := by
    rw [field, Numeral.toList_hexPair, List.length_map]
    exact Numeral.length_padded (by decide) (by decide) byte.toNat_lt
  isHex := Numeral.isHex_hexPair byte.toNat

/-- A word for a cell is a byte if the cell has this byte, and else it is none. -/
theorem isByte_field_iff : IsByte byte (field o) ↔ o = some byte := by
  cases o with
  | none =>
    refine ⟨fun h => ?_, nofun⟩
    exact absurd (h.isHex.isDigit '-' List.mem_cons_self) (by decide)
  | some b =>
    rw [Option.some.injEq]
    constructor
    · intro h
      exact UInt8.toNat_inj.mp (h.isHex.iff_eq.mp (isByte_field b).isHex)
    · rintro rfl
      exact isByte_field b

theorem field_eq_dashes_iff : field o = ['-', '-'] ↔ o = none := by
  cases o with
  | none => exact ⟨fun _ => rfl, fun _ => rfl⟩
  | some b =>
    refine ⟨fun h => ?_, nofun⟩
    have hmem : '-' ∈ field (some b) := by
      rw [h]
      exact List.mem_cons_self
    exact absurd hmem ((isByte_field b).isHex.not_mem (by decide))

theorem field_inj (h : field o = field o') : o = o' := by
  cases o with
  | none => exact (field_eq_dashes_iff.mp h.symm).symm
  | some b => exact (isByte_field_iff.mp (h ▸ isByte_field b)).symm

theorem not_mem_field (o : Option UInt8) : ' ' ∉ field o := by
  cases o with
  | none => decide
  | some b => exact (isByte_field b).isHex.not_mem (by decide)

/-! ### Lines -/

theorem Fields.not_mem_words (h : Fields line pc cells registers) :
    ∀ word ∈ pc :: ['|'] :: (cells.toList ++ ['|'] :: registers.toList), ' ' ∉ word := by
  intro word hword
  by_cases hbar : word = ['|']
  · rw [hbar]
    decide
  · refine h.not_mem word ?_
    simpa [hbar] using hword

/-- A line comes apart in one way. -/
theorem Fields.iff_eq (h : Fields line pc cells registers) :
    Fields line pc' cells' registers' ↔ pc' = pc ∧ cells' = cells ∧ registers' = registers := by
  constructor
  · intro h'
    have heq := List.append_cancel_left (h'.line_eq.symm.trans h.line_eq)
    obtain ⟨hpc, hrest⟩ := List.cons.inj (spaced_inj h'.not_mem_words h.not_mem_words heq)
    -- there are as many cells in both, so that the bars after them meet
    have hlength : cells'.toList.length = cells.toList.length := by rw [Vector.length_toList, Vector.length_toList]
    obtain ⟨hcells, hregisters⟩ := List.append_inj (List.cons.inj hrest).2 hlength
    exact ⟨hpc, Vector.toList_inj.mp hcells, Vector.toList_inj.mp (List.cons.inj hregisters).2⟩
  · rintro ⟨rfl, rfl, rfl⟩
    exact h

theorem toList_cell (o : Option UInt8) : (cell o).toList = ' ' :: field o := by
  cases o with
  | none => rfl
  | some b => simp [cell, field, toString]

theorem toList_join_cells (os : List (Option UInt8)) :
    (String.join (os.map cell)).toList = spaced (os.map field) := by
  rw [String.toList_join, spaced, List.flatMap_map, List.flatMap_map]
  simp only [toList_cell]

/-- The word for the program counter, the words for the cells and the words for the registers. -/
theorem fields_text (d : Dump) :
    Fields d.text.toList (Numeral.hexPair d.pc).toList (d.window.map field)
      (d.registers.values.map fun byte => field (some byte)) where
  line_eq := by
    have hregisters : (d.registers.toList.map fun byte => cell (some byte)) = (d.registers.toList.map some).map cell := by
      rw [List.map_map]
      rfl
    rw [text, hregisters, String.toList_append, String.toList_append, String.toList_append, toList_join_cells,
      toList_join_cells]
    simp [spaced, toString, Registers.toList, Vector.toList_map, Function.comp_def]
  not_mem := by
    intro word hword
    rcases List.mem_cons.mp hword with rfl | hword
    · exact (Numeral.isHex_hexPair d.pc).not_mem (by decide)
    · have hfield : ∃ o, field o = word := by
        simp only [Vector.toList_map, List.mem_append, List.mem_map] at hword
        rcases hword with ⟨o, -, h⟩ | ⟨b, -, h⟩
        · exact ⟨o, h⟩
        · exact ⟨some b, h⟩
      obtain ⟨o, rfl⟩ := hfield
      exact not_mem_field o

/-- The line says everything there is in the dump. -/
theorem text_inj : d.text = d'.text ↔ d = d' := by
  refine ⟨fun h => ?_, congrArg text⟩
  obtain ⟨hpc, hwindow, hregisters⟩ := (fields_text d').iff_eq.mp (h ▸ fields_text d)
  have hpc' : d.pc = d'.pc := by
    have hhex := Numeral.isHex_hexPair d.pc
    rw [hpc] at hhex
    exact (Numeral.isHex_hexPair d'.pc).iff_eq.mp hhex
  have hwindow' : d.window = d'.window := Vector.map_inj_right (fun _ _ => field_inj) |>.mp hwindow
  have hvalues : d.registers.values = d'.registers.values :=
    Vector.map_inj_right (fun _ _ h => Option.some.inj (field_inj h)) |>.mp hregisters
  obtain ⟨pc, window, ⟨values⟩⟩ := d
  obtain ⟨pc', window', ⟨values'⟩⟩ := d'
  obtain rfl : pc = pc' := hpc'
  obtain rfl : window = window' := hwindow'
  obtain rfl : values = values' := hvalues
  rfl

end Dump

namespace Machine

/-- The address of a cell of the dump. -/
def shown (m : Machine) (k : Fin 3) : Nat := (m.pc + UInt64.ofNat k).toNat

theorem shown_eq {m : Machine} (h : m.here + 2 < UInt64.size) (k : Fin 3) : m.shown k = m.here + k := by
  refine toNat_add_ofNat (Nat.lt_of_le_of_lt (Nat.add_le_add_left ?_ _) h)
  omega

theorem window_dump (m : Machine) (k : Fin 3) : m.dump.window[k] = (m.ram.read (m.shown k)).toOption := by
  simp [dump, shown]

theorem toOption_read_eq_some_iff {ram : Ram} {x : Nat} {b : UInt8} :
    (ram.read x).toOption = some b ↔ ram.read x = .ok b := by
  cases ram.read x <;> simp [Except.toOption]

theorem toOption_read_eq_none_iff {ram : Ram} {x : Nat} : (ram.read x).toOption = none ↔ 256 ≤ x := by
  by_cases h : x < 256
  · rw [ram.read_of_lt h]
    exact ⟨nofun, fun hle => absurd h (Nat.not_lt.mpr hle)⟩
  · have hle : 256 ≤ x := Nat.not_lt.mp h
    rw [ram.read_of_ge hle]
    exact ⟨fun _ => hle, fun _ => rfl⟩

/-- What is read at an address is what the window shows, since a refusal says no more than the address. -/
theorem toOption_read_inj {ram ram' : Ram} {x : Nat} :
    (ram.read x).toOption = (ram'.read x).toOption ↔ ram.read x = ram'.read x := by
  refine ⟨fun h => ?_, fun h => by rw [h]⟩
  by_cases hx : x < 256
  · rw [ram.read_of_lt hx, ram'.read_of_lt hx] at h ⊢
    exact congrArg Except.ok (Option.some.inj h)
  · rw [ram.read_of_ge (Nat.not_lt.mp hx), ram'.read_of_ge (Nat.not_lt.mp hx)]

theorem dump_eq_iff {m m' : Machine} :
    m'.dump = m.dump ↔ m'.pc = m.pc ∧ m'.registers = m.registers ∧
      ∀ k : Fin 3, m'.ram.read (m'.shown k) = m.ram.read (m.shown k) := by
  constructor
  · intro h
    have hpc : m'.pc = m.pc := UInt64.toNat_inj.mp (congrArg Dump.pc h)
    refine ⟨hpc, congrArg Dump.registers h, fun k => ?_⟩
    have hshown : m'.shown k = m.shown k := by rw [shown, shown, hpc]
    have hwindow : m'.dump.window[k] = m.dump.window[k] := by rw [h]
    rw [window_dump, window_dump, hshown] at hwindow
    rw [hshown]
    exact toOption_read_inj.mp hwindow
  · rintro ⟨hpc, hregisters, hread⟩
    have hwindow : m'.dump.window = m.dump.window := by
      refine Vector.ext fun i hi => ?_
      have hcell := window_dump m' ⟨i, hi⟩
      rw [hread, ← window_dump] at hcell
      exact hcell
    rw [dump, dump, Dump.mk.injEq]
    exact ⟨congrArg UInt64.toNat hpc, hwindow, hregisters⟩

section

variable [Build] {m m' : Machine}

theorem trace_eq_ok_iff {line : String} : m.trace = .ok line ↔ ¬ Overflows m.pc 2 ∧ line = m.dump.text := by
  unfold trace
  by_cases ho : Overflows m.pc 2
  · simp [ho]
  · simp [ho, eq_comm]

/-- **The line of a dump is faithful.**  Two machines have the same line exactly if they have the same program counter,
the same registers and the same to read at three addresses from there on.  The line has one set of fields, and the fields
say what the machine has: dashes stand for an address past the end of memory and for nothing else. -/
theorem dump_faithful (m : Machine) (hpc : m.here + 2 < UInt64.size) :
    ∃ line, m.trace = .ok line ∧
      (∀ m' : Machine, m'.trace = .ok line ↔
        m'.pc = m.pc ∧ m'.registers = m.registers ∧
          ∀ k : Fin 3, m'.ram.read (m'.here + k) = m.ram.read (m.here + k)) ∧
      ∃ (pc : List Char) (cells : Vector (List Char) 3) (registers : Vector (List Char) 8),
        (∀ pc' cells' registers', Dump.Fields line.toList pc' cells' registers' ↔
          pc' = pc ∧ cells' = cells ∧ registers' = registers) ∧
        (∀ n, Numeral.IsHex n pc ↔ n = m.here) ∧
        (∀ k : Fin 3, (cells[k] = ['-', '-'] ↔ 256 ≤ m.here + k) ∧
          ∀ b, Dump.IsByte b cells[k] ↔ m.ram.read (m.here + k) = .ok b) ∧
        ∀ (i : Fin 8) (b : UInt8), Dump.IsByte b registers[i] ↔ m.registers.values[i] = b := by
  have hcells (k : Fin 3) : (m.dump.window.map Dump.field)[k] = Dump.field (m.ram.read (m.here + k)).toOption := by
    rw [← shown_eq hpc, ← window_dump]
    exact Vector.getElem_map ..
  refine ⟨m.dump.text, trace_eq_ok_iff.mpr ⟨not_overflows_of_lt hpc, rfl⟩, fun m' => ?_, _, _, _,
    fun pc' cells' registers' => (Dump.fields_text m.dump).iff_eq, fun n => (Numeral.isHex_hexPair m.dump.pc).iff_eq,
    fun k => ⟨?_, fun b => ?_⟩, fun i b => ?_⟩
  · -- a machine with this line has this program counter, so that its addresses are in range, too
    rw [trace_eq_ok_iff, Dump.text_inj, eq_comm (a := m.dump), dump_eq_iff]
    constructor
    · rintro ⟨-, heq, hregisters, hread⟩
      have hpc' : m'.here + 2 < UInt64.size := by rwa [here, heq]
      refine ⟨heq, hregisters, fun k => ?_⟩
      rw [← shown_eq hpc', ← shown_eq hpc, hread]
    · rintro ⟨heq, hregisters, hread⟩
      have hpc' : m'.here + 2 < UInt64.size := by rwa [here, heq]
      refine ⟨not_overflows_of_lt hpc', heq, hregisters, fun k => ?_⟩
      rw [shown_eq hpc', shown_eq hpc, hread]
  · rw [hcells, Dump.field_eq_dashes_iff, toOption_read_eq_none_iff]
  · rw [hcells, Dump.isByte_field_iff, toOption_read_eq_some_iff]
  · have hregister : (m.dump.registers.values.map fun byte => Dump.field (some byte))[i] =
        Dump.field (some m.registers.values[i]) := Vector.getElem_map ..
    rw [hregister, Dump.isByte_field_iff, Option.some.injEq]

end

/-- Two cells before the end of memory the line ends its window with dashes, and it is the line of no machine that
stands at the end. -/
theorem dump_shows_end_of_memory :
    let m : Machine := { pc := 254 }
    let line := "TRACE: FE | 00 00 -- | 00 00 00 00 00 00 00 F4"
    m.here + 2 < UInt64.size ∧ m.trace = .ok line ∧ ({ pc := 256 } : Machine).trace ≠ .ok line := by
  intro m line
  have hpc : m.here + 2 < UInt64.size := by decide
  have hline : m.trace = .ok line := by decide +kernel
  obtain ⟨line', hline', hsame, -⟩ := dump_faithful m hpc
  obtain rfl := Result.ok.inj (hline'.symm.trans hline)
  refine ⟨hpc, hline, fun h => ?_⟩
  obtain ⟨hend, -, -⟩ := (hsame { pc := 256 }).mp h
  exact absurd hend (by decide)

end Machine

end LS8
