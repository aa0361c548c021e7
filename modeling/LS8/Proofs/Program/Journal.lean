import LS8.Proofs.Numeral
import LS8.Proofs.Program.Reading
import Mathlib.Data.List.Forall2

/-!
What the reader notes in the journal.  A word that has to be a literal makes one record, either of the byte it denotes
or of the error it is, and a program that is too large makes one more at the end (`records_parse`).  So the errors in
the journal are the errors of the result, and the bytes in it are the program.  Main statement:
`journal_accounts_for_lines`.
-/

namespace LS8.Program

variable {ls : List (List Char)} {capacity n : Nat} {byte byte' : UInt8} {es : List Entry}

/-! ### Entries of lines -/

/-- The text names the line of an error and what is wrong there. -/
inductive Error.Tells : Error → String → Prop
  | invalidLiteral {line : Nat} {word number : List Char} (hline : Numeral.IsDecimal line number) :
      Tells (.invalidLiteral line word) ("error [ln: " ++ String.ofList number ++ "]: invalid number - `" ++
        String.ofList word ++ "` is not a base-2 byte")
  | tooLarge {line capacity length : Nat} {number room bytes : List Char} (hline : Numeral.IsDecimal line number)
      (hcapacity : Numeral.IsDecimal capacity room) (hlength : Numeral.IsDecimal length bytes) :
      Tells (.tooLarge line capacity length) ("error [ln: " ++ String.ofList number ++
        "]: program exceeds memory of `" ++ String.ofList room ++ "` bytes - program has `" ++ String.ofList bytes ++
        "` bytes")

/-- The entry of an error: its message, which says what is wrong. -/
structure Reports (e : Error) (entry : Entry) : Prop where
  level : entry.level = .error
  part : entry.part = .reader
  text : entry.text = e.message
  tells : e.Tells entry.text

/-- The entry of a line that holds a byte: the number of the line and the byte in eight binary digits. -/
def Finds (n : Nat) (byte : UInt8) (entry : Entry) : Prop :=
  ∃ number digits, Numeral.IsDecimal n number ∧ Numeral.IsBits byte digits ∧
    entry = ⟨.trace, .reader, "[" ++ String.ofList number ++ "] Found byte 0b" ++ String.ofList digits⟩

/-- The line with number `n` makes an entry: for the byte that its word denotes, or for the word if it denotes none. -/
def EntryAt (ls : List (List Char)) (n : Nat) (entry : Entry) : Prop :=
  (∃ byte, ByteAt ls n byte ∧ Finds n byte entry) ∨
    ∃ word, RejectAt ls n word ∧ Reports (.invalidLiteral n word) entry

/-- The text ends with a byte in eight binary digits. -/
def EndsWithByte (text : List Char) (byte : UInt8) : Prop :=
  ∃ before digits, text = before ++ digits ∧ Numeral.IsBits byte digits

/-- The errors of a result. -/
def errorsOf : Except (List Error) Program → List Error
  | .ok _ => []
  | .error es => es

def Error.isTooLarge : Error → Bool
  | invalidLiteral .. => false
  | tooLarge .. => true

/-! ### Texts of entries -/

theorem Error.message_invalidLiteral (line : Nat) (word : List Char) :
    (invalidLiteral line word).message = "error [ln: " ++ String.ofList (Numeral.decimal line).toList ++
      "]: invalid number - `" ++ String.ofList word ++ "` is not a base-2 byte" := by
  show "error [ln: " ++ Numeral.decimal line ++ "]: " ++ "invalid number" ++ " - " ++
    ("`" ++ String.ofList word ++ "` is not a base-2 byte") = _
  rw [← String.toList_inj, String.ofList_toList]
  simp

theorem Error.message_tooLarge (line capacity length : Nat) :
    (tooLarge line capacity length).message = "error [ln: " ++ String.ofList (Numeral.decimal line).toList ++
      "]: program exceeds memory of `" ++ String.ofList (Numeral.decimal capacity).toList ++
      "` bytes - program has `" ++ String.ofList (Numeral.decimal length).toList ++ "` bytes" := by
  show "error [ln: " ++ Numeral.decimal line ++ "]: " ++ ("program exceeds memory of `" ++ Numeral.decimal capacity ++
    "` bytes") ++ " - " ++ ("program has `" ++ Numeral.decimal length ++ "` bytes") = _
  rw [← String.toList_inj]
  simp

/-- The message of an error says what is wrong. -/
theorem Error.tells_message (e : Error) : e.Tells e.message := by
  cases e with
  | invalidLiteral line word =>
    have htells : (invalidLiteral line word).Tells _ := .invalidLiteral (Numeral.isDecimal_decimal line)
    rwa [message_invalidLiteral]
  | tooLarge line capacity length =>
    have htells := Tells.tooLarge (Numeral.isDecimal_decimal line) (Numeral.isDecimal_decimal capacity)
      (Numeral.isDecimal_decimal length)
    rwa [message_tooLarge]

theorem reports_iff {e : Error} {entry : Entry} : Reports e entry ↔ entry = (Record.rejected e).entry := by
  constructor
  · intro h
    cases entry
    simp only [Record.entry, Entry.mk.injEq]
    exact ⟨h.level, h.part, h.text⟩
  · rintro rfl
    exact ⟨rfl, rfl, rfl, e.tells_message⟩

theorem finds_iff {entry : Entry} : Finds n byte entry ↔ entry = (Record.byteFound n byte).entry := by
  constructor
  · rintro ⟨number, digits, hnumber, hdigits, rfl⟩
    rw [Numeral.isDecimal_iff.mp hnumber, Numeral.isBits_iff.mp hdigits, String.ofList_toList, String.ofList_toList]
    rfl
  · rintro rfl
    refine ⟨_, _, Numeral.isDecimal_decimal n, Numeral.isBits_bits byte, ?_⟩
    rw [String.ofList_toList, String.ofList_toList]
    rfl

/-! ### Records of words -/

/-- The record of a word on the line with number `n`. -/
def recordOf (n : Nat) (word : List Char) : Record :=
  match Literal.decode? word with
  | some byte => .byteFound n byte
  | none => .rejected (.invalidLiteral n word)

theorem Reader.records_next (r : Reader) (line : List Char) :
    (r.next line).records.toList =
      r.records.toList ++ ((Literal.word? line).map fun word => recordOf (r.line + 1) word).toList := by
  cases hw : Literal.word? line with
  | none => simp [next, hw]
  | some word => cases hd : Literal.decode? word <;> simp [next, hw, hd, reject, accept, recordOf]

/-- Every word makes a record. -/
theorem Reader.Holds.records {r : Reader} (h : r.Holds capacity ls)
    (hr : r.records.toList = (words ls).map fun e => recordOf e.1 e.2) (rest : List (List Char)) :
    (rest.foldl Reader.next r).records.toList = (words (ls ++ rest)).map fun e => recordOf e.1 e.2 := by
  induction rest generalizing ls r with
  | nil => simpa using hr
  | cons line rest ih =>
    have hnext : (r.next line).records.toList = (words (ls ++ [line])).map fun e => recordOf e.1 e.2 := by
      rw [records_next, hr, h.line, words_concat, List.map_append]
      cases Literal.word? line <;> rfl
    simpa using ih (h.next line) hnext

theorem Reader.Holds.records_close {r : Reader} (h : r.Holds capacity ls) :
    r.close.records.toList = r.records.toList ++ ((excess capacity (literals ls)).map .rejected).toList := by
  rw [close, excess, h.overflow]
  cases (literals ls)[capacity]? with
  | none => simp
  | some e => simp [Reader.reject, h.capacity_eq, h.size]

/-- The records of a text. -/
theorem records_parse (capacity : Nat) (text : String) :
    (parse capacity text).records =
      (words (Text.lines text.toList)).map (fun e => recordOf e.1 e.2) ++
        ((excess capacity (literals (Text.lines text.toList))).map .rejected).toList := by
  have h := holds_lines capacity text.toList
  have hr := (holds_initial capacity).records rfl (Text.lines text.toList)
  show (Reader.close _).records.toList = _
  rw [h.records_close, hr, List.nil_append]

/-! ### Entries of words -/

theorem entry_recordOf (n : Nat) (word : List Char) :
    (recordOf n word).entry = match Literal.decode? word with
      | some byte => (Record.byteFound n byte).entry
      | none => (Record.rejected (.invalidLiteral n word)).entry := by
  unfold recordOf
  cases Literal.decode? word <;> rfl

/-- The entries of the words of some lines, by line number. -/
def entries (ls : List (List Char)) : List (Nat × Entry) := (words ls).map fun e => (e.1, (recordOf e.1 e.2).entry)

theorem lists_entries (ls : List (List Char)) : Lists (entries ls) (EntryAt ls) where
  ascending := List.pairwise_map.mpr (lists_words ls).ascending
  mem_iff n e := by
    have hmem : (n, e) ∈ entries ls ↔ ∃ word, WordAt ls n word ∧ e = (recordOf n word).entry := by
      simp only [entries, List.mem_map, Prod.exists, Prod.mk.injEq, ← (lists_words ls).mem_iff]
      constructor
      · rintro ⟨k, word, hword, rfl, rfl⟩
        exact ⟨word, hword, rfl⟩
      · rintro ⟨word, hword, rfl⟩
        exact ⟨n, word, hword, rfl, rfl⟩
    rw [hmem]
    constructor
    · rintro ⟨word, hword, rfl⟩
      rw [entry_recordOf]
      cases hd : Literal.decode? word with
      | none => exact .inr ⟨word, ⟨hword, Literal.decode?_eq_none_iff.mp hd⟩, reports_iff.mpr rfl⟩
      | some byte => exact .inl ⟨byte, ⟨word, hword, Literal.decode?_eq_some_iff.mp hd⟩, finds_iff.mpr rfl⟩
    · rintro (⟨byte, ⟨word, hword, hd⟩, he⟩ | ⟨word, ⟨hword, hd⟩, he⟩)
      · exact ⟨word, hword, by rw [entry_recordOf, Literal.decode?_eq_some_iff.mpr hd, finds_iff.mp he]⟩
      · exact ⟨word, hword, by rw [entry_recordOf, Literal.decode?_eq_none_iff.mpr hd, reports_iff.mp he]⟩

theorem filter_trace_entries (ws : List (Nat × List Char)) :
    (ws.map fun e => (recordOf e.1 e.2).entry).filter (fun e => e.level = .trace) =
      (select Literal.decode? ws).map fun e => (Record.byteFound e.1 e.2).entry := by
  induction ws with
  | nil => rfl
  | cons e ws ih =>
    rw [List.map_cons, entry_recordOf, select_cons]
    cases Literal.decode? e.2 with
    | none => exact ih
    | some byte => exact congrArg ((Record.byteFound e.1 byte).entry :: ·) ih

theorem filter_error_entries (ws : List (Nat × List Char)) :
    (ws.map fun e => (recordOf e.1 e.2).entry).filter (fun e => e.level = .error) =
      (select (fun word => if Literal.decode? word = none then some word else none) ws).map fun e =>
        (Record.rejected (.invalidLiteral e.1 e.2)).entry := by
  induction ws with
  | nil => rfl
  | cons e ws ih =>
    rw [List.map_cons, entry_recordOf, select_cons]
    cases Literal.decode? e.2 with
    | none => exact congrArg ((Record.rejected (.invalidLiteral e.1 e.2)).entry :: ·) ih
    | some byte => exact ih

theorem filter_trace_errors (errors : List Error) :
    (errors.map fun e => (Record.rejected e).entry).filter (fun e => e.level = .trace) = [] := by
  simp [Record.entry]

theorem filter_error_errors (errors : List Error) :
    (errors.map fun e => (Record.rejected e).entry).filter (fun e => e.level = .error) =
      errors.map fun e => (Record.rejected e).entry := by
  simp [Record.entry]

/-! ### Bytes read back -/

theorem isBits_length {digits : List Char} (h : Numeral.IsBits byte digits) : digits.length = 8 := by
  rw [Numeral.isBits_iff.mp h, Numeral.toList_bits]
  exact Numeral.length_padded (by decide) (by decide) byte.toNat_lt

theorem Finds.endsWithByte_iff {entry : Entry} (h : Finds n byte entry) :
    EndsWithByte entry.text.toList byte' ↔ byte' = byte := by
  obtain ⟨number, digits, -, hdigits, rfl⟩ := h
  have htext : ("[" ++ String.ofList number ++ "] Found byte 0b" ++ String.ofList digits).toList =
      ("[" ++ String.ofList number ++ "] Found byte 0b").toList ++ digits := by
    rw [String.toList_append, String.toList_ofList]
  constructor
  · rintro ⟨before, digits', heq, hdigits'⟩
    have hlength := (isBits_length hdigits').trans (isBits_length hdigits).symm
    obtain ⟨-, rfl⟩ := List.append_inj' (heq.symm.trans htext) hlength
    exact UInt8.toNat_inj.mp (hdigits.iff_eq.mp hdigits')
  · rintro rfl
    exact ⟨_, _, htext, hdigits⟩

theorem forall₂_iff_eq_map {α β : Type} {R : α → β → Prop} {f : α → β} (h : ∀ a b, R a b ↔ b = f a) {xs : List α}
    {ys : List β} : List.Forall₂ R xs ys ↔ ys = xs.map f := by
  induction xs generalizing ys with
  | nil => simp
  | cons x xs ih => simp [List.forall₂_cons_left_iff, h, ih]

theorem forall₂_reports_iff {errors : List Error} :
    List.Forall₂ Reports errors es ↔ es = errors.map fun e => (Record.rejected e).entry :=
  forall₂_iff_eq_map (f := fun e => (Record.rejected e).entry) fun _ _ => reports_iff

theorem forall₂_finds_iff {bytes : List (Nat × UInt8)} :
    List.Forall₂ (fun x e => Finds x.1 x.2 e) bytes es ↔ es = bytes.map fun x => (Record.byteFound x.1 x.2).entry :=
  forall₂_iff_eq_map (f := fun x : Nat × UInt8 => (Record.byteFound x.1 x.2).entry) fun _ _ => finds_iff

/-- The bytes can be read off the entries in one way. -/
theorem forall₂_endsWithByte (bytes : List (Nat × UInt8)) (bs : List UInt8) :
    List.Forall₂ (fun (e : Entry) b => EndsWithByte e.text.toList b)
      (bytes.map fun e => (Record.byteFound e.1 e.2).entry) bs ↔ bs = bytes.map Prod.snd := by
  rw [List.forall₂_map_left_iff]
  exact forall₂_iff_eq_map fun e b => (finds_iff.mpr rfl : Finds e.1 e.2 _).endsWithByte_iff

/-! ### The whole journal -/

theorem errorsOf_parse (capacity : Nat) (text : String) :
    errorsOf (parse capacity text).value =
      (rejects (Text.lines text.toList)).map (fun e => .invalidLiteral e.1 e.2) ++
        (excess capacity (literals (Text.lines text.toList))).toList := by
  rw [value_parse]
  split
  · next h => rw [h.1, excess_eq_none_iff.mpr h.2]; rfl
  · rfl

theorem isTooLarge_of_excess {bytes : List (Nat × UInt8)} {e : Error} (h : e ∈ excess capacity bytes) :
    e.isTooLarge = true := by
  obtain ⟨x, -, rfl⟩ := Option.map_eq_some_iff.mp h
  rfl

theorem filter_isTooLarge_errorsOf (capacity : Nat) (text : String) :
    (errorsOf (parse capacity text).value).filter Error.isTooLarge =
      (excess capacity (literals (Text.lines text.toList))).toList := by
  have hrejects : ((rejects (Text.lines text.toList)).map fun e => Error.invalidLiteral e.1 e.2).filter
      Error.isTooLarge = [] := by
    rw [List.filter_map]
    exact List.map_eq_nil_iff.mpr (List.filter_eq_nil_iff.mpr fun _ _ => Bool.false_ne_true)
  have hexcess : ∀ e ∈ (excess capacity (literals (Text.lines text.toList))).toList, e.isTooLarge = true :=
    fun e he => isTooLarge_of_excess (Option.mem_toList.mp he)
  rw [errorsOf_parse, List.filter_append, hrejects, List.filter_eq_self.mpr hexcess, List.nil_append]

/-- **The journal of the reader accounts for the lines of a text.**  It has one entry for each line whose word has to
be a literal, by line, and after them one for a program that is too large.  The errors in it are the errors of the
result.  The bytes in it are those of the lines: they read back as the program if there are no errors, and they are as
many as the error of a program that is too large says. -/
theorem journal_accounts_for_lines (capacity : Nat) (text : String) :
    let result := (parse capacity text).value
    let journal := (parse capacity text).records.map Record.entry
    let traces := journal.filter fun e => e.level = .trace
    ∃ (ls : List (List Char)) (bytes : List (Nat × UInt8)) (entries : List (Nat × Entry)) (last : List Entry),
      (∀ ls', Text.Splits text.toList ls' ↔ ls' = ls) ∧
      (∀ bytes', Lists bytes' (ByteAt ls) ↔ bytes' = bytes) ∧
      (∀ entries', Lists entries' (EntryAt ls) ↔ entries' = entries) ∧
      (∀ es, List.Forall₂ Reports ((errorsOf result).filter Error.isTooLarge) es ↔ es = last) ∧
      journal = entries.map Prod.snd ++ last ∧
      (∀ es, List.Forall₂ Reports (errorsOf result) es ↔ es = journal.filter fun e => e.level = .error) ∧
      (∀ es, List.Forall₂ (fun x e => Finds x.1 x.2 e) bytes es ↔ es = traces) ∧
      (∀ p, result = .ok p →
        ∀ bs, List.Forall₂ (fun e b => EndsWithByte e.text.toList b) traces bs ↔ bs = p.bytes) ∧
      ∀ line capacity' length, .tooLarge line capacity' length ∈ errorsOf result → length = traces.length := by
  intro result journal traces
  have hjournal : journal = (words (Text.lines text.toList)).map (fun e => (recordOf e.1 e.2).entry) ++
      ((errorsOf result).filter Error.isTooLarge).map fun e => (Record.rejected e).entry := by
    show (parse capacity text).records.map Record.entry = _
    rw [records_parse, filter_isTooLarge_errorsOf, List.map_append, List.map_map]
    cases excess capacity (literals (Text.lines text.toList)) <;> rfl
  have htraces : traces = (literals (Text.lines text.toList)).map fun e => (Record.byteFound e.1 e.2).entry := by
    show journal.filter _ = _
    rw [hjournal, List.filter_append, filter_trace_entries, filter_trace_errors, List.append_nil]
    rfl
  have herrors : (journal.filter fun e => e.level = .error) =
      (errorsOf result).map fun e => (Record.rejected e).entry := by
    rw [hjournal, List.filter_append, filter_error_entries, filter_error_errors, filter_isTooLarge_errorsOf,
      errorsOf_parse, List.map_append, List.map_map]
    rfl
  refine ⟨Text.lines text.toList, literals (Text.lines text.toList), entries (Text.lines text.toList),
    _, fun ls' => Text.splits_iff, fun bytes' => (lists_literals _).iff_eq, fun es => (lists_entries _).iff_eq,
    fun es => forall₂_reports_iff, ?_, fun es => ?_, fun es => ?_, ?_, ?_⟩
  · rw [hjournal, entries, List.map_map]
    rfl
  · rw [herrors]
    exact forall₂_reports_iff
  · rw [htraces]
    exact forall₂_finds_iff
  · intro p hp bs
    obtain ⟨-, -, rfl⟩ := (parse_eq_ok_iff (Text.splits_lines _)).mp hp
    rw [htraces, forall₂_endsWithByte]
  · intro line capacity' length hmem
    have hlarge : .tooLarge line capacity' length ∈ (errorsOf result).filter Error.isTooLarge :=
      List.mem_filter.mpr ⟨hmem, rfl⟩
    rw [filter_isTooLarge_errorsOf, Option.mem_toList] at hlarge
    obtain ⟨x, -, hx⟩ := Option.map_eq_some_iff.mp hlarge
    rw [htraces, List.length_map]
    exact (Error.tooLarge.inj hx).2.2.symm

/-- A program with an empty line between its bytes, and a text with one byte too many and a word that denotes none. -/
theorem bytes_read_back_from_journal :
    let accepted := "0b101 five\n\n10"
    let refused := "1\nx\n10"
    let traces := fun capacity text =>
      ((parse capacity text).records.map Record.entry).filter fun e => e.level = .trace
    (parse 2 accepted).value = .ok ⟨[5, 2]⟩ ∧
      (∀ bs, List.Forall₂ (fun e b => EndsWithByte e.text.toList b) (traces 2 accepted) bs ↔ bs = [5, 2]) ∧
      (parse 1 refused).value = .error [.invalidLiteral 2 ['x'], .tooLarge 3 1 2] ∧
      2 = (traces 1 refused).length := by
  intro accepted refused traces
  have haccepted : (parse 2 accepted).value = .ok ⟨[5, 2]⟩ := by decide +kernel
  have hrefused : (parse 1 refused).value = .error [.invalidLiteral 2 ['x'], .tooLarge 3 1 2] := by decide +kernel
  obtain ⟨-, -, -, -, -, -, -, -, -, -, -, hread, -⟩ := journal_accounts_for_lines 2 accepted
  obtain ⟨-, -, -, -, -, -, -, -, -, -, -, -, hlength⟩ := journal_accounts_for_lines 1 refused
  have hmem : .tooLarge 3 1 2 ∈ errorsOf (parse 1 refused).value := by
    rw [hrefused]
    exact List.mem_cons_of_mem _ List.mem_cons_self
  exact ⟨haccepted, hread _ haccepted, hrefused, hlength 3 1 2 hmem⟩

end LS8.Program
