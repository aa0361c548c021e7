import LS8.Program.Reader
import LS8.Proofs.Program.Literal
import Mathlib.Data.List.Sort

/-!
What a text means as a program.  A word that has to be a literal stands on its line (`WordAt`), and either it denotes a
byte (`ByteAt`) or it is an error (`RejectAt`).  The reader goes through the lines with an invariant (`Reader.Holds`),
and in the end it has listed all bytes and all errors with the numbers of their lines.  Main statement:
`parse_reads_lines`.
-/

namespace LS8.Program

variable {α β : Type} {ls : List (List Char)} {line word : List Char} {capacity n : Nat}

/-! ### Lists by line number -/

/-- All pairs of a line number and a value that satisfy `P`, each once, by line number. -/
structure Lists (xs : List (Nat × α)) (P : Nat → α → Prop) : Prop where
  ascending : xs.Pairwise fun x y => x.1 < y.1
  mem_iff : ∀ n a, (n, a) ∈ xs ↔ P n a

/-- There is one such list. -/
theorem Lists.iff_eq {xs : List (Nat × α)} {P : Nat → α → Prop} (h : Lists xs P) {ys : List (Nat × α)} :
    Lists ys P ↔ ys = xs := by
  have : Std.Antisymm fun x y : Nat × α => x.1 < y.1 := ⟨fun _ _ hlt hgt => absurd hlt (Nat.lt_asymm hgt)⟩
  have : Std.Irrefl fun x y : Nat × α => x.1 < y.1 := ⟨fun x => Nat.lt_irrefl x.1⟩
  constructor
  · intro h'
    exact h'.ascending.eq_of_mem_iff h.ascending fun e => (h'.mem_iff e.1 e.2).trans (h.mem_iff e.1 e.2).symm
  · rintro rfl
    exact h

/-- The values that `f` finds, with the line numbers of what it finds them in. -/
def select (f : α → Option β) (xs : List (Nat × α)) : List (Nat × β) :=
  xs.filterMap fun e => (f e.2).map fun b => (e.1, b)

theorem select_append (f : α → Option β) (xs ys : List (Nat × α)) :
    select f (xs ++ ys) = select f xs ++ select f ys :=
  List.filterMap_append

theorem select_cons (f : α → Option β) (e : Nat × α) (xs : List (Nat × α)) :
    select f (e :: xs) = ((f e.2).map fun b => (e.1, b)).toList ++ select f xs := by
  simp only [select, List.filterMap_cons]
  cases f e.2 <;> rfl

theorem mem_select {f : α → Option β} {xs : List (Nat × α)} {b : β} :
    (n, b) ∈ select f xs ↔ ∃ a, (n, a) ∈ xs ∧ f a = some b := by
  simp only [select, List.mem_filterMap, Option.map_eq_some_iff, Prod.exists, Prod.mk.injEq]
  constructor
  · rintro ⟨k, a, hmem, c, hc, rfl, rfl⟩
    exact ⟨a, hmem, hc⟩
  · rintro ⟨a, hmem, hb⟩
    exact ⟨n, a, hmem, b, hb, rfl, rfl⟩

theorem Lists.select {xs : List (Nat × α)} {P : Nat → α → Prop} (h : Lists xs P) (f : α → Option β) :
    Lists (Program.select f xs) fun n b => ∃ a, P n a ∧ f a = some b where
  ascending := by
    refine List.Pairwise.filterMap _ ?_ h.ascending
    intro x y hlt b hb c hc
    obtain ⟨u, -, rfl⟩ := Option.map_eq_some_iff.mp hb
    obtain ⟨v, -, rfl⟩ := Option.map_eq_some_iff.mp hc
    exact hlt
  mem_iff n b := by simp only [mem_select, h.mem_iff]

/-- Lines with their numbers, which start at 1. -/
def numbered (ls : List (List Char)) : List (Nat × List Char) := (ls.zipIdx 1).map Prod.swap

theorem numbered_concat (ls : List (List Char)) (line : List Char) :
    numbered (ls ++ [line]) = numbered ls ++ [(ls.length + 1, line)] := by
  simp [numbered, List.zipIdx_append, Nat.add_comm]

theorem lists_numbered (ls : List (List Char)) :
    Lists (numbered ls) fun n line => ∃ k, n = k + 1 ∧ ls[k]? = some line where
  ascending := by
    rw [numbered, List.pairwise_map]
    have h : ((ls.zipIdx 1).map Prod.snd).Pairwise (· < ·) := by
      rw [List.zipIdx_map_snd]
      exact List.pairwise_lt_range'
    exact List.pairwise_map.mp h
  mem_iff n line := by
    simp only [numbered, List.mem_map, Prod.exists, Prod.swap_prod_mk, Prod.mk.injEq]
    constructor
    · rintro ⟨l, k, hmem, rfl, rfl⟩
      obtain ⟨hle, hget⟩ := List.mk_mem_zipIdx_iff_le_and_getElem?_sub.mp hmem
      exact ⟨k - 1, by omega, hget⟩
    · rintro ⟨k, rfl, hget⟩
      exact ⟨line, k + 1, List.mk_mem_zipIdx_iff_le_and_getElem?_sub.mpr ⟨by omega, hget⟩, rfl, rfl⟩

/-! ### Words, bytes and errors of a text -/

/-- The line with number `n` has the first word `word`, which starts no comment. -/
def WordAt (ls : List (List Char)) (n : Nat) (word : List Char) : Prop :=
  ∃ k line, n = k + 1 ∧ ls[k]? = some line ∧ Text.IsFirstWord line word ∧ word.head? ≠ some '#'

/-- The word of the line denotes a byte. -/
def ByteAt (ls : List (List Char)) (n : Nat) (byte : UInt8) : Prop :=
  ∃ word, WordAt ls n word ∧ Literal.Denotes word byte

/-- The word of the line denotes no byte. -/
def RejectAt (ls : List (List Char)) (n : Nat) (word : List Char) : Prop :=
  WordAt ls n word ∧ ∀ byte, ¬ Literal.Denotes word byte

def words (ls : List (List Char)) : List (Nat × List Char) := select Literal.word? (numbered ls)

def literals (ls : List (List Char)) : List (Nat × UInt8) := select Literal.decode? (words ls)

def rejects (ls : List (List Char)) : List (Nat × List Char) :=
  select (fun word => if Literal.decode? word = none then some word else none) (words ls)

theorem lists_words (ls : List (List Char)) : Lists (words ls) (WordAt ls) where
  ascending := ((lists_numbered ls).select _).ascending
  mem_iff n word := by
    rw [words, ((lists_numbered ls).select _).mem_iff]
    simp only [Literal.word?_eq_some_iff, WordAt]
    constructor
    · rintro ⟨line, ⟨k, hn, hget⟩, hword⟩
      exact ⟨k, line, hn, hget, hword⟩
    · rintro ⟨k, line, hn, hget, hword⟩
      exact ⟨line, ⟨k, hn, hget⟩, hword⟩

theorem lists_literals (ls : List (List Char)) : Lists (literals ls) (ByteAt ls) where
  ascending := ((lists_words ls).select _).ascending
  mem_iff n byte := by
    rw [literals, ((lists_words ls).select _).mem_iff]
    simp only [Literal.decode?_eq_some_iff, ByteAt]

theorem lists_rejects (ls : List (List Char)) : Lists (rejects ls) (RejectAt ls) where
  ascending := ((lists_words ls).select _).ascending
  mem_iff n word := by
    rw [rejects, ((lists_words ls).select _).mem_iff]
    simp only [Option.ite_none_right_eq_some, Option.some.injEq, Literal.decode?_eq_none_iff, RejectAt]
    constructor
    · rintro ⟨w, hw, hno, rfl⟩
      exact ⟨hw, hno⟩
    · rintro ⟨hw, hno⟩
      exact ⟨word, hw, hno, rfl⟩

theorem rejects_eq_nil_iff : rejects ls = [] ↔ ∀ n word, ¬ RejectAt ls n word := by
  rw [List.eq_nil_iff_forall_not_mem]
  simp only [Prod.forall, (lists_rejects ls).mem_iff]

theorem words_concat (ls : List (List Char)) (line : List Char) :
    words (ls ++ [line]) =
      words ls ++ ((Literal.word? line).map fun word => (ls.length + 1, word)).toList := by
  rw [words, numbered_concat, select_append, words]
  cases h : Literal.word? line <;> simp [select, h]

/-- The number of the next line. -/
def below (e : Nat × α) : Nat × α := (e.1 + 1, e.2)

theorem words_cons (line : List Char) (ls : List (List Char)) :
    words (line :: ls) = ((Literal.word? line).map fun word => (1, word)).toList ++ (words ls).map below := by
  have hnumbered : numbered (line :: ls) = (1, line) :: (numbered ls).map below := by
    rw [numbered, List.zipIdx_cons, List.zipIdx_succ, List.map_cons, List.map_map, numbered, List.map_map]
    rfl
  rw [words, hnumbered, select_cons]
  congr 1
  rw [words, select, select, List.filterMap_map, List.map_filterMap]
  refine List.filterMap_congr fun e _ => ?_
  simp only [Function.comp, below]
  cases Literal.word? e.2 <;> rfl

/-! ### Bytes and errors without their lines -/

theorem map_snd_select (f : α → Option β) (xs : List (Nat × α)) :
    (select f xs).map Prod.snd = (xs.map Prod.snd).filterMap f := by
  rw [select, List.map_filterMap, List.filterMap_map]
  refine List.filterMap_congr fun e _ => ?_
  rw [Option.map_map]
  exact Option.map_id'

theorem map_snd_words (ls : List (List Char)) : (words ls).map Prod.snd = ls.filterMap Literal.word? := by
  rw [words, map_snd_select, numbered, List.map_map]
  congr 1
  exact List.zipIdx_map_fst 1 ls

/-- If the words of the lines denote bytes, one after the other, these are the bytes, and there is no error. -/
theorem bytes_of_words {bs : List UInt8} (h : (ls.filterMap Literal.word?).map Literal.decode? = bs.map some) :
    (literals ls).map Prod.snd = bs ∧ rejects ls = [] := by
  constructor
  · rw [literals, map_snd_select, map_snd_words]
    calc (ls.filterMap Literal.word?).filterMap Literal.decode?
        = ((ls.filterMap Literal.word?).map Literal.decode?).filterMap id := by rw [List.filterMap_map]; rfl
      _ = bs := by rw [h, List.filterMap_map]; exact List.filterMap_some
  · rw [← List.map_eq_nil_iff, rejects, map_snd_select, map_snd_words, List.filterMap_eq_nil_iff]
    intro word hmem
    have hdecode : Literal.decode? word ∈ bs.map some := h ▸ List.mem_map_of_mem hmem
    obtain ⟨byte, -, hbyte⟩ := List.mem_map.mp hdecode
    simp [← hbyte]

/-! ### The reader between two lines -/

/-- What the reader holds after some lines. -/
structure Reader.Holds (capacity : Nat) (ls : List (List Char)) (r : Reader) : Prop where
  capacity_eq : r.capacity = capacity
  line : r.line = ls.length
  bytes : r.bytes.toList = (literals ls).map Prod.snd
  overflow : r.overflow = (literals ls)[capacity]?.map Prod.fst
  errors : r.errors.toList = (rejects ls).map fun e => .invalidLiteral e.1 e.2

theorem holds_initial (capacity : Nat) : Reader.Holds capacity [] { capacity } where
  capacity_eq := rfl
  line := rfl
  bytes := rfl
  overflow := rfl
  errors := rfl

theorem Reader.Holds.size {r : Reader} (h : r.Holds capacity ls) : r.bytes.size = (literals ls).length := by
  rw [← Array.length_toList, h.bytes, List.length_map]

theorem getElem?_concat {xs : List α} {x : α} {k : Nat} :
    (xs ++ [x])[k]? = if xs.length = k then some x else xs[k]? := by
  by_cases h : xs.length = k
  · subst h
    simp
  · rw [if_neg h]
    rcases Nat.lt_or_gt_of_ne h with h | h
    · have hlen : (xs ++ [x]).length ≤ k := by
        rw [List.length_append, List.length_singleton]
        omega
      rw [List.getElem?_eq_none hlen, List.getElem?_eq_none (Nat.le_of_lt h)]
    · exact List.getElem?_append_left h

theorem Reader.Holds.skip {r : Reader} (h : r.Holds capacity ls) (hw : Literal.word? line = none) :
    Reader.Holds capacity (ls ++ [line]) { r with line := r.line + 1 } := by
  have hwords : words (ls ++ [line]) = words ls := by simp [words_concat, hw]
  refine ⟨h.capacity_eq, by simp [h.line], ?_, ?_, ?_⟩
  · rw [literals, hwords]
    exact h.bytes
  · rw [literals, hwords]
    exact h.overflow
  · rw [rejects, hwords]
    exact h.errors

theorem Reader.Holds.reject {r : Reader} (h : r.Holds capacity ls) (hw : Literal.word? line = some word)
    (hd : Literal.decode? word = none) :
    (Reader.reject { r with line := r.line + 1 } (.invalidLiteral (r.line + 1) word)).Holds capacity
      (ls ++ [line]) := by
  have hliterals : literals (ls ++ [line]) = literals ls := by simp [literals, words_concat, hw, select, hd]
  have hrejects : rejects (ls ++ [line]) = rejects ls ++ [(ls.length + 1, word)] := by
    simp [rejects, words_concat, hw, select, hd]
  refine ⟨h.capacity_eq, by simp [Reader.reject, h.line], ?_, ?_, ?_⟩
  · rw [hliterals]
    exact h.bytes
  · rw [hliterals]
    exact h.overflow
  · simp [Reader.reject, hrejects, h.errors, h.line]

theorem Reader.Holds.accept {r : Reader} (h : r.Holds capacity ls) (hw : Literal.word? line = some word)
    {byte : UInt8} (hd : Literal.decode? word = some byte) :
    (Reader.accept { r with line := r.line + 1 } byte).Holds capacity (ls ++ [line]) := by
  have hliterals : literals (ls ++ [line]) = literals ls ++ [(ls.length + 1, byte)] := by
    simp [literals, words_concat, hw, select, hd]
  have hrejects : rejects (ls ++ [line]) = rejects ls := by simp [rejects, words_concat, hw, select, hd]
  refine ⟨h.capacity_eq, by simp [Reader.accept, h.line], ?_, ?_, ?_⟩
  · simp [Reader.accept, hliterals, h.bytes]
  · -- with as many bytes as the capacity there is no overflow yet, so that the test for none is idle
    rw [hliterals, getElem?_concat]
    simp only [Reader.accept, h.size, h.capacity_eq, h.line]
    by_cases hfull : (literals ls).length = capacity
    · have hnone : r.overflow = none := by simp [h.overflow, hfull]
      simp [hfull, hnone]
    · simp [hfull, h.overflow]
  · rw [hrejects]
    exact h.errors

/-- **The invariant of the reader.** -/
theorem Reader.Holds.next {r : Reader} (h : r.Holds capacity ls) (line : List Char) :
    (r.next line).Holds capacity (ls ++ [line]) := by
  cases hw : Literal.word? line with
  | none => simpa only [Reader.next, hw] using h.skip hw
  | some word =>
    cases hd : Literal.decode? word with
    | none => simpa only [Reader.next, hw, hd] using h.reject hw hd
    | some byte => simpa only [Reader.next, hw, hd] using h.accept hw hd

theorem Reader.Holds.foldl {r : Reader} (h : r.Holds capacity ls) (rest : List (List Char)) :
    (rest.foldl Reader.next r).Holds capacity (ls ++ rest) := by
  induction rest generalizing ls r with
  | nil => simpa using h
  | cons line rest ih => simpa using ih (h.next line)

theorem holds_lines (capacity : Nat) (text : List Char) :
    ((Text.lines text).foldl Reader.next { capacity }).Holds capacity (Text.lines text) :=
  (holds_initial capacity).foldl (Text.lines text)

/-! ### The end of the text -/

/-- The error of a program that is too large: the line of the first byte past the capacity and the number of all. -/
def excess (capacity : Nat) (bytes : List (Nat × UInt8)) : Option Error :=
  bytes[capacity]?.map fun e => .tooLarge e.1 capacity bytes.length

theorem excess_eq_none_iff {bytes : List (Nat × UInt8)} : excess capacity bytes = none ↔ bytes.length ≤ capacity := by
  simp [excess]

theorem Reader.Holds.result_close {r : Reader} (h : r.Holds capacity ls) :
    r.close.result =
      if rejects ls = [] ∧ (literals ls).length ≤ capacity then .ok ⟨(literals ls).map Prod.snd⟩
      else .error ((rejects ls).map (fun e => .invalidLiteral e.1 e.2) ++ (excess capacity (literals ls)).toList) := by
  have hempty : r.errors = #[] ↔ rejects ls = [] := by
    rw [← Array.toList_eq_nil_iff, h.errors, List.map_eq_nil_iff]
  cases hover : (literals ls)[capacity]? with
  | none =>
    have hle : (literals ls).length ≤ capacity := List.getElem?_eq_none_iff.mp hover
    have hclose : r.close = r := by simp [Reader.close, h.overflow, hover]
    rw [hclose, excess_eq_none_iff.mpr hle]
    simp [Reader.result, hempty, hle, h.bytes, h.errors]
  | some e =>
    have hgt : ¬(literals ls).length ≤ capacity := fun hle => by
      rw [List.getElem?_eq_none hle] at hover
      cases hover
    have hclose : r.close = r.reject (.tooLarge e.1 capacity (literals ls).length) := by
      simp [Reader.close, h.overflow, hover, h.capacity_eq, h.size]
    rw [hclose]
    simp [Reader.result, Reader.reject, hgt, h.errors, excess, hover]

theorem value_parse (capacity : Nat) (text : String) :
    (parse capacity text).value =
      if rejects (Text.lines text.toList) = [] ∧ (literals (Text.lines text.toList)).length ≤ capacity then
        .ok ⟨(literals (Text.lines text.toList)).map Prod.snd⟩
      else .error ((rejects (Text.lines text.toList)).map (fun e => .invalidLiteral e.1 e.2) ++
        (excess capacity (literals (Text.lines text.toList))).toList) :=
  (holds_lines capacity text.toList).result_close

theorem parse_eq_ok_iff {text : String} {p : Program} (hls : Text.Splits text.toList ls) :
    (parse capacity text).value = .ok p ↔
      rejects ls = [] ∧ (literals ls).length ≤ capacity ∧ ⟨(literals ls).map Prod.snd⟩ = p := by
  obtain rfl := Text.splits_iff.mp hls
  rw [value_parse]
  split
  · next h => simp [h]
  · next h => simp only [reduceCtorEq, false_iff]; tauto

/-- **What a text means as a program.**  A text has one splitting into lines, one list of bytes and one list of words
that denote no byte.  It is the program of its bytes if there are no such words and no more bytes than the capacity
allows; else it has an error for each of the words, by line, and one for the first byte past the capacity at the end. -/
theorem parse_reads_lines (capacity : Nat) (text : String) :
    ∃ (ls : List (List Char)) (bytes : List (Nat × UInt8)) (bad : List (Nat × List Char)),
      (∀ ls', Text.Splits text.toList ls' ↔ ls' = ls) ∧
      (∀ bytes', Lists bytes' (ByteAt ls) ↔ bytes' = bytes) ∧
      (∀ bad', Lists bad' (RejectAt ls) ↔ bad' = bad) ∧
      (parse capacity text).value =
        if bad = [] ∧ bytes.length ≤ capacity then .ok ⟨bytes.map Prod.snd⟩
        else .error (bad.map (fun e => .invalidLiteral e.1 e.2) ++
          (bytes[capacity]?.map fun e => .tooLarge e.1 capacity bytes.length).toList) := by
  refine ⟨Text.lines text.toList, literals (Text.lines text.toList), rejects (Text.lines text.toList), ?_, ?_, ?_, ?_⟩
  · exact fun ls' => Text.splits_iff
  · exact fun bytes' => (lists_literals _).iff_eq
  · exact fun bad' => (lists_rejects _).iff_eq
  · exact value_parse capacity text

example : (parse 1 "0b1 one\n\t# none\n2\r\n\r\n1\n+0 three").value =
    .error [.invalidLiteral 3 ['2'], .tooLarge 5 1 3] := by
  decide +kernel

end LS8.Program
