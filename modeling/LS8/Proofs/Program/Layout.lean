import LS8.Proofs.Program.Reading

/-!
The ways to lay out a program as a text: a literal on a line of its own for each byte, with zeros in front and a comment
after it as one likes, and blank lines and comment lines anywhere.  Reading undoes every layout.  Main statement:
`parse_layout`.
-/

namespace LS8.Program

variable {bs : List UInt8} {cs l ending : List Char} {c : Char} {n : Nat}

/-- White space within a line. -/
def IsSpace (cs : List Char) : Prop := ∀ c ∈ cs, Text.isBlank c = true ∧ c ≠ '\n'

/-- A line without its end, and the bytes written on it: none or one. -/
inductive Row : List UInt8 → List Char → Prop
  | blank {l : List Char} (hl : IsSpace l) : Row [] l
  | comment {indent comment : List Char} (hindent : IsSpace indent) (hcomment : '\n' ∉ comment) :
      Row [] (indent ++ '#' :: comment)
  | literal {indent mark rest : List Char} (byte : UInt8) (zeros : Nat) (hindent : IsSpace indent)
      (hmark : mark ∈ Literal.marks) (hblank : ∀ c ∈ rest.head?, Text.isBlank c = true) (hrest : '\n' ∉ rest) :
      Row [byte] (indent ++ (mark ++ (List.replicate zeros '0' ++ Nat.toDigits 2 byte.toNat)) ++ rest)

/-- A text that writes bytes: rows with their ends, and a last row without one, which may be empty. -/
inductive Layout : List UInt8 → List Char → Prop
  | last {bs : List UInt8} {l : List Char} (h : Row bs l) : Layout bs l
  | cons {bs bs' : List UInt8} {l ending cs : List Char} (ht : Layout bs' cs) (h : Row bs l)
      (he : ending ∈ Text.endings) : Layout (bs ++ bs') (l ++ (ending ++ cs))

/-! ### Digits -/

theorem denotes_digits {mark : List Char} (hmark : mark ∈ Literal.marks) (zeros : Nat) (byte : UInt8) :
    Literal.Denotes (mark ++ (List.replicate zeros '0' ++ Nat.toDigits 2 byte.toNat)) byte :=
  ⟨mark, hmark, [], by simp [Literal.signs], _, rfl, Literal.isBinary_digits zeros byte.toNat⟩

/-! ### Rows -/

theorem IsSpace.not_mem (h : IsSpace cs) : '\n' ∉ cs := fun hc => (h _ hc).2 rfl

theorem IsSpace.isBlank (h : IsSpace cs) : ∀ c ∈ cs, Text.isBlank c = true := fun c hc => (h c hc).1

/-- The characters of the mark and the digits. -/
theorem mem_of_mem_literal {mark digits : List Char} (hmark : mark ∈ Literal.marks) (hdigits : Literal.IsBinary n digits)
    (hc : c ∈ mark ++ digits) : c ∈ ['0', '1', 'b'] := by
  rcases List.mem_append.mp hc with hc | hc
  · obtain rfl | rfl := Literal.mem_marks.mp hmark
    · cases hc
    · obtain rfl | rfl : c = '0' ∨ c = 'b' := by simpa using hc
      · decide
      · decide
  · rcases hdigits.isBit c hc with rfl | rfl
    · decide
    · decide

theorem Row.not_mem (h : Row bs l) : '\n' ∉ l := by
  cases h with
  | blank hl => exact hl.not_mem
  | comment hindent hcomment =>
    simp only [List.mem_append, List.mem_cons, not_or]
    exact ⟨hindent.not_mem, by decide, hcomment⟩
  | @literal indent mark rest byte zeros hindent hmark hblank hrest =>
    have hword : '\n' ∉ mark ++ (List.replicate zeros '0' ++ Nat.toDigits 2 byte.toNat) := fun hc =>
      absurd (mem_of_mem_literal hmark (Literal.isBinary_digits zeros byte.toNat) hc) (by decide)
    rw [List.mem_append, List.mem_append, not_or, not_or]
    exact ⟨⟨hindent.not_mem, hword⟩, hrest⟩

/-- The word of a row denotes its byte; a row without a byte has none. -/
theorem Row.word (h : Row bs l) : (Literal.word? l).toList.map Literal.decode? = bs.map some := by
  cases h with
  | blank hl =>
    have hnil : Text.firstWord l = [] := by
      have := Text.firstWord_append_of_blank hl.isBlank []
      rwa [List.append_nil] at this
    rw [Literal.word?_eq_none_of_firstWord (.inl hnil)]
    rfl
  | @comment indent comment hindent hcomment =>
    have hhash : Text.firstWord (indent ++ '#' :: comment) = '#' :: comment.takeWhile fun c => !Text.isBlank c := by
      rw [Text.firstWord_append_of_blank hindent.isBlank]
      rfl
    rw [Literal.word?_eq_none_of_firstWord (.inr ⟨_, hhash⟩)]
    rfl
  | @literal indent mark rest byte zeros hindent hmark hblank hrest =>
    have hdigits := Literal.isBinary_digits zeros byte.toNat
    have hmem := fun c hc => mem_of_mem_literal (c := c) hmark hdigits hc
    have hword : Literal.word? (indent ++ (mark ++ (List.replicate zeros '0' ++ Nat.toDigits 2 byte.toNat)) ++ rest) =
        some (mark ++ (List.replicate zeros '0' ++ Nat.toDigits 2 byte.toNat)) := by
      refine Literal.word?_eq_some_iff.mpr ⟨⟨List.append_ne_nil_of_right_ne_nil _ hdigits.ne_nil, indent, rest, rfl,
        hindent.isBlank, fun c hc => ?_, hblank⟩, fun hhash => ?_⟩
      · obtain rfl | rfl | rfl : c = '0' ∨ c = '1' ∨ c = 'b' := by simpa using hmem c hc
        all_goals decide
      · exact absurd (hmem '#' (List.mem_of_mem_head? hhash)) (by decide)
    rw [hword, Option.toList_some, List.map_singleton,
      Literal.decode?_eq_some_iff.mpr (denotes_digits hmark zeros byte)]
    rfl

/-! ### Layouts -/

theorem Layout.words (h : Layout bs cs) :
    ((Text.lines cs).filterMap Literal.word?).map Literal.decode? = bs.map some := by
  induction h with
  | last h => rw [Literal.words_last h.not_mem, h.word]
  | cons ht h he ih => rw [Literal.words_append_ending h.not_mem he, List.map_append, h.word, ih, List.map_append]

/-- **Reading undoes every layout**, as long as the capacity allows as many bytes. -/
theorem parse_layout {bs : List UInt8} {text : String} (h : Layout bs text.toList) :
    (∀ capacity, (parse capacity text).value = .ok ⟨bs⟩ ↔ bs.length ≤ capacity) ∧
      ((ofText text).value = .ok ⟨bs⟩ ↔ bs.length ≤ 256) := by
  have hparse : ∀ capacity, (parse capacity text).value = .ok ⟨bs⟩ ↔ bs.length ≤ capacity := by
    intro capacity
    obtain ⟨hbytes, hrejects⟩ := bytes_of_words h.words
    have hlength : (literals (Text.lines text.toList)).length = bs.length := by rw [← hbytes, List.length_map]
    rw [value_parse, hrejects, hbytes, hlength]
    by_cases hle : bs.length ≤ capacity <;> simp [hle]
  exact ⟨hparse, hparse 256⟩

/-- Two bytes among a comment, a blank line and line ends of both kinds, the second with no line end. -/
theorem parse_two_bytes :
    let text := "\t# two\r\n0b0010 # a\r\n\x0c\n\u3000101\u2003\r#b"
    Layout [2, 5] text.toList ∧ (parse 2 text).value = .ok ⟨[2, 5]⟩ ∧ (ofText text).value = .ok ⟨[2, 5]⟩ := by
  intro text
  have hcomment : Row [] ['\t', '#', ' ', 't', 'w', 'o'] :=
    @Row.comment ['\t'] [' ', 't', 'w', 'o'] (by simp [IsSpace]; decide) (by decide)
  have htwo : Row [2] ['0', 'b', '0', '0', '1', '0', ' ', '#', ' ', 'a'] :=
    @Row.literal [] ['0', 'b'] [' ', '#', ' ', 'a'] 2 2 (by simp [IsSpace]) (by decide) (by simp; decide)
      (by decide)
  have hblank : Row [] ['\x0c'] := .blank (by simp [IsSpace]; decide)
  have hfive : Row [5] ['\u3000', '1', '0', '1', '\u2003', '\r', '#', 'b'] :=
    @Row.literal ['\u3000'] [] ['\u2003', '\r', '#', 'b'] 5 0 (by simp [IsSpace]; decide) (by decide)
      (by simp; decide) (by decide)
  have hrows := Layout.last hfive |>.cons hblank (by decide : ['\n'] ∈ Text.endings)
    |>.cons htwo (by decide : ['\r', '\n'] ∈ Text.endings)
    |>.cons hcomment (by decide : ['\r', '\n'] ∈ Text.endings)
  have h : Layout [2, 5] text.toList := by
    refine Eq.subst (motive := Layout [2, 5]) ?_ hrows
    decide +kernel
  obtain ⟨hparse, hof⟩ := parse_layout h
  exact ⟨h, (hparse 2).mpr (by decide), hof.mpr (by decide)⟩

end LS8.Program
