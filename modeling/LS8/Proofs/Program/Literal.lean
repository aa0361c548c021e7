import LS8.Program.Literal
import LS8.Proofs.Numeral
import LS8.Proofs.Text.Line
import Mathlib.Tactic.Common

/-!
Which words denote a byte: binary digits after a mark and a plus sign, both of them optional (`Denotes`).  Decoding finds
the byte that a word denotes (`decode?_eq_some_iff`).  A word that denotes a byte is a literal, with no sign in it
(`IsLiteral`), or a signed one (`IsSigned`), and never both.
-/

namespace LS8.Literal

variable {digits word line w : List Char} {byte : UInt8} {n high : Nat}

/-! ### Binary digits -/

/-- The characters write `n` in binary; zeros in front are allowed. -/
structure IsBinary (n : Nat) (digits : List Char) : Prop where
  ne_nil : digits ≠ []
  isBit : ∀ c ∈ digits, c = '0' ∨ c = '1'
  value : Nat.ofDigitChars 2 digits 0 = n

theorem bit?_eq_some_iff {c : Char} {b : Nat} :
    bit? c = some b ↔ (c = '0' ∨ c = '1') ∧ c.toNat - '0'.toNat = b := by
  fun_cases bit? c with
  | case1 => simp
  | case2 => simp
  | case3 c h0 h1 => exact ⟨nofun, fun h => (h.1.elim h0 h1).elim⟩

theorem valueFrom?_eq_some_iff :
    valueFrom? high digits = some n ↔ (∀ c ∈ digits, c = '0' ∨ c = '1') ∧ Nat.ofDigitChars 2 digits high = n := by
  induction digits generalizing high with
  | nil => simp [valueFrom?]
  | cons c cs ih =>
    rw [valueFrom?, Nat.ofDigitChars_cons, List.forall_mem_cons]
    cases hb : bit? c with
    | none =>
      have hc : ¬(c = '0' ∨ c = '1') := fun hc => by
        rw [bit?_eq_some_iff.mpr ⟨hc, rfl⟩] at hb
        cases hb
      simp [hc]
    | some b =>
      obtain ⟨hc, hval⟩ := bit?_eq_some_iff.mp hb
      simp only [ih, hc, hval, true_and]

theorem ofDigits?_eq_some_iff : ofDigits? digits = some byte ↔ IsBinary byte.toNat digits := by
  by_cases hne : digits = []
  · simp only [ofDigits?, hne, if_true]
    exact ⟨nofun, fun h => absurd rfl h.ne_nil⟩
  · cases hv : valueFrom? 0 digits with
    | none =>
      simp only [ofDigits?, hne, hv, if_false]
      refine ⟨nofun, fun h => ?_⟩
      rw [valueFrom?_eq_some_iff.mpr ⟨h.isBit, h.value⟩] at hv
      cases hv
    | some n =>
      obtain ⟨hbits, hval⟩ := valueFrom?_eq_some_iff.mp hv
      simp only [ofDigits?, hne, hv, if_false]
      constructor
      · intro h
        obtain ⟨hn, rfl⟩ : n < 256 ∧ UInt8.ofNat n = byte := by simpa using h
        exact ⟨hne, hbits, by rw [hval, UInt8.toNat_ofNat_of_lt' hn]⟩
      · intro h
        obtain rfl : n = byte.toNat := hval.symm.trans h.value
        rw [if_pos byte.toNat_lt, UInt8.ofNat_toNat]

theorem isBit_of_mem_toDigits {c : Char} (hc : c ∈ Nat.toDigits 2 n) : c = '0' ∨ c = '1' := by
  obtain ⟨k, hk, rfl⟩ := Numeral.exists_digit_of_mem_toDigits (by decide) hc
  have hdigit : ∀ k < 2, k.digitChar = '0' ∨ k.digitChar = '1' := by decide
  exact hdigit k hk

theorem isBinary_digits (zeros n : Nat) :
    IsBinary n (List.replicate zeros '0' ++ Nat.toDigits 2 n) where
  ne_nil := List.append_ne_nil_of_right_ne_nil _ Nat.toDigits_ne_nil
  isBit c hc := by
    rcases List.mem_append.mp hc with hc | hc
    · exact .inl (List.eq_of_mem_replicate hc)
    · exact isBit_of_mem_toDigits hc
  value := by
    rw [Nat.ofDigitChars_append, Nat.ofDigitChars_replicate_zero, Nat.mul_zero]
    exact Nat.ofDigitChars_toDigits (by decide) (by decide)

/-! ### Words -/

/-- The marks that a word may start with. -/
def marks : List (List Char) := [[], ['0', 'b']]

/-- The signs that the digits may follow. -/
def signs : List (List Char) := [[], ['+']]

theorem mem_marks {mark : List Char} : mark ∈ marks ↔ mark = [] ∨ mark = ['0', 'b'] := by simp [marks]

theorem mem_signs {sign : List Char} : sign ∈ signs ↔ sign = [] ∨ sign = ['+'] := by simp [signs]

/-- A word denotes a byte: the mark, then the sign, then the digits of its value. -/
def Denotes (word : List Char) (byte : UInt8) : Prop :=
  ∃ mark ∈ marks, ∃ sign ∈ signs, ∃ digits, word = mark ++ (sign ++ digits) ∧ IsBinary byte.toNat digits

/-- A literal: the mark, then the digits of a value that fits into a byte. -/
def IsLiteral (word : List Char) : Prop :=
  ∃ mark ∈ marks, ∃ digits n, word = mark ++ digits ∧ IsBinary n digits ∧ n ≤ 255

/-- A literal with a plus sign in front of its digits. -/
def IsSigned (word : List Char) : Prop :=
  ∃ mark ∈ marks, ∃ digits n, word = mark ++ '+' :: digits ∧ IsBinary n digits ∧ n ≤ 255

theorem IsBinary.not_mem (h : IsBinary n digits) {c : Char} (h0 : c ≠ '0') (h1 : c ≠ '1') : c ∉ digits :=
  fun hc => (h.isBit c hc).elim h0 h1

theorem exists_mark (word : List Char) : ∃ mark ∈ marks, word = mark ++ dropMark word := by
  fun_cases dropMark word with
  | case1 cs => exact ⟨['0', 'b'], by simp [marks], rfl⟩
  | case2 => exact ⟨[], by simp [marks], rfl⟩

theorem exists_sign (word : List Char) : ∃ sign ∈ signs, word = sign ++ dropPlus word := by
  fun_cases dropPlus word with
  | case1 cs => exact ⟨['+'], by simp [signs], rfl⟩
  | case2 => exact ⟨[], by simp [signs], rfl⟩

theorem dropMark_append {mark : List Char} (hmark : mark ∈ marks) (hb : 'b' ∉ word) :
    dropMark (mark ++ word) = word := by
  obtain rfl | rfl := mem_marks.mp hmark
  · rw [List.nil_append]
    fun_cases dropMark word with
    | case1 cs => simp at hb
    | case2 => rfl
  · rfl

theorem dropPlus_append {sign : List Char} (hsign : sign ∈ signs) (hplus : '+' ∉ word) :
    dropPlus (sign ++ word) = word := by
  obtain rfl | rfl := mem_signs.mp hsign
  · rw [List.nil_append]
    fun_cases dropPlus word with
    | case1 cs => simp at hplus
    | case2 => rfl
  · rfl

/-- Decoding finds the byte that a word denotes. -/
theorem decode?_eq_some_iff : decode? word = some byte ↔ Denotes word byte := by
  rw [decode?, ofDigits?_eq_some_iff]
  constructor
  · intro h
    obtain ⟨mark, hmark, hw⟩ := exists_mark word
    obtain ⟨sign, hsign, hr⟩ := exists_sign (dropMark word)
    exact ⟨mark, hmark, sign, hsign, _, by rw [← hr, ← hw], h⟩
  · rintro ⟨mark, hmark, sign, hsign, digits, rfl, h⟩
    have hb : 'b' ∉ sign ++ digits := by
      obtain rfl | rfl := mem_signs.mp hsign
      · exact h.not_mem (by decide) (by decide)
      · exact List.not_mem_cons_of_ne_of_not_mem (by decide) (h.not_mem (by decide) (by decide))
    rwa [dropMark_append hmark hb, dropPlus_append hsign (h.not_mem (by decide) (by decide))]

theorem decode?_eq_none_iff : decode? word = none ↔ ∀ byte, ¬ Denotes word byte := by
  simp only [← decode?_eq_some_iff]
  exact Option.eq_none_iff_forall_ne_some

/-! ### Literals and signed literals -/

theorem exists_denotes_iff : (∃ byte, Denotes word byte) ↔ IsLiteral word ∨ IsSigned word := by
  constructor
  · rintro ⟨byte, mark, hmark, sign, hsign, digits, hw, h⟩
    have hbyte : byte.toNat ≤ 255 := Nat.le_of_lt_succ byte.toNat_lt
    obtain rfl | rfl := mem_signs.mp hsign
    · exact .inl ⟨mark, hmark, digits, _, hw, h, hbyte⟩
    · exact .inr ⟨mark, hmark, digits, _, hw, h, hbyte⟩
  · -- the value fits into a byte, so that there is one to denote
    have hval : ∀ {n : Nat}, n ≤ 255 → (UInt8.ofNat n).toNat = n := fun hn =>
      UInt8.toNat_ofNat_of_lt' (Nat.lt_succ_of_le hn)
    rintro (⟨mark, hmark, digits, n, hw, h, hn⟩ | ⟨mark, hmark, digits, n, hw, h, hn⟩)
    · exact ⟨UInt8.ofNat n, mark, hmark, [], by simp [signs], digits, hw, by rwa [hval hn]⟩
    · exact ⟨UInt8.ofNat n, mark, hmark, ['+'], by simp [signs], digits, hw, by rwa [hval hn]⟩

theorem IsLiteral.not_isSigned (h : IsLiteral word) : ¬ IsSigned word := by
  obtain ⟨mark, hmark, digits, n, rfl, hdigits, -⟩ := h
  rintro ⟨mark', -, digits', n', hw, -, -⟩
  have hplus : '+' ∉ mark := by
    obtain rfl | rfl := mem_marks.mp hmark
    · decide
    · decide
  have hmem : '+' ∈ mark ++ digits := by rw [hw]; simp
  rcases List.mem_append.mp hmem with hmem | hmem
  · exact hplus hmem
  · exact hdigits.not_mem (by decide) (by decide) hmem

/-! ### Lines -/

theorem word?_eq_some_iff : word? line = some w ↔ Text.IsFirstWord line w ∧ w.head? ≠ some '#' := by
  rw [Text.isFirstWord_iff]
  fun_cases word? line with
  | case1 hnil => simp [hnil, eq_comm]
  | case2 cs hcs =>
    refine ⟨nofun, ?_⟩
    rintro ⟨⟨-, rfl⟩, hhash⟩
    rw [hcs] at hhash
    exact absurd rfl hhash
  | case3 hnil hhash =>
    rw [Option.some.injEq]
    constructor
    · rintro rfl
      refine ⟨⟨hnil, rfl⟩, fun h => ?_⟩
      obtain ⟨cs, hcs⟩ := List.head?_eq_some_iff.mp h
      exact hhash cs hcs
    · exact fun h => h.1.2

theorem word?_eq_none_of_firstWord (h : Text.firstWord line = [] ∨ ∃ cs, Text.firstWord line = '#' :: cs) :
    word? line = none := by
  rcases h with h | ⟨cs, h⟩
  · simp only [word?, h]
  · simp only [word?, h]

/-- A blank character at the end of a line changes nothing. -/
theorem word?_concat_of_blank {c : Char} (hc : Text.isBlank c = true) (line : List Char) :
    word? (line ++ [c]) = word? line := by
  simp only [word?, Text.firstWord_concat_of_blank hc]

/-- The first line of a text has the same word whichever way it ends. -/
theorem exists_lines_append_ending {l ending : List Char} (hl : '\n' ∉ l) (he : ending ∈ Text.endings) (cs : List Char) :
    ∃ k, Text.lines (l ++ (ending ++ cs)) = k :: Text.lines cs ∧ word? k = word? l := by
  obtain rfl | rfl := Text.mem_endings.mp he
  · by_cases hr : l.getLast? = some '\r'
    · -- the carriage return counts as a part of the line end, and it is no part of the word in any case
      obtain ⟨k, rfl⟩ := List.getLast?_eq_some_iff.mp hr
      have hk : '\n' ∉ k := fun h => hl (List.mem_append_left _ h)
      have hlines : Text.lines (k ++ ['\r'] ++ (['\n'] ++ cs)) = k :: Text.lines cs := by
        simpa using Text.lines_append_crlf hk cs
      exact ⟨k, hlines, (word?_concat_of_blank (by decide) k).symm⟩
    · exact ⟨l, Text.lines_append_feed hl hr cs, rfl⟩
  · exact ⟨l, Text.lines_append_crlf hl cs, rfl⟩

/-- The words of a text are those of its first line and those of the others, whichever way the line ends. -/
theorem words_append_ending {l ending : List Char} (hl : '\n' ∉ l) (he : ending ∈ Text.endings) (cs : List Char) :
    (Text.lines (l ++ (ending ++ cs))).filterMap word? = (word? l).toList ++ (Text.lines cs).filterMap word? := by
  obtain ⟨k, hlines, hword⟩ := exists_lines_append_ending hl he cs
  rw [hlines, ← hword]
  cases h : word? k <;> simp [h]

theorem words_last {l : List Char} (hl : '\n' ∉ l) : (Text.lines l).filterMap word? = (word? l).toList := by
  cases l with
  | nil => rfl
  | cons c l =>
    rw [Text.lines_of_not_mem (List.cons_ne_nil c l) hl]
    cases h : word? (c :: l) <;> simp [h]

end LS8.Literal
