import LS8.Numeral
import Mathlib.Algebra.Group.Nat.Defs
import Mathlib.Data.List.Basic
import Mathlib.Data.List.Induction
import Mathlib.Tactic.Common

/-!
What a numeral is, said without the way it is computed: digits that stand for the number, with no more zeros in front
than a least width asks for (`Writes`).  A number has one numeral (`Writes.unique`), and this is how numbers are written
(`isDecimal_iff`, `isHex_iff`, `isBits_iff`).
-/

namespace LS8.Numeral

variable {base width n k : Nat} {c : Char} {digits cs cs' : List Char} {byte : UInt8}

/-! ### Digits -/

/-- Every character of a numeral is a digit of the base. -/
theorem exists_digit_of_mem_toDigits (hb : 1 < base) (hc : c ∈ Nat.toDigits base n) :
    ∃ k < base, c = k.digitChar := by
  induction n using Nat.strongRecOn with
  | ind n ih =>
    rw [Nat.toDigits_eq_if hb] at hc
    split at hc
    · next hn => exact ⟨n, hn, List.mem_singleton.mp hc⟩
    · next hn =>
      rcases List.mem_append.mp hc with hc | hc
      · exact ih (n / base) (Nat.div_lt_self (by omega) hb) hc
      · exact ⟨n % base, Nat.mod_lt n (by omega), List.mem_singleton.mp hc⟩

/-- The number that characters stand for, the highest first; each digit is at the place of its value. -/
def valueOf (digits cs : List Char) : Nat := cs.foldl (fun high c => digits.length * high + digits.idxOf c) 0

theorem valueOf_concat (digits cs : List Char) (c : Char) :
    valueOf digits (cs ++ [c]) = digits.length * valueOf digits cs + digits.idxOf c := by
  rw [valueOf, List.foldl_append]
  rfl

theorem valueOf_lt (h : ∀ c ∈ cs, c ∈ digits) : valueOf digits cs < digits.length ^ cs.length := by
  induction cs using List.reverseRecOn with
  | nil => exact Nat.one_pos
  | append_singleton cs c ih =>
    have hcs := ih fun d hd => h d (List.mem_append_left _ hd)
    have hc : digits.idxOf c < digits.length := List.idxOf_lt_length_iff.mpr (h c (by simp))
    rw [valueOf_concat, List.length_append, List.length_singleton, Nat.pow_succ, Nat.mul_comm _ digits.length]
    calc digits.length * valueOf digits cs + digits.idxOf c
        < digits.length * valueOf digits cs + digits.length := by omega
      _ = digits.length * (valueOf digits cs + 1) := (Nat.mul_succ _ _).symm
      _ ≤ digits.length * digits.length ^ cs.length := Nat.mul_le_mul_left _ hcs

theorem le_valueOf (hc : digits.idxOf c ≠ 0) (cs : List Char) :
    digits.length ^ cs.length ≤ valueOf digits (c :: cs) := by
  induction cs using List.reverseRecOn with
  | nil =>
    show 1 ≤ digits.length * 0 + digits.idxOf c
    omega
  | append_singleton cs d ih =>
    rw [← List.cons_append, valueOf_concat, List.length_append, List.length_singleton, Nat.pow_succ,
      Nat.mul_comm _ digits.length]
    exact Nat.le_add_right_of_le (Nat.mul_le_mul_left _ ih)

/-- Characters of the same number and length are the same. -/
theorem valueOf_inj (h : ∀ c ∈ cs, c ∈ digits) (h' : ∀ c ∈ cs', c ∈ digits) (hlength : cs.length = cs'.length)
    (hvalue : valueOf digits cs = valueOf digits cs') : cs = cs' := by
  induction cs using List.reverseRecOn generalizing cs' with
  | nil => exact (List.length_eq_zero_iff.mp hlength.symm).symm
  | append_singleton cs c ih =>
    obtain rfl | ⟨cs', c', rfl⟩ := List.eq_nil_or_concat' cs'
    · simp at hlength
    · obtain ⟨hcs, hc⟩ := List.forall_mem_append.mp h
      obtain ⟨hcs', hc'⟩ := List.forall_mem_append.mp h'
      have hidx : digits.idxOf c < digits.length := List.idxOf_lt_length_iff.mpr (hc c (List.mem_singleton_self c))
      have hidx' : digits.idxOf c' < digits.length := List.idxOf_lt_length_iff.mpr (hc' c' (List.mem_singleton_self c'))
      have hpos : 0 < digits.length := Nat.zero_lt_of_lt hidx
      rw [valueOf_concat, valueOf_concat] at hvalue
      -- the last digit is the remainder, the digits before it are the quotient
      have hlast : digits.idxOf c = digits.idxOf c' := by
        have hmod := congrArg (· % digits.length) hvalue
        simpa only [Nat.mul_add_mod, Nat.mod_eq_of_lt, hidx, hidx'] using hmod
      have hfirst : valueOf digits cs = valueOf digits cs' := by
        rw [hlast] at hvalue
        exact Nat.eq_of_mul_eq_mul_left hpos (Nat.add_right_cancel hvalue)
      rw [ih hcs hcs' (by simpa using hlength) hfirst,
        (List.idxOf_inj (hc c (List.mem_singleton_self c))).mp hlast]

/-! ### Numerals -/

/-- The characters write `n`: digits that stand for it, as many as the least width or more, and more only if the first
one is not zero. -/
structure Writes (digits : List Char) (width n : Nat) (cs : List Char) : Prop where
  width_le : width ≤ cs.length
  isDigit : ∀ c ∈ cs, c ∈ digits
  value : valueOf digits cs = n
  head : cs.head? = digits.head? → cs.length = width

theorem Writes.not_mem (h : Writes digits width n cs) (hc : c ∉ digits) : c ∉ cs := fun hmem => hc (h.isDigit c hmem)

/-- Numerals of one number are equally long, since more than the least width means that the number is large. -/
theorem Writes.length_le (hd : 1 < digits.length) (h : Writes digits width n cs) (h' : Writes digits width n cs') :
    cs.length ≤ cs'.length := by
  by_cases hlength : cs.length = width
  · exact hlength ▸ h'.width_le
  · cases cs with
    | nil => exact Nat.zero_le _
    | cons c cs =>
      have hne : digits ≠ [] := List.ne_nil_of_length_pos (Nat.zero_lt_of_lt hd)
      have hc : digits.idxOf c ≠ 0 := by
        intro hzero
        refine hlength (h.head ?_)
        rw [List.head?_cons, List.head?_eq_some_head hne, (List.idxOf_eq_zero_iff_head_eq hne).mp hzero]
      have hlt : digits.length ^ cs.length < digits.length ^ cs'.length :=
        calc digits.length ^ cs.length
            ≤ valueOf digits (c :: cs) := le_valueOf hc cs
          _ = valueOf digits cs' := h.value.trans h'.value.symm
          _ < digits.length ^ cs'.length := valueOf_lt h'.isDigit
      exact (Nat.pow_lt_pow_iff_right hd).mp hlt

/-- A number has one numeral. -/
theorem Writes.unique (hd : 1 < digits.length) (h : Writes digits width n cs) (h' : Writes digits width n cs') :
    cs = cs' :=
  valueOf_inj h.isDigit h'.isDigit (Nat.le_antisymm (h.length_le hd h') (h'.length_le hd h))
    (h.value.trans h'.value.symm)

/-- A numeral stands for one number. -/
theorem Writes.iff_eq (h : Writes digits width n cs) : Writes digits width k cs ↔ k = n := by
  constructor
  · exact fun h' => h'.value.symm.trans h.value
  · rintro rfl
    exact h

/-! ### How numbers are written -/

theorem length_padded (hb : 1 < base) (hw : 0 < width) (hn : n < base ^ width) :
    (padded base width n).length = width := by
  have hlength := (Nat.length_toDigits_le_iff hb hw).mpr hn
  rw [padded, List.length_leftpad, Nat.max_eq_left hlength]

/-- The first digit of a number is zero for zero only. -/
theorem eq_zero_of_head_toDigits (hb : 1 < base) {up : Char → Char} (hzero : ∀ k < base, up k.digitChar = up '0' → k = 0)
    (h : ((Nat.toDigits base n).map up).head? = some (up '0')) : n = 0 := by
  induction n using Nat.strongRecOn with
  | ind n ih =>
    rw [Nat.toDigits_eq_if hb] at h
    split at h
    · next hn => exact hzero n hn (by simpa using h)
    · next hn =>
      have hhead : ((Nat.toDigits base (n / base)).map up).head? = some (up '0') := by
        rwa [List.map_append, List.head?_append, List.head?_map, List.head?_eq_some_head Nat.toDigits_ne_nil,
          Option.map_some, Option.some_or, ← Option.map_some, ← List.head?_eq_some_head Nat.toDigits_ne_nil,
          ← List.head?_map] at h
      have hq := ih (n / base) (Nat.div_lt_self (by omega) hb) hhead
      have := (Nat.div_eq_zero_iff_lt (by omega)).mp hq
      omega

section

variable {up : Char → Char} (hd : 1 < digits.length)
  (hdigit : ∀ k < digits.length, up k.digitChar ∈ digits ∧ digits.idxOf (up k.digitChar) = k)

include hd hdigit

theorem valueOf_toDigits (n : Nat) : valueOf digits ((Nat.toDigits digits.length n).map up) = n := by
  induction n using Nat.strongRecOn with
  | ind n ih =>
    rw [Nat.toDigits_eq_if hd]
    split
    · next hn => exact (Nat.zero_add _).trans (hdigit n hn).2
    · next hn =>
      have hpos : 0 < digits.length := Nat.zero_lt_of_lt hd
      rw [List.map_append, List.map_singleton, valueOf_concat, ih (n / digits.length) (Nat.div_lt_self (by omega) hd),
        (hdigit (n % digits.length) (Nat.mod_lt n hpos)).2]
      exact Nat.div_add_mod n digits.length

theorem valueOf_padded (width n : Nat) : valueOf digits ((padded digits.length width n).map up) = n := by
  have hzero : digits.idxOf (up '0') = 0 := (hdigit 0 (Nat.zero_lt_of_lt hd)).2
  have hzeros : ∀ (zeros : Nat) (cs : List Char),
      valueOf digits (List.replicate zeros (up '0') ++ cs) = valueOf digits cs := by
    intro zeros cs
    induction zeros with
    | zero => rfl
    | succ zeros ih => rwa [List.replicate_succ, List.cons_append, valueOf, List.foldl_cons, hzero]
  rw [padded, List.leftpad, List.map_append, List.map_replicate, hzeros]
  exact valueOf_toDigits hd hdigit n

/-- Padding with zeros gives a numeral. -/
theorem writes_padded (hw : 0 < width) (n : Nat) :
    Writes digits width n ((padded digits.length width n).map up) where
  width_le := by
    rw [List.length_map, padded, List.length_leftpad]
    exact Nat.le_max_left ..
  isDigit := by
    intro c hc
    obtain ⟨d, hmem, rfl⟩ := List.mem_map.mp hc
    rcases List.mem_append.mp hmem with hzero | hmem
    · obtain rfl := List.eq_of_mem_replicate hzero
      exact (hdigit 0 (Nat.zero_lt_of_lt hd)).1
    · obtain ⟨k, hk, rfl⟩ := exists_digit_of_mem_toDigits hd hmem
      exact (hdigit k hk).1
  value := valueOf_padded hd hdigit width n
  head := by
    have hne : digits ≠ [] := List.ne_nil_of_length_pos (Nat.zero_lt_of_lt hd)
    have hhead : digits.head? = some (up '0') := by
      have hzero := (List.idxOf_eq_zero_iff_head_eq hne).mp (hdigit 0 (Nat.zero_lt_of_lt hd)).2
      rw [List.head?_eq_some_head hne, hzero]
      rfl
    have hinj : ∀ k < digits.length, up k.digitChar = up '0' → k = 0 := by
      intro k hk h
      rw [← (hdigit k hk).2, h]
      exact (hdigit 0 (Nat.zero_lt_of_lt hd)).2
    intro h
    rw [hhead] at h
    by_cases hlength : (Nat.toDigits digits.length n).length ≤ width
    · rw [List.length_map, padded, List.length_leftpad, Nat.max_eq_left hlength]
    · -- nothing has been padded, so that a zero in front means that the number is zero
      rw [padded, List.leftpad, Nat.sub_eq_zero_of_le (by omega)] at h
      have hzero : n = 0 := eq_zero_of_head_toDigits hd hinj h
      rw [hzero, Nat.toDigits_zero] at hlength
      exact absurd hw hlength

/-- Padding with zeros gives the numeral. -/
theorem writes_iff_padded (hw : 0 < width) (n : Nat) :
    Writes digits width n cs ↔ cs = (padded digits.length width n).map up := by
  have hpadded := writes_padded hd hdigit hw n
  constructor
  · exact fun h => h.unique hd hpadded
  · rintro rfl
    exact hpadded

end

/-- The characters write `n` in decimal, with no zero in front of another digit. -/
def IsDecimal (n : Nat) (cs : List Char) : Prop := Writes "0123456789".toList 1 n cs

/-- The characters write `n` in upper case hexadecimal, with two digits or more. -/
def IsHex (n : Nat) (cs : List Char) : Prop := Writes "0123456789ABCDEF".toList 2 n cs

/-- The characters write a byte in binary, with eight digits. -/
def IsBits (byte : UInt8) (cs : List Char) : Prop := Writes "01".toList 8 byte.toNat cs

theorem isDecimal_iff : IsDecimal n cs ↔ cs = (decimal n).toList := by
  have hpadded : padded 10 1 n = Nat.toDigits 10 n := by
    have hlength : 1 ≤ (Nat.toDigits 10 n).length := List.length_pos_iff.mpr Nat.toDigits_ne_nil
    rw [padded, List.leftpad, Nat.sub_eq_zero_of_le hlength, List.replicate_zero, List.nil_append]
  have h : IsDecimal n cs ↔ cs = (padded 10 1 n).map id := writes_iff_padded (by decide) (by decide) (by decide) n
  rwa [hpadded, List.map_id, ← toList_decimal] at h

theorem isHex_iff : IsHex n cs ↔ cs = (hexPair n).toList := by
  rw [toList_hexPair]
  exact writes_iff_padded (by decide) (by decide) (by decide) n

theorem isBits_iff : IsBits byte cs ↔ cs = (bits byte).toList := by
  have h : IsBits byte cs ↔ cs = (padded 2 8 byte.toNat).map id :=
    writes_iff_padded (by decide) (by decide) (by decide) byte.toNat
  rwa [List.map_id, ← toList_bits] at h

theorem isDecimal_decimal (n : Nat) : IsDecimal n (decimal n).toList := isDecimal_iff.mpr rfl

theorem isHex_hexPair (n : Nat) : IsHex n (hexPair n).toList := isHex_iff.mpr rfl

theorem isBits_bits (byte : UInt8) : IsBits byte (bits byte).toList := isBits_iff.mpr rfl

end LS8.Numeral
