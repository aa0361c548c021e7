import LS8.Text.Line
import Mathlib.Tactic.Common

/-!
What the lines of a text are and what the first word of a line is, said without the way they are found: a text is its
lines with their ends (`Splits`), a word stands between blank characters (`IsFirstWord`).  There is one way to split a
text (`splits_iff`) and one first word on every line that is not blank (`isFirstWord_iff`).
-/

namespace LS8.Text

variable {c : Char} {cs l w : List Char} {ls : List (List Char)}

/-! ### Lines -/

/-- A text splits into lines: a line feed ends a line, and a carriage return directly before it belongs to the end.
What follows the last line feed is a line unless it is empty. -/
inductive Splits : List Char → List (List Char) → Prop
  | nil : Splits [] []
  | last {l : List Char} (hne : l ≠ []) (hl : '\n' ∉ l) : Splits l [l]
  | feed {l cs : List Char} {ls : List (List Char)} (hl : '\n' ∉ l) (hr : l.getLast? ≠ some '\r')
      (h : Splits cs ls) : Splits (l ++ '\n' :: cs) (l :: ls)
  | crlf {l cs : List Char} {ls : List (List Char)} (hl : '\n' ∉ l) (h : Splits cs ls) :
      Splits (l ++ '\r' :: '\n' :: cs) (l :: ls)

/-- The ways a line may end. -/
def endings : List (List Char) := [['\n'], ['\r', '\n']]

theorem mem_endings {ending : List Char} : ending ∈ endings ↔ ending = ['\n'] ∨ ending = ['\r', '\n'] := by
  simp [endings]

theorem lines_cons (hc : c ≠ '\n') (hr : c = '\r' → cs.head? ≠ some '\n') :
    lines (c :: cs) = (match lines cs with | [] => [[c]] | l :: ls => (c :: l) :: ls) :=
  lines.eq_4 _ _ hc fun ds hcr hds => hr hcr (by rw [hds]; rfl)

theorem lines_of_not_mem (hne : l ≠ []) (hl : '\n' ∉ l) : lines l = [l] := by
  induction l with
  | nil => exact absurd rfl hne
  | cons c l ih =>
    obtain ⟨hc, htail⟩ := List.ne_and_not_mem_of_not_mem_cons hl
    have hhead : l.head? ≠ some '\n' := fun h => htail (List.mem_of_mem_head? h)
    rw [lines_cons (Ne.symm hc) fun _ => hhead]
    cases l with
    | nil => rfl
    | cons d l => rw [ih (List.cons_ne_nil d l) htail]

theorem lines_append_feed (hl : '\n' ∉ l) (hr : l.getLast? ≠ some '\r') (cs : List Char) :
    lines (l ++ '\n' :: cs) = l :: lines cs := by
  induction l with
  | nil => rfl
  | cons c l ih =>
    obtain ⟨hc, htail⟩ := List.ne_and_not_mem_of_not_mem_cons hl
    have hhead : c = '\r' → (l ++ '\n' :: cs).head? ≠ some '\n' := by
      rintro rfl h
      cases l with
      | nil => exact hr rfl
      | cons d l => exact htail (List.mem_of_mem_head? h)
    have hr' : l.getLast? ≠ some '\r' := by
      intro h
      exact hr (by rw [List.getLast?_cons, h]; rfl)
    rw [List.cons_append, lines_cons (Ne.symm hc) hhead, ih htail hr']

theorem lines_append_crlf (hl : '\n' ∉ l) (cs : List Char) :
    lines (l ++ '\r' :: '\n' :: cs) = l :: lines cs := by
  induction l with
  | nil => rfl
  | cons c l ih =>
    obtain ⟨hc, htail⟩ := List.ne_and_not_mem_of_not_mem_cons hl
    have hhead : (l ++ '\r' :: '\n' :: cs).head? ≠ some '\n' := by
      intro h
      cases l with
      | nil => cases h
      | cons d l => exact htail (List.mem_of_mem_head? h)
    rw [List.cons_append, lines_cons (Ne.symm hc) fun _ => hhead, ih htail]

/-- A character in front of a text that is not part of a line end stands in front of its first line. -/
theorem Splits.cons (h : Splits cs (l :: ls)) (hc : c ≠ '\n') (hr : c = '\r' → cs.head? ≠ some '\n') :
    Splits (c :: cs) ((c :: l) :: ls) := by
  cases h with
  | last hne hl => exact .last (List.cons_ne_nil c _) (List.not_mem_cons_of_ne_of_not_mem hc.symm hl)
  | feed hl hlast h =>
    refine .feed (l := c :: l) (List.not_mem_cons_of_ne_of_not_mem hc.symm hl) ?_ h
    cases l with
    | nil => exact fun hcr => hr (Option.some.inj hcr) rfl
    | cons d l => simpa [List.getLast?_cons_cons] using hlast
  | crlf hl h => exact .crlf (l := c :: l) (List.not_mem_cons_of_ne_of_not_mem hc.symm hl) h

theorem splits_lines (cs : List Char) : Splits cs (lines cs) := by
  fun_induction lines cs with
  | case1 => exact .nil
  | case2 cs ih => exact .feed (l := []) (by simp) (by simp) ih
  | case3 cs ih => exact .crlf (l := []) (by simp) ih
  | case4 c cs hc _ hnil _ =>
    obtain rfl := lines_eq_nil_iff.mp hnil
    exact .last (List.cons_ne_nil c []) (by simpa using Ne.symm hc)
  | case5 c cs hc hr k ks hk ih =>
    rw [hk] at ih
    refine ih.cons hc fun hcr hhead => ?_
    obtain ⟨ds, rfl⟩ := List.head?_eq_some_iff.mp hhead
    exact hr ds hcr rfl

/-- A text splits in one way. -/
theorem splits_iff : Splits cs ls ↔ ls = lines cs := by
  constructor
  · intro h
    induction h with
    | nil => rfl
    | last hne hl => exact (lines_of_not_mem hne hl).symm
    | feed hl hr h ih => rw [lines_append_feed hl hr, ih]
    | crlf hl h ih => rw [lines_append_crlf hl, ih]
  · rintro rfl
    exact splits_lines cs

/-! ### Words -/

/-- The word is the first run of characters on a line that are not blank, from its first character to its last. -/
def IsFirstWord (line w : List Char) : Prop :=
  w ≠ [] ∧ ∃ before after, line = before ++ w ++ after ∧ (∀ c ∈ before, isBlank c = true) ∧
    (∀ c ∈ w, isBlank c = false) ∧ ∀ c ∈ after.head?, isBlank c = true

theorem firstWord_append_of_blank {before : List Char} (h : ∀ c ∈ before, isBlank c = true) (line : List Char) :
    firstWord (before ++ line) = firstWord line := by
  rw [firstWord, List.dropWhile_append_of_pos h, firstWord]

theorem firstWord_append {after : List Char} (hne : w ≠ []) (hw : ∀ c ∈ w, isBlank c = false)
    (hafter : ∀ c ∈ after.head?, isBlank c = true) : firstWord (w ++ after) = w := by
  have hdrop : (w ++ after).dropWhile isBlank = w ++ after := by
    cases w with
    | nil => exact absurd rfl hne
    | cons c w => simp [hw c List.mem_cons_self]
  have htake : after.takeWhile (fun c => !isBlank c) = [] := by
    cases after with
    | nil => rfl
    | cons c after => simp [hafter c rfl]
  rw [firstWord, hdrop, List.takeWhile_append_of_pos (by simpa using hw), htake, List.append_nil]

theorem isFirstWord_iff {line : List Char} : IsFirstWord line w ↔ w ≠ [] ∧ firstWord line = w := by
  constructor
  · rintro ⟨hne, before, after, rfl, hbefore, hw, hafter⟩
    rw [List.append_assoc, firstWord_append_of_blank hbefore]
    exact ⟨hne, firstWord_append hne hw hafter⟩
  · rintro ⟨hne, rfl⟩
    refine ⟨hne, line.takeWhile isBlank, (line.dropWhile isBlank).dropWhile fun c => !isBlank c, ?_, ?_, ?_, ?_⟩
    · rw [firstWord, List.append_assoc, List.takeWhile_append_dropWhile, List.takeWhile_append_dropWhile]
    · exact List.all_eq_true.mp List.all_takeWhile
    · exact fun c => isBlank_eq_false_of_mem_firstWord
    · intro c hc
      have := List.head?_dropWhile_not (fun c => !isBlank c) (line.dropWhile isBlank)
      rw [Option.mem_def.mp hc] at this
      simpa using this

/-- What comes after the first word of a line does not change it. -/
theorem firstWord_append_tail {line tail : List Char} (hne : firstWord line ≠ [])
    (htail : ∀ c ∈ tail.head?, isBlank c = true) : firstWord (line ++ tail) = firstWord line := by
  obtain ⟨-, before, after, hline, hbefore, hw, hafter⟩ := isFirstWord_iff.mpr ⟨hne, rfl⟩
  have hblank : ∀ c ∈ (after ++ tail).head?, isBlank c = true := by
    cases after with
    | nil => exact htail
    | cons d after => exact hafter
  have heq : line ++ tail = before ++ firstWord line ++ (after ++ tail) := by
    rw [← List.append_assoc, ← hline]
  exact (isFirstWord_iff.mp ⟨hne, before, after ++ tail, heq, hbefore, hw, hblank⟩).2

theorem firstWord_concat_of_blank (hc : isBlank c = true) (line : List Char) :
    firstWord (line ++ [c]) = firstWord line := by
  have htake : ∀ l : List Char, (l ++ [c]).takeWhile (fun c => !isBlank c) = l.takeWhile fun c => !isBlank c := by
    intro l
    induction l with
    | nil => simp [hc]
    | cons d l ih => cases h : isBlank d <;> simp [h, ih]
  induction line with
  | nil => rw [List.nil_append, firstWord_cons_of_blank hc]
  | cons d line ih =>
    rw [List.cons_append]
    cases h : isBlank d with
    | true => rw [firstWord_cons_of_blank h, firstWord_cons_of_blank h, ih]
    | false =>
      have hdrop : ∀ l : List Char, (d :: l).dropWhile isBlank = d :: l := fun l => by simp [h]
      rw [firstWord, firstWord, hdrop, hdrop, ← List.cons_append, htake]

end LS8.Text
