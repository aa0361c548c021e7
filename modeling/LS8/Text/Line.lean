import LS8.Text.Blank

/-!
Lines of a text and the first word of a line. A line ends at a line feed, which takes one carriage
return directly before it along; what follows the last line feed is a line unless it is empty.
-/

namespace LS8.Text

/-- The lines of a text, without their ends. -/
def lines : List Char → List (List Char)
  | [] => []
  | '\n' :: cs => [] :: lines cs
  | '\r' :: '\n' :: cs => [] :: lines cs
  | c :: cs =>
    match lines cs with
    | [] => [[c]]
    | l :: ls => (c :: l) :: ls

/-- The first run of characters that are not blank; empty on a blank line. -/
def firstWord (line : List Char) : List Char :=
  (line.dropWhile isBlank).takeWhile fun c => !isBlank c

/-! ### Lines -/

theorem lines_eq_nil_iff {cs : List Char} : lines cs = [] ↔ cs = [] := by
  fun_cases lines cs <;> simp

/-! ### Words -/

theorem firstWord_cons_of_blank {c : Char} (h : isBlank c = true) (cs : List Char) :
    firstWord (c :: cs) = firstWord cs := by
  simp [firstWord, h]

theorem isBlank_eq_false_of_mem_firstWord {line : List Char} {c : Char} (h : c ∈ firstWord line) :
    isBlank c = false := by
  have := List.all_takeWhile (p := fun c => !isBlank c) (l := line.dropWhile isBlank)
  simpa using List.all_eq_true.mp this c h

end LS8.Text
