import LS8.Proofs.Program.Journal
import LS8.Proofs.Program.Layout

/-!
Texts that are written differently: other line ends, white space in front of what stands on a line, and more text after
the first word of a line (`Reformats`).  Such a text has the same words on the same lines (`Reformats.words`), and that is
all that the reader looks at (`parse_congr`).  Main statement: `parse_reformatted`.
-/

namespace LS8.Program

variable {l l' cs cs' : List Char} {text text' : String}

/-- A line with white space put in front of what stands on it and, if there is a word on it, with a blank character and
more put after it. -/
inductive Extends : List Char → List Char → Prop
  | mk {lead indent content tail : List Char} (hlead : IsSpace lead) (hindent : IsSpace indent)
      (hblank : ∀ c ∈ tail.head?, Text.isBlank c = true) (htail : '\n' ∉ tail)
      (hword : tail ≠ [] → ∃ word, Text.IsFirstWord (lead ++ content) word) :
      Extends (lead ++ content) (lead ++ (indent ++ content) ++ tail)

/-- A text whose lines have been extended, with other line ends. -/
inductive Reformats : List Char → List Char → Prop
  | last {l l' : List Char} (hl : '\n' ∉ l) (h : Extends l l') : Reformats l l'
  | line {l l' ending ending' cs cs' : List Char} (ht : Reformats cs cs') (hl : '\n' ∉ l) (h : Extends l l')
      (he : ending ∈ Text.endings) (he' : ending' ∈ Text.endings) :
      Reformats (l ++ (ending ++ cs)) (l' ++ (ending' ++ cs'))

/-- A text with a carriage return put before every line feed. -/
def withReturns (cs : List Char) : List Char := cs.flatMap fun c => if c = '\n' then ['\r', '\n'] else [c]

/-! ### Lines -/

theorem Extends.refl (l : List Char) : Extends l l := by
  have h := @Extends.mk [] [] l [] nofun nofun nofun (by simp) (fun hne => absurd rfl hne)
  simpa using h

theorem Extends.not_mem (h : Extends l l') (hl : '\n' ∉ l) : '\n' ∉ l' := by
  cases h with
  | mk hlead hindent hblank htail hword =>
    simp only [List.mem_append, not_or] at hl ⊢
    exact ⟨⟨hl.1, hindent.not_mem, hl.2⟩, htail⟩

theorem Extends.firstWord (h : Extends l l') : Text.firstWord l' = Text.firstWord l := by
  cases h with
  | @mk lead indent content tail hlead hindent hblank htail hword =>
    have hcontent : Text.firstWord (lead ++ (indent ++ content)) = Text.firstWord (lead ++ content) := by
      rw [Text.firstWord_append_of_blank hlead.isBlank, Text.firstWord_append_of_blank hindent.isBlank,
        Text.firstWord_append_of_blank hlead.isBlank]
    by_cases hne : tail = []
    · rw [hne, List.append_nil, hcontent]
    · obtain ⟨word, hw⟩ := hword hne
      obtain ⟨hword, rfl⟩ := Text.isFirstWord_iff.mp hw
      rw [Text.firstWord_append_tail (hcontent ▸ hword) hblank, hcontent]

theorem Extends.word? (h : Extends l l') : Literal.word? l' = Literal.word? l := by
  simp only [Literal.word?, h.firstWord]

/-! ### Texts -/

theorem words_lines_append {l ending : List Char} (hl : '\n' ∉ l) (he : ending ∈ Text.endings) (cs : List Char) :
    words (Text.lines (l ++ (ending ++ cs))) =
      ((Literal.word? l).map fun word => (1, word)).toList ++ (words (Text.lines cs)).map below := by
  obtain ⟨k, hlines, hword⟩ := Literal.exists_lines_append_ending hl he cs
  rw [hlines, words_cons, hword]

theorem words_lines_last (hl : '\n' ∉ l) :
    words (Text.lines l) = ((Literal.word? l).map fun word => (1, word)).toList := by
  cases l with
  | nil => rfl
  | cons c l =>
    rw [Text.lines_of_not_mem (List.cons_ne_nil c l) hl, words_cons]
    exact List.append_nil _

/-- The words stand on the same lines. -/
theorem Reformats.words (h : Reformats cs cs') : words (Text.lines cs') = words (Text.lines cs) := by
  induction h with
  | last hl h => rw [words_lines_last hl, words_lines_last (h.not_mem hl), h.word?]
  | line _ hl h he he' ih => rw [words_lines_append hl he, words_lines_append (h.not_mem hl) he', h.word?, ih]

theorem withReturns_of_not_mem (hl : '\n' ∉ l) : withReturns l = l := by
  induction l with
  | nil => rfl
  | cons c l ih =>
    obtain ⟨hc, htail⟩ := List.ne_and_not_mem_of_not_mem_cons hl
    have hkept := ih htail
    rw [withReturns] at hkept ⊢
    rw [List.flatMap_cons, if_neg (Ne.symm hc), hkept]
    rfl

theorem withReturns_append_feed (hl : '\n' ∉ l) (rest : List Char) :
    withReturns (l ++ '\n' :: rest) = l ++ (['\r', '\n'] ++ withReturns rest) := by
  have hkept := withReturns_of_not_mem hl
  rw [withReturns] at hkept
  rw [withReturns, List.flatMap_append, hkept]
  rfl

/-- Putting carriage returns before the line feeds is one of the ways to write a text differently. -/
theorem reformats_withReturns (cs : List Char) : Reformats cs (withReturns cs) := by
  induction hn : cs.length using Nat.strongRecOn generalizing cs with
  | ind n ih =>
    by_cases hmem : '\n' ∈ cs
    · obtain ⟨l, rest, rfl, hl⟩ := List.eq_append_cons_of_mem hmem
      have hlt : rest.length < n := by
        rw [← hn, List.length_append, List.length_cons]
        omega
      rw [withReturns_append_feed hl]
      exact (ih _ hlt rest rfl).line hl (.refl l) (by decide : ['\n'] ∈ Text.endings) (by decide)
    · rw [withReturns_of_not_mem hmem]
      exact .last hmem (.refl cs)

/-! ### Reading -/

/-- Texts with the same words on the same lines are read alike, and the same is recorded. -/
theorem parse_congr (h : words (Text.lines text'.toList) = words (Text.lines text.toList)) (capacity : Nat) :
    parse capacity text' = parse capacity text := by
  have hliterals : literals (Text.lines text'.toList) = literals (Text.lines text.toList) := by
    rw [literals, h, literals]
  have hrejects : rejects (Text.lines text'.toList) = rejects (Text.lines text.toList) := by
    rw [rejects, h, rejects]
  have hvalue : (parse capacity text').value = (parse capacity text).value := by
    rw [value_parse, value_parse, hliterals, hrejects]
  have hrecords : (parse capacity text').records = (parse capacity text).records := by
    rw [records_parse, records_parse, hliterals, h]
  exact congrArg₂ Logged.mk hvalue hrecords

/-- **Line ends and what follows the first word do not matter.**  A text that is written differently is read with the
same result, be it a program or the errors of its lines, and with the same records.  So is a text that is written
differently after carriage returns have been put before its line feeds. -/
theorem parse_reformatted (capacity : Nat) (text : String) :
    (∀ text', Reformats text.toList text'.toList → parse capacity text' = parse capacity text) ∧
      ∀ text', Reformats (withReturns text.toList) text'.toList → parse capacity text' = parse capacity text := by
  constructor
  · exact fun text' h => parse_congr h.words capacity
  · exact fun text' h => parse_congr (h.words.trans (reformats_withReturns text.toList).words) capacity

/-- A word that denotes no byte and a byte too many: the same two errors, whether the carriage return is put in or not. -/
theorem parse_errors_reformatted :
    let text := "2\n1"
    let text' := "\x0c2 x\r\n\u30001\r#"
    Reformats text.toList text'.toList ∧ Reformats (withReturns text.toList) text'.toList ∧
      parse 0 text = parse 0 text' ∧ (parse 0 text').value = .error [.invalidLiteral 1 ['2'], .tooLarge 2 0 1] := by
  intro text text'
  have hfirst : Extends ['2'] ['\x0c', '2', ' ', 'x'] :=
    @Extends.mk [] ['\x0c'] ['2'] [' ', 'x'] (by simp [IsSpace]) (by simp [IsSpace]; decide) (by simp; decide)
      (by decide) fun _ => ⟨['2'], Text.isFirstWord_iff.mpr (by decide)⟩
  have hsecond : Extends ['1'] ['\u3000', '1', '\r', '#'] :=
    @Extends.mk [] ['\u3000'] ['1'] ['\r', '#'] (by simp [IsSpace]) (by simp [IsSpace]; decide) (by simp; decide)
      (by decide) fun _ => ⟨['1'], Text.isFirstWord_iff.mpr (by decide)⟩
  have hlast := Reformats.last (by decide) hsecond
  have hfeed := hlast.line (by decide) hfirst (by decide : ['\n'] ∈ Text.endings)
    (by decide : ['\r', '\n'] ∈ Text.endings)
  have hcrlf := hlast.line (by decide) hfirst (by decide : ['\r', '\n'] ∈ Text.endings)
    (by decide : ['\r', '\n'] ∈ Text.endings)
  have h : Reformats text.toList text'.toList := by simpa [text, text'] using hfeed
  have hreturns : Reformats (withReturns text.toList) text'.toList := by simpa [text, text', withReturns] using hcrlf
  obtain ⟨hsame, hsame'⟩ := parse_reformatted 0 text
  have hvalue : (parse 0 text).value = .error [.invalidLiteral 1 ['2'], .tooLarge 2 0 1] := by decide +kernel
  exact ⟨h, hreturns, (hsame text' h).symm, (congrArg Logged.value (hsame' text' hreturns)).trans hvalue⟩

end LS8.Program
