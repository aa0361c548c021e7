import LS8.Proofs.Program.Reading

/-!
Which words a text is accepted with.  A word is an error on its line exactly if it is no literal and no signed literal,
so that signs are the one thing accepted beyond literals.  Main statement: `accepts_literals_and_signed_only`.
-/

namespace LS8.Program

variable {capacity n : Nat} {text : String} {ls : List (List Char)} {word : List Char} {p : Program}

theorem rejectAt_iff : RejectAt ls n word ↔ WordAt ls n word ∧ ¬ Literal.IsLiteral word ∧ ¬ Literal.IsSigned word := by
  rw [RejectAt, ← not_exists, Literal.exists_denotes_iff, not_or]

/-- A word has an error of its own exactly if it denotes no byte. -/
theorem exists_invalidLiteral_iff (hls : Text.Splits text.toList ls) :
    (∃ es, (parse capacity text).value = .error es ∧ .invalidLiteral n word ∈ es) ↔ RejectAt ls n word := by
  obtain rfl := Text.splits_iff.mp hls
  rw [← (lists_rejects _).mem_iff, value_parse]
  constructor
  · rintro ⟨es, hes, hmem⟩
    split at hes
    · cases hes
    · obtain rfl := Except.error.inj hes
      rcases List.mem_append.mp hmem with hmem | hmem
      · obtain ⟨e, he, heq⟩ := List.mem_map.mp hmem
        obtain ⟨rfl, rfl⟩ := Error.invalidLiteral.inj heq
        exact he
      · simp [excess] at hmem
  · intro hmem
    have hne : rejects (Text.lines text.toList) ≠ [] := List.ne_nil_of_mem hmem
    rw [if_neg fun h => hne h.1]
    exact ⟨_, rfl, List.mem_append_left _ (List.mem_map.mpr ⟨_, hmem, rfl⟩)⟩

theorem not_rejectAt_of_ok (hls : Text.Splits text.toList ls) (hp : (parse capacity text).value = .ok p) :
    ¬ RejectAt ls n word := by
  intro h
  obtain ⟨es, hes, -⟩ : ∃ es, (parse capacity text).value = .error es ∧ _ := (exists_invalidLiteral_iff hls).mpr h
  rw [hp] at hes
  cases hes

/-- **What a text is accepted with.**  A word is reported on its line exactly if it is neither a literal nor a signed one;
in a text that is accepted every word is a literal unless it is signed. -/
theorem accepts_literals_and_signed_only (capacity : Nat) (text : String) {ls : List (List Char)}
    (hls : Text.Splits text.toList ls) :
    (∀ n word, WordAt ls n word →
      ((∃ es, (parse capacity text).value = .error es ∧ .invalidLiteral n word ∈ es) ↔
        ¬ Literal.IsLiteral word ∧ ¬ Literal.IsSigned word)) ∧
    ∀ p, (parse capacity text).value = .ok p → ∀ n word, WordAt ls n word →
      (Literal.IsLiteral word ↔ ¬ Literal.IsSigned word) := by
  refine ⟨fun n word hword => ?_, fun p hp n word hword => ?_⟩
  · rw [exists_invalidLiteral_iff hls, rejectAt_iff]
    exact ⟨And.right, fun h => ⟨hword, h⟩⟩
  · have hform : Literal.IsLiteral word ∨ Literal.IsSigned word := by
      by_contra hno
      exact not_rejectAt_of_ok hls hp (rejectAt_iff.mpr ⟨hword, not_or.mp hno⟩)
    exact ⟨fun h => h.not_isSigned, hform.resolve_right⟩

/-- A signed literal and, on the next line, a literal with a mark and a comment after it. -/
theorem literal_after_signed_is_accepted :
    let text := "+1\n 0b01 x"
    let ls := [['+', '1'], [' ', '0', 'b', '0', '1', ' ', 'x']]
    let word := ['0', 'b', '0', '1']
    Text.Splits text.toList ls ∧ WordAt ls 2 word ∧ (parse 2 text).value = .ok ⟨[1, 1]⟩ ∧
      ((∃ es, (parse 2 text).value = .error es ∧ .invalidLiteral 2 word ∈ es) ↔
        ¬ Literal.IsLiteral word ∧ ¬ Literal.IsSigned word) ∧
      (Literal.IsLiteral word ↔ ¬ Literal.IsSigned word) := by
  intro text ls word
  have hls : Text.Splits text.toList ls := Text.splits_iff.mpr (by decide)
  have hword : WordAt ls 2 word := ⟨1, _, rfl, rfl, Text.isFirstWord_iff.mpr ⟨by decide, by decide⟩, by decide⟩
  have hp : (parse 2 text).value = .ok ⟨[1, 1]⟩ := by decide +kernel
  obtain ⟨hreport, hok⟩ := accepts_literals_and_signed_only 2 text hls
  exact ⟨hls, hword, hp, hreport 2 word hword, hok _ hp 2 word hword⟩

/-- The text `+1` is a program, though its word is no literal. -/
theorem sign_is_accepted : ¬ ∀ (capacity : Nat) (text : String) (p : Program),
    (parse capacity text).value = .ok p → ∀ ls, Text.Splits text.toList ls →
      ∀ n word, WordAt ls n word → Literal.IsLiteral word := by
  intro h
  have hls : Text.Splits "+1".toList [['+', '1']] := Text.Splits.last (by decide) (by decide)
  have hword : WordAt [['+', '1']] 1 ['+', '1'] :=
    ⟨0, ['+', '1'], rfl, rfl, Text.isFirstWord_iff.mpr ⟨by decide, by decide⟩, by decide⟩
  have hsigned : Literal.IsSigned ['+', '1'] :=
    ⟨[], by decide, ['1'], 1, rfl, ⟨by decide, List.forall_mem_singleton.mpr (.inr rfl), by decide⟩, by decide⟩
  have hp : (parse 256 "+1").value = .ok ⟨[1]⟩ := by decide +kernel
  exact (h 256 "+1" ⟨[1]⟩ hp _ hls 1 ['+', '1'] hword).not_isSigned hsigned

end LS8.Program
