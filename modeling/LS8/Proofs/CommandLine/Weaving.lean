import LS8.CommandLine.Session
import LS8.Proofs.Machine.Output

/-!
The standard output of the command.  The output of a program and the lines of a log are woven into one text (`Woven`): a
run puts out whole lines only (`lined_run`), so that a line of the log stands between two of them whatever is logged
(`woven_written`).  If no line of the log looks like a number, what is left without the log is the output of the program
(`Woven.unique`).
-/

namespace LS8

/-- The output of a program and lines of a log woven into one text: both keep their order, and a line of the log stands
between two lines of the output. -/
inductive Woven : List Char → List (List Char) → List Char → Prop
  | nil : Woven [] [] []
  | output {cs output text : List Char} {logged : List (List Char)} (hcs : '\n' ∉ cs) (h : Woven output logged text) :
      Woven (cs ++ '\n' :: output) logged (cs ++ '\n' :: text)
  | logged {l output text : List Char} {logged : List (List Char)} (h : Woven output logged text) :
      Woven output (l :: logged) (l ++ '\n' :: text)

/-- Everything that is put out is nothing or a line. -/
def Lined {ρ : Type} (events : List (Event ρ)) : Prop :=
  ∀ cs, .output cs ∈ events → cs = [] ∨ ∃ l, '\n' ∉ l ∧ cs = l ++ ['\n']

/-- The line does not look like a number: before a line feed in it stands a character that is no digit. -/
def Marked (l : List Char) : Prop := ∃ c ∈ l.takeWhile fun c => c ≠ '\n', c ∉ "0123456789".toList

/-- The lines of a log that is shown, where the entries are counted from `n` on. -/
def loggedLines (line : Nat → Entry → List Char) (v : Verbosity) (n : Nat) (es : List Entry) : List (List Char) :=
  ((es.zipIdx n).filter fun x => v.shows x.1.level).map fun x => line x.2 x.1

/-! ### Woven texts -/

theorem takeWhile_append_feed (l rest : List Char) :
    (l ++ '\n' :: rest).takeWhile (fun c => c ≠ '\n') = l.takeWhile fun c => c ≠ '\n' := by
  induction l with
  | nil => rfl
  | cons c l ih => simp only [List.cons_append, List.takeWhile_cons, ih]

/-- A marked line does not start as a line that is a number. -/
theorem Marked.ne {n : Nat} {cs l : List Char} (h : Marked l) (hcs : Numeral.IsDecimal n cs) (rest rest' : List Char) :
    cs ++ '\n' :: rest ≠ l ++ '\n' :: rest' := by
  obtain ⟨c, hc, hdigit⟩ := h
  intro heq
  have hfirst := congrArg (List.takeWhile fun c => c ≠ '\n') heq
  rw [takeWhile_append_feed, takeWhile_append_feed] at hfirst
  rw [← hfirst] at hc
  exact hdigit (hcs.isDigit c ((List.takeWhile_sublist _).subset hc))

/-- What is woven with given lines into a text can be told if it is a listing. -/
theorem Woven.unique {output output' text text' : List Char} {logged : List (List Char)} {vs vs' : List UInt8}
    (h : Woven output logged text) (h' : Woven output' logged text') (hmarked : ∀ l ∈ logged, Marked l)
    (heq : text = text') (hl : Machine.Listing vs output) (hl' : Machine.Listing vs' output') : output = output' := by
  induction h generalizing output' text' vs vs' with
  | nil =>
    cases h' with
    | nil => rfl
    | output => simp at heq
  | @output cs output text logged hcs h ih =>
    obtain ⟨⟨k, hdecimal⟩, ws, hrest⟩ := hl.of_line rfl hcs
    cases h' with
    | nil => simp at heq
    | @output cs' output' text' _ hcs' h' =>
      obtain ⟨-, ws', hrest'⟩ := hl'.of_line rfl hcs'
      obtain ⟨rfl, htext⟩ := Machine.append_feed_inj hcs hcs' heq
      rw [ih h' hmarked htext hrest hrest']
    | logged h' => exact absurd heq ((hmarked _ List.mem_cons_self).ne hdecimal _ _)
  | @logged l output text logged h ih =>
    cases h' with
    | @output cs' output' text' _ hcs' h' =>
      obtain ⟨⟨k, hdecimal⟩, -⟩ := hl'.of_line rfl hcs'
      exact absurd heq.symm ((hmarked _ List.mem_cons_self).ne hdecimal _ _)
    | logged h' =>
      have htext := (List.cons.inj (List.append_cancel_left heq)).2
      exact ih h' (fun l hl => hmarked l (List.mem_cons_of_mem _ hl)) htext hl hl'

/-! ### Runs put out lines -/

section Lined

variable {ρ ρ' : Type} {es es' : List (Event ρ)}

theorem Lined.append (h : Lined es) (h' : Lined es') : Lined (es ++ es') :=
  fun cs hmem => (List.mem_append.mp hmem).elim (h cs) (h' cs)

theorem Lined.map (h : Lined es) (f : ρ → ρ') : Lined (es.map (Event.map f)) := by
  intro cs hmem
  obtain ⟨e, he, heq⟩ := List.mem_map.mp hmem
  cases e with
  | output cs' =>
    cases heq
    exact h _ he
  | record r => cases heq

theorem lined_record (f : ρ → ρ') (rs : List ρ) : Lined (rs.map fun r => Event.record (f r)) := by
  intro cs hmem
  obtain ⟨r, -, heq⟩ := List.mem_map.mp hmem
  cases heq

end Lined

namespace Machine

theorem lined_output (e : Effect) : e.output = [] ∨ ∃ l, '\n' ∉ l ∧ e.output = l ++ ['\n'] := by
  cases e with
  | printed r v => exact .inr ⟨_, feed_not_mem_of_isDecimal (Numeral.isDecimal_decimal _), rfl⟩
  | _ => exact .inl rfl

theorem lined_step [Build] (m : Machine) : Lined (m.step Sink.unlimited).events := by
  rcases performs_or_silent m with ⟨i, a, b, e, m', hf, hc, hp⟩ | ⟨result, m', rs, h⟩
  · intro cs hmem
    rw [step_of_performs hf hc hp rfl] at hmem
    obtain rfl : cs = e.output := by simpa using hmem
    exact lined_output e
  · rw [h.step]
    exact lined_record id rs

/-- With a writer that refuses nothing a run puts out lines. -/
theorem lined_run [Build] (m : Machine) : Lined (m.run Sink.unlimited).events := by
  obtain ⟨starts, ht⟩ := exists_trail m Sink.unlimited
  generalize m.run Sink.unlimited = q at ht ⊢
  generalize hw : Sink.unlimited = w at ht
  induction ht with
  | halted => exact fun cs hmem => by simp at hmem
  | @failed m w _ hm hs | @overflowed m w hm hs =>
    subst hw
    exact lined_step m
  | @stepped m w starts q hm hs ht ih =>
    subst hw
    exact (lined_step m).append (ih (sink_step_unlimited m).symm)

end Machine

namespace CommandLine

/-! ### What is written -/

section

variable {ω σ : Type} {h : Host ω σ} {line : Nat → Entry → List Char} {es : List (Event Entry)}

theorem loggedLines_cons (v : Verbosity) (n : Nat) (e : Entry) (rest : List Entry) :
    loggedLines line v n (e :: rest) =
      if v.shows e.level then line n e :: loggedLines line v (n + 1) rest else loggedLines line v (n + 1) rest := by
  simp only [loggedLines, List.zipIdx_cons, List.filter_cons]
  split <;> rfl

/-- Whatever is logged, all of the output is written. -/
theorem woven_written {v : Verbosity}
    (hlog : ∀ n e, h.log v n e = if v.shows e.level then line n e ++ ['\n'] else []) (hes : Lined es) (n : Nat) :
    Woven (Event.printed es) (loggedLines line v n (Event.records es)) (h.written v n es) := by
  induction es generalizing n with
  | nil => exact .nil
  | cons event es ih =>
    have ih := ih fun cs hmem => hes cs (List.mem_cons_of_mem _ hmem)
    cases event with
    | output cs =>
      have hprinted : Event.printed (.output cs :: es) = cs ++ Event.printed es := rfl
      have hrecords : Event.records (.output cs :: es) = Event.records es := rfl
      rw [hprinted, hrecords, Host.written]
      rcases hes cs List.mem_cons_self with rfl | ⟨l, hl, rfl⟩
      · exact ih n
      · rw [List.append_assoc, List.append_assoc]
        exact .output hl (ih n)
    | record e =>
      have hprinted : Event.printed (.record e :: es) = Event.printed es := rfl
      have hrecords : Event.records (.record e :: es) = e :: Event.records es := rfl
      rw [hprinted, hrecords, Host.written, hlog, loggedLines_cons]
      by_cases hshow : v.shows e.level = true
      · rw [if_pos hshow, if_pos hshow, List.append_assoc]
        exact .logged (ih (n + 1))
      · rw [if_neg hshow, if_neg hshow]
        exact ih (n + 1)

end

end CommandLine

end LS8
