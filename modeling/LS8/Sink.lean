/-!
Where the output of a program goes: a writer may refuse a text, and may have taken a part of it when
it does. A sink is a writer with room for a limited number of characters only: it takes what fits,
and refuses a text that does not fit as a whole.
-/

namespace LS8

/-- What takes output. All output is ASCII, so a character is a byte. -/
class Writer (σ : Type) where
  /-- Whether a text is taken as a whole. -/
  fits : σ → List Char → Bool
  /-- The part of a text that is taken, also when the text is refused. -/
  accepted : σ → List Char → List Char
  /-- The writer after a text has been written to it. -/
  after : σ → List Char → σ
  /-- What the writer says when it refuses a text. -/
  refusal : σ → List Char → String
  /-- A writer that does not refuse a text has taken all of it. -/
  accepted_of_fits {s : σ} {chars : List Char} (h : fits s chars) : accepted s chars = chars
  /-- A writer is not asked to take nothing. -/
  fits_nil (s : σ) : fits s []
  after_nil (s : σ) : after s [] = s

attribute [simp] Writer.fits_nil Writer.after_nil

/-- A place for output. -/
inductive Sink where
  | unlimited
  /-- A place with room for some characters, which gives this reason for not taking more. -/
  | limited (room : Nat) (reason : String)
deriving DecidableEq

namespace Sink

/-- Whether a text fits as a whole. -/
def fits : Sink → List Char → Bool
  | unlimited, _ => true
  | limited room _, chars => chars.length ≤ room

/-- The part of a text that a sink takes, also when it refuses the text. -/
def accepted : Sink → List Char → List Char
  | unlimited, chars => chars
  | limited room _, chars => chars.take room

/-- The sink after a text has been written to it. -/
def after : Sink → List Char → Sink
  | unlimited, _ => unlimited
  | limited room reason, chars => limited (room - chars.length) reason

/-- What a sink says when it refuses a text. -/
def refusal : Sink → List Char → String
  | unlimited, _ => ""
  | limited _ reason, _ => reason

theorem accepted_of_fits {s : Sink} {chars : List Char} (h : s.fits chars) :
    s.accepted chars = chars := by
  cases s with
  | unlimited => rfl
  | limited room reason => exact List.take_of_length_le (by simpa [fits] using h)

theorem fits_nil (s : Sink) : s.fits [] := by
  cases s <;> simp [fits]

theorem after_nil (s : Sink) : s.after [] = s := by
  cases s <;> simp [after]

@[default_instance]
instance : Writer Sink where
  fits := fits
  accepted := accepted
  after := after
  refusal := refusal
  accepted_of_fits := accepted_of_fits
  fits_nil := fits_nil
  after_nil := after_nil

end Sink

end LS8
