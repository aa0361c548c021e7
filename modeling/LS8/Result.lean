/-!
What calls come to. A call returns a value or an error, or it gives up without returning; it is over then, and what it
has done until then stays done.
-/

namespace LS8

/-- What a call comes to. -/
inductive Result (ε α : Type) where
  | ok (value : α)
  | error (e : ε)
  /-- A sum was too large, and the call has not returned. -/
  | overflow
deriving DecidableEq

def Result.isOk {ε α : Type} : Result ε α → Bool
  | ok _ => true
  | _ => false

/-- The state that a call leaves, whether it fails or not. -/
def stateOf {ε σ α : Type} : EStateM.Result ε σ α → σ
  | .ok _ s => s
  | .error _ s => s

theorem mapError_eq_ok_iff {ε δ α : Type} {x : Except ε α} {f : ε → δ} {a : α} :
    x.mapError f = .ok a ↔ x = .ok a := by
  cases x with
  | ok b => exact ⟨fun h => by cases h; rfl, fun h => by cases h; rfl⟩
  | error e => exact ⟨nofun, nofun⟩

end LS8
