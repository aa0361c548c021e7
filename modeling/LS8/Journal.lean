/-!
The journal of a run: entries with a level, the part of the machine they come from and a text. How
much of it is shown is a matter of the reader, who picks the least severe level of interest.
-/

namespace LS8

/-- Levels of journal entries, the most severe first. -/
inductive Level where
  | error
  | warn
  | info
  | debug
  | trace
deriving DecidableEq

namespace Level

/-- The place of a level, counted from the most severe. -/
def rank : Level → Nat
  | error => 1
  | warn => 2
  | info => 3
  | debug => 4
  | trace => 5

end Level

/-- How much of a journal is shown. -/
inductive Verbosity where
  | silent
  | upTo (level : Level)
deriving DecidableEq

/-- Whether entries of a level are shown. -/
def Verbosity.shows : Verbosity → Level → Bool
  | silent, _ => false
  | upTo least, level => level.rank ≤ least.rank

/-- The parts that write to the journal. -/
inductive Part where
  | session
  | reader
  | machine
  | arithmetic
deriving DecidableEq

structure Entry where
  level : Level
  part : Part
  text : String
deriving DecidableEq

/-- A value together with the records made on the way to it, the oldest first. -/
structure Logged (ρ α : Type) where
  value : α
  records : List ρ

/-- What a run puts out: characters for the user, and records for the journal. -/
inductive Event (ρ : Type) where
  | output (chars : List Char)
  | record (r : ρ)

def Event.printed {ρ : Type} (events : List (Event ρ)) : List Char :=
  events.flatMap fun
    | .output chars => chars
    | .record _ => []

def Event.records {ρ : Type} (events : List (Event ρ)) : List ρ :=
  events.filterMap fun
    | .output _ => none
    | .record r => some r

def Event.map {ρ σ : Type} (f : ρ → σ) : Event ρ → Event σ
  | .output chars => .output chars
  | .record r => .record (f r)

theorem Event.printed_append {ρ : Type} (es es' : List (Event ρ)) :
    Event.printed (es ++ es') = Event.printed es ++ Event.printed es' := by
  simp [Event.printed]

theorem Event.records_append {ρ : Type} (es es' : List (Event ρ)) :
    Event.records (es ++ es') = Event.records es ++ Event.records es' := by
  simp [Event.records]

theorem Event.printed_map {ρ ρ' : Type} (f : ρ → ρ') (es : List (Event ρ)) :
    Event.printed (es.map (Event.map f)) = Event.printed es := by
  rw [Event.printed, Event.printed, List.flatMap_map]
  congr 1
  funext e
  cases e <;> rfl

theorem Event.records_map {ρ ρ' : Type} (f : ρ → ρ') (es : List (Event ρ)) :
    Event.records (es.map (Event.map f)) = (Event.records es).map f := by
  rw [Event.records, Event.records, List.filterMap_map, List.map_filterMap]
  congr 1
  funext e
  cases e <;> rfl

/-! ### Events that are records -/

theorem Event.printed_record {ρ ρ' : Type} (f : ρ → ρ') (rs : List ρ) :
    Event.printed (rs.map fun r => .record (f r)) = [] := by
  simp [Event.printed]

theorem Event.records_record {ρ ρ' : Type} (f : ρ → ρ') (rs : List ρ) :
    Event.records (rs.map fun r => .record (f r)) = rs.map f := by
  rw [Event.records, List.filterMap_map]
  exact congrFun List.filterMap_eq_map rs

end LS8
