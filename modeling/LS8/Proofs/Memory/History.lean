import LS8.Proofs.Machine.View

/-!
Memory as its calls leave it.  All three of the calls that write are one: they put bytes at the cells from an address
on if the last of them is inside of memory, and otherwise they are refused and change nothing (`Write.on_eq`).  Hence
a cell reads as the last call that succeeded and covered it has left it, over a history of any length.  Main
statement: `last_write_wins`.
-/

namespace LS8.Memory

variable {size : Nat} {m m' : Memory size} {x : Nat}

/-- A call that writes. -/
inductive Write where
  | byte (address : Nat) (value : UInt8)
  | block (start : Nat) (bytes : List UInt8)
  | program (bytes : List UInt8)
deriving DecidableEq

namespace Write

variable {w : Write} {e : Error}

def start : Write → Nat
  | byte address _ => address
  | block start _ => start
  | program _ => 0

def bytes : Write → List UInt8
  | byte _ value => [value]
  | block _ bytes => bytes
  | program bytes => bytes

/-- The byte that a call has for an address; none where it does not cover it. -/
def byteAt (w : Write) (x : Nat) : Option UInt8 :=
  if w.start ≤ x then w.bytes[x - w.start]? else none

/-- The last byte of the call is inside of memory. -/
def Fits (w : Write) (size : Nat) : Prop := w.start + w.bytes.length ≤ size

instance (w : Write) (size : Nat) : Decidable (w.Fits size) := inferInstanceAs (Decidable (_ ≤ _))

/-- What memory says of a call that does not fit. -/
def refusal (size : Nat) : Write → Error
  | byte address _ => .outOfRange address size
  | block start bytes => .outOfRange (start + bytes.length - 1) size
  | program bytes => .programTooLarge bytes.length size

/-- Makes a call. -/
def on (m : Memory size) : Write → EStateM.Result Error (Memory size) Unit
  | byte address value => m.write address value
  | block start bytes => m.writeBlock start bytes
  | program bytes => m.load bytes

/-! ### One call -/

theorem fits_program {bytes : List UInt8} : (program bytes).Fits size ↔ bytes.length ≤ size := by
  rw [Fits, start, Write.bytes, Nat.zero_add]

theorem on_eq (m : Memory size) (w : Write) :
    w.on m = if w.Fits size then .ok () (m.overlay w.start w.bytes) else .error (w.refusal size) m := by
  cases w with
  | byte address value =>
    by_cases h : address < size
    · rw [if_pos (show (byte address value).Fits size from h), on, write_of_lt m h, start, bytes,
        overlay_singleton m h]
    · rw [if_neg (show ¬ (byte address value).Fits size from h), on, write_of_ge m (by omega), refusal]
  | block start bytes => rfl
  | program bytes =>
    by_cases h : bytes.length ≤ size
    · rw [if_pos (fits_program.mpr h)]
      exact load_eq_ok_iff.mpr ⟨h, rfl⟩
    · rw [if_neg (mt fits_program.mp h), on, load, if_neg h, refusal]

theorem on_eq_ok_iff : w.on m = .ok () m' ↔ w.Fits size ∧ m.overlay w.start w.bytes = m' := by
  rw [on_eq]
  by_cases h : w.Fits size
  · simp [h]
  · simp [h]

theorem exists_on_iff : (∃ m', w.on m = .ok () m') ↔ w.Fits size := by
  simp only [on_eq_ok_iff, exists_and_left, exists_eq', and_true]

theorem on_eq_error_iff : w.on m = .error e m' ↔ ¬ w.Fits size ∧ w.refusal size = e ∧ m = m' := by
  rw [on_eq]
  by_cases h : w.Fits size
  · simp [h]
  · simp [h]

theorem lt_of_byteAt {b : UInt8} (h : w.byteAt x = some b) : x < w.start + w.bytes.length := by
  unfold byteAt at h
  split at h
  · have := (List.getElem?_eq_some_iff.mp h).1
    omega
  · cases h

theorem cell_overlay_byteAt (hx : x < size) (w : Write) :
    (m.overlay w.start w.bytes).cell x = (w.byteAt x).getD (m.cell x) :=
  cell_overlay m w.start w.bytes hx

end Write

/-! ### Histories -/

/-- Memory after a call, whether it fails or not. -/
def next (m : Memory size) (w : Write) : Memory size := stateOf (w.on m)

/-- Memory after calls, made one after the other. -/
def after (m : Memory size) (ws : List Write) : Memory size := ws.foldl next m

/-- The bytes that the calls that succeed have for an address, the first call first. -/
def arrivals (x : Nat) : Memory size → List Write → List UInt8
  | _, [] => []
  | m, w :: ws =>
    match w.on m with
    | .ok _ m' => (w.byteAt x).toList ++ arrivals x m' ws
    | .error _ m' => arrivals x m' ws

theorem after_cons (m : Memory size) (w : Write) (ws : List Write) : m.after (w :: ws) = (m.next w).after ws := rfl

theorem next_of_fits {w : Write} (h : w.Fits size) (m : Memory size) : m.next w = m.overlay w.start w.bytes := by
  rw [next, Write.on_eq, if_pos h, stateOf]

theorem next_of_not_fits {w : Write} (h : ¬ w.Fits size) (m : Memory size) : m.next w = m := by
  rw [next, Write.on_eq, if_neg h, stateOf]

theorem arrivals_of_fits {w : Write} (h : w.Fits size) (x : Nat) (m : Memory size) (ws : List Write) :
    arrivals x m (w :: ws) = (w.byteAt x).toList ++ arrivals x (m.next w) ws := by
  rw [arrivals, next, Write.on_eq, if_pos h, stateOf]

theorem arrivals_of_not_fits {w : Write} (h : ¬ w.Fits size) (x : Nat) (m : Memory size) (ws : List Write) :
    arrivals x m (w :: ws) = arrivals x (m.next w) ws := by
  rw [arrivals, next, Write.on_eq, if_neg h, stateOf]

/-- A cell holds the last byte that has arrived, or else what it held before. -/
theorem cell_after (hx : x < size) (m : Memory size) (ws : List Write) :
    (m.after ws).cell x = (arrivals x m ws).getLast?.getD (m.cell x) := by
  -- from the first call on: the cell that the other calls start with is what this one leaves
  induction ws generalizing m with
  | nil => rfl
  | cons w ws ih =>
    rw [after_cons, ih]
    by_cases h : w.Fits size
    · rw [arrivals_of_fits h, List.getLast?_append, next_of_fits h, Write.cell_overlay_byteAt hx]
      cases (arrivals x (m.overlay w.start w.bytes) ws).getLast? with
      | some b => rfl
      | none => cases w.byteAt x with
        | some b => rfl
        | none => rfl
    · rw [arrivals_of_not_fits h, next_of_not_fits h]

theorem after_filter_fits (m : Memory size) (ws : List Write) :
    m.after (ws.filter fun w => w.Fits size) = m.after ws := by
  induction ws generalizing m with
  | nil => rfl
  | cons w ws ih =>
    by_cases h : w.Fits size
    · rw [List.filter_cons_of_pos (by simpa using h), after_cons, after_cons, ih]
    · rw [List.filter_cons_of_neg (by simpa using h), after_cons, next_of_not_fits h, ih]

/-- What the calls on a memory do: each does all of its work or none of it. -/
structure AllOrNothing (m : Memory size) : Prop where
  read_iff : ∀ x, (∃ b, m.read x = .ok b) ↔ x < size
  write_iff : ∀ x v, (∃ m', m.write x v = .ok () m') ↔ x < size
  writeBlock_iff : ∀ start bytes, (∃ m', m.writeBlock start bytes = .ok () m') ↔ start + bytes.length ≤ size
  load_iff : ∀ bytes, (∃ m', m.load bytes = .ok () m') ↔ bytes.length ≤ size
  done : ∀ w m', w.on m = .ok () m' → m.next w = m' ∧ w.start + w.bytes.length ≤ size ∧
    ∀ x b, w.byteAt x = some b → m'.read x = .ok b
  refused : ∀ w e m', w.on m = .error e m' → m.next w = m' ∧ m' = m ∧ e = w.refusal size
  /-- The address of the last byte of a block, where it is reported, is there and is none of the memory's. -/
  lastByte : ∀ start bytes e m', m.writeBlock start bytes = .error e m' →
    e = .outOfRange (start + bytes.length - 1) size ∧ 1 ≤ start + bytes.length ∧ size ≤ start + bytes.length - 1

theorem allOrNothing (m : Memory size) : AllOrNothing m where
  read_iff x := by
    rw [read_eq]
    by_cases h : x < size
    · simp [h]
    · simp [h]
  write_iff x v := Write.exists_on_iff (w := .byte x v)
  writeBlock_iff start bytes := Write.exists_on_iff (w := .block start bytes)
  load_iff bytes := (Write.exists_on_iff (w := .program bytes)).trans Write.fits_program
  done w m' h := by
    obtain ⟨hfits, rfl⟩ := Write.on_eq_ok_iff.mp h
    refine ⟨next_of_fits hfits m, hfits, ?_⟩
    intro x b hb
    have hx : x < size := Nat.lt_of_lt_of_le (Write.lt_of_byteAt hb) hfits
    rw [read_eq, if_pos hx, Write.cell_overlay_byteAt hx, hb, Option.getD_some]
  refused w e m' h := by
    obtain ⟨hfits, rfl, rfl⟩ := Write.on_eq_error_iff.mp h
    exact ⟨next_of_not_fits hfits m, rfl, rfl⟩
  lastByte start bytes e m' h := by
    obtain ⟨hfits, rfl, -⟩ := Write.on_eq_error_iff (w := .block start bytes).mp h
    simp only [Write.Fits, Write.start, Write.bytes] at hfits
    exact ⟨rfl, by omega, by omega⟩

/-- **The last write wins.**  After any calls on memory of any size, a cell reads as the last call that succeeded and
covered it has left it, and as zero if there is none; the calls that failed have left no trace. -/
theorem last_write_wins (size : Nat) (ws : List Write) :
    let m : Memory size := zero.after ws
    (∀ x, x < size → m.read x = .ok ((arrivals x (zero : Memory size) ws).getLast?.getD 0)) ∧
      m = zero.after (ws.filter fun w => w.Fits size) ∧ AllOrNothing m := by
  intro m
  refine ⟨?_, (after_filter_fits zero ws).symm, allOrNothing m⟩
  intro x hx
  rw [read_eq, if_pos hx, cell_after hx, cell_zero]

/-- A block over the end of a program stays, since the calls after it do not fit or write nothing. -/
theorem block_over_program :
    let calls : List Write := [.program [1, 2], .block 1 [8, 9], .block 3 [7, 7], .byte 4 5, .block 4 []]
    let m : Memory 4 := zero.after calls
    m.read 0 = .ok 1 ∧ m.read 1 = .ok 8 ∧ m.read 2 = .ok 9 ∧ m.read 3 = .ok 0 ∧
      m = zero.after [.program [1, 2], .block 1 [8, 9], .block 4 []] ∧ (∀ b, m.read 4 ≠ .ok b) := by
  intro calls m
  obtain ⟨hread, hfits, hcalls⟩ := last_write_wins 4 calls
  refine ⟨hread 0 (by decide), hread 1 (by decide), hread 2 (by decide), hread 3 (by decide), hfits, ?_⟩
  intro b hb
  have := (hcalls.read_iff 4).mp ⟨b, hb⟩
  omega

end LS8.Memory
