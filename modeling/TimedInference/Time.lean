import TimedInference.Term.Basic

/-!
# Timestamps

Timestamps are integers of 64 bits. Arithmetic on them is carried out on unbounded integers and the
result is kept only when it fits.
-/

namespace TimedInference

namespace Time

/-- The least timestamp. -/
def least : Int := -9223372036854775808

/-- The greatest timestamp. -/
def greatest : Int := 9223372036854775807

/-- An integer is a timestamp when it fits in 64 bits. -/
def Fits (n : Int) : Prop := least ≤ n ∧ n ≤ greatest

instance (n : Int) : Decidable (Fits n) := inferInstanceAs (Decidable (_ ∧ _))

/-- The integer, when it fits. -/
def fit? (n : Int) : Option Int := if Fits n then some n else none

@[simp] theorem fit?_eq_some_iff {m n : Int} : fit? m = some n ↔ Fits m ∧ m = n := by
  simp [fit?]

/-- A timestamp could not be moved by a shift. -/
structure Overflow where
  time : Int
  shift : Int
  deriving DecidableEq

/-- The message of an overflow. -/
def Overflow.message (o : Overflow) : String :=
  "timestamp " ++ toString o.time ++ " shifted by " ++ toString o.shift ++ " is out of range"

/-- The timestamp moved by a shift. -/
def move (time shift : Int) : Except Overflow Int :=
  if Fits (time + shift) then .ok (time + shift) else .error ⟨time, shift⟩

/-- The shift that takes a base to a timestamp. An overflow names the shift back to zero, which is
itself cut off at the greatest timestamp. -/
def shiftFrom (base time : Int) : Except Overflow Int :=
  if Fits (time - base) then .ok (time - base) else .error ⟨time, min (-base) greatest⟩

@[simp] theorem move_eq_ok_iff {time shift moved : Int} :
    move time shift = .ok moved ↔ Fits (time + shift) ∧ time + shift = moved := by
  unfold move
  split <;> simp_all

@[simp] theorem shiftFrom_eq_ok_iff {base time shift : Int} :
    shiftFrom base time = .ok shift ↔ Fits (time - base) ∧ time - base = shift := by
  unfold shiftFrom
  split <;> simp_all

end Time

/-- The term with its integer argument at a position moved; unchanged without an integer there. -/
def Term.moveArg (t : Term) (position : Nat) (shift : Int) : Except Time.Overflow Term :=
  match t.intArg? position with
  | some time => (Time.move time shift).map fun moved => t.withArg position (.int moved)
  | none => .ok t

theorem Term.moveArg_of_intArg? {t : Term} {i : Nat} {time shift : Int}
    (h : t.intArg? i = some time) (fits : Time.Fits (time + shift)) :
    t.moveArg i shift = .ok (t.withArg i (.int (time + shift))) := by
  simp [moveArg, h, Time.move, fits, Except.map]

theorem Term.moveArg_of_intArg?_eq_none {t : Term} {i : Nat} (h : t.intArg? i = none)
    (shift : Int) : t.moveArg i shift = .ok t := by
  simp [moveArg, h]

end TimedInference
