import Transportation.Failure
/-!
# Bounded numbers and positions

Costs and amounts are integers of 64 bits with a sign, counts and positions are 64-bit numbers
without one. Operations compute exactly and then test the range: a result outside it is a breach,
or `none` where the caller names the failure itself. A position beyond the end of a list is out of
range however large it is.
-/
namespace Transportation

namespace Amount

def least : Int := -9223372036854775808

def greatest : Int := 9223372036854775807

def InRange (x : Int) : Prop := least ≤ x ∧ x ≤ greatest

instance (x : Int) : Decidable (InRange x) := inferInstanceAs (Decidable (_ ∧ _))

def ofInt? (x : Int) : Option Int :=
  if InRange x then some x else none

def ofInt (x : Int) : Except Failure Int :=
  if InRange x then .ok x else .error (.breach .overflow)

def orTooLarge (result : Option α) : Except Failure α :=
  match result with
  | some a => .ok a
  | none => .error .tooLarge

def total : List Int → Int
  | [] => 0
  | x :: xs => x + total xs

/-- The sum from left to right, if every partial sum is an amount. -/
def sum? (xs : List Int) : Option Int :=
  xs.foldlM (fun acc x => ofInt? (acc + x)) 0

def sum (xs : List Int) : Except Failure Int :=
  xs.foldlM (fun acc x => ofInt (acc + x)) 0

theorem ofInt?_eq_some_iff {x y : Int} : ofInt? x = some y ↔ InRange x ∧ x = y := by
  unfold ofInt?
  split <;> simp_all

theorem ofInt_eq_ok_iff {x y : Int} : ofInt x = .ok y ↔ InRange x ∧ x = y := by
  unfold ofInt
  split <;> simp_all

@[simp] theorem ofInt_of_inRange {x : Int} (h : InRange x) : ofInt x = .ok x := by
  simp [ofInt, h]

end Amount

namespace Count

def greatest : Nat := 18446744073709551615

def ofNat (n : Nat) : Except Failure Nat :=
  if n ≤ greatest then .ok n else .error (.breach .overflow)

def pred : Nat → Except Failure Nat
  | 0 => .error (.breach .overflow)
  | n + 1 => .ok n

/-- The count moved by `change`, held at the ends of its range. -/
def shift (n : Nat) (change : Int) : Nat :=
  min (n + change).toNat greatest

end Count

/-- A table whose entries take so many bytes each can be made: it has at most `2 ^ 63 - 1` bytes. -/
def FitsMemory (bytes entries : Nat) : Prop := entries * bytes ≤ 9223372036854775807

instance (bytes entries : Nat) : Decidable (FitsMemory bytes entries) :=
  inferInstanceAs (Decidable (_ ≤ _))

def ceilDiv (total size : Nat) : Nat := (total + size - 1) / size

def entry (xs : List α) (k : Nat) : Except Failure α :=
  match xs[k]? with
  | some x => .ok x
  | none => .error (.breach .outOfRange)

theorem entry_of_lt {xs : List α} {k : Nat} (h : k < xs.length) : entry xs k = .ok xs[k] := by
  simp [entry, h]

theorem entry_of_length_le {xs : List α} {k : Nat} (h : xs.length ≤ k) :
    entry xs k = .error (.breach .outOfRange) := by
  simp [entry, h]

theorem entry_eq_ok_iff {xs : List α} {k : Nat} {x : α} : entry xs k = .ok x ↔ xs[k]? = some x := by
  unfold entry
  split <;> simp_all

end Transportation
