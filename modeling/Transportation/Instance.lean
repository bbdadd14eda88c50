import Transportation.Problem
import Transportation.Random.Draw
/-!
# Random instances

A random instance draws all costs, supplies and demands, and then balances them one unit at a time:
the side that has more loses a unit at a random entry above one, and if it has no such entry the
other side gains one.
-/
namespace Transportation

/-- The shape of a random instance and the largest numbers in it. -/
structure InstanceSettings where
  rows : Nat := 10
  cols : Nat := 10
  maxCost : Int := 10
  maxSupply : Int := 100
  maxDemand : Int := 100
  seed : Option Nat := none
  deriving DecidableEq, Repr

namespace InstanceSettings

def defect? (settings : InstanceSettings) : Option SettingsDefect :=
  if settings.rows = 0 ∨ settings.cols = 0 then
    some .noRowsOrCols
  else if settings.maxCost < 1 then
    some (.maxCostTooSmall settings.maxCost)
  else if settings.maxSupply < 1 ∨ settings.maxDemand < 1 then
    some .maxAmountTooSmall
  else
    none

theorem defect?_eq_none_iff {settings : InstanceSettings} : settings.defect? = none ↔
    (0 < settings.rows ∧ 0 < settings.cols) ∧ 1 ≤ settings.maxCost ∧
      1 ≤ settings.maxSupply ∧ 1 ≤ settings.maxDemand := by
  rw [defect?]
  repeat' split
  all_goals
    simp only [reduceCtorEq, false_iff, true_iff]
    omega

end InstanceSettings

namespace Instance

variable {σ : Type}

def drawUpTo (source : DrawSource σ) (greatest : Int) (state : σ) : Int × σ :=
  let (n, state) := source.below .double greatest.toNat state
  (1 + n, state)

def drawList (source : DrawSource σ) (greatest : Int) : Nat → σ → List Int × σ
  | 0, state => ([], state)
  | n + 1, state =>
    let (x, state) := drawUpTo source greatest state
    let (xs, state) := drawList source greatest n state
    (x :: xs, state)

def drawTable (source : DrawSource σ) (greatest : Int) (cols : Nat) : Nat → σ → List (List Int) × σ
  | 0, state => ([], state)
  | n + 1, state =>
    let (row, state) := drawList source greatest cols state
    let (table, state) := drawTable source greatest cols n state
    (row :: table, state)

/-- Draws positions until the entry there is above one; none if `attempts` draws find none. -/
def drawAboveOne (source : DrawSource σ) (xs : List Int) : Nat → σ → Option (Nat × σ)
  | 0, _ => none
  | attempts + 1, state =>
    let (k, state) := source.below .single xs.length state
    if 1 < xs.getD k 0 then some (k, state) else drawAboveOne source xs attempts state

def bump (xs : List Int) (k : Nat) (change : Int) : Except Failure (List Int) := do
  return xs.set k (← Amount.ofInt ((← entry xs k) + change))

structure Sides (σ : Type) where
  larger : List Int
  smaller : List Int
  state : σ

def approach (source : DrawSource σ) (attempts : Nat) (s : Sides σ) :
    Except Failure (Option (Sides σ)) :=
  if s.larger.any fun x => decide (1 < x) then
    match drawAboveOne source s.larger attempts s.state with
    | none => .ok none
    | some (k, state) => do
      return some { s with larger := ← bump s.larger k (-1), state }
  else do
    let (k, state) := source.below .single s.smaller.length s.state
    return some { s with smaller := ← bump s.smaller k 1, state }

def balance (source : DrawSource σ) (attempts : Nat) :
    Nat → Sides σ → Except Failure (Option (Sides σ))
  | 0, s => .ok (some s)
  | n + 1, s => do
    match ← approach source attempts s with
    | some s => balance source attempts n s
    | none => return none

def excess (supply demand : List Int) : Except Failure Int :=
  Amount.orTooLarge do
    let s ← Amount.sum? supply
    let d ← Amount.sum? demand
    Amount.ofInt? (s - d)

/-- A random instance; none if the balancing does not find an entry to shrink in the given number
of attempts. -/
def generate (source : DrawSource σ) (attempts : Nat) (settings : InstanceSettings) (state : σ) :
    Except Failure (Option Problem) := do
  match settings.defect? with
  | some defect => throw (.invalidSettings defect)
  | none =>
    let (costs, state) := drawTable source settings.maxCost settings.cols settings.rows state
    let (supply, state) := drawList source settings.maxSupply settings.rows state
    let (demand, state) := drawList source settings.maxDemand settings.cols state
    let x ← excess supply demand
    if 0 < x then
      match ← balance source attempts x.natAbs ⟨supply, demand, state⟩ with
      | some s => return some (← Problem.ofTable costs s.larger s.smaller)
      | none => return none
    else
      match ← balance source attempts x.natAbs ⟨demand, supply, state⟩ with
      | some s => return some (← Problem.ofTable costs s.smaller s.larger)
      | none => return none

/-- Settings without a seed take a fresh one. -/
def stream (settings : InstanceSettings) (fresh : UInt64) : KeyStream :=
  .ofSeed ((settings.seed.map UInt64.ofNat).getD fresh)

def ofSettings (attempts : Nat) (settings : InstanceSettings) (fresh : UInt64 := 0) :
    Except Failure (Option Problem) :=
  generate KeyStream.source attempts settings (stream settings fresh)

end Instance

end Transportation
