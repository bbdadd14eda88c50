import Transportation.Corner
/-!
# Failures

Everything an operation of this library can refuse, one constructor for each cause, and the wording
of each. A `Breach` is a call outside an operation's domain: a number that leaves its 64-bit range,
a position outside a table, or tables of different shapes. All other failures are about the data of
a problem or of settings.
-/
namespace Transportation

/-- A call outside the domain of an operation. -/
inductive Breach where
  | overflow
  | outOfRange
  | shapeMismatch
  deriving DecidableEq, Repr

namespace Breach

def message : Breach → String
  | .overflow => "a number leaves its 64-bit range"
  | .outOfRange => "a position lies outside its table"
  | .shapeMismatch => "allocation shape does not match problem"

end Breach

inductive SettingsDefect where
  | noWorkers
  | noRowsPerTask
  | noRacers
  | repeatedRacer (corner : Corner)
  | noRowsOrCols
  | maxCostTooSmall (maxCost : Int)
  | maxAmountTooSmall
  deriving DecidableEq, Repr

namespace SettingsDefect

def message : SettingsDefect → String
  | .noWorkers => "workers must be at least 1"
  | .noRowsPerTask => "min_rows_per_task must be at least 1"
  | .noRacers => "at least one corner must race"
  | .repeatedRacer corner => "corner " ++ corner.label ++ " listed twice"
  | .noRowsOrCols => "rows and cols must be at least 1"
  | .maxCostTooSmall maxCost => s!"max_cost must be at least 1, got {maxCost}"
  | .maxAmountTooSmall => "max_supply and max_demand must be at least 1"

end SettingsDefect

inductive Failure where
  | noParties
  /-- A row of costs, or the list of rows itself, has the wrong length. -/
  | rowWidth (row expected found : Nat)
  | negativeCost (row col : Nat) (cost : Int)
  | nonPositiveSupply (row : Nat) (amount : Int)
  | nonPositiveDemand (col : Nat) (amount : Int)
  | imbalanced (supply demand : Int)
  | tooLarge
  | invalidSettings (defect : SettingsDefect)
  | disconnectedBasis
  | cycleNotFound (row col : Nat)
  | breach (breach : Breach)
  /-- A breach inside work that is shared out to workers. -/
  | taskFailed
  deriving DecidableEq, Repr

namespace Failure

def message : Failure → String
  | .noParties => "problem must have at least one source and one sink"
  | .rowWidth row expected found => s!"cost row {row} has {found} columns, expected {expected}"
  | .negativeCost row col cost => s!"cost at ({row}, {col}) is negative: {cost}"
  | .nonPositiveSupply row amount => s!"supply of source {row} must be positive, got {amount}"
  | .nonPositiveDemand col amount => s!"demand of sink {col} must be positive, got {amount}"
  | .imbalanced supply demand => s!"total supply {supply} does not match total demand {demand}"
  | .tooLarge => "problem magnitudes overflow 64-bit arithmetic"
  | .invalidSettings defect => "invalid configuration: " ++ defect.message
  | .disconnectedBasis => "basis is not connected: potentials left undefined"
  | .cycleNotFound row col =>
    s!"no closed cycle through the basis for entering cell ({row}, {col})"
  | .breach b => b.message
  | .taskFailed => "a worker's task failed"

end Failure

/-- Work shared out to workers: a breach in any part fails the whole, and its details are lost. -/
def onWorkers : Except Failure α → Except Failure α
  | .error (.breach _) => .error .taskFailed
  | work => work

@[simp] theorem onWorkers_ok (a : α) : onWorkers (.ok a) = .ok a := rfl

theorem onWorkers_ne_breach (work : Except Failure α) (b : Breach) :
    onWorkers work ≠ .error (.breach b) := by
  intro h
  cases work with
  | ok a => cases h
  | error failure => cases failure <;> cases h

end Transportation
