import Transportation.Potentials.Method
import Transportation.WorkSplit
/-!
# Solver settings
-/
namespace Transportation

/-- How a problem is solved: from which corner, with which potentials, in how many pivots at most
(without a limit if zero), and with which split of the work, if any. -/
structure SolverSettings where
  corner : Corner := .northWest
  potentials : PotentialMethod := .breadthFirst
  maxPivots : Nat := 0
  split : Option WorkSplit := none
  deriving DecidableEq, Repr

namespace SolverSettings

def defect? (settings : SolverSettings) : Option SettingsDefect :=
  settings.split.bind WorkSplit.defect?

end SolverSettings

end Transportation
