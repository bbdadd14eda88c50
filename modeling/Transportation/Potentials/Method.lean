import Transportation.Potentials.Scan
import Transportation.Potentials.BreadthFirst
/-!
# Potentials by a chosen method
-/
namespace Transportation

inductive PotentialMethod where
  | scan
  | breadthFirst
  deriving DecidableEq, Repr

namespace Potentials

def compute (method : PotentialMethod) (p : Problem) (g : Grid) : Except Failure Potentials :=
  match method with
  | .scan => scan p g
  | .breadthFirst => breadthFirst p g

end Potentials

end Transportation
