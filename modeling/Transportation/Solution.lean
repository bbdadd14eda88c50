import Transportation.Corner
/-!
# Solutions

The result of a solve: the shipping plan, its cost, and how the solve ended.
-/
namespace Transportation

inductive Ending where
  | optimal
  | cancelled
  | limitReached
  deriving DecidableEq, Repr

structure Solution where
  plan : List (List Int)
  totalCost : Int
  pivots : Nat
  status : Ending
  corner : Corner
  deriving DecidableEq, Repr

namespace Solution

def isOptimal (s : Solution) : Bool := s.status == .optimal

end Solution

end Transportation
