import Transportation.Potentials
/-!
# Potentials by whole levels

The search of `Potentials.breadthFirst` with the nodes of a level visited independently of each
other, as workers would. All of them see the values from before the level. Their proposals are
stored together afterwards, in the order of the level, and the first proposal for a node counts.
-/
namespace Transportation

structure Valued where
  node : Node
  value : Int
  deriving DecidableEq, Repr

namespace PartialPotentials

/-- What one basic cell proposes for its far end, if that had no value before the level. -/
def proposal (p : Problem) (before : PartialPotentials) (start : Valued) (cell : Grid.Shipment) :
    Except Failure (Option Valued) := do
  let far := cell.opposite start.node
  match ← before.value far with
  | some _ => return none
  | none => return some ⟨far, ← Amount.ofInt ((← p.cost cell.row cell.col) - start.value)⟩

def proposals (p : Problem) (g : Grid) (before : PartialPotentials) (start : Valued) :
    Except Failure (List Valued) := do
  return (← (← g.incident start.node).mapM (proposal p before start)).filterMap id

def accept (state : PartialPotentials × List Valued) (proposed : Valued) :
    Except Failure (PartialPotentials × List Valued) := do
  let (s, next) := state
  match ← s.value proposed.node with
  | some _ => return (s, next)
  | none => return (s.assign proposed.node proposed.value, next ++ [proposed])

def spreadLevelwise (p : Problem) (g : Grid) :
    Nat → PartialPotentials → List Valued → Except Failure PartialPotentials
  | 0, s, _ => .ok s
  | _ + 1, s, [] => .ok s
  | n + 1, s, level => do
    let proposed ← level.mapM (proposals p g s)
    let (s, next) ← proposed.flatten.foldlM accept (s, [])
    spreadLevelwise p g n s next

end PartialPotentials

namespace Potentials

/-- The potentials of a basis, found by workers level by level. How the workers share a level has no
effect on the values, so no split is asked for. -/
def levelwise (p : Problem) (g : Grid) : Except Failure Potentials := do
  let start := PartialPotentials.seed p
  let found ← onWorkers
    (PartialPotentials.spreadLevelwise p g (start.unknowns + 2) start [⟨.source 0, 0⟩])
  found.complete

end Potentials

end Transportation
