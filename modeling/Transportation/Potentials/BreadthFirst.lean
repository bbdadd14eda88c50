import Transportation.Potentials
/-!
# Potentials breadth first

The search spreads from the first source over the basic cells, level by level. A node gets its value
from the first node of the level before that reaches it, and at once: later nodes of that level find
it taken.
-/
namespace Transportation

namespace PartialPotentials

/-- Gives the far end of a basic cell its value, if it has none, and adds it to the next level. -/
def reach (p : Problem) (node : Node) (x : Int) (state : PartialPotentials × List Node)
    (cell : Grid.Shipment) : Except Failure (PartialPotentials × List Node) := do
  let (s, next) := state
  let far := cell.opposite node
  match ← s.value far with
  | some _ => return (s, next)
  | none =>
    let y ← Amount.ofInt ((← p.cost cell.row cell.col) - x)
    return (s.assign far y, next ++ [far])

def visit (p : Problem) (g : Grid) (state : PartialPotentials × List Node) (node : Node) :
    Except Failure (PartialPotentials × List Node) := do
  match ← state.1.value node with
  | none => return state
  | some x => (← g.incident node).foldlM (reach p node x) state

/-- Visits level after level until a level is empty; the supply of levels bounds their number. -/
def spread (p : Problem) (g : Grid) :
    Nat → PartialPotentials → List Node → Except Failure PartialPotentials
  | 0, s, _ => .ok s
  | _ + 1, s, [] => .ok s
  | n + 1, s, level => do
    let (s, next) ← level.foldlM (visit p g) (s, [])
    spread p g n s next

end PartialPotentials

namespace Potentials

/-- The potentials of a basis, found breadth first. Every level but the last has a node that had no
value before, so two more levels than there are such nodes are enough. -/
def breadthFirst (p : Problem) (g : Grid) : Except Failure Potentials := do
  let start := PartialPotentials.seed p
  let found ← PartialPotentials.spread p g (start.unknowns + 2) start [.source 0]
  found.complete

end Potentials

end Transportation
