import Transportation.Grid
/-!
# The first basis

The corner walk ships as much as it can through the cell where it stands, then moves to the next
source if the current one is used up and to the next sink otherwise. Every cell it visits is basic,
also one through which nothing is left to ship.
-/
namespace Transportation

/-- A source or a sink with the amount it still has or needs. -/
structure Party where
  index : Nat
  left : Int
  deriving DecidableEq, Repr

namespace Corner

def parties (order : List Nat) (amounts : List Int) : Except Failure (List Party) :=
  order.mapM fun k => do return ⟨k, ← entry amounts k⟩

/-- Ships from one source to the sinks in turn until the source is used up, and returns the grid
and the sinks that remain, the current one among them. -/
def shipFrom (row : Nat) (supply : Int) : List Party → Grid → Except Failure (Grid × List Party)
  | [], g => .ok (g, [])
  | sink :: sinks, g => do
    let amount := min supply sink.left
    let g ← g.set row sink.index (.basic amount)
    if supply - amount = 0 then
      return (g, { sink with left := sink.left - amount } :: sinks)
    else
      shipFrom row (supply - amount) sinks g

def shipAll : List Party → List Party → Grid → Except Failure Grid
  | [], _, g => .ok g
  | source :: sources, sinks, g => do
    let (g, sinks) ← shipFrom source.index source.left sinks g
    shipAll sources sinks g

def firstBasis (corner : Corner) (p : Problem) : Except Failure Grid := do
  let sources ← parties (corner.rowOrder p.rows) p.supply
  let sinks ← parties (corner.colOrder p.cols) p.demand
  shipAll sources sinks (.vacant p.rows p.cols)

end Corner

end Transportation
