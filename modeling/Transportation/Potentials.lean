import Transportation.Grid
/-!
# Potentials

Potentials give every source and sink a value such that the values of the two ends of each basic
cell add up to the cell's cost. The first source has the value zero, and the others follow along the
basic cells: `PartialPotentials` holds the values found so far. A basis determines all of them
exactly if it connects every source and sink.
-/
namespace Transportation

/-- A value for each source and each sink. -/
structure Potentials where
  u : List Int
  v : List Int
  deriving DecidableEq, Repr

namespace Potentials

/-- The cost of a cell less the values of its ends: what one more unit through it changes. -/
def opportunityCost (values : Potentials) (p : Problem) (row col : Nat) : Except Failure Int := do
  let cost ← p.cost row col
  let ends ← Amount.ofInt ((← entry values.u row) + (← entry values.v col))
  Amount.ofInt (cost - ends)

end Potentials

inductive Node where
  | source (row : Nat)
  | sink (col : Nat)
  deriving DecidableEq, Repr

namespace Grid

def Shipment.touches (s : Shipment) : Node → Bool
  | .source i => s.row == i
  | .sink j => s.col == j

def Shipment.opposite (s : Shipment) : Node → Node
  | .source _ => .sink s.col
  | .sink _ => .source s.row

def hasNode (g : Grid) : Node → Bool
  | .source i => decide (i < g.rows)
  | .sink j => decide (j < g.cols)

def incident (g : Grid) (node : Node) : Except Failure (List Shipment) :=
  if g.hasNode node then
    .ok (g.shipments.filter fun s => s.touches node)
  else
    .error (.breach .outOfRange)

end Grid

structure PartialPotentials where
  u : List (Option Int)
  v : List (Option Int)
  deriving DecidableEq, Repr

namespace PartialPotentials

/-- Only the first source has a value. -/
def seed (p : Problem) : PartialPotentials :=
  ⟨(List.replicate p.rows none).set 0 (some 0), List.replicate p.cols none⟩

def value (s : PartialPotentials) : Node → Except Failure (Option Int)
  | .source i => entry s.u i
  | .sink j => entry s.v j

def assign (s : PartialPotentials) (node : Node) (x : Int) : PartialPotentials :=
  match node with
  | .source i => { s with u := s.u.set i (some x) }
  | .sink j => { s with v := s.v.set j (some x) }

def unknowns (s : PartialPotentials) : Nat :=
  s.u.countP Option.isNone + s.v.countP Option.isNone

def complete (s : PartialPotentials) : Except Failure Potentials :=
  if s.unknowns = 0 then
    .ok ⟨s.u.filterMap id, s.v.filterMap id⟩
  else
    .error .disconnectedBasis

end PartialPotentials

end Transportation
