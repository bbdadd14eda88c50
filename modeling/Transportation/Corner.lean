/-!
# Corners

The four corners of the transportation table. A corner fixes the order in which the walk that
builds the first basis visits the sources and the sinks.
-/
namespace Transportation

inductive Corner where
  | northWest
  | northEast
  | southWest
  | southEast
  deriving DecidableEq, Repr

namespace Corner

/-- All corners, in the order in which they race by default. -/
def all : List Corner :=
  [.northWest, .northEast, .southWest, .southEast]

/-- Walks from a southern corner visit the sources from the last to the first. -/
def fromSouth : Corner → Bool
  | .southWest | .southEast => true
  | _ => false

def fromEast : Corner → Bool
  | .northEast | .southEast => true
  | _ => false

def label : Corner → String
  | .northWest => "north-west"
  | .northEast => "north-east"
  | .southWest => "south-west"
  | .southEast => "south-east"

def rowOrder (corner : Corner) (rows : Nat) : List Nat :=
  if corner.fromSouth then (List.range rows).reverse else List.range rows

def colOrder (corner : Corner) (cols : Nat) : List Nat :=
  if corner.fromEast then (List.range cols).reverse else List.range cols

theorem length_rowOrder (corner : Corner) (rows : Nat) :
    (corner.rowOrder rows).length = rows := by
  unfold rowOrder
  split <;> simp

theorem length_colOrder (corner : Corner) (cols : Nat) :
    (corner.colOrder cols).length = cols := by
  unfold colOrder
  split <;> simp

end Corner

end Transportation
