import Transportation.Potentials
/-!
# Potentials by repeated scans

Each scan reads the basic cells row by row and gives a value to an end without one whenever the
other end has one. The scans are repeated as long as a scan finds a value.
-/
namespace Transportation

namespace PartialPotentials

/-- Carries a value across one basic cell, if exactly one of its ends has a value. -/
def across (p : Problem) (s : PartialPotentials) (cell : Grid.Shipment) :
    Except Failure PartialPotentials := do
  let cost ← p.cost cell.row cell.col
  match ← s.value (.source cell.row), ← s.value (.sink cell.col) with
  | some u, none => return s.assign (.sink cell.col) (← Amount.ofInt (cost - u))
  | none, some v => return s.assign (.source cell.row) (← Amount.ofInt (cost - v))
  | _, _ => return s

def scans (p : Problem) (cells : List Grid.Shipment) :
    Nat → PartialPotentials → Except Failure PartialPotentials
  | 0, s => .ok s
  | n + 1, s => do
    let next ← cells.foldlM (across p) s
    if next.unknowns < s.unknowns then scans p cells n next else return next

end PartialPotentials

namespace Potentials

/-- The potentials of a basis, found by scans. Every scan but the last finds a value, so one more
scan than there are nodes without a value is enough. -/
def scan (p : Problem) (g : Grid) : Except Failure Potentials := do
  let start := PartialPotentials.seed p
  let found ← PartialPotentials.scans p g.shipments (start.unknowns + 1) start
  found.complete

end Potentials

end Transportation
