import Transportation.Chain
/-!
# Pivots

A pivot moves the amount `theta` around a chain: plus cells gain it and minus cells lose it. A minus
cell that is emptied leaves the basis. If too many leave, the basis is repaired: of the vacant cells
of the chain the costliest stay in the basis with nothing to ship.
-/
namespace Transportation

/-- The outcome of a pivot: the amount moved, the cells that left the basis, and the cells that the
repair kept in it. -/
structure PivotResult where
  theta : Int
  leaving : List (Nat × Nat)
  promoted : List (Nat × Nat)
  deriving DecidableEq, Repr

namespace Cell

def moved (cell : Cell) (sign : Sign) (theta : Int) : Except Failure Cell := do
  match sign with
  | .plus => return .basic (← Amount.ofInt (cell.amount + theta))
  | .minus =>
    let rest ← Amount.ofInt (cell.amount - theta)
    return if rest = 0 then .vacant else .basic rest

end Cell

namespace Pivot

/-- Inserts a link into a list that falls in cost, before the links that cost the same. -/
def insertByCost (l : Link) : List Link → List Link
  | [] => [l]
  | m :: rest => if l.cost < m.cost then m :: insertByCost l rest else l :: m :: rest

def byFallingCost (links : List Link) : List Link :=
  links.foldr insertByCost []

theorem length_insertByCost (l : Link) (links : List Link) :
    (insertByCost l links).length = links.length + 1 := by
  induction links with
  | nil => rfl
  | cons m rest ih =>
    unfold insertByCost
    split <;> simp [ih]

@[simp] theorem length_byFallingCost (links : List Link) :
    (byFallingCost links).length = links.length := by
  induction links with
  | nil => rfl
  | cons l rest ih =>
    rw [byFallingCost, List.foldr_cons, length_insertByCost]
    exact congrArg (· + 1) ih

/-- Keeps vacant cells of the chain in the basis until it has its full size, the costliest first,
and returns the places of these cells. -/
def repair (p : Problem) (g : Grid) (chain : Chain) :
    Except Failure (Grid × List (Nat × Nat)) := do
  let missing := p.basisSize - g.basicCount
  if missing = 0 then
    return (g, [])
  else
    let candidates ← chain.links.filterM fun l => do return !(← g.isBasic l.row l.col)
    let promoted := ((byFallingCost candidates).take missing).map Link.place
    let g ← promoted.foldlM (fun (g : Grid) (row, col) => g.set row col (.basic 0)) g
    return (g, promoted)

def shiftLink (theta : Int) (state : Grid × List (Nat × Nat)) (l : Link) :
    Except Failure (Grid × List (Nat × Nat)) := do
  let (g, leaving) := state
  let before ← g.get l.row l.col
  let after ← before.moved l.sign theta
  let g ← g.set l.row l.col after
  return (g, if before.isBasic && !after.isBasic then leaving ++ [l.place] else leaving)

def settle (p : Problem) (chain : Chain) (g : Grid) (leaving : List (Nat × Nat)) :
    Except Failure (Grid × PivotResult) := do
  let (g, promoted) ← repair p g chain
  return (g, ⟨chain.theta, leaving.filter fun place => !promoted.contains place, promoted⟩)

def apply (p : Problem) (g : Grid) (chain : Chain) : Except Failure (Grid × PivotResult) := do
  g.requireFit p
  let (g, leaving) ← chain.links.foldlM (shiftLink chain.theta) (g, [])
  settle p chain g leaving

end Pivot

end Transportation
