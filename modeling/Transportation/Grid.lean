import Transportation.Problem
/-!
# Grids

A grid records which cells of the table are basic and the amount shipped through each. A basic cell
may ship nothing; a cell outside the basis never ships. The number of basic cells is kept beside the
cells, so that a degenerate basis shows without a count.
-/
namespace Transportation

/-- A cell of a grid: outside the basis, or basic with an amount. -/
inductive Cell where
  | vacant
  | basic (amount : Int)
  deriving DecidableEq, Repr

namespace Cell

def isBasic : Cell → Bool
  | .vacant => false
  | .basic _ => true

def amount : Cell → Int
  | .vacant => 0
  | .basic x => x

def toOption : Cell → Option Int
  | .vacant => none
  | .basic x => some x

def ofOption : Option Int → Cell
  | none => .vacant
  | some x => .basic x

end Cell

structure Grid where
  rows : Nat
  cols : Nat
  cells : List Cell
  basicCount : Nat
  deriving DecidableEq, Repr

namespace Grid

def vacant (rows cols : Nat) : Grid :=
  ⟨rows, cols, List.replicate (rows * cols) .vacant, 0⟩

/-- Refuses a shape with too many cells. A cell takes sixteen bytes. -/
def requireRoom (rows cols : Nat) : Except Failure Unit :=
  if FitsMemory 16 (rows * cols) then .ok () else .error (.breach .overflow)

def ofShape (rows cols : Nat) : Except Failure Grid := do
  requireRoom rows cols
  return vacant rows cols

/-- The cell at a row and a column. Only its position in the row-by-row listing is tested. -/
def get (g : Grid) (row col : Nat) : Except Failure Cell :=
  entry g.cells (row * g.cols + col)

def isBasic (g : Grid) (row col : Nat) : Except Failure Bool := do
  return (← g.get row col).isBasic

def recount (count : Nat) (before after : Cell) : Except Failure Nat :=
  match before.isBasic, after.isBasic with
  | false, true => .ok (count + 1)
  | true, false => Count.pred count
  | _, _ => .ok count

def set (g : Grid) (row col : Nat) (cell : Cell) : Except Failure Grid := do
  let before ← g.get row col
  let basicCount ← recount g.basicCount before cell
  return { g with cells := g.cells.set (row * g.cols + col) cell, basicCount }

/-- The cells of a row; a breach if the row does not end inside the grid. -/
def row (g : Grid) (i : Nat) : Except Failure (List Cell) := do
  let next ← Count.ofNat (i + 1)
  if next * g.cols ≤ g.cells.length then
    return (g.cells.drop (i * g.cols)).take g.cols
  else
    throw (.breach .outOfRange)

def shippedFrom (g : Grid) (i : Nat) : Except Failure Int := do
  Amount.sum ((← g.row i).map Cell.amount)

def shippedTo (g : Grid) (j : Nat) : Except Failure Int :=
  (List.range g.rows).foldlM (fun acc i => do Amount.ofInt (acc + (← g.get i j).amount)) 0

structure Shipment where
  row : Nat
  col : Nat
  amount : Int
  deriving DecidableEq, Repr

def shipments (g : Grid) : List Shipment :=
  g.cells.zipIdx.filterMap fun (cell, k) =>
    cell.toOption.map fun x => ⟨k / g.cols, k % g.cols, x⟩

def toPlan (g : Grid) : Except Failure (List (List Int)) :=
  (List.range g.rows).mapM fun i => do return (← g.row i).map Cell.amount

def totalCost (g : Grid) (p : Problem) : Except Failure Int :=
  g.shipments.foldlM (fun acc s => do
    let cost ← Amount.ofInt (s.amount * (← p.cost s.row s.col))
    Amount.ofInt (acc + cost)) 0

/-- Whether a test holds for the `count` numbers from `k` on, in order up to the first failure. -/
def allFrom (test : Nat → Except Failure Bool) : Nat → Nat → Except Failure Bool
  | _, 0 => .ok true
  | k, count + 1 => do
    if ← test k then allFrom test (k + 1) count else return false

/-- Whether the grid ships what each source of `p` has and each sink needs. The comparison stops at
the first difference, sources before sinks. -/
def meets (g : Grid) (p : Problem) : Except Failure Bool := do
  let supplied (i : Nat) : Except Failure Bool := do
    return (← g.shippedFrom i) == (← entry p.supply i)
  let satisfied (j : Nat) : Except Failure Bool := do
    return (← g.shippedTo j) == (← entry p.demand j)
  if ← allFrom supplied 0 g.rows then allFrom satisfied 0 g.cols else return false

def Fits (g : Grid) (p : Problem) : Prop := g.rows = p.rows ∧ g.cols = p.cols

instance (g : Grid) (p : Problem) : Decidable (g.Fits p) := inferInstanceAs (Decidable (_ ∧ _))

def requireFit (g : Grid) (p : Problem) : Except Failure Unit :=
  if g.Fits p then .ok () else .error (.breach .shapeMismatch)

theorem requireFit_eq_ok_iff {g : Grid} {p : Problem} : g.requireFit p = .ok () ↔ g.Fits p := by
  unfold requireFit
  split <;> simp_all

@[simp] theorem length_cells_vacant (rows cols : Nat) :
    (vacant rows cols).cells.length = rows * cols := by
  simp [vacant]

end Grid

end Transportation
