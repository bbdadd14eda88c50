import Transportation.Pivot
import Transportation.WorkSplit
/-!
# Pivots by rows

The pivot with the rows of the grid cut into blocks, one task each. A task changes the cells of the
chain in its own rows and reports how the number of basic cells changes; the reports are added up
afterwards. Cells that leave are listed by row, and within a row in the order of the chain.
-/
namespace Transportation

namespace Pivot

/-- The changes due in one row: columns and signs in the order of the chain. -/
structure RowUpdate where
  row : Nat
  changes : List (Nat × Sign)
  deriving DecidableEq, Repr

def rowUpdates (rows : Nat) (chain : Chain) : Except Failure (List RowUpdate) :=
  if chain.links.all fun l => decide (l.row < rows) then
    .ok ((List.range rows).map fun i =>
      ⟨i, (chain.links.filter fun l => l.row == i).map fun l => (l.col, l.sign)⟩)
  else
    .error (.breach .outOfRange)

def basicChange (before after : Cell) : Int :=
  match before.isBasic, after.isBasic with
  | false, true => 1
  | true, false => -1
  | _, _ => 0

/-- The work done so far on some rows: their cells, the change in the number of basic cells, and the
places of the cells that left. -/
structure Report where
  cells : List Cell
  change : Int
  leaving : List (Nat × Nat)
  deriving DecidableEq, Repr

namespace Report

def none : Report := ⟨[], 0, []⟩

def append (a b : Report) : Report :=
  ⟨a.cells ++ b.cells, a.change + b.change, a.leaving ++ b.leaving⟩

end Report

def shiftInRow (theta : Int) (row : Nat) (r : Report) (change : Nat × Sign) :
    Except Failure Report := do
  let (col, sign) := change
  let before ← entry r.cells col
  let after ← before.moved sign theta
  let left := before.isBasic && !after.isBasic
  return ⟨r.cells.set col after, r.change + basicChange before after,
    if left then r.leaving ++ [(row, col)] else r.leaving⟩

def shiftRow (theta : Int) (g : Grid) (update : RowUpdate) : Except Failure Report := do
  let cells ← g.row update.row
  update.changes.foldlM (shiftInRow theta update.row) ⟨cells, 0, []⟩

def shiftBlock (theta : Int) (g : Grid) (updates : List RowUpdate) : Except Failure Report := do
  return (← updates.mapM (shiftRow theta g)).foldl Report.append .none

/-- Moves `theta` around the chain, block by block, and repairs the basis. A chain that leaves the
rows of the problem is refused before any task begins; all else that goes wrong fails the tasks. -/
def applyInBlocks (split : WorkSplit) (p : Problem) (g : Grid) (chain : Chain) :
    Except Failure (Grid × PivotResult) := do
  g.requireFit p
  let updates ← rowUpdates p.rows chain
  let reports ← onWorkers do
    let _ ← split.cellsPerBlock p.rows p.cols
    (WorkSplit.blocks p.rows (split.rowsPerBlock p.rows)).mapM fun (start, count) =>
      shiftBlock chain.theta g ((updates.drop start).take count)
  let total := reports.foldl Report.append .none
  let moved := { g with
    cells := total.cells
    basicCount := Count.shift g.basicCount total.change }
  settle p chain moved total.leaving

end Pivot

end Transportation
