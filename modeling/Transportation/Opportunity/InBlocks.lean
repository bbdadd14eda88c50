import Transportation.Opportunity
import Transportation.WorkSplit
/-!
# Evaluation by blocks

The evaluation with the table cut into blocks of whole rows, one task each. A task fills its block
and makes its own choice, and the choices of the blocks are compared afterwards. A block too large
to count is refused before any task begins.
-/
namespace Transportation

namespace Evaluation

def evaluateBlock (p : Problem) (g : Grid) (values : Potentials) (firstRow count : Nat) :
    Except Failure (Option Entering × List (Option Int)) := do
  let costs ← cellCosts p g values firstRow count
  return (Entering.choose p.cols firstRow costs, costs)

def evaluateInBlocks (split : WorkSplit) (p : Problem) (g : Grid) (values : Potentials)
    (table : OpportunityTable) : Except Failure (Evaluation × OpportunityTable) := do
  g.requireFit p
  let size ← split.cellsPerBlock p.rows p.cols
  let blocks := WorkSplit.blocks table.values.length size
  let results ← onWorkers <| blocks.mapM fun (start, count) =>
    evaluateBlock p g values (start / p.cols) count
  let entering := (results.map Prod.fst).foldl Entering.pick none
  return (⟨entering⟩, { table with values := (results.map Prod.snd).flatten })

end Evaluation

end Transportation
