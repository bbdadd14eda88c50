import Transportation.Solver
import Transportation.Document.Grid
/-!
# The workbench

On the workbench the parts of a solve lie side by side: a problem, a grid, potentials, opportunity
costs and a chain. Each command works on some of them, whichever solves they come from, and replaces
the parts it computes. A command that is refused leaves the workbench as it was.
-/
namespace Transportation

structure Workbench where
  problem : Option Problem := none
  grid : Option Grid := none
  potentials : Option Potentials := none
  deltas : Option OpportunityTable := none
  chain : Chain := .empty
  deriving DecidableEq, Repr

namespace Workbench

inductive Command where
  | problem (costs : List (List Int)) (supply demand : List Int)
  | firstBasis (corner : Corner)
  | vacantGrid (rows cols : Nat)
  | load (stored : Document)
  | set (row col : Nat) (cell : Cell)
  | get (row col : Nat)
  | shippedFrom (row : Nat)
  | shippedTo (col : Nat)
  | shipments
  | plan
  | samePlan (other : List (List Int))
  | totalCost
  | meets
  | planCost
  | potentials (method : PotentialMethod) (split : Option WorkSplit)
  | opportunityCost (row col : Nat)
  | blankDeltas (rows cols : Nat)
  | delta (row col : Nat)
  | evaluate (split : Option WorkSplit)
  | cycle (row col : Nat)
  | chain
  | clearChain
  | pivot (split : Option WorkSplit)
  | repair

inductive Reply where
  | problem (p : Problem)
  | grid (g : Grid)
  | cell (cell : Cell)
  | sum (x : Int)
  | shipments (cells : List Grid.Shipment)
  | plan (rows : List (List Int))
  | same (answer : Bool)
  | cost (x : Int)
  | meets (answer : Bool)
  | potentials (values : Potentials)
  | opportunityCost (x : Int)
  | shape (rows cols : Nat)
  | delta (x : Option Int)
  | evaluation (evaluation : Evaluation) (deltas : OpportunityTable)
  | chain (chain : Chain)
  | pivot (outcome : PivotResult) (g : Grid)
  | repaired (promoted : List (Nat × Nat)) (g : Grid)
  deriving DecidableEq, Repr

/-- Why a command is refused: a part it needs is missing, a stored grid cannot be read, or the work
itself fails. -/
inductive Refusal where
  | missingPart
  | unreadable (error : Grid.ReadError)
  | failed (failure : Failure)
  deriving DecidableEq, Repr

def need (part : Option α) : Except Refusal α :=
  match part with
  | some a => .ok a
  | none => .error .missingPart

def attempt (result : Except Failure α) : Except Refusal α := result.mapError .failed

def withGrid (w : Workbench) (g : Grid) : Workbench × Reply := ({ w with grid := some g }, .grid g)

def withChain (w : Workbench) (c : Chain) : Workbench × Reply := ({ w with chain := c }, .chain c)

def evaluate (w : Workbench) (p : Problem) (g : Grid) (values : Potentials)
    (split : Option WorkSplit) : Except Failure (Workbench × Reply) := do
  let table := w.deltas.getD (.blank p.rows p.cols)
  let (evaluation, table) ← match split with
    | some split => Evaluation.evaluateInBlocks split p g values table
    | none => Evaluation.evaluate p g values table
  return ({ w with deltas := some table }, .evaluation evaluation table)

def pivot (w : Workbench) (p : Problem) (g : Grid) (split : Option WorkSplit) :
    Except Failure (Workbench × Reply) := do
  let (g, outcome) ← match split with
    | some split => Pivot.applyInBlocks split p g w.chain
    | none => Pivot.apply p g w.chain
  return ({ w with grid := some g }, .pivot outcome g)

def run (w : Workbench) (command : Command) : Except Refusal (Workbench × Reply) := do
  match command with
  | .problem costs supply demand =>
    let p ← attempt (Problem.ofTable costs supply demand)
    return ({ w with problem := some p }, .problem p)
  | .firstBasis corner =>
    let p ← need w.problem
    return w.withGrid (← attempt (corner.firstBasis p))
  | .vacantGrid rows cols => return w.withGrid (← attempt (Grid.ofShape rows cols))
  | .load stored => return w.withGrid (← (Grid.ofDocument stored).mapError .unreadable)
  | .set row col cell =>
    let g ← need w.grid
    return w.withGrid (← attempt (g.set row col cell))
  | .get row col =>
    let g ← need w.grid
    return (w, .cell (← attempt (g.get row col)))
  | .shippedFrom row =>
    let g ← need w.grid
    return (w, .sum (← attempt (g.shippedFrom row)))
  | .shippedTo col =>
    let g ← need w.grid
    return (w, .sum (← attempt (g.shippedTo col)))
  | .shipments =>
    let g ← need w.grid
    return (w, .shipments g.shipments)
  | .plan =>
    let g ← need w.grid
    return (w, .plan (← attempt g.toPlan))
  | .samePlan other =>
    let g ← need w.grid
    return (w, .same (Transportation.samePlan (← attempt g.toPlan) other))
  | .totalCost =>
    let g ← need w.grid
    let p ← need w.problem
    return (w, .cost (← attempt (g.totalCost p)))
  | .meets =>
    let g ← need w.grid
    let p ← need w.problem
    return (w, .meets (← attempt (g.meets p)))
  | .planCost =>
    let g ← need w.grid
    let p ← need w.problem
    return (w, .cost (← attempt (p.planCost (← attempt g.toPlan))))
  | .potentials method split =>
    let g ← need w.grid
    let p ← need w.problem
    let values ← attempt <|
      if split.isSome then Potentials.levelwise p g else Potentials.compute method p g
    return ({ w with potentials := some values }, .potentials values)
  | .opportunityCost row col =>
    let p ← need w.problem
    let values ← need w.potentials
    return (w, .opportunityCost (← attempt (values.opportunityCost p row col)))
  | .blankDeltas rows cols =>
    let table ← attempt (OpportunityTable.ofShape rows cols)
    return ({ w with deltas := some table }, .shape rows cols)
  | .delta row col =>
    let table ← need w.deltas
    return (w, .delta (← attempt (table.get row col)))
  | .evaluate split =>
    let g ← need w.grid
    let p ← need w.problem
    let values ← need w.potentials
    attempt (w.evaluate p g values split)
  | .cycle row col =>
    let g ← need w.grid
    let p ← need w.problem
    return w.withChain (← attempt (Chain.cycle p g row col))
  | .chain => return (w, .chain w.chain)
  | .clearChain => return w.withChain .empty
  | .pivot split =>
    let g ← need w.grid
    let p ← need w.problem
    attempt (w.pivot p g split)
  | .repair =>
    let g ← need w.grid
    let p ← need w.problem
    let (g, promoted) ← attempt (Pivot.repair p g w.chain)
    return ({ w with grid := some g }, .repaired promoted g)

/-- Carries out commands in turn. A refused one leaves the workbench as it was. -/
def runAll (w : Workbench) : List Command → List (Except Refusal Reply)
  | [] => []
  | command :: rest =>
    match w.run command with
    | .ok (next, reply) => .ok reply :: next.runAll rest
    | .error refusal => .error refusal :: w.runAll rest

end Workbench

end Transportation
