import Transportation.FirstBasis
import Transportation.Potentials.Levelwise
import Transportation.Opportunity.InBlocks
import Transportation.Chain.Search
import Transportation.Pivot.InBlocks
import Transportation.Solution
import Transportation.Solver.Settings
/-!
# The solver

A solver improves the plan of a problem pivot by pivot. It keeps the potentials of the present basis
from the time they are computed until the next pivot, and the opportunity costs of the last
evaluation. `SolverM` runs one call on a solver; the solver that a failed call leaves behind is
kept.
-/
namespace Transportation

inductive Phase where
  | fresh
  | priced
  | evaluated
  | cycleFound
  | pivoted
  | optimal
  deriving DecidableEq, Repr

inductive StepResult where
  | optimal
  | pivoted (outcome : PivotResult)
  deriving DecidableEq, Repr

structure Solver where
  problem : Problem
  settings : SolverSettings
  grid : Grid
  potentials : Option Potentials
  deltas : OpportunityTable
  phase : Phase
  pivots : Nat
  deriving DecidableEq, Repr

abbrev SolverM := EStateM Failure Solver

namespace Solver

def start (p : Problem) (settings : SolverSettings) : Except Failure Solver := do
  match settings.defect? with
  | some defect => throw (.invalidSettings defect)
  | none =>
    return {
      problem := p
      settings
      grid := ← settings.corner.firstBasis p
      potentials := none
      deltas := .blank p.rows p.cols
      phase := .fresh
      pivots := 0 }

def lift (result : Except Failure α) : SolverM α :=
  match result with
  | .ok a => pure a
  | .error failure => throw failure

/-- The potentials of the present basis, computed anew. A split is used by breadth-first search
alone. -/
def newPotentials (s : Solver) : Except Failure Potentials :=
  match s.settings.split, s.settings.potentials with
  | some _, .breadthFirst => Potentials.levelwise s.problem s.grid
  | _, method => Potentials.compute method s.problem s.grid

def evaluation (s : Solver) (values : Potentials) :
    Except Failure (Evaluation × OpportunityTable) :=
  match s.settings.split with
  | some split => Evaluation.evaluateInBlocks split s.problem s.grid values s.deltas
  | none => Evaluation.evaluate s.problem s.grid values s.deltas

def pivoting (s : Solver) (chain : Chain) : Except Failure (Grid × PivotResult) :=
  match s.settings.split with
  | some split => Pivot.applyInBlocks split s.problem s.grid chain
  | none => Pivot.apply s.problem s.grid chain

def refreshPotentials : SolverM Potentials := do
  let values ← lift (← get).newPotentials
  modify fun s => { s with phase := .priced, potentials := some values }
  return values

def takePotentials : SolverM Potentials := do
  match (← get).potentials with
  | some values =>
    modify fun s => { s with potentials := none }
    return values
  | none =>
    let values ← lift (← get).newPotentials
    modify fun s => { s with phase := .priced }
    return values

def evaluate : SolverM Evaluation := do
  let values ← takePotentials
  let result := (← get).evaluation values
  modify fun s => { s with potentials := some values }
  let (evaluation, deltas) ← lift result
  let phase := if evaluation.optimal then .optimal else .evaluated
  modify fun s => { s with deltas, phase }
  return evaluation

def pivot (entering : Entering) : SolverM PivotResult := do
  let s ← get
  let chain ← lift (Chain.cycle s.problem s.grid entering.row entering.col)
  modify fun s => { s with phase := .cycleFound }
  let (grid, outcome) ← lift (s.pivoting chain)
  modify fun s => { s with grid, potentials := none, phase := .pivoted }
  let pivots ← lift (Count.ofNat (s.pivots + 1))
  modify fun s => { s with pivots }
  return outcome

def step : SolverM StepResult := do
  match (← evaluate).entering with
  | some entering => return .pivoted (← pivot entering)
  | none => return .optimal

def atLimit (s : Solver) : Bool :=
  decide (0 < s.settings.maxPivots) && decide (s.settings.maxPivots ≤ s.pivots)

/-- One turn of a run. It ends the run if it is cancelled, if the plan is optimal, or if the limit
of pivots is reached, and makes a pivot otherwise. -/
def turn (cancelled : Bool) : SolverM (Option Ending) := do
  if cancelled then
    return some .cancelled
  else
    match (← evaluate).entering with
    | none => return some .optimal
    | some entering =>
      if (← get).atLimit then
        return some .limitReached
      else
        let _ ← pivot entering
        return none

theorem turn_true (s : Solver) : turn true s = .ok (some .cancelled) s := rfl

/-- Takes turns until one ends the run; none if `turns` of them do not. -/
def run (cancelled : Bool) (turns : Nat) : SolverM (Option Ending) :=
  match turns with
  | 0 => return none
  | n + 1 => do
    match ← turn cancelled with
    | some status => return some status
    | none => run cancelled n

def finish (s : Solver) (status : Ending) : Except Failure Solution := do
  return {
    plan := ← s.grid.toPlan
    totalCost := ← s.grid.totalCost s.problem
    pivots := s.pivots
    status
    corner := s.settings.corner }

/-- Runs a call and gives its result with the solver that it leaves behind. -/
def call (s : Solver) (action : SolverM α) : Except Failure α × Solver :=
  match action s with
  | .ok a s => (.ok a, s)
  | .error failure s => (.error failure, s)

def solve (p : Problem) (settings : SolverSettings) (cancelled : Bool) (turns : Nat) :
    Except Failure (Option Solution) := do
  let s ← start p settings
  let (result, s) := s.call (run cancelled turns)
  match ← result with
  | some status => return some (← s.finish status)
  | none => return none

end Solver

end Transportation
