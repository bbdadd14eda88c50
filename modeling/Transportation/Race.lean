import Transportation.Solver
/-!
# Races

Solvers start from different corners of one problem and share a flag. A solver that finds the flag
raised before a turn stops as cancelled. The first to end with an optimal plan raises the flag and
wins. Here the racers run one after another in the order in which they are listed.
-/
namespace Transportation

/-- Which corners race, with how many workers, and how each racer solves; the corner of the solver
settings is replaced by the racer's own. -/
structure RaceSettings where
  corners : List Corner := Corner.all
  workers : Nat := 4
  solver : SolverSettings := {}
  deriving DecidableEq, Repr

namespace RaceSettings

def repeated? : List Corner → List Corner → Option Corner
  | _, [] => none
  | seen, corner :: rest =>
    if corner ∈ seen then some corner else repeated? (seen ++ [corner]) rest

def defect? (settings : RaceSettings) : Option SettingsDefect :=
  if settings.corners.isEmpty then
    some .noRacers
  else
    match repeated? [] settings.corners with
    | some corner => some (.repeatedRacer corner)
    | none => if settings.workers = 0 then some .noWorkers else settings.solver.defect?

def racer (settings : RaceSettings) (corner : Corner) : SolverSettings :=
  { settings.solver with corner }

end RaceSettings

structure RacerReport where
  corner : Corner
  status : Ending
  pivots : Nat
  totalCost : Int
  deriving DecidableEq, Repr

namespace RacerReport

def ofSolution (s : Solution) : RacerReport :=
  ⟨s.corner, s.status, s.pivots, s.totalCost⟩

end RacerReport

structure RaceOutcome where
  solution : Solution
  winner : Option Corner
  reports : List RacerReport
  deriving DecidableEq, Repr

/-- What a racer leaves: its solution, and whether it was the one to raise the flag. -/
structure Finish where
  solution : Solution
  won : Bool
  deriving DecidableEq, Repr

namespace Race

/-- Runs the racers in turn and returns what they leave, with the flag at the end; none if a racer
does not end within its turns. -/
def runInTurn (p : Problem) (settings : RaceSettings) (turns : Nat) :
    List Corner → Bool → Except Failure (Option (List Finish × Bool))
  | [], flag => .ok (some ([], flag))
  | corner :: rest, flag => do
    match ← Solver.solve p (settings.racer corner) flag turns with
    | none => return none
    | some solution =>
      let won := solution.isOptimal && !flag
      match ← runInTurn p settings turns rest (flag || won) with
      | none => return none
      | some (finishes, flag) => return some (⟨solution, won⟩ :: finishes, flag)

/-- Whether the first solution is to be preferred to the second: an optimal one to one that is not,
then the cheaper one. -/
def preferred (a b : Solution) : Bool :=
  (a.isOptimal && !b.isOptimal) ||
    (a.isOptimal == b.isOptimal && decide (a.totalCost < b.totalCost))

def best? : List Solution → Option Solution
  | [] => none
  | s :: rest => some (rest.foldl (fun best s => if preferred s best then s else best) s)

def result? (finishes : List Finish) : Option RaceOutcome :=
  let reports := finishes.map fun f => RacerReport.ofSolution f.solution
  match finishes.find? (·.won) with
  | some f => some ⟨f.solution, some f.solution.corner, reports⟩
  | none => (best? (finishes.map (·.solution))).map fun s => ⟨s, none, reports⟩

def run (p : Problem) (settings : RaceSettings) (flag : Bool) (turns : Nat) :
    Except Failure (Option (RaceOutcome × Bool)) := do
  match settings.defect? with
  | some defect => throw (.invalidSettings defect)
  | none =>
    match ← onWorkers (runInTurn p settings turns settings.corners flag) with
    | none => return none
    | some (finishes, flag) =>
      match result? finishes with
      | some result => return some (result, flag)
      | none => throw (.invalidSettings .noRacers)

end Race

end Transportation
