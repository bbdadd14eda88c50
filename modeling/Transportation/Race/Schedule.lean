import Transportation.Race
/-!
# Schedules of a race

Racers that run side by side take their steps in some order. Before each turn a racer reads the
flag, and it claims the victory once its plan is optimal. Anyone outside the race may raise the flag
at any moment. A schedule lists these moves in the order in which they happen.
-/
namespace Transportation

/-- A racer between two of its steps. -/
inductive Racer where
  | ready (s : Solver)
  /-- The flag was not raised when the racer read it. -/
  | running (s : Solver)
  /-- The plan is optimal and the victory is not claimed yet. -/
  | proven (s : Solver)
  /-- The racer failed and has not stopped the others yet. -/
  | faulted (failure : Failure)
  | done (result : Except Failure Finish)
  deriving Repr

namespace Racer

def start (p : Problem) (settings : SolverSettings) : Racer :=
  match Solver.start p settings with
  | .ok s => .ready s
  | .error failure => .faulted failure

def leave (s : Solver) (status : Ending) (won : Bool) : Racer :=
  .done ((s.finish status).map fun solution => ⟨solution, won⟩)

def ofTurn : EStateM.Result Failure Solver (Option Ending) → Racer
  | .ok none s => .ready s
  | .ok (some .optimal) s => .proven s
  | .ok (some status) s => leave s status false
  | .error failure _ => .faulted failure

/-- Whether a racer that fails raises the flag; after a breach it no longer can. -/
def raises : Failure → Bool
  | .breach _ => false
  | _ => true

def move : Racer → Bool → Racer × Bool
  | .ready s, flag => if flag then (leave s .cancelled false, flag) else (.running s, flag)
  | .running s, flag => (ofTurn (Solver.turn false s), flag)
  | .proven s, flag => (leave s .optimal (!flag), true)
  | .faulted failure, flag => (.done (.error failure), flag || raises failure)
  | .done result, flag => (.done result, flag)

def finish? : Racer → Option Finish
  | .done (.ok f) => some f
  | _ => none

end Racer

inductive RaceMove where
  | racer (k : Nat)
  | outside
  deriving DecidableEq, Repr

structure RaceState where
  flag : Bool
  racers : List Racer
  deriving Repr

namespace RaceState

def start (p : Problem) (settings : RaceSettings) (flag : Bool) : RaceState where
  flag
  racers := settings.corners.map fun corner => .start p (settings.racer corner)

def move (st : RaceState) : RaceMove → RaceState
  | .outside => { st with flag := true }
  | .racer k =>
    match st.racers[k]? with
    | none => st
    | some r =>
      let (r, flag) := r.move st.flag
      ⟨flag, st.racers.set k r⟩

def play (st : RaceState) (moves : List RaceMove) : RaceState := moves.foldl move st

def finishes? (st : RaceState) : Option (List Finish) := st.racers.mapM Racer.finish?

end RaceState

end Transportation
