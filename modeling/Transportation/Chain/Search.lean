import Transportation.Chain
/-!
# The search for a cycle

Adding a vacant cell to a basis closes a cycle of cells that alternately share a row and a column.
The search starts at that cell and goes forward by turns along a row and along a column, each time
to the closest basic cell not yet left, and steps back where it finds none. Every step forward or
back changes the direction.
-/
namespace Transportation

/-- The state of a search: the places from the entering cell to the current one, the same cells as
a chain, the positions already left, and the direction of the last step. -/
structure CycleSearch where
  path : List (Nat × Nat)
  chain : Chain
  left : List Nat
  alongColumn : Bool
  deriving DecidableEq, Repr

namespace CycleSearch

def distance (a b : Nat) : Nat := (a - b) + (b - a)

/-- The candidate closest to the origin, the first of several. -/
def closest (origin : Nat) (candidates : List Nat) : Option Nat :=
  candidates.foldl (fun best k =>
    match best with
    | none => some k
    | some b => if distance k origin < distance b origin then some k else some b) none

def extend (p : Problem) (g : Grid) (chain : Chain) (row col : Nat) : Except Failure Chain := do
  let cost ← p.cost row col
  let cell ← g.get row col
  return chain.push row col cost cell.amount

def enterable (g : Grid) (s : CycleSearch) (position row col : Nat) : Except Failure Bool :=
  if position ∈ s.left then .ok false else g.isBasic row col

def next? (p : Problem) (g : Grid) (s : CycleSearch) (row col : Nat) :
    Except Failure (Option (Nat × Nat)) := do
  if s.alongColumn then
    let rows ← ((List.range p.rows).filter (· != row)).filterM fun i =>
      enterable g s (i * p.cols + col) i col
    return (closest row rows).map fun i => (i, col)
  else
    let cols ← ((List.range p.cols).filter (· != col)).filterM fun j =>
      enterable g s (row * p.cols + j) row j
    return (closest col cols).map fun j => (row, j)

/-- One step forward or back; none if the search has stepped back from the entering cell. -/
def advance (p : Problem) (g : Grid) (s : CycleSearch) : Except Failure (Option CycleSearch) := do
  match s.path.getLast? with
  | none => return none
  | some (row, col) =>
    let s := { s with
      left := (row * p.cols + col) :: s.left
      alongColumn := !s.alongColumn }
    match ← s.next? p g row col with
    | some (i, j) =>
      return some { s with path := s.path ++ [(i, j)], chain := ← extend p g s.chain i j }
    | none =>
      let path := s.path.dropLast
      return if path.isEmpty then none else some { s with path, chain := s.chain.pop }

def run (p : Problem) (g : Grid) (notFound : Failure) : Nat → CycleSearch → Except Failure Chain
  | 0, s => if s.chain.isClosed then .ok s.chain else .error notFound
  | n + 1, s =>
    if s.chain.isClosed then
      .ok s.chain
    else do
      match ← s.advance p g with
      | some s => run p g notFound n s
      | none => throw notFound

def start (p : Problem) (g : Grid) (row col : Nat) : Except Failure CycleSearch := do
  return ⟨[(row, col)], ← extend p g .empty row col, [], true⟩

/-- The steps granted to a search: every basic cell and the entering cell are entered at most once
and left at most once. -/
def budget (g : Grid) : Nat := 2 * (g.basicCount + 1)

end CycleSearch

namespace Chain

/-- The cycle that the cell at `(row, col)` closes with basic cells. -/
def cycle (p : Problem) (g : Grid) (row col : Nat) : Except Failure Chain := do
  g.requireFit p
  let start ← CycleSearch.start p g row col
  CycleSearch.run p g (.cycleNotFound row col) (CycleSearch.budget g) start

end Chain

end Transportation
