import Transportation.Potentials
/-!
# Opportunity costs and the entering cell

A vacant cell with a negative opportunity cost makes a cheaper plan possible. An evaluation fills a
table with the opportunity costs of all vacant cells and chooses the entering cell: the one with the
least cost, and the first of these row by row. Without a negative cost the plan is optimal.
-/
namespace Transportation

/-- A table of opportunity costs; a cell without one is basic or not evaluated yet. -/
structure OpportunityTable where
  rows : Nat
  cols : Nat
  values : List (Option Int)
  deriving DecidableEq, Repr

namespace OpportunityTable

def blank (rows cols : Nat) : OpportunityTable :=
  ⟨rows, cols, List.replicate (rows * cols) none⟩

def ofShape (rows cols : Nat) : Except Failure OpportunityTable := do
  Grid.requireRoom rows cols
  return blank rows cols

/-- The opportunity cost of a cell. Only its position in the row-by-row listing is tested. -/
def get (t : OpportunityTable) (row col : Nat) : Except Failure (Option Int) :=
  entry t.values (row * t.cols + col)

def least? (t : OpportunityTable) : Option Int :=
  (t.values.filterMap id).min?

def toRows (t : OpportunityTable) : List (List (Option Int)) :=
  (List.range t.rows).map fun i => (t.values.drop (i * t.cols)).take t.cols

end OpportunityTable

/-- A cell chosen to enter the basis, with its negative opportunity cost. -/
structure Entering where
  row : Nat
  col : Nat
  delta : Int
  deriving DecidableEq, Repr

namespace Entering

/-- Whether `a` goes before `b`: by cost, then by row, then by column. -/
def before (a b : Entering) : Bool :=
  decide (a.delta < b.delta) ||
    (a.delta == b.delta && (decide (a.row < b.row) || (a.row == b.row && decide (a.col < b.col))))

def pick : Option Entering → Option Entering → Option Entering
  | some a, some b => if b.before a then some b else some a
  | a, none => a
  | none, b => b

@[simp] theorem pick_none (a : Option Entering) : pick a none = a := by
  cases a <;> rfl

@[simp] theorem none_pick (a : Option Entering) : pick none a = a := by
  cases a <;> rfl

/-- The choice after one more cell: a negative cost replaces a choice with a greater one. -/
def consider (best : Option Entering) (candidate : Entering) : Option Entering :=
  if candidate.delta < 0 ∧ best.all (fun b => candidate.delta < b.delta) then
    some candidate
  else
    best

def choose (cols firstRow : Nat) (values : List (Option Int)) : Option Entering :=
  values.zipIdx.foldl (fun best (value, k) =>
    match value with
    | some delta => consider best ⟨firstRow + k / cols, k % cols, delta⟩
    | none => best) none

end Entering

structure Evaluation where
  entering : Option Entering
  deriving DecidableEq, Repr

namespace Evaluation

def optimal (e : Evaluation) : Bool := e.entering.isNone

def cellCost (p : Problem) (g : Grid) (values : Potentials) (row col : Nat) :
    Except Failure (Option Int) := do
  if ← g.isBasic row col then
    return none
  else
    return some (← values.opportunityCost p row col)

def cellCosts (p : Problem) (g : Grid) (values : Potentials) (firstRow count : Nat) :
    Except Failure (List (Option Int)) :=
  (List.range count).mapM fun k => cellCost p g values (firstRow + k / p.cols) (k % p.cols)

/-- Fills the table with the opportunity costs of the grid and chooses the entering cell. The table
is filled in the rows of the problem, whatever its own shape is, up to its end. -/
def evaluate (p : Problem) (g : Grid) (values : Potentials) (table : OpportunityTable) :
    Except Failure (Evaluation × OpportunityTable) := do
  g.requireFit p
  let costs ← cellCosts p g values 0 table.values.length
  return (⟨Entering.choose p.cols 0 costs⟩, { table with values := costs })

end Evaluation

end Transportation
