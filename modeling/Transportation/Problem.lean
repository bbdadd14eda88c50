import Transportation.Bounded
/-!
# Transportation problems

A problem has sources with supplies, sinks with demands, and the cost of shipping one unit from
each source to each sink. It is built by `Problem.ofTable`, which looks for defects in a fixed order
and reports the first; a shape too large for a table of its costs is a breach. An accepted problem
is balanced and leaves room: its objective and its potentials fit into 64 bits.
-/
namespace Transportation

/-- A balanced transportation problem; `costs` lists the cost table row by row. -/
structure Problem where
  rows : Nat
  cols : Nat
  costs : List Int
  supply : List Int
  demand : List Int
  total : Int
  deriving DecidableEq, Repr

namespace Problem

/-- The first defect in row `i` of the costs: its width, else its first negative cost. -/
def rowDefect? (cols i : Nat) (row : List Int) : Option Failure :=
  if row.length ≠ cols then
    some (.rowWidth i cols row.length)
  else
    row.zipIdx.findSome? fun (c, j) => if c < 0 then some (.negativeCost i j c) else none

def amountDefect? (defect : Nat → Int → Failure) (amounts : List Int) : Option Failure :=
  amounts.zipIdx.findSome? fun (x, k) => if x ≤ 0 then some (defect k x) else none

/-- A table without sources or sinks, or with the wrong number of rows. A wrong number is reported
at the first row that is missing or in excess. -/
def shapeDefect? (costs : List (List Int)) (rows cols : Nat) : Option Failure :=
  if rows = 0 ∨ cols = 0 then
    some .noParties
  else if costs.length ≠ rows then
    let row := min costs.length rows
    some (.rowWidth row cols ((costs[row]?.map List.length).getD 0))
  else
    none

/-- A flat table of the costs that cannot be made. A cost takes eight bytes. -/
def sizeDefect? (rows cols : Nat) : Option Failure :=
  if FitsMemory 8 (rows * cols) then none else some (.breach .overflow)

def totalDefect? (supply demand : List Int) : Option Failure :=
  match Amount.sum? supply, Amount.sum? demand with
  | some s, some d => if s ≠ d then some (.imbalanced s d) else none
  | _, _ => some .tooLarge

def maxCost (costs : List (List Int)) : Int := costs.flatten.foldl max 0

/-- Numbers too large for the sums and products of a solve: the objective is at most the total
times the largest cost, a potential at most `rows + cols` times the largest cost, and an opportunity
cost joins a cost and two potentials. -/
def magnitudeDefect? (costs : List (List Int)) (rows cols : Nat) (total : Int) : Option Failure :=
  let span : Int := 2 * (rows + cols) + 1
  if Amount.InRange span ∧ Amount.InRange (total * maxCost costs) ∧
      Amount.InRange (maxCost costs * span) then
    none
  else
    some .tooLarge

def defect? (costs : List (List Int)) (supply demand : List Int) : Option Failure :=
  (shapeDefect? costs supply.length demand.length).or <|
    (sizeDefect? supply.length demand.length).or <|
    (costs.zipIdx.findSome? fun (row, i) => rowDefect? demand.length i row).or <|
    (amountDefect? .nonPositiveSupply supply).or <|
    (amountDefect? .nonPositiveDemand demand).or <|
    (totalDefect? supply demand).or <|
    magnitudeDefect? costs supply.length demand.length (Amount.total supply)

def ofTable (costs : List (List Int)) (supply demand : List Int) : Except Failure Problem :=
  match defect? costs supply demand with
  | some failure => .error failure
  | none => .ok
    { rows := supply.length
      cols := demand.length
      costs := costs.flatten
      supply
      demand
      total := Amount.total supply }

theorem ofTable_eq_ok_iff {costs : List (List Int)} {supply demand : List Int} {p : Problem} :
    ofTable costs supply demand = .ok p ↔ defect? costs supply demand = none ∧
      p = ⟨supply.length, demand.length, costs.flatten, supply, demand, Amount.total supply⟩ := by
  unfold ofTable
  cases defect? costs supply demand <;> simp [eq_comm]

/-- The cost of a cell. Only its position in the row-by-row listing is tested, so a column beyond
the row reads from the next one. -/
def cost (p : Problem) (row col : Nat) : Except Failure Int :=
  entry p.costs (row * p.cols + col)

def costRow (p : Problem) (row : Nat) : List Int :=
  (p.costs.drop (row * p.cols)).take p.cols

def table (p : Problem) : List (List Int) :=
  (List.range p.rows).map p.costRow

def basisSize (p : Problem) : Nat := p.rows + p.cols - 1

/-- The cost of a shipping plan given as rows of amounts. Rows and columns beyond the problem are
ignored, missing ones ship nothing. -/
def planCost (p : Problem) (plan : List (List Int)) : Except Failure Int :=
  let terms := (plan.take p.rows).zipIdx.flatMap fun (row, i) =>
    (row.take p.cols).zip (p.costRow i)
  let step (acc : Int) (term : Int × Int) : Option Int :=
    (Amount.ofInt? (term.1 * term.2)).bind fun x => Amount.ofInt? (x + acc)
  Amount.orTooLarge (terms.foldlM step 0)

end Problem

def samePlan (a b : List (List Int)) : Bool := a == b

end Transportation
