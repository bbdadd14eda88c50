import Transportation.Grid
/-!
# Chains

A chain is a sequence of cells in which the amounts shipped alternately grow and shrink. Around a
closed chain the totals of all sources and sinks stay as they are.
-/
namespace Transportation

inductive Sign where
  | plus
  | minus
  deriving DecidableEq, Repr

/-- A cell of a chain, with the cost and the amount it had when the chain was built. -/
structure Link where
  row : Nat
  col : Nat
  cost : Int
  amount : Int
  sign : Sign
  deriving DecidableEq, Repr

namespace Link

def aligned (a b : Link) : Bool := a.row == b.row || a.col == b.col

def place (l : Link) : Nat × Nat := (l.row, l.col)

end Link

structure Chain where
  links : List Link
  deriving DecidableEq, Repr

namespace Chain

def empty : Chain := ⟨[]⟩

/-- The sign of a cell that is appended: minus if a plus cell shares its row or column. -/
def signFor (chain : Chain) (row col : Nat) : Sign :=
  if chain.links.any fun l => l.sign == .plus && (l.row == row || l.col == col) then
    .minus
  else
    .plus

def push (chain : Chain) (row col : Nat) (cost amount : Int) : Chain :=
  ⟨chain.links ++ [⟨row, col, cost, amount, chain.signFor row col⟩]⟩

def pop (chain : Chain) : Chain := ⟨chain.links.dropLast⟩

def consecutive : List Link → Bool
  | a :: b :: rest => a.aligned b && consecutive (b :: rest)
  | _ => true

/-- Whether the chain returns to its beginning: it has at least four cells, each one aligned with
the next and the last one with the first. -/
def isClosed (chain : Chain) : Bool :=
  match chain.links.head?, chain.links.getLast? with
  | some first, some last =>
    decide (4 ≤ chain.links.length) && first.aligned last && consecutive chain.links
  | _, _ => false

/-- The amount that a pivot moves: the least amount of a minus cell, zero without one. -/
def theta (chain : Chain) : Int :=
  ((chain.links.filter fun l => l.sign == .minus).map Link.amount).min?.getD 0

@[simp] theorem pop_push (chain : Chain) (row col : Nat) (cost amount : Int) :
    (chain.push row col cost amount).pop = chain := by
  simp [push, pop]

end Chain

end Transportation
