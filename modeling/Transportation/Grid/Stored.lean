import Transportation.Grid
/-!
# Stored grids

The form in which a grid is kept outside the program: its shape and its cells, without the number of
basic cells. Reading a stored grid tests that the shape and the cells agree and that no amount is
negative, and counts the basic cells anew.
-/
namespace Transportation

/-- A grid as it is stored; nothing about it is certain. -/
structure StoredGrid where
  rows : Nat
  cols : Nat
  cells : List Cell
  deriving DecidableEq, Repr

namespace StoredGrid

inductive Defect where
  | sizeOverflow
  | cellCount (rows cols expected found : Nat)
  | negativeAmount (row col : Nat)
  deriving DecidableEq, Repr

def Defect.message : Defect → String
  | .sizeOverflow => "grid size overflows usize"
  | .cellCount rows cols expected found =>
    s!"{rows}x{cols} grid needs {expected} cells, found {found}"
  | .negativeAmount row col => s!"cell ({row}, {col}) has a negative amount"

def defect? (s : StoredGrid) : Option Defect :=
  if Count.greatest < s.rows * s.cols then
    some .sizeOverflow
  else if s.cells.length ≠ s.rows * s.cols then
    some (.cellCount s.rows s.cols (s.rows * s.cols) s.cells.length)
  else
    (s.cells.findIdx? fun cell => decide (cell.amount < 0)).map fun k =>
      .negativeAmount (k / s.cols) (k % s.cols)

theorem defect?_eq_none_iff {s : StoredGrid} : s.defect? = none ↔
    s.rows * s.cols ≤ Count.greatest ∧ s.cells.length = s.rows * s.cols ∧
      ∀ cell ∈ s.cells, 0 ≤ cell.amount := by
  rw [defect?]
  split
  · next hsize => simp [Nat.not_le.mpr hsize]
  · next hsize =>
      split
      · next hlength => simp [hlength]
      · next hlength =>
          simp [Nat.not_lt.mp hsize, Decidable.not_not.mp hlength, List.findIdx?_eq_none_iff]

/-- The grid that is stored. -/
def toGrid (s : StoredGrid) : Except Defect Grid :=
  match s.defect? with
  | some defect => .error defect
  | none => .ok ⟨s.rows, s.cols, s.cells, s.cells.countP Cell.isBasic⟩

theorem toGrid_eq_ok_iff {s : StoredGrid} {g : Grid} : s.toGrid = .ok g ↔ s.defect? = none ∧
    g = ⟨s.rows, s.cols, s.cells, s.cells.countP Cell.isBasic⟩ := by
  unfold toGrid
  cases s.defect? <;> simp [eq_comm]

end StoredGrid

namespace Grid

def toStored (g : Grid) : StoredGrid := ⟨g.rows, g.cols, g.cells⟩

end Grid

end Transportation
