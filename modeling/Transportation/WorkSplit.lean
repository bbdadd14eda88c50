import Transportation.Bounded
/-!
# Work splits

How the rows of a table are shared out to workers: into blocks of consecutive rows, as many blocks
as there are workers, but no block smaller than a minimum. The split decides who does the work, and
nothing else as long as the cells of a block can be counted in 64 bits.
-/
namespace Transportation

/-- The number of workers and the least number of rows worth a task of its own. -/
structure WorkSplit where
  workers : Nat
  minRows : Nat := 4
  deriving DecidableEq, Repr

namespace WorkSplit

def defect? (split : WorkSplit) : Option SettingsDefect :=
  if split.workers = 0 then
    some .noWorkers
  else if split.minRows = 0 then
    some .noRowsPerTask
  else
    none

def rowsPerBlock (split : WorkSplit) (rows : Nat) : Nat :=
  max (max (ceilDiv rows (max split.workers 1)) split.minRows) 1

def cellsPerBlock (split : WorkSplit) (rows cols : Nat) : Except Failure Nat :=
  Count.ofNat (split.rowsPerBlock rows * cols)

def blocks (total size : Nat) : List (Nat × Nat) :=
  (List.range (ceilDiv total size)).map fun k => (k * size, min size (total - k * size))

theorem rowsPerBlock_pos (split : WorkSplit) (rows : Nat) : 0 < split.rowsPerBlock rows := by
  unfold rowsPerBlock
  omega

end WorkSplit

end Transportation
