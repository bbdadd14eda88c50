import Transportation.Document
import Transportation.Grid.Stored
/-!
# Grids in documents

A vacant cell is stored by its name, a basic one with its amount. A grid is stored as its shape and
its cells; a document is first read as such a record and only then tested as a grid.
-/
namespace Transportation

namespace Cell

def toDocument : Cell → Document
  | .vacant => .text "NotAllocated"
  | .basic x => .record [("Allocated", .integer x)]

def ofDocument? (d : Document) : Option Cell :=
  match d.alternative? with
  | some ("NotAllocated", none) => some .vacant
  | some ("NotAllocated", some .null) => some .vacant
  | some ("Allocated", some content) => content.amount?.map .basic
  | _ => none

end Cell

namespace StoredGrid

def fieldNames : List FieldName := [⟨"rows", false⟩, ⟨"cols", false⟩, ⟨"cells", false⟩]

def toDocument (s : StoredGrid) : Document :=
  .record [("rows", .ofCount s.rows), ("cols", .ofCount s.cols),
    ("cells", .ofList Cell.toDocument s.cells)]

def ofDocument? (d : Document) : Option StoredGrid :=
  match d.fields? fieldNames with
  | some [rows, cols, cells] => do
    return ⟨← rows.count?, ← cols.count?, ← cells.list? Cell.ofDocument?⟩
  | _ => none

end StoredGrid

namespace Grid

inductive ReadError where
  | malformed
  | defect (defect : StoredGrid.Defect)
  deriving DecidableEq, Repr

def toDocument (g : Grid) : Document := g.toStored.toDocument

def ofDocument (d : Document) : Except ReadError Grid :=
  match StoredGrid.ofDocument? d with
  | none => .error .malformed
  | some s => s.toGrid.mapError .defect

end Grid

end Transportation
