import Transportation.Document
import Transportation.Solver
/-!
# Names in documents

The names under which the values of the finite types are stored.
-/
namespace Transportation

namespace Corner

def name : Corner → String
  | .northWest => "NorthWest"
  | .northEast => "NorthEast"
  | .southWest => "SouthWest"
  | .southEast => "SouthEast"

def toDocument (corner : Corner) : Document := .text corner.name

def ofDocument? : Document → Option Corner := Document.oneOf? all name

theorem ofDocument?_toDocument (corner : Corner) : ofDocument? corner.toDocument = some corner := by
  cases corner <;> rfl

end Corner

namespace PotentialMethod

def all : List PotentialMethod := [.scan, .breadthFirst]

def name : PotentialMethod → String
  | .scan => "Scan"
  | .breadthFirst => "Bfs"

def toDocument (method : PotentialMethod) : Document := .text method.name

def ofDocument? : Document → Option PotentialMethod := Document.oneOf? all name

theorem ofDocument?_toDocument (method : PotentialMethod) :
    ofDocument? method.toDocument = some method := by
  cases method <;> rfl

end PotentialMethod

namespace Ending

def all : List Ending := [.optimal, .cancelled, .limitReached]

def name : Ending → String
  | .optimal => "Optimal"
  | .cancelled => "Cancelled"
  | .limitReached => "IterationLimit"

def toDocument (status : Ending) : Document := .text status.name

def ofDocument? : Document → Option Ending := Document.oneOf? all name

theorem ofDocument?_toDocument (status : Ending) : ofDocument? status.toDocument = some status := by
  cases status <;> rfl

end Ending

namespace Phase

def name : Phase → String
  | .fresh => "Init"
  | .priced => "PotentialsComputed"
  | .evaluated => "DeltaComputed"
  | .cycleFound => "CycleBuilt"
  | .pivoted => "Adjusted"
  | .optimal => "Optimal"

end Phase

end Transportation
