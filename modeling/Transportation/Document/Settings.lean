import Transportation.Document.Names
import Transportation.Instance
import Transportation.Race
/-!
# Settings in documents

Reading settings does not look for its defects.
-/
namespace Transportation

namespace WorkSplit

def fieldNames : List FieldName := [⟨"workers", false⟩, ⟨"min_rows_per_task", false⟩]

def toDocument (split : WorkSplit) : Document :=
  .record [("workers", .ofCount split.workers), ("min_rows_per_task", .ofCount split.minRows)]

def ofDocument? (d : Document) : Option WorkSplit :=
  match d.fields? fieldNames with
  | some [workers, minRows] => do
    return ⟨← workers.count?, ← minRows.count?⟩
  | _ => none

end WorkSplit

namespace SolverSettings

def fieldNames : List FieldName :=
  [⟨"corner", false⟩, ⟨"potentials", false⟩, ⟨"max_iterations", false⟩, ⟨"parallel", true⟩]

def toDocument (settings : SolverSettings) : Document :=
  .record [("corner", settings.corner.toDocument), ("potentials", settings.potentials.toDocument),
    ("max_iterations", .ofCount settings.maxPivots),
    ("parallel", .ofOption WorkSplit.toDocument settings.split)]

def ofDocument? (d : Document) : Option SolverSettings :=
  match d.fields? fieldNames with
  | some [corner, potentials, maxPivots, split] => do
    return ⟨← Corner.ofDocument? corner, ← PotentialMethod.ofDocument? potentials,
      ← maxPivots.count?, ← split.optional? WorkSplit.ofDocument?⟩
  | _ => none

end SolverSettings

namespace RaceSettings

def fieldNames : List FieldName := [⟨"corners", false⟩, ⟨"workers", false⟩, ⟨"solver", false⟩]

def toDocument (settings : RaceSettings) : Document :=
  .record [("corners", .ofList Corner.toDocument settings.corners),
    ("workers", .ofCount settings.workers), ("solver", settings.solver.toDocument)]

def ofDocument? (d : Document) : Option RaceSettings :=
  match d.fields? fieldNames with
  | some [corners, workers, solver] => do
    return ⟨← corners.list? Corner.ofDocument?, ← workers.count?,
      ← SolverSettings.ofDocument? solver⟩
  | _ => none

end RaceSettings

namespace InstanceSettings

def fieldNames : List FieldName :=
  [⟨"rows", false⟩, ⟨"cols", false⟩, ⟨"max_cost", false⟩, ⟨"max_supply", false⟩,
    ⟨"max_demand", false⟩, ⟨"seed", true⟩]

def toDocument (settings : InstanceSettings) : Document :=
  .record [("rows", .ofCount settings.rows), ("cols", .ofCount settings.cols),
    ("max_cost", .integer settings.maxCost), ("max_supply", .integer settings.maxSupply),
    ("max_demand", .integer settings.maxDemand), ("seed", .ofOption Document.ofCount settings.seed)]

def ofDocument? (d : Document) : Option InstanceSettings :=
  match d.fields? fieldNames with
  | some [rows, cols, maxCost, maxSupply, maxDemand, seed] => do
    return ⟨← rows.count?, ← cols.count?, ← maxCost.amount?, ← maxSupply.amount?,
      ← maxDemand.amount?, ← seed.optional? Document.count?⟩
  | _ => none

end InstanceSettings

end Transportation
