import Transportation.Document.Names
import Transportation.Race
/-!
# Problems, solutions and reports in documents

A problem is only written: it comes into being from its table alone, tested for defects.
-/
namespace Transportation

namespace Problem

def toDocument (p : Problem) : Document :=
  .record [("rows", .ofCount p.rows), ("cols", .ofCount p.cols),
    ("cost", .ofList .integer p.costs), ("supply", .ofList .integer p.supply),
    ("demand", .ofList .integer p.demand), ("total", .integer p.total)]

end Problem

namespace Solution

def fieldNames : List FieldName :=
  [⟨"allocation", false⟩, ⟨"total_cost", false⟩, ⟨"iterations", false⟩, ⟨"status", false⟩,
    ⟨"corner", false⟩]

def toDocument (s : Solution) : Document :=
  .record [("allocation", .ofList (Document.ofList .integer) s.plan),
    ("total_cost", .integer s.totalCost), ("iterations", .ofCount s.pivots),
    ("status", s.status.toDocument), ("corner", s.corner.toDocument)]

def ofDocument? (d : Document) : Option Solution :=
  match d.fields? fieldNames with
  | some [plan, totalCost, pivots, status, corner] => do
    return ⟨← plan.list? (Document.list? Document.amount?), ← totalCost.amount?,
      ← pivots.count?, ← Ending.ofDocument? status, ← Corner.ofDocument? corner⟩
  | _ => none

end Solution

namespace RacerReport

def fieldNames : List FieldName :=
  [⟨"corner", false⟩, ⟨"status", false⟩, ⟨"iterations", false⟩, ⟨"total_cost", false⟩]

def toDocument (r : RacerReport) : Document :=
  .record [("corner", r.corner.toDocument), ("status", r.status.toDocument),
    ("iterations", .ofCount r.pivots), ("total_cost", .integer r.totalCost)]

def ofDocument? (d : Document) : Option RacerReport :=
  match d.fields? fieldNames with
  | some [corner, status, pivots, totalCost] => do
    return ⟨← Corner.ofDocument? corner, ← Ending.ofDocument? status, ← pivots.count?,
      ← totalCost.amount?⟩
  | _ => none

end RacerReport

namespace RaceOutcome

def fieldNames : List FieldName := [⟨"solution", false⟩, ⟨"winner", true⟩, ⟨"reports", false⟩]

def toDocument (r : RaceOutcome) : Document :=
  .record [("solution", r.solution.toDocument), ("winner", .ofOption Corner.toDocument r.winner),
    ("reports", .ofList RacerReport.toDocument r.reports)]

def ofDocument? (d : Document) : Option RaceOutcome :=
  match d.fields? fieldNames with
  | some [solution, winner, reports] => do
    return ⟨← Solution.ofDocument? solution, ← winner.optional? Corner.ofDocument?,
      ← reports.list? RacerReport.ofDocument?⟩
  | _ => none

end RaceOutcome

end Transportation
