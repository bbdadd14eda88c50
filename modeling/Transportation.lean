import Transportation.Corner
import Transportation.Failure
import Transportation.Bounded
import Transportation.Problem
import Transportation.Grid
import Transportation.Grid.Stored
import Transportation.FirstBasis
import Transportation.WorkSplit
import Transportation.Potentials
import Transportation.Potentials.Scan
import Transportation.Potentials.BreadthFirst
import Transportation.Potentials.Levelwise
import Transportation.Potentials.Method
import Transportation.Opportunity
import Transportation.Opportunity.InBlocks
import Transportation.Chain
import Transportation.Chain.Search
import Transportation.Pivot
import Transportation.Pivot.InBlocks
import Transportation.Solution
import Transportation.Solver.Settings
import Transportation.Solver
import Transportation.Race
import Transportation.Race.Schedule
import Transportation.Random.KeyStream
import Transportation.Random.Draw
import Transportation.Instance
import Transportation.Document
import Transportation.Document.Names
import Transportation.Document.Grid
import Transportation.Document.Settings
import Transportation.Document.Solution
import Transportation.Workbench
import Transportation.Proofs.Checked
import Transportation.Proofs.Table
import Transportation.Proofs.Acceptance
import Transportation.Proofs.Accepted
import Transportation.Proofs.Trees
import Transportation.Proofs.Plans
import Transportation.Proofs.PlanCosts
import Transportation.Proofs.CornerWalk
import Transportation.Proofs.FoundValues
import Transportation.Proofs.ScanSearch
import Transportation.Proofs.LevelSearch
import Transportation.Proofs.NextCells
import Transportation.Proofs.CycleSearch
import Transportation.Proofs.Circuits
import Transportation.Proofs.Shifts
import Transportation.Proofs.Exchanges
import Transportation.Proofs.PivotBlocks
import Transportation.Proofs.Choices
import Transportation.Proofs.Evaluations
import Transportation.Proofs.SolverSteps
import Transportation.Proofs.Reachable
import Transportation.Proofs.ReachablePlans
import Transportation.Proofs.Optimality
import Transportation.Proofs.Trajectory
import Transportation.Proofs.KeptResults
import Transportation.Proofs.ExactEvaluations
import Transportation.Proofs.Splits
import Transportation.Proofs.TreeFlows
import Transportation.Proofs.Progress
import Transportation.Proofs.Racers
import Transportation.Proofs.Schedules
import Transportation.Proofs.TurnOrder
import Transportation.Proofs.ExactPotentials
import Transportation.Proofs.SharedLevels
import Transportation.Proofs.Offers
import Transportation.Proofs.Magnitudes
import Transportation.Proofs.Overlaps
import Transportation.Proofs.Cycles
import Transportation.Proofs.Swaps
import Transportation.Proofs.Repairs
import Transportation.Proofs.BlockChoices
import Transportation.Proofs.SearchPaths
import Transportation.Proofs.SearchSteps
import Transportation.Proofs.RowOrder
import Transportation.Proofs.Budgets
import Transportation.Proofs.TurnResults
import Transportation.Proofs.Rejections
import Transportation.Proofs.CellCounts
import Transportation.Proofs.StoredGrids
import Transportation.Proofs.Balancing
