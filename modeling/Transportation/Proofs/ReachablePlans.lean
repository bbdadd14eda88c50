import Transportation.Proofs.PlanCosts
import Transportation.Proofs.Reachable
/-!
# Plans of reachable solvers

The plan of a reachable solver ships every supply, meets every demand and rests on a spanning tree,
and the solution made of it has the cost of that plan. As long as the pivots can be counted, no call
on a reachable solver fails.
-/
namespace Transportation

section Input

variable {costs : List (List Int)} {supply demand : List Int} {p : Problem}

theorem parties_of_ofTable (h : Problem.ofTable costs supply demand = .ok p) :
    supply = p.supply ∧ demand = p.demand := by
  obtain ⟨-, rfl⟩ := Problem.ofTable_eq_ok_iff.mp h
  exact ⟨rfl, rfl⟩

theorem map_supplyAt (hp : p.Sound) : (List.range p.rows).map p.supplyAt = p.supply := by
  rw [← hp.length_supply]
  exact map_getD_range p.supply 0

theorem map_demandAt (hp : p.Sound) : (List.range p.cols).map p.demandAt = p.demand := by
  rw [← hp.length_demand]
  exact map_getD_range p.demand 0

theorem Problem.Sound.nodes_le (hp : p.Sound) : p.rows + p.cols ≤ Count.greatest := by
  have hspan := hp.span_le
  simp only [Amount.greatest, Count.greatest] at hspan ⊢
  omega

end Input

namespace Grid

variable {p : Problem} {g : Grid}

def plan (p : Problem) (g : Grid) : List (List Int) :=
  (List.range p.rows).map fun i => (List.range p.cols).map (g.amount i)

theorem Feasible.nonneg_of_mem_cells (h : g.Feasible p) (hfit : g.Fits p) (hreg : g.Regular)
    {cell : Cell} (hcell : cell ∈ g.cells) : 0 ≤ cell.amount := by
  obtain ⟨k, hk, rfl⟩ := List.mem_iff_getElem.mp hcell
  obtain ⟨hi, hj, hget⟩ := hreg.getElem_cells hk
  rw [hget]
  exact h.nonneg _ _ (hfit.1 ▸ hi) (hfit.2 ▸ hj)

theorem BasicPlan.toPlan_eq (h : g.BasicPlan p) (hp : p.Sound) : g.toPlan = .ok (g.plan p) := by
  rw [h.regular.toPlan_eq_ok (h.fits.1 ▸ hp.rows_le), plan, h.fits.1, h.fits.2]

theorem Feasible.sum_plan_rows (h : g.Feasible p) (hp : p.Sound) :
    (g.plan p).map List.sum = p.supply := by
  rw [← map_supplyAt hp, plan, List.map_map]
  exact List.map_congr_left fun i hi => h.sum_row i (List.mem_range.mp hi)

theorem Feasible.sum_plan_cols (h : g.Feasible p) (hp : p.Sound) :
    ((List.range p.cols).map fun j => ((g.plan p).map fun row => row.getD j 0).sum) =
      p.demand := by
  rw [← map_demandAt hp]
  apply List.map_congr_left
  intro j hj
  have hentry : (g.plan p).map (fun row => row.getD j 0) =
      (List.range p.rows).map fun i => g.amount i j := by
    rw [plan, List.map_map]
    apply List.map_congr_left
    intro i _
    simp [List.mem_range.mp hj]
  rw [hentry]
  exact h.sum_col j (List.mem_range.mp hj)

theorem Feasible.mem_plan (h : g.Feasible p) {row : List Int} (hrow : row ∈ g.plan p) :
    row.length = p.cols ∧ ∀ x ∈ row, 0 ≤ x := by
  obtain ⟨i, hi, rfl⟩ := List.mem_map.mp hrow
  refine ⟨by simp, fun x hx => ?_⟩
  obtain ⟨j, hj, rfl⟩ := List.mem_map.mp hx
  exact h.nonneg i j (List.mem_range.mp hi) (List.mem_range.mp hj)

theorem BasicPlan.budget_le (h : g.BasicPlan p) (hp : p.Sound) :
    CycleSearch.budget g ≤ Count.greatest := by
  have hspan := hp.span_le
  have hrows := hp.rows_pos
  rw [CycleSearch.budget, h.basicCount_eq hp, Problem.basisSize]
  simp only [Amount.greatest, Count.greatest] at hspan ⊢
  omega

end Grid

namespace Solver

variable {costs : List (List Int)} {supply demand : List Int} {p : Problem}
  {settings : SolverSettings} {s : Solver}

theorem Valid.finish_eq (h : s.Valid p settings) (hp : p.Sound) (status : Ending) :
    s.finish status = .ok ⟨s.grid.plan p, s.grid.objective p, s.pivots, status,
      settings.corner⟩ := by
  have hplan := h.plan
  rw [finish, hplan.toPlan_eq hp, ok_bind, h.problem,
    hplan.feasible.totalCost_eq_ok hp hplan.fits hplan.regular, ok_bind, h.settings]
  rfl

theorem solve_eq_ok_iff_run (hp : p.Sound) {cancelled : Bool} {turns : Nat} {solution : Solution} :
    solve p settings cancelled turns = .ok (some solution) ↔
      ∃ s₀ status s, start p settings = .ok s₀ ∧ run cancelled turns s₀ = .ok (some status) s ∧
        solution = ⟨s.grid.plan p, s.grid.objective p, s.pivots, status, settings.corner⟩ := by
  have hfinish : ∀ {s₀ status s}, start p settings = .ok s₀ →
      run cancelled turns s₀ = .ok (some status) s → s.finish status =
        .ok ⟨s.grid.plan p, s.grid.objective p, s.pivots, status, settings.corner⟩ :=
    fun hs₀ hrun => (follows_of_run hp hs₀ hrun).valid.finish_eq hp _
  rw [solve_eq_ok_iff]
  constructor
  · rintro ⟨s₀, status, s, hs₀, hrun, hsolution⟩
    rw [hfinish hs₀ hrun] at hsolution
    exact ⟨s₀, status, s, hs₀, hrun, (Except.ok.inj hsolution).symm⟩
  · rintro ⟨s₀, status, s, hs₀, hrun, rfl⟩
    exact ⟨s₀, status, s, hs₀, hrun, hfinish hs₀ hrun⟩

theorem reachable_plan (hp : Problem.ofTable costs supply demand = .ok p)
    (hs : s.Reachable p settings) :
    (s.grid.rows = supply.length ∧ s.grid.cols = demand.length ∧
      s.grid.cells.length = supply.length * demand.length) ∧
    (∀ cell ∈ s.grid.cells, 0 ≤ cell.amount) ∧
    (∀ i, i < supply.length → s.grid.shippedFrom i = .ok (supply.getD i 0)) ∧
    (∀ j, j < demand.length → s.grid.shippedTo j = .ok (demand.getD j 0)) ∧
    s.grid.cells.countP Cell.isBasic = supply.length + demand.length - 1 ∧
    s.grid.basicCount = supply.length + demand.length - 1 ∧
    s.grid.graph.IsTree ∧
    ∀ status, ∃ solution, s.finish status = .ok solution ∧
      solution.plan.length = supply.length ∧
      (∀ row ∈ solution.plan, row.length = demand.length ∧ ∀ x ∈ row, 0 ≤ x) ∧
      solution.plan.map List.sum = supply ∧
      ((List.range demand.length).map fun j =>
        (solution.plan.map fun row => row.getD j 0).sum) = demand ∧
      p.planCost solution.plan = .ok solution.totalCost := by
  have hsound := Problem.sound_of_ofTable hp
  obtain ⟨rfl, rfl⟩ := parties_of_ofTable hp
  rw [hsound.length_supply, hsound.length_demand]
  have hvalid := hs.valid hsound
  have hplan := hvalid.plan
  have hcount := hplan.basicCount_eq hsound
  have hfeasible := hplan.feasible
  refine ⟨⟨hplan.fits.1, hplan.fits.2, ?_⟩,
    fun cell hcell => hfeasible.nonneg_of_mem_cells hplan.fits hplan.regular hcell,
    fun i hi => hfeasible.shippedFrom_eq_ok hsound hplan.fits hplan.regular hi,
    fun j hj => hfeasible.shippedTo_eq_ok hsound hplan.fits hplan.regular hj,
    hplan.regular.basicCount_eq.symm.trans hcount, hcount, hplan.tree, fun status =>
      ⟨_, hvalid.finish_eq hsound status, by simp [Grid.plan],
        fun row hrow => hfeasible.mem_plan hrow, hfeasible.sum_plan_rows hsound,
        hfeasible.sum_plan_cols hsound, hfeasible.planCost_eq_ok hsound hplan.fits⟩⟩
  rw [hplan.regular.length_cells, hplan.fits.1, hplan.fits.2]

theorem reachable_plan_crossed : ∃ s : Solver, s.Reachable crossed {} ∧ s.pivots = 1 ∧
    s.grid.graph.IsTree :=
  have h := Reachable.call (.start start_crossed) (.run false 2)
  ⟨_, h, by decide +kernel, (reachable_plan ofTable_crossed h).2.2.2.2.2.2.1⟩

/-- No call on a reachable solver fails before the pivots outgrow the count of a signed number. -/
theorem reachable_call_returns (hp : Problem.ofTable costs supply demand = .ok p)
    (hsettings : settings.defect? = none) (hcount : settings.Countable p) :
    (∃ s, start p settings = .ok s) ∧
    ∀ s : Solver, s.Reachable p settings →
      (∀ c : SolverCall, (s.call c.perform).2.pivots < 2 ^ 63 → (s.call c.perform).1 = .ok ()) ∧
      s.grid.meets p = .ok true ∧
      (∀ i, i < p.rows → ∃ x, s.grid.shippedFrom i = .ok x) ∧
      (∀ j, j < p.cols → ∃ x, s.grid.shippedTo j = .ok x) ∧
      (∃ x, s.grid.totalCost p = .ok x) ∧
      (∀ status, ∃ solution x, s.finish status = .ok solution ∧
        p.planCost solution.plan = .ok x) ∧
      CycleSearch.budget s.grid ≤ Count.greatest ∧ p.rows + p.cols ≤ Count.greatest := by
  have hsound := Problem.sound_of_ofTable hp
  refine ⟨start_eq_ok hsound hsettings, fun s hs => ?_⟩
  have hvalid := hs.valid hsound
  have hplan := hvalid.plan
  have hfeasible := hplan.feasible
  refine ⟨fun c hpivots => ?_, hfeasible.meets_eq_ok hsound hplan.fits hplan.regular,
    fun i hi => ⟨_, hfeasible.shippedFrom_eq_ok hsound hplan.fits hplan.regular hi⟩,
    fun j hj => ⟨_, hfeasible.shippedTo_eq_ok hsound hplan.fits hplan.regular hj⟩,
    ⟨_, hfeasible.totalCost_eq_ok hsound hplan.fits hplan.regular⟩, fun status =>
      ⟨_, _, hvalid.finish_eq hsound status, hfeasible.planCost_eq_ok hsound hplan.fits⟩,
    hplan.budget_le hsound, hsound.nodes_le⟩
  have hleaves := leaves_perform hvalid hsound c
  rw [Solver.call] at hpivots ⊢
  cases hresult : c.perform s with
  | ok a s' => rfl
  | error failure s' =>
      rw [hresult] at hleaves hpivots
      have hfull := hleaves.2 hcount
      simp only [Count.greatest] at hfull hpivots
      omega

theorem reachable_call_returns_crossed :
    ∃ s : Solver, s.Reachable crossed { split := some ⟨2, 1⟩ } ∧
      (s.call (SolverCall.run false 2).perform).1 = .ok () :=
  have hcount : SolverSettings.Countable { split := some ⟨2, 1⟩ } crossed := by
    rintro split ⟨⟩
    decide
  have h := reachable_call_returns ofTable_crossed rfl hcount
  have hs := @Reachable.start crossed { split := some ⟨2, 1⟩ } _ rfl
  ⟨_, hs, (h.2 _ hs).1 _ (by decide +kernel)⟩

end Solver

end Transportation
