import Mathlib.Algebra.Order.Ring.Cast
import Transportation.Proofs.ReachablePlans
/-!
# Optimal plans

The potentials of an evaluation that finds no entering cell are a certificate: no cell costs less
than the values of its ends, and the basic cells cost just as much. Then any shipment costs at least
what the values give for the supplies and demands, and the plan costs no more than that.
-/
namespace Transportation

section Shipment

variable {R : Type} [CommRing R]

def shippingCost (p : Problem) (x : Nat → Nat → R) : R :=
  ∑ i ∈ Finset.range p.rows, ∑ j ∈ Finset.range p.cols, (p.costAt i j : R) * x i j

/-- The amounts `x` are not negative, ship every supply and meet every demand. -/
structure Ships [LinearOrder R] (p : Problem) (x : Nat → Nat → R) : Prop where
  nonneg : ∀ i j, i < p.rows → j < p.cols → 0 ≤ x i j
  sum_row : ∀ i, i < p.rows → ∑ j ∈ Finset.range p.cols, x i j = p.supplyAt i
  sum_col : ∀ j, j < p.cols → ∑ i ∈ Finset.range p.rows, x i j = p.demandAt j

/-- What values of nodes give for the supplies and demands. -/
def dualValue (p : Problem) (f : Node → R) : R :=
  ∑ i ∈ Finset.range p.rows, f (.source i) * p.supplyAt i +
    ∑ j ∈ Finset.range p.cols, f (.sink j) * p.demandAt j

variable [LinearOrder R] {p : Problem} {x : Nat → Nat → R}

theorem Ships.sum_ends (h : Ships p x) (f : Node → R) :
    ∑ i ∈ Finset.range p.rows, ∑ j ∈ Finset.range p.cols,
      (f (.source i) + f (.sink j)) * x i j = dualValue p f := by
  have hsplit : ∀ i ∈ Finset.range p.rows, ∑ j ∈ Finset.range p.cols,
      (f (.source i) + f (.sink j)) * x i j =
        f (.source i) * p.supplyAt i + ∑ j ∈ Finset.range p.cols, f (.sink j) * x i j := by
    intro i hi
    rw [← h.sum_row i (Finset.mem_range.mp hi), Finset.mul_sum, ← Finset.sum_add_distrib]
    exact Finset.sum_congr rfl fun j _ => add_mul _ _ _
  have hcols : ∑ i ∈ Finset.range p.rows, ∑ j ∈ Finset.range p.cols, f (.sink j) * x i j =
      ∑ j ∈ Finset.range p.cols, f (.sink j) * p.demandAt j := by
    rw [Finset.sum_comm]
    apply Finset.sum_congr rfl
    intro j hj
    rw [← h.sum_col j (Finset.mem_range.mp hj), Finset.mul_sum]
  rw [Finset.sum_congr rfl hsplit, Finset.sum_add_distrib, hcols, dualValue]

/-- No shipment costs less than values of nodes that no cost falls short of. -/
theorem Ships.dualValue_le [IsStrictOrderedRing R] (h : Ships p x) {f : Node → Int}
    (hf : ∀ i j, i < p.rows → j < p.cols → f (.source i) + f (.sink j) ≤ p.costAt i j) :
    ((dualValue p f : Int) : R) ≤ shippingCost p x := by
  have hcast : ((dualValue p f : Int) : R) = dualValue p fun n => (f n : R) := by
    simp [dualValue]
  rw [hcast, ← h.sum_ends, shippingCost]
  apply Finset.sum_le_sum
  intro i hi
  apply Finset.sum_le_sum
  intro j hj
  have hcell := hf i j (Finset.mem_range.mp hi) (Finset.mem_range.mp hj)
  apply mul_le_mul_of_nonneg_right _
    (h.nonneg i j (Finset.mem_range.mp hi) (Finset.mem_range.mp hj))
  exact_mod_cast hcell

end Shipment

section Plan

variable {p : Problem} {g : Grid} {f : Node → Int}

theorem Grid.Feasible.ships (h : g.Feasible p) : Ships p g.amount :=
  ⟨h.nonneg, h.sum_row, h.sum_col⟩

theorem Grid.shippingCost_amount (hfit : g.Fits p) :
    shippingCost p g.amount = g.objective p := by
  rw [Grid.objective_eq hfit, shippingCost]
  apply Finset.sum_congr rfl
  intro i _
  apply Finset.sum_congr rfl
  intro j _
  rw [Int.cast_id, mul_comm]

theorem Prices.objective_eq (hf : Prices p g f) (hg : g.BasicPlan p) :
    g.objective p = dualValue p f := by
  rw [← hg.feasible.ships.sum_ends f, Grid.objective_eq hg.fits]
  apply Finset.sum_congr rfl
  intro i hi
  apply Finset.sum_congr rfl
  intro j hj
  by_cases hbasic : (i, j) ∈ g.basis
  · rw [hf.cell _ hbasic, mul_comm]
  · rw [Grid.amount_eq_zero_of_not_mem_basis (hg.fits.1.symm ▸ Finset.mem_range.mp hi)
      (hg.fits.2.symm ▸ Finset.mem_range.mp hj) hbasic, zero_mul, mul_zero]

/-- Potentials that prove a plan cheapest. -/
structure Certificate (p : Problem) (g : Grid) (values : Potentials) (z : Int) : Prop where
  length_u : values.u.length = p.rows
  length_v : values.v.length = p.cols
  cell_le : ∀ i j, i < p.rows → j < p.cols →
    values.u.getD i 0 + values.v.getD j 0 ≤ p.costAt i j
  basic_eq : ∀ i j, i < p.rows → j < p.cols → (g.cell i j).isBasic = true →
    values.u.getD i 0 + values.v.getD j 0 = p.costAt i j
  value_eq : ∑ i ∈ Finset.range p.rows, values.u.getD i 0 * p.supplyAt i +
    ∑ j ∈ Finset.range p.cols, values.v.getD j 0 * p.demandAt j = z

/-- A plan that costs `z`, as little as any shipment in any ordered ring. -/
structure Cheapest (p : Problem) (g : Grid) (z : Int) : Prop where
  totalCost : g.totalCost p = .ok z
  ships : Ships p g.amount
  cost_eq : shippingCost p g.amount = z
  le : ∀ (R : Type) [CommRing R] [LinearOrder R] [IsStrictOrderedRing R] (x : Nat → Nat → R),
    Ships p x → (z : R) ≤ shippingCost p x

theorem Cheapest.unique {g' : Grid} {z z' : Int} (h : Cheapest p g z) (h' : Cheapest p g' z') :
    z = z' := by
  have hle := h.le Int g'.amount h'.ships
  have hge := h'.le Int g.amount h.ships
  rw [h'.cost_eq, Int.cast_id] at hle
  rw [h.cost_eq, Int.cast_id] at hge
  exact le_antisymm hle hge

theorem Prices.certificate (hf : Prices p g f) (hg : g.BasicPlan p)
    (hle : ∀ i j, i < p.rows → j < p.cols → f (.source i) + f (.sink j) ≤ p.costAt i j) :
    Certificate p g (.ofValues p f) (g.objective p) where
  length_u := by simp [Potentials.ofValues]
  length_v := by simp [Potentials.ofValues]
  cell_le i j hi hj := by
    rw [(getD_ofValues f hi hj).1, (getD_ofValues f hi hj).2]
    exact hle i j hi hj
  basic_eq i j hi hj hbasic := by
    rw [(getD_ofValues f hi hj).1, (getD_ofValues f hi hj).2]
    exact hf.cell (i, j) (Grid.mem_basis.mpr ⟨hg.fits.1.symm ▸ hi, hg.fits.2.symm ▸ hj, hbasic⟩)
  value_eq := by
    rw [hf.objective_eq hg, dualValue]
    congr 1
    · apply Finset.sum_congr rfl
      intro i hi
      simp [Potentials.ofValues, Finset.mem_range.mp hi]
    · apply Finset.sum_congr rfl
      intro j hj
      simp [Potentials.ofValues, Finset.mem_range.mp hj]

theorem Prices.cheapest (hf : Prices p g f) (hp : p.Sound) (hg : g.BasicPlan p)
    (hle : ∀ i j, i < p.rows → j < p.cols → f (.source i) + f (.sink j) ≤ p.costAt i j) :
    Cheapest p g (g.objective p) where
  totalCost := hg.feasible.totalCost_eq_ok hp hg.fits hg.regular
  ships := hg.feasible.ships
  cost_eq := Grid.shippingCost_amount hg.fits
  le R _ _ _ x hx := by
    rw [hf.objective_eq hg]
    exact hx.dualValue_le hle

end Plan

namespace Solver

open SolverM

section Optimal

variable {p : Problem} {settings : SolverSettings} {s s' : Solver} {f : Node → Int}

/-- A solver whose potentials prove its plan cheapest. -/
def Proven (s : Solver) (p : Problem) : Prop :=
  ∃ values z, s.potentials = some values ∧ Certificate p s.grid values z ∧ Cheapest p s.grid z

theorem Valid.proven (h : s.Valid p settings) (hp : p.Sound) (hf : Prices p s.grid f)
    (hoptimal : (Evaluation.ofValues p s.grid f).optimal = true) : (s.evaluated p f).Proven p := by
  have hle := (Evaluation.optimal_iff hp h.plan.fits hf).mp hoptimal
  exact ⟨_, _, rfl, hf.certificate h.plan hle, hf.cheapest hp h.plan hle⟩

/-- An evaluation that reports an optimal plan has checked blocks that can be counted. -/
theorem Valid.of_evaluate (h : s.Valid p settings) (hp : p.Sound) (hf : Prices p s.grid f)
    {evaluation : Evaluation} (hresult : evaluate s = .ok evaluation s') :
    settings.Countable p ∧ evaluation = Evaluation.ofValues p s.grid f ∧
      s' = s.evaluated p f := by
  by_cases hcount : settings.Countable p
  · rw [evaluate_eq h hp hf hcount] at hresult
    cases hresult
    exact ⟨hcount, rfl, rfl⟩
  · obtain ⟨phase, herror⟩ := evaluate_error h hp hf hcount
    rw [herror] at hresult
    contradiction

theorem Valid.step_optimal_iff (h : s.Valid p settings) (hp : p.Sound) :
    step s = .ok .optimal s' ↔
      ∃ evaluation, evaluate s = .ok evaluation s' ∧ evaluation.optimal = true := by
  obtain ⟨f, hf⟩ := h.plan.exists_prices
  have hoptimal : (Evaluation.ofValues p s.grid f).optimal = true ↔
      (Evaluation.ofValues p s.grid f).entering = none := by
    rw [Evaluation.optimal, Option.isNone_iff_eq_none]
  constructor
  · intro hstep
    by_cases hcount : settings.Countable p
    · rcases step_cases h hp hcount hf with ⟨hnone, hstep'⟩ | ⟨e, g, result, -, -, -, hstep'⟩
      · rw [hstep'] at hstep
        cases hstep
        exact ⟨_, evaluate_eq h hp hf hcount, hoptimal.mpr hnone⟩
      · rw [hstep'] at hstep
        split at hstep <;> cases hstep
    · obtain ⟨phase, herror⟩ := evaluate_error h hp hf hcount
      rw [step, bind_of_error herror] at hstep
      contradiction
  · rintro ⟨evaluation, hevaluate, hopt⟩
    obtain ⟨hcount, rfl, rfl⟩ := h.of_evaluate hp hf hevaluate
    rw [step, bind_of_ok hevaluate, hoptimal.mp hopt]
    rfl

private theorem Valid.turn_optimal (h : s.Valid p settings) (hp : p.Sound) {cancelled : Bool}
    (hturn : turn cancelled s = .ok (some .optimal) s') : s'.Proven p := by
  obtain ⟨f, hf⟩ := h.plan.exists_prices
  cases cancelled with
  | true =>
      rw [turn_true] at hturn
      cases hturn
  | false =>
      by_cases hcount : settings.Countable p
      · rcases turn_eq_ok_cases h hp hcount hf hturn with
          ⟨rfl, ⟨-, hoptimal⟩ | hlimit⟩ | ⟨e, g, result, -, -, -, hending, -⟩
        · exact h.proven hp hf hoptimal
        · cases hlimit
        · cases hending
      · obtain ⟨phase, herror⟩ := evaluate_error h hp hf hcount
        rw [turn_false, bind_of_error herror] at hturn
        contradiction

theorem Valid.run_optimal (h : s.Valid p settings) (hp : p.Sound) {cancelled : Bool} {turns : Nat}
    (hrun : run cancelled turns s = .ok (some .optimal) s') : s'.Proven p := by
  induction turns generalizing s with
  | zero =>
      change EStateM.Result.ok none s = _ at hrun
      cases hrun
  | succ n ih =>
      cases hturn : turn cancelled s with
      | ok status s₁ =>
          rw [run, bind_of_ok hturn] at hrun
          cases status with
          | none => exact ih ((leaves_turn h hp cancelled).follows hturn).valid hrun
          | some status =>
              cases hrun
              exact h.turn_optimal hp hturn
      | error failure s₁ =>
          rw [run, bind_of_error hturn] at hrun
          contradiction

theorem cheapest_of_run {s₀ : Solver} {cancelled : Bool} {turns : Nat} (hp : p.Sound)
    (hs₀ : start p settings = .ok s₀)
    (hrun : run cancelled turns s₀ = .ok (some .optimal) s) :
    Cheapest p s.grid (s.grid.objective p) := by
  obtain ⟨-, z, -, -, hz⟩ := (start_valid hp hs₀).1.run_optimal hp hrun
  have hplan := (follows_of_run hp hs₀ hrun).valid.plan
  have hcost := hplan.feasible.totalCost_eq_ok hp hplan.fits hplan.regular
  rwa [Except.ok.inj (hcost.symm.trans hz.totalCost)]

private theorem solve_optimal_iff (hp : p.Sound) {cancelled : Bool} {turns : Nat}
    {solution : Solution} :
    (solve p settings cancelled turns = .ok (some solution) ∧ solution.status = .optimal) ↔
      ∃ s₀ s' z, start p settings = .ok s₀ ∧ run cancelled turns s₀ = .ok (some .optimal) s' ∧
        Cheapest p s'.grid z ∧
        solution = ⟨s'.grid.plan p, z, s'.pivots, .optimal, settings.corner⟩ := by
  rw [solve_eq_ok_iff_run hp]
  constructor
  · rintro ⟨⟨s₀, status, s', hs₀, hrun, rfl⟩, rfl⟩
    exact ⟨s₀, s', _, hs₀, hrun, cheapest_of_run hp hs₀ hrun, rfl⟩
  · rintro ⟨s₀, s', z, hs₀, hrun, hz, rfl⟩
    rw [hz.unique (cheapest_of_run hp hs₀ hrun)]
    exact ⟨⟨s₀, .optimal, s', hs₀, hrun, rfl⟩, rfl⟩

/-- A plan reported as optimal is a cheapest one, and the potentials prove it. A solve that ends as
optimal gives the plan and the cost of the solver that its run leads to. -/
theorem optimal_is_cheapest {costs : List (List Int)} {supply demand : List Int}
    (hp : Problem.ofTable costs supply demand = .ok p) :
    (∀ settings (s s' : Solver), s.Reachable p settings →
      (step s = .ok .optimal s' ↔
        ∃ evaluation, evaluate s = .ok evaluation s' ∧ evaluation.optimal = true) ∧
      (∀ evaluation, evaluate s = .ok evaluation s' → evaluation.optimal = true →
        s'.grid = s.grid ∧ s'.Proven p ∧
          ∀ turns, run false (turns + 1) s = .ok (some .optimal) s') ∧
      ∀ cancelled turns, run cancelled turns s = .ok (some .optimal) s' → s'.Proven p) ∧
    (∀ settings cancelled turns solution,
      (solve p settings cancelled turns = .ok (some solution) ∧ solution.status = .optimal) ↔
        ∃ s₀ s' z, start p settings = .ok s₀ ∧ run cancelled turns s₀ = .ok (some .optimal) s' ∧
          Cheapest p s'.grid z ∧
          solution = ⟨s'.grid.plan p, z, s'.pivots, .optimal, settings.corner⟩) ∧
    ∀ settings settings' cancelled cancelled' turns turns' solution solution',
      solve p settings cancelled turns = .ok (some solution) → solution.status = .optimal →
      solve p settings' cancelled' turns' = .ok (some solution') → solution'.status = .optimal →
      solution.totalCost = solution'.totalCost := by
  have hsound := Problem.sound_of_ofTable hp
  refine ⟨?_, fun settings cancelled turns solution => solve_optimal_iff hsound, ?_⟩
  · intro settings s s' hs
    have hvalid := hs.valid hsound
    obtain ⟨f, hf⟩ := hvalid.plan.exists_prices
    refine ⟨hvalid.step_optimal_iff hsound, fun evaluation hevaluate hoptimal => ?_,
      fun cancelled turns hrun => hvalid.run_optimal hsound hrun⟩
    obtain ⟨hcount, rfl, rfl⟩ := hvalid.of_evaluate hsound hf hevaluate
    refine ⟨rfl, hvalid.proven hsound hf hoptimal, fun turns => ?_⟩
    rcases turn_cases hvalid hsound hcount hf with ⟨-, hturn⟩ | ⟨e, g, result, hentering, -⟩
    · rw [run, bind_of_ok hturn]
      rfl
    · rw [Evaluation.optimal, hentering] at hoptimal
      contradiction
  · intro settings settings' cancelled cancelled' turns turns' solution solution' hsolve hstatus
      hsolve' hstatus'
    obtain ⟨s₀, s, z, -, -, hz, rfl⟩ := (solve_optimal_iff hsound).mp ⟨hsolve, hstatus⟩
    obtain ⟨s₀', s', z', -, -, hz', rfl⟩ := (solve_optimal_iff hsound).mp ⟨hsolve', hstatus'⟩
    exact hz.unique hz'

theorem optimal_is_cheapest_crossed :
    (∃ s s' : Solver, s.Reachable crossed {} ∧ run false 2 s = .ok (some .optimal) s' ∧
      s'.Proven crossed) ∧
    ∃ solution solution', solve crossed {} false 2 = .ok (some solution) ∧
      solve crossed { corner := .northEast, split := some ⟨2, 1⟩ } false 1 =
        .ok (some solution') ∧ solution.totalCost = solution'.totalCost := by
  have h := optimal_is_cheapest ofTable_crossed
  have hs : Reachable crossed {} crossedStart := .start start_crossed
  have hrun := eq_ok_of_call (show (crossedStart.call (run false 2)).1 = .ok (some .optimal) by
    decide +kernel)
  have hsolve : solve crossed {} false 2 =
      .ok (some ⟨[[0, 1], [1, 0]], 0, 1, .optimal, .northWest⟩) := by decide +kernel
  have hsolve' : solve crossed { corner := .northEast, split := some ⟨2, 1⟩ } false 1 =
      .ok (some ⟨[[0, 1], [1, 0]], 0, 0, .optimal, .northEast⟩) := by decide +kernel
  exact ⟨⟨_, _, hs, hrun, (h.1 _ _ _ hs).2.2 false 2 hrun⟩,
    _, _, hsolve, hsolve', h.2.2 _ _ _ _ _ _ _ _ hsolve rfl hsolve' rfl⟩

end Optimal

end Solver

end Transportation
