import Transportation.Proofs.Progress
/-!
# Runs with a limit of pivots

A run makes the pivots that steps would make, up to the first plan that is optimal or at which the
limit is reached. A plan that is both counts as optimal. So the limit only cuts a solve short, and a
higher limit never leads to a costlier plan.
-/
namespace Transportation

def SolverSettings.withLimit (settings : SolverSettings) (limit : Nat) : SolverSettings :=
  { settings with maxPivots := limit }

namespace Solver

open SolverM

def afterSteps (s : Solver) (n : Nat) : Solver := (fun s => (s.call step).2)^[n] s

/-- An evaluation finds the plan optimal. -/
def AtOptimum (s : Solver) : Prop := (s.call evaluate).1.map Evaluation.optimal = .ok true

/-- After some steps the plan is optimal or the limit of pivots is reached. -/
def Ends (s : Solver) (n : Nat) : Prop :=
  (s.afterSteps n).AtOptimum ∨ 0 < s.settings.maxPivots ∧ s.settings.maxPivots ≤ s.pivots + n

/-- A run ends where a number of steps lead to, the least that ends it, and none of them finds the
plan optimal before. -/
structure Stops (s : Solver) (t : Nat) (status : Ending) (s' : Solver) : Prop where
  least : IsLeast {n | s.Ends n} t
  pivoted : ∀ n, n < t → ∃ result, ((s.afterSteps n).call step).1 = .ok (.pivoted result)
  state_eq : s' = ((s.afterSteps t).call evaluate).2
  grid_eq : s'.grid = (s.afterSteps t).grid
  pivots_eq : s'.pivots = s.pivots + t
  status_eq : (s.afterSteps t).AtOptimum ∧ status = .optimal ∨
    ¬ (s.afterSteps t).AtOptimum ∧ status = .limitReached

section Steps

variable {s s₁ s' : Solver} {result : StepResult} {n t : Nat}

theorem afterSteps_succ (h : step s = .ok result s₁) (n : Nat) :
    s.afterSteps (n + 1) = s₁.afterSteps n := by
  have hcall : (s.call step).2 = s₁ := by rw [Solver.call, h]
  rw [afterSteps, Function.iterate_succ_apply, hcall, afterSteps]

theorem ends_zero_iff : s.Ends 0 ↔ s.AtOptimum ∨ s.atLimit = true := by
  rw [Ends, atLimit, Bool.and_eq_true, decide_eq_true_iff, decide_eq_true_iff]
  rfl

/-- A step of a solver, without a change to its settings, that makes one pivot more. -/
structure Moves (s : Solver) (outcome : PivotResult) (s₁ : Solver) : Prop where
  step_eq : step s = .ok (.pivoted outcome) s₁
  settings_eq : s₁.settings = s.settings
  pivots_eq : s₁.pivots = s.pivots + 1

variable {outcome : PivotResult}

theorem Moves.ends_succ_iff (h : s.Moves outcome s₁) (n : Nat) :
    s.Ends (n + 1) ↔ s₁.Ends n := by
  rw [Ends, Ends, afterSteps_succ h.step_eq, h.settings_eq, h.pivots_eq, Nat.add_right_comm,
    Nat.add_assoc]

theorem Moves.isLeast_iff (h : s.Moves outcome s₁) (hzero : ¬ s.Ends 0) :
    IsLeast {n | s.Ends n} (t + 1) ↔ IsLeast {n | s₁.Ends n} t := by
  constructor
  · rintro ⟨hends, hleast⟩
    refine ⟨(h.ends_succ_iff t).mp hends, fun n hn => ?_⟩
    exact Nat.le_of_succ_le_succ (hleast ((h.ends_succ_iff n).mpr hn))
  · rintro ⟨hends, hleast⟩
    refine ⟨(h.ends_succ_iff t).mpr hends, fun n hn => ?_⟩
    cases n with
    | zero => exact absurd hn hzero
    | succ n => exact Nat.succ_le_succ (hleast ((h.ends_succ_iff n).mp hn))

theorem Moves.stops {status : Ending} (h : s.Moves outcome s₁) (hzero : ¬ s.Ends 0)
    (hstops : s₁.Stops t status s') : s.Stops (t + 1) status s' where
  least := (h.isLeast_iff hzero).mpr hstops.least
  pivoted n hn := by
    cases n with
    | zero =>
        refine ⟨outcome, ?_⟩
        rw [afterSteps, Function.iterate_zero_apply, Solver.call, h.step_eq]
    | succ n =>
        rw [afterSteps_succ h.step_eq]
        exact hstops.pivoted n (Nat.lt_of_succ_lt_succ hn)
  state_eq := by rw [afterSteps_succ h.step_eq, hstops.state_eq]
  grid_eq := by rw [afterSteps_succ h.step_eq, hstops.grid_eq]
  pivots_eq := by rw [hstops.pivots_eq, h.pivots_eq, Nat.add_right_comm, Nat.add_assoc]
  status_eq := by
    rw [afterSteps_succ h.step_eq]
    exact hstops.status_eq

end Steps

/-- What a turn of a valid solver does, said by the step from the same solver. -/
inductive OneTurn (s : Solver) (p : Problem) (settings : SolverSettings) : Prop
  | optimal {evaluation : Evaluation} {s' : Solver} (h : s.AtOptimum)
      (hevaluate : evaluate s = .ok evaluation s') (hgrid : s'.grid = s.grid)
      (hpivots : s'.pivots = s.pivots) (hturn : turn false s = .ok (some .optimal) s')
  | limit {evaluation : Evaluation} {s' : Solver} (h : ¬ s.AtOptimum) (hlimit : s.atLimit = true)
      (hevaluate : evaluate s = .ok evaluation s') (hgrid : s'.grid = s.grid)
      (hpivots : s'.pivots = s.pivots) (hturn : turn false s = .ok (some .limitReached) s')
  | pivot {outcome : PivotResult} {s₁ : Solver} (hzero : ¬ s.Ends 0) (hmoves : s.Moves outcome s₁)
      (hvalid : s₁.Valid p settings) (hturn : turn false s = .ok none s₁)
  | full {failure : Failure} {s₁ : Solver} (hzero : ¬ s.Ends 0)
      (hfull : Count.greatest ≤ s.pivots) (hturn : turn false s = .error failure s₁)

section Run

variable {p : Problem} {settings : SolverSettings} {s s' : Solver} {t turns : Nat}
  {status : Ending}

theorem Valid.atOptimum_iff (h : s.Valid p settings) (hp : p.Sound)
    (hcount : settings.Countable p) {f : Node → Int} (hf : Prices p s.grid f) :
    s.AtOptimum ↔ (Evaluation.ofValues p s.grid f).entering = none := by
  rw [AtOptimum, Solver.call, evaluate_eq h hp hf hcount, ← Option.isNone_iff_eq_none]
  exact ⟨Except.ok.inj, congrArg Except.ok⟩

theorem Valid.oneTurn (h : s.Valid p settings) (hp : p.Sound) (hcount : settings.Countable p) :
    s.OneTurn p settings := by
  obtain ⟨f, hf⟩ := h.plan.exists_prices
  have hevaluate := evaluate_eq h hp hf hcount
  rcases step_cases h hp hcount hf with
    ⟨hnone, hstep⟩ | ⟨e, g, result, hentering, henter, hg, hstep⟩
  · exact .optimal ((h.atOptimum_iff hp hcount hf).mpr hnone) hevaluate rfl rfl
      (turn_of_none h hp hcount hf hnone)
  · have hnot : ¬ s.AtOptimum := by
      rw [h.atOptimum_iff hp hcount hf, hentering]
      exact Option.some_ne_none e
    have hturn := turn_of_some h hp hcount hf hentering henter
    by_cases hlimit : s.atLimit = true
    · rw [if_pos hlimit] at hturn
      exact .limit hnot hlimit hevaluate rfl rfl hturn
    · have hzero : ¬ s.Ends 0 := fun hends => (ends_zero_iff.mp hends).elim hnot hlimit
      rw [if_neg hlimit] at hturn
      by_cases hroom : s.pivots + 1 ≤ Count.greatest
      · rw [if_pos hroom] at hstep hturn
        exact .pivot hzero ⟨hstep, rfl, rfl⟩ ((h.evaluated hp hf).moved hg _) hturn
      · rw [if_neg hroom] at hturn
        exact .full hzero (by omega) hturn

private theorem stops_zero {evaluation : Evaluation} (hends : s.Ends 0)
    (hevaluate : evaluate s = .ok evaluation s') (hgrid : s'.grid = s.grid)
    (hpivots : s'.pivots = s.pivots)
    (hstatus : s.AtOptimum ∧ status = .optimal ∨ ¬ s.AtOptimum ∧ status = .limitReached) :
    s.Stops 0 status s' where
  least := ⟨hends, fun n _ => Nat.zero_le n⟩
  pivoted := nofun
  state_eq := by rw [afterSteps, Function.iterate_zero_apply, Solver.call, hevaluate]
  grid_eq := hgrid
  pivots_eq := hpivots
  status_eq := hstatus

theorem Valid.stops_of_run (h : s.Valid p settings) (hp : p.Sound) (hcount : settings.Countable p)
    (hrun : run false turns s = .ok (some status) s') : ∃ t < turns, s.Stops t status s' := by
  induction turns generalizing s with
  | zero => cases hrun
  | succ turns ih =>
      rw [run] at hrun
      cases h.oneTurn hp hcount with
      | optimal hoptimum hevaluate hgrid hpivots hturn =>
          rw [bind_of_ok hturn] at hrun
          cases hrun
          exact ⟨0, turns.succ_pos, stops_zero (ends_zero_iff.mpr (.inl hoptimum)) hevaluate hgrid
            hpivots (.inl ⟨hoptimum, rfl⟩)⟩
      | limit hnot hlimit hevaluate hgrid hpivots hturn =>
          rw [bind_of_ok hturn] at hrun
          cases hrun
          exact ⟨0, turns.succ_pos, stops_zero (ends_zero_iff.mpr (.inr hlimit)) hevaluate hgrid
            hpivots (.inr ⟨hnot, rfl⟩)⟩
      | pivot hzero hmoves hvalid hturn =>
          rw [bind_of_ok hturn] at hrun
          obtain ⟨t, ht, hstops⟩ := ih hvalid hrun
          exact ⟨t + 1, Nat.succ_lt_succ ht, hmoves.stops hzero hstops⟩
      | full hzero hfull hturn =>
          rw [bind_of_error hturn] at hrun
          contradiction

/-- A run ends if some number of steps ends it and as many pivots can be counted. -/
theorem Valid.run_of_isLeast (h : s.Valid p settings) (hp : p.Sound)
    (hcount : settings.Countable p) (hleast : IsLeast {n | s.Ends n} t)
    (hroom : s.pivots + t ≤ Count.greatest) (hturns : t < turns) :
    ∃ status s', run false turns s = .ok (some status) s' := by
  induction t generalizing s turns with
  | zero =>
      obtain ⟨turns, rfl⟩ := Nat.exists_eq_succ_of_ne_zero hturns.ne'
      rw [run]
      cases h.oneTurn hp hcount with
      | optimal _ _ _ _ hturn => exact ⟨_, _, bind_of_ok hturn⟩
      | limit _ _ _ _ _ hturn => exact ⟨_, _, bind_of_ok hturn⟩
      | pivot hzero => exact absurd hleast.1 hzero
      | full hzero => exact absurd hleast.1 hzero
  | succ t ih =>
      obtain ⟨turns, rfl⟩ := Nat.exists_eq_succ_of_ne_zero (Nat.ne_zero_of_lt hturns)
      have hzero : ¬ s.Ends 0 := fun hends => absurd (hleast.2 hends) (Nat.not_succ_le_zero t)
      rw [run]
      cases h.oneTurn hp hcount with
      | optimal hoptimum => exact absurd (ends_zero_iff.mpr (.inl hoptimum)) hzero
      | limit _ hlimit => exact absurd (ends_zero_iff.mpr (.inr hlimit)) hzero
      | pivot _ hmoves hvalid hturn =>
          rw [bind_of_ok hturn]
          refine ih hvalid ((hmoves.isLeast_iff hzero).mp hleast) ?_ (Nat.lt_of_succ_lt_succ hturns)
          rw [hmoves.pivots_eq]
          omega
      | full _ hfull => omega

end Run

section Steps

variable {p : Problem} {settings settings' : SolverSettings} {s s' : Solver} {k l : Nat}

private theorem Valid.after_step (h : s.Valid p settings) (hp : p.Sound)
    (hcount : settings.Countable p) : (s.call step).2.Valid p settings ∧
      (s.call step).2.grid.objective p ≤ s.grid.objective p := by
  obtain ⟨f, hf⟩ := h.plan.exists_prices
  rw [Solver.call]
  rcases step_cases h hp hcount hf with ⟨-, hstep⟩ | ⟨e, g, result, hentering, henter, hg, hstep⟩
  · rw [hstep]
    exact ⟨h.evaluated hp hf, le_rfl⟩
  · have hle := (h.plan.improves hp hf hentering henter).objective_le
    rw [hstep]
    by_cases hroom : s.pivots + 1 ≤ Count.greatest
    · rw [if_pos hroom]
      exact ⟨(h.evaluated hp hf).moved hg _, hle⟩
    · rw [if_neg hroom]
      exact ⟨(h.evaluated hp hf).moved hg s.pivots, hle⟩

theorem Valid.afterSteps (h : s.Valid p settings) (hp : p.Sound) (hcount : settings.Countable p)
    (n : Nat) : (s.afterSteps n).Valid p settings := by
  induction n with
  | zero => exact h
  | succ n ih =>
      rw [Solver.afterSteps, Function.iterate_succ_apply']
      exact (ih.after_step hp hcount).1

theorem Valid.objective_afterSteps_le (h : s.Valid p settings) (hp : p.Sound)
    (hcount : settings.Countable p) (hle : k ≤ l) :
    (s.afterSteps l).grid.objective p ≤ (s.afterSteps k).grid.objective p := by
  induction l, hle using Nat.le_induction with
  | base => exact le_rfl
  | succ l _ ih =>
      refine le_trans ?_ ih
      rw [Solver.afterSteps, Function.iterate_succ_apply']
      exact ((h.afterSteps hp hcount l).after_step hp hcount).2

theorem Twins.atOptimum_iff (h : Twins p settings settings' s s') (hp : p.Sound)
    (hcount : settings.Countable p) (hcount' : settings'.Countable p) :
    s'.AtOptimum ↔ s.AtOptimum := by
  obtain ⟨f, hf⟩ := h.left.plan.exists_prices
  have hf' : Prices p s'.grid f := h.grid_eq.symm ▸ hf
  rw [h.left.atOptimum_iff hp hcount hf, h.right.atOptimum_iff hp hcount' hf', h.grid_eq]

private theorem Twins.after_step (h : Twins p settings settings' s s') (hp : p.Sound)
    (hcount : settings.Countable p) (hcount' : settings'.Countable p) :
    Twins p settings settings' (s.call step).2 (s'.call step).2 := by
  obtain ⟨f, hf⟩ := h.left.plan.exists_prices
  have hf' : Prices p s'.grid f := h.grid_eq.symm ▸ hf
  have hevaluated : Twins p settings settings' (s.evaluated p f) (s'.evaluated p f) :=
    ⟨h.left.evaluated hp hf, h.right.evaluated hp hf', h.grid_eq, h.pivots_eq⟩
  rw [Solver.call, Solver.call]
  rcases step_cases h.left hp hcount hf with
    ⟨hnone, hstep⟩ | ⟨e, g, result, hentering, henter, hg, hstep⟩
  · rw [← h.grid_eq] at hnone
    rw [hstep, step_of_none h.right hp hcount' hf' hnone]
    exact hevaluated
  · rw [← h.grid_eq] at hentering henter
    rw [hstep, step_of_some h.right hp hcount' hf' hentering henter, h.pivots_eq]
    by_cases hroom : s.pivots + 1 ≤ Count.greatest
    · rw [if_pos hroom, if_pos hroom]
      exact ⟨hevaluated.left.moved hg _, hevaluated.right.moved hg _, rfl, rfl⟩
    · rw [if_neg hroom, if_neg hroom]
      exact ⟨hevaluated.left.moved hg s.pivots, hevaluated.right.moved hg s'.pivots, rfl,
        h.pivots_eq⟩

theorem Twins.afterSteps (h : Twins p settings settings' s s') (hp : p.Sound)
    (hcount : settings.Countable p) (hcount' : settings'.Countable p) (n : Nat) :
    Twins p settings settings' (s.afterSteps n) (s'.afterSteps n) := by
  induction n with
  | zero => exact h
  | succ n ih =>
      rw [Solver.afterSteps, Solver.afterSteps, Function.iterate_succ_apply',
        Function.iterate_succ_apply']
      exact ih.after_step hp hcount hcount'

end Steps

section Limits

variable {p : Problem} {settings : SolverSettings} {s₀ : Solver} {limit turns : Nat}
  {solution : Solution}

/-- A solution is where a solver without a limit comes in some steps. -/
structure Cut (s₀ : Solver) (p : Problem) (limit : Nat) (solution : Solution) : Prop where
  least : IsLeast {n | (s₀.afterSteps n).AtOptimum ∨ 0 < limit ∧ limit ≤ n} solution.pivots
  plan_eq : solution.plan = (s₀.afterSteps solution.pivots).grid.plan p
  totalCost_eq : solution.totalCost = (s₀.afterSteps solution.pivots).grid.objective p
  corner_eq : solution.corner = s₀.settings.corner
  status_eq : (s₀.afterSteps solution.pivots).AtOptimum ∧ solution.status = .optimal ∨
    ¬ (s₀.afterSteps solution.pivots).AtOptimum ∧ solution.status = .limitReached

private theorem countable_withLimit (hsplit : settings.split = none) (limit : Nat) :
    (settings.withLimit limit).Countable p :=
  SolverSettings.countable_of_split hsplit

private theorem defect?_withLimit (hsplit : settings.split = none) (limit : Nat) :
    (settings.withLimit limit).defect? = none := by
  rw [SolverSettings.defect?, SolverSettings.withLimit, hsplit]
  rfl

theorem cut_of_solve (hp : p.Sound) (hsplit : settings.split = none)
    (hs₀ : start p (settings.withLimit 0) = .ok s₀)
    (h : solve p (settings.withLimit limit) false turns = .ok (some solution)) :
    s₀.Cut p limit solution := by
  obtain ⟨s₁, status, s', hs₁, hrun, rfl⟩ := (solve_eq_ok_iff_run hp).mp h
  obtain ⟨hvalid, -, hpivots⟩ := start_valid hp hs₁
  obtain ⟨t, -, hstops⟩ := hvalid.stops_of_run hp (countable_withLimit hsplit limit) hrun
  obtain rfl : s'.pivots = t := by rw [hstops.pivots_eq, hpivots, Nat.zero_add]
  -- Step by step the solver without a limit is at the plan of the one that has it.
  have hcorner : (settings.withLimit 0).corner = (settings.withLimit limit).corner := rfl
  have htwins := (start_twins hp hcorner hs₀ hs₁).afterSteps hp (countable_withLimit hsplit 0)
    (countable_withLimit hsplit limit)
  have hoptimum : ∀ n, (s₁.afterSteps n).AtOptimum ↔ (s₀.afterSteps n).AtOptimum := fun n =>
    (htwins n).atOptimum_iff hp (countable_withLimit hsplit 0) (countable_withLimit hsplit limit)
  have hends : ∀ n, s₁.Ends n ↔ (s₀.afterSteps n).AtOptimum ∨ 0 < limit ∧ limit ≤ n := by
    intro n
    rw [Ends, hoptimum, hvalid.settings, hpivots, Nat.zero_add]
    rfl
  have hgrid : s'.grid = (s₀.afterSteps s'.pivots).grid :=
    hstops.grid_eq.trans (htwins s'.pivots).grid_eq
  refine ⟨?_, congrArg (Grid.plan p) hgrid, congrArg (Grid.objective · p) hgrid, ?_, ?_⟩
  · have hleast := hstops.least
    simp only [hends] at hleast
    exact hleast
  · rw [(start_valid hp hs₀).1.settings]
    rfl
  · have hstatus := hstops.status_eq
    rwa [hoptimum] at hstatus

theorem Cut.eq_of_pivots_eq {limit' : Nat} {solution' : Solution} (h : s₀.Cut p limit solution)
    (h' : s₀.Cut p limit' solution') (hpivots : solution'.pivots = solution.pivots) :
    solution' = solution := by
  obtain ⟨plan, cost, pivots, status, corner⟩ := solution
  obtain ⟨plan', cost', pivots', status', corner'⟩ := solution'
  obtain rfl : pivots' = pivots := hpivots
  obtain ⟨-, hplan, hcost, hcorner, hstatus⟩ := h
  obtain ⟨-, hplan', hcost', hcorner', hstatus'⟩ := h'
  have hstatusEq : status' = status := by
    rcases hstatus with ⟨hoptimum, hstatus⟩ | ⟨hnot, hstatus⟩ <;>
      rcases hstatus' with ⟨hoptimum', hstatus'⟩ | ⟨hnot', hstatus'⟩
    · exact hstatus'.trans hstatus.symm
    · exact absurd hoptimum hnot'
    · exact absurd hoptimum' hnot
    · exact hstatus'.trans hstatus.symm
  rw [Solution.mk.injEq]
  exact ⟨hplan'.trans hplan.symm, hcost'.trans hcost.symm, rfl, hstatusEq,
    hcorner'.trans hcorner.symm⟩

/-- A limit leaves the pivots of a solve without one up to its number. -/
theorem Cut.pivots_eq {solution' : Solution} (h : s₀.Cut p 0 solution)
    (h' : s₀.Cut p limit solution') (hlimit : 0 < limit) :
    solution'.pivots = min limit solution.pivots := by
  have hoptimum : (s₀.afterSteps solution.pivots).AtOptimum :=
    h.least.1.resolve_right fun hzero => hzero.1.false
  have hle : solution'.pivots ≤ limit := h'.least.2 (.inr ⟨hlimit, le_rfl⟩)
  have hle' : solution'.pivots ≤ solution.pivots := h'.least.2 (.inl hoptimum)
  have hge : solution.pivots ≤ solution'.pivots ∨ limit ≤ solution'.pivots :=
    h'.least.1.imp (fun hoptimum' => h.least.2 (.inl hoptimum')) fun hlimit' => hlimit'.2
  omega

theorem Cut.pivots_le {limit' : Nat} {solution' : Solution} (h : s₀.Cut p limit solution)
    (h' : s₀.Cut p limit' solution') (hlimit : 0 < limit) (hle : limit ≤ limit') :
    solution.pivots ≤ solution'.pivots :=
  h.least.2 (h'.least.1.imp_right fun hlimit' => ⟨hlimit, hle.trans hlimit'.2⟩)

theorem solve_of_limit (hp : p.Sound) (hsplit : settings.split = none) (hlimit : 0 < limit)
    (hroom : limit ≤ Count.greatest) : ∃ solution, ∀ turns, limit < turns →
      solve p (settings.withLimit limit) false turns = .ok (some solution) := by
  have hcount := countable_withLimit (p := p) hsplit limit
  obtain ⟨s, hs⟩ := start_eq_ok hp (defect?_withLimit hsplit limit)
  obtain ⟨hvalid, -, hpivots⟩ := start_valid hp hs
  have hends : s.Ends limit := by
    refine .inr ?_
    rw [hvalid.settings, hpivots, Nat.zero_add]
    exact ⟨hlimit, le_rfl⟩
  have hnonempty : {n | s.Ends n}.Nonempty := ⟨limit, hends⟩
  obtain ⟨t, hleast⟩ : ∃ t, IsLeast {n | s.Ends n} t := ⟨_, isLeast_csInf hnonempty⟩
  have ht : t ≤ limit := hleast.2 hends
  obtain ⟨status, s', hrun⟩ := hvalid.run_of_isLeast hp hcount hleast (by omega) t.lt_succ_self
  refine ⟨_, fun turns hturns => (solve_eq_ok_iff_run hp).mpr ⟨s, status, s', hs, ?_, rfl⟩⟩
  have hmore := run_add hrun (turns - (t + 1))
  rwa [Nat.add_sub_cancel' (by omega)] at hmore

end Limits

section Budgets

variable {p : Problem} {settings : SolverSettings}

/-- A run that is not cancelled ends after the least number of steps that lead to an optimal plan
or to the limit. A limit makes every solve end, where the steps without a limit are by then, and the
solutions with different limits are plans of one sequence that never gets costlier. -/
theorem run_budgets {costs : List (List Int)} {supply demand : List Int}
    (hp : Problem.ofTable costs supply demand = .ok p) (hsplit : settings.split = none) :
    (∀ s : Solver, s.Reachable p settings →
      (∀ turns, run true (turns + 1) s = .ok (some .cancelled) s) ∧
      (∀ turns status s', run false turns s = .ok (some status) s' →
        ∃ t < turns, s.Stops t status s') ∧
      ∀ t turns, IsLeast {n | s.Ends n} t → s.pivots + t ≤ Count.greatest → t < turns →
        ∃ status s', run false turns s = .ok (some status) s') ∧
    (∀ limit, 0 < limit → limit ≤ Count.greatest → ∃ solution, ∀ turns, limit < turns →
      solve p (settings.withLimit limit) false turns = .ok (some solution)) ∧
    (∃ s₀, start p (settings.withLimit 0) = .ok s₀ ∧ ∀ limit turns solution,
      solve p (settings.withLimit limit) false turns = .ok (some solution) →
        s₀.Cut p limit solution) ∧
    (∀ limit turns turns' solution solution', 0 < limit →
      solve p (settings.withLimit 0) false turns = .ok (some solution) →
      solve p (settings.withLimit limit) false turns' = .ok (some solution') →
      solution'.pivots = min limit solution.pivots ∧
        (solution.pivots ≤ limit → solution' = solution)) ∧
    ∀ limit limit' turns turns' solution solution', 0 < limit → limit ≤ limit' →
      solve p (settings.withLimit limit) false turns = .ok (some solution) →
      solve p (settings.withLimit limit') false turns' = .ok (some solution') →
      solution'.totalCost ≤ solution.totalCost := by
  have hsound := Problem.sound_of_ofTable hp
  have hcount : settings.Countable p := SolverSettings.countable_of_split hsplit
  obtain ⟨s₀, hs₀⟩ := start_eq_ok hsound (defect?_withLimit hsplit 0)
  refine ⟨fun s hs => ⟨fun turns => rfl, fun turns status s' hrun => ?_,
    fun t turns hleast hroom hturns => ?_⟩, fun limit hlimit hroom => ?_,
    ⟨s₀, hs₀, fun limit turns solution => cut_of_solve hsound hsplit hs₀⟩,
    fun limit turns turns' solution solution' hlimit hsolve hsolve' => ?_,
    fun limit limit' turns turns' solution solution' hlimit hle hsolve hsolve' => ?_⟩
  · exact (hs.valid hsound).stops_of_run hsound hcount hrun
  · exact (hs.valid hsound).run_of_isLeast hsound hcount hleast hroom hturns
  · exact solve_of_limit hsound hsplit hlimit hroom
  · have hcut := cut_of_solve hsound hsplit hs₀ hsolve
    have hcut' := cut_of_solve hsound hsplit hs₀ hsolve'
    have hpivots := hcut.pivots_eq hcut' hlimit
    refine ⟨hpivots, fun hle => hcut.eq_of_pivots_eq hcut' ?_⟩
    rw [hpivots, Nat.min_eq_right hle]
  · have hcut := cut_of_solve hsound hsplit hs₀ hsolve
    have hcut' := cut_of_solve hsound hsplit hs₀ hsolve'
    rw [hcut.totalCost_eq, hcut'.totalCost_eq]
    exact (start_valid hsound hs₀).1.objective_afterSteps_le hsound
      (countable_withLimit hsplit 0) (hcut.pivots_le hcut' hlimit hle)

/-- The plan is optimal when the limit is reached. -/
theorem run_budgets_crossed : ∃ s₀ s', start crossed { maxPivots := 1 } = .ok s₀ ∧
    run false 3 s₀ = .ok (some .optimal) s' ∧ s₀.Stops 1 .optimal s' ∧
    ∃ solution, ∀ turns, 1 < turns →
      solve crossed (SolverSettings.withLimit {} 1) false turns = .ok (some solution) := by
  have hsplit : SolverSettings.split { maxPivots := 1 } = none := rfl
  obtain ⟨hreachable, hsolve, -⟩ := run_budgets ofTable_crossed hsplit
  have hstart : start crossed { maxPivots := 1 } =
      .ok { crossedStart with settings := { maxPivots := 1 } } := rfl
  have hrun := eq_ok_of_call (show (Solver.call
    { crossedStart with settings := { maxPivots := 1 } } (run false 3)).1 = .ok (some .optimal) by
      decide +kernel)
  obtain ⟨t, -, hstops⟩ := (hreachable _ (.start hstart)).2.1 3 _ _ hrun
  have hpivots := hstops.pivots_eq
  have ht : 0 + t = 1 := hpivots.symm.trans (by decide +kernel)
  rw [Nat.zero_add] at ht
  subst ht
  exact ⟨_, _, hstart, hrun, hstops, hsolve 1 Nat.one_pos (by decide)⟩

end Budgets

end Solver

end Transportation
