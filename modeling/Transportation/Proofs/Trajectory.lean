import Transportation.Proofs.Optimality
/-!
# One trajectory for a problem and a corner

A problem and a corner fix a sequence of plans. Whatever the other settings are and whichever calls
are made, a solver is at the plan whose number is its count of pivots, and what it computes there is
what the evaluation and the pivot without a split compute. A solve therefore depends on its settings
only through the corner and the limit of pivots.
-/
namespace Transportation

/-- The stages of a problem from a corner; an optimal one repeats. -/
def trajectory (p : Problem) (corner : Corner) : Nat → Except Failure Stage
  | 0 => do (← corner.firstBasis p).stage p
  | k + 1 => do
    let stage ← trajectory p corner k
    match stage.pivot with
    | none => return stage
    | some (g, _) => g.stage p

namespace Stage

def result (stage : Stage) : StepResult :=
  match stage.pivot with
  | none => .optimal
  | some (_, result) => .pivoted result

def following (stage : Stage) : Grid :=
  match stage.pivot with
  | none => stage.grid
  | some (g, _) => g

end Stage

section Trajectory

variable {p : Problem} {corner : Corner} {g : Grid}

theorem Grid.BasicPlan.exists_stage (hg : g.BasicPlan p) (hp : p.Sound) :
    ∃ stage, g.stage p = .ok stage ∧ stage.following.BasicPlan p := by
  obtain ⟨f, hf⟩ := hg.exists_prices
  rcases Grid.stage_cases hp hg hf with ⟨-, hstage⟩ | ⟨e, g', result, -, -, hg', hstage⟩
  · exact ⟨_, hstage, hg⟩
  · exact ⟨_, hstage, hg'⟩

theorem Grid.BasicPlan.grid_of_stage (hg : g.BasicPlan p) (hp : p.Sound) {stage : Stage}
    (hstage : g.stage p = .ok stage) : stage.grid = g := by
  obtain ⟨f, hf⟩ := hg.exists_prices
  rcases Grid.stage_cases hp hg hf with ⟨-, hstage'⟩ | ⟨e, g', result, -, -, -, hstage'⟩
  · cases hstage.symm.trans hstage'
    rfl
  · cases hstage.symm.trans hstage'
    rfl

theorem trajectory_succ {stage : Stage} {k : Nat} (h : trajectory p corner k = .ok stage)
    (hstage : stage.grid.stage p = .ok stage) :
    trajectory p corner (k + 1) = stage.following.stage p := by
  rw [trajectory, h, ok_bind, Stage.following]
  cases stage.pivot with
  | none => exact hstage.symm
  | some next => rfl

theorem exists_trajectory (hp : p.Sound) (corner : Corner) (k : Nat) :
    ∃ stage, trajectory p corner k = .ok stage ∧ stage.grid.BasicPlan p ∧
      stage.grid.stage p = .ok stage := by
  induction k with
  | zero =>
      obtain ⟨g, hg, hplan⟩ := Corner.basicPlan_firstBasis hp corner
      obtain ⟨stage, hstage, -⟩ := hplan.exists_stage hp
      obtain rfl := hplan.grid_of_stage hp hstage
      refine ⟨stage, ?_, hplan, hstage⟩
      rw [trajectory, hg, ok_bind, hstage]
  | succ k ih =>
      obtain ⟨stage, htrajectory, hplan, hstage⟩ := ih
      obtain ⟨stage', hstage', hfollowing⟩ := hplan.exists_stage hp
      cases hstage.symm.trans hstage'
      obtain ⟨next, hnext, -⟩ := hfollowing.exists_stage hp
      have hgrid := hfollowing.grid_of_stage hp hnext
      exact ⟨next, (trajectory_succ htrajectory hstage).trans hnext, hgrid ▸ hfollowing,
        hgrid ▸ hnext⟩

/-- Pivots from the first basis lead along the trajectory. -/
theorem trajectory_of_advances (hfirst : corner.firstBasis p = .ok g) {b : Grid × Nat}
    (h : Relation.ReflTransGen (Advance p) (g, 0) b) : trajectory p corner b.2 = b.1.stage p := by
  induction h with
  | refl => rw [trajectory, hfirst, ok_bind]
  | tail _ hstep ih =>
      obtain ⟨stage, result, hstage, hpivot, hcount⟩ := hstep
      rw [hcount, trajectory, ih, hstage, ok_bind, hpivot]

end Trajectory

/-- Settings that a solver of the problem from the corner can be started with. -/
structure SolverSettings.Admits (settings : SolverSettings) (p : Problem) (corner : Corner) :
    Prop where
  corner_eq : settings.corner = corner
  defect?_eq : settings.defect? = none
  countable : settings.Countable p

namespace Solver

open SolverM

/-- A solver that is at the plan of a stage and computes what the stage says. -/
structure At (s : Solver) (stage : Stage) : Prop where
  grid_eq : s.grid = stage.grid
  kept : ∀ values, s.potentials = some values → values = stage.values
  refreshPotentials_eq : ∃ s', refreshPotentials s = .ok stage.values s'
  evaluate_eq : ∃ s', evaluate s = .ok stage.evaluation s' ∧ s'.potentials = some stage.values ∧
    s'.deltas = stage.deltas
  step_eq : s.pivots < Count.greatest →
    ∃ s', step s = .ok stage.result s' ∧ s'.grid = stage.following

section At

variable {p : Problem} {settings : SolverSettings} {s : Solver}

theorem Valid.at_stage (h : s.Valid p settings) (hp : p.Sound) (hcount : settings.Countable p)
    {stage : Stage} (hstage : s.grid.stage p = .ok stage) : s.At stage := by
  obtain ⟨f, hf⟩ := h.plan.exists_prices
  have hat : ∀ pivot, (s.pivots < Count.greatest → ∃ s',
      step s = .ok (Stage.ofValues p s.grid f pivot).result s' ∧
        s'.grid = (Stage.ofValues p s.grid f pivot).following) →
      s.At (.ofValues p s.grid f pivot) := fun pivot hstep =>
    ⟨rfl, fun values hvalues => h.potentials values hvalues f hf,
      ⟨_, refreshPotentials_eq h hp hf⟩, ⟨_, evaluate_eq h hp hf hcount, rfl, rfl⟩, hstep⟩
  rcases Grid.stage_cases hp h.plan hf with
    ⟨hnone, hstage'⟩ | ⟨e, g, result, hentering, henter, -, hstage'⟩
  · rw [hstage'] at hstage
    cases hstage
    apply hat
    intro _
    exact ⟨_, step_of_none h hp hcount hf hnone, rfl⟩
  · rw [hstage'] at hstage
    cases hstage
    apply hat
    intro hroom
    have hstep := step_of_some h hp hcount hf hentering henter
    rw [if_pos (by omega)] at hstep
    exact ⟨_, hstep, rfl⟩

theorem leaves_forM (hp : p.Sound) (calls : List SolverCall) (h : s.Valid p settings) :
    s.Leaves p settings (calls.forM SolverCall.perform s) := by
  induction calls generalizing s with
  | nil => exact Follows.refl h
  | cons c calls ih => exact (leaves_perform h hp c).bind fun _ s' hs' => ih hs'

theorem Follows.exists_stage {s₀ : Solver} (h : s.Follows s₀ p settings) (hp : p.Sound)
    (hs₀ : start p settings = .ok s₀) :
    ∃ stage, trajectory p settings.corner s.pivots = .ok stage ∧ s.grid.stage p = .ok stage := by
  obtain ⟨-, hfirst, hpivots⟩ := start_valid hp hs₀
  have hadvances := h.pivots
  rw [hpivots] at hadvances
  obtain ⟨stage, hstage, -⟩ := h.valid.plan.exists_stage hp
  exact ⟨stage, (trajectory_of_advances hfirst hadvances).trans hstage, hstage⟩

end At

/-- Solvers at the same plan after as many pivots. -/
structure Twins (p : Problem) (settings settings' : SolverSettings) (s s' : Solver) : Prop where
  left : s.Valid p settings
  right : s'.Valid p settings'
  grid_eq : s'.grid = s.grid
  pivots_eq : s'.pivots = s.pivots

inductive Alike {α : Type} (p : Problem) (settings settings' : SolverSettings) :
    EStateM.Result Failure Solver α → EStateM.Result Failure Solver α → Prop
  | ok {s s' : Solver} (a : α) (h : Twins p settings settings' s s') :
      Alike p settings settings' (.ok a s) (.ok a s')
  | error {s s' : Solver} (failure : Failure) :
      Alike p settings settings' (.error failure s) (.error failure s')

section Twins

variable {p : Problem} {settings settings' : SolverSettings} {s s' : Solver}

private theorem Twins.atLimit_eq (h : Twins p settings settings' s s')
    (hmax : settings.maxPivots = settings'.maxPivots) : s'.atLimit = s.atLimit := by
  rw [atLimit, atLimit, h.left.settings, h.right.settings, h.pivots_eq, hmax]

theorem Alike.bind {α β : Type} {x : SolverM α} {k : α → SolverM β}
    (hx : Alike p settings settings' (x s) (x s'))
    (hk : ∀ a (t t' : Solver), Twins p settings settings' t t' →
      Alike p settings settings' (k a t) (k a t')) :
    Alike p settings settings' ((x >>= k) s) ((x >>= k) s') := by
  cases hresult : x s with
  | ok a t =>
      cases hresult' : x s' with
      | ok a' t' =>
          rw [hresult, hresult'] at hx
          rw [bind_of_ok hresult, bind_of_ok hresult']
          cases hx with
          | ok _ htwins => exact hk a t t' htwins
      | error failure t' =>
          rw [hresult, hresult'] at hx
          nomatch hx
  | error failure t =>
      cases hresult' : x s' with
      | ok a' t' =>
          rw [hresult, hresult'] at hx
          nomatch hx
      | error failure' t' =>
          rw [hresult, hresult'] at hx
          rw [bind_of_error hresult, bind_of_error hresult']
          cases hx with
          | error => exact .error failure

theorem turn_alike (hp : p.Sound) (hcount : settings.Countable p) (hcount' : settings'.Countable p)
    (hmax : settings.maxPivots = settings'.maxPivots) (h : Twins p settings settings' s s')
    (cancelled : Bool) :
    Alike p settings settings' (turn cancelled s) (turn cancelled s') := by
  cases cancelled with
  | true => exact .ok _ h
  | false =>
      obtain ⟨f, hf⟩ := h.left.plan.exists_prices
      have hf' : Prices p s'.grid f := h.grid_eq.symm ▸ hf
      have hevaluated : Twins p settings settings' (s.evaluated p f) (s'.evaluated p f) :=
        ⟨h.left.evaluated hp hf, h.right.evaluated hp hf', h.grid_eq, h.pivots_eq⟩
      rcases turn_cases h.left hp hcount hf with
        ⟨hnone, hturn⟩ | ⟨e, g, result, hentering, henter, hg, hturn⟩
      · rw [← h.grid_eq] at hnone
        rw [hturn, turn_of_none h.right hp hcount' hf' hnone]
        exact .ok _ hevaluated
      · rw [← h.grid_eq] at hentering henter
        rw [hturn, turn_of_some h.right hp hcount' hf' hentering henter, h.atLimit_eq hmax,
          h.pivots_eq]
        split
        · exact .ok _ hevaluated
        · split
          · exact .ok _ ⟨hevaluated.left.moved hg _, hevaluated.right.moved hg _, rfl, rfl⟩
          · exact .error _

theorem run_alike (hp : p.Sound) (hcount : settings.Countable p) (hcount' : settings'.Countable p)
    (hmax : settings.maxPivots = settings'.maxPivots) (h : Twins p settings settings' s s')
    (cancelled : Bool) (turns : Nat) :
    Alike p settings settings' (run cancelled turns s) (run cancelled turns s') := by
  induction turns generalizing s s' with
  | zero => exact .ok _ h
  | succ n ih =>
      rw [run]
      apply (turn_alike hp hcount hcount' hmax h cancelled).bind
      intro status t t' ht
      cases status with
      | none => exact ih ht
      | some status => exact .ok _ ht

theorem Twins.finish_eq (hp : p.Sound) (hcorner : settings.corner = settings'.corner)
    (h : Twins p settings settings' s s') (status : Ending) :
    s.finish status = s'.finish status := by
  rw [h.left.finish_eq hp, h.right.finish_eq hp, h.grid_eq, h.pivots_eq, hcorner]

theorem start_twins (hp : p.Sound) (hcorner : settings.corner = settings'.corner)
    (hs : start p settings = .ok s) (hs' : start p settings' = .ok s') :
    Twins p settings settings' s s' := by
  obtain ⟨hvalid, hfirst, hpivots⟩ := start_valid hp hs
  obtain ⟨hvalid', hfirst', hpivots'⟩ := start_valid hp hs'
  rw [← hcorner, hfirst] at hfirst'
  exact ⟨hvalid, hvalid', (Except.ok.inj hfirst').symm, hpivots'.trans hpivots.symm⟩

theorem solve_eq (hp : p.Sound) {corner : Corner} (hsettings : settings.Admits p corner)
    (hsettings' : settings'.Admits p corner) (hmax : settings.maxPivots = settings'.maxPivots)
    (cancelled : Bool) (turns : Nat) :
    solve p settings cancelled turns = solve p settings' cancelled turns := by
  have hcorner := hsettings.corner_eq.trans hsettings'.corner_eq.symm
  obtain ⟨s, hs⟩ := start_eq_ok hp hsettings.defect?_eq
  obtain ⟨s', hs'⟩ := start_eq_ok hp hsettings'.defect?_eq
  have halike := run_alike hp hsettings.countable hsettings'.countable hmax
    (start_twins hp hcorner hs hs') cancelled turns
  rw [solve, solve, hs, hs', ok_bind, ok_bind, Solver.call, Solver.call]
  generalize run cancelled turns s = result at halike ⊢
  generalize run cancelled turns s' = result' at halike ⊢
  cases halike with
  | @ok t t' status htwins =>
      cases status with
      | none => rfl
      | some status =>
          change (do return some (← t.finish status) : Except Failure (Option Solution)) =
            do return some (← t'.finish status)
          rw [htwins.finish_eq hp hcorner status]
  | error failure => rfl

end Twins

section Solve

variable {p : Problem} {settings : SolverSettings} {s s' : Solver}

theorem run_add {cancelled : Bool} {turns : Nat} {status : Ending}
    (h : run cancelled turns s = .ok (some status) s') (more : Nat) :
    run cancelled (turns + more) s = .ok (some status) s' := by
  induction turns generalizing s with
  | zero =>
      change EStateM.Result.ok none s = _ at h
      cases h
  | succ n ih =>
      rw [Nat.succ_add, run]
      rw [run] at h
      cases hturn : turn cancelled s with
      | error failure t =>
          rw [bind_of_error hturn] at h
          contradiction
      | ok ending t =>
          rw [bind_of_ok hturn] at h ⊢
          cases ending with
          | none => exact ih h
          | some ending => exact h

theorem solve_add {cancelled : Bool} {turns : Nat} {solution : Solution}
    (h : solve p settings cancelled turns = .ok (some solution)) (more : Nat) :
    solve p settings cancelled (turns + more) = .ok (some solution) := by
  obtain ⟨s, status, s', hs, hrun, hfinish⟩ := solve_eq_ok_iff.mp h
  exact solve_eq_ok_iff.mpr ⟨s, status, s', hs, run_add hrun more, hfinish⟩

theorem solve_eq_ok_iff_stage (hp : p.Sound) {cancelled : Bool} {turns : Nat}
    {solution : Solution} : solve p settings cancelled turns = .ok (some solution) ↔
      ∃ s₀ status s stage, start p settings = .ok s₀ ∧
        run cancelled turns s₀ = .ok (some status) s ∧
        trajectory p settings.corner s.pivots = .ok stage ∧
        solution = ⟨stage.grid.plan p, stage.grid.objective p, s.pivots, status,
          settings.corner⟩ := by
  have hgrid : ∀ {s₀ status s}, start p settings = .ok s₀ →
      run cancelled turns s₀ = .ok (some status) s →
        ∃ stage, trajectory p settings.corner s.pivots = .ok stage ∧ stage.grid = s.grid := by
    intro s₀ status s hs₀ hrun
    have hfollows := follows_of_run hp hs₀ hrun
    obtain ⟨stage, htrajectory, hstage⟩ := hfollows.exists_stage hp hs₀
    exact ⟨stage, htrajectory, hfollows.valid.plan.grid_of_stage hp hstage⟩
  rw [solve_eq_ok_iff_run hp]
  constructor
  · rintro ⟨s₀, status, s, hs₀, hrun, rfl⟩
    obtain ⟨stage, htrajectory, hstage⟩ := hgrid hs₀ hrun
    exact ⟨s₀, status, s, stage, hs₀, hrun, htrajectory, by rw [hstage]⟩
  · rintro ⟨s₀, status, s, stage, hs₀, hrun, htrajectory, rfl⟩
    obtain ⟨stage', htrajectory', hstage⟩ := hgrid hs₀ hrun
    cases htrajectory.symm.trans htrajectory'
    exact ⟨s₀, status, s, hs₀, hrun, by rw [hstage]⟩

/-- A problem and a corner fix what every sequence of calls computes, and the solution, which is the
plan of the stage at which the run ends. -/
theorem calls_follow_trajectory {costs : List (List Int)} {supply demand : List Int}
    (hp : Problem.ofTable costs supply demand = .ok p) (corner : Corner) :
    (∀ k, ∃ stage, trajectory p corner k = .ok stage) ∧
    (∀ settings : SolverSettings, settings.Admits p corner →
      ∃ s₀, start p settings = .ok s₀ ∧
        ∀ (calls : List SolverCall) s, calls.forM SolverCall.perform s₀ = .ok ⟨⟩ s →
          ∃ stage, trajectory p corner s.pivots = .ok stage ∧ s.At stage) ∧
    (∀ settings : SolverSettings, settings.corner = corner →
      ∀ cancelled turns solution, solve p settings cancelled turns = .ok (some solution) ↔
        ∃ s₀ status s stage, start p settings = .ok s₀ ∧
          run cancelled turns s₀ = .ok (some status) s ∧
          trajectory p corner s.pivots = .ok stage ∧
          solution = ⟨stage.grid.plan p, stage.grid.objective p, s.pivots, status, corner⟩) ∧
    ∀ settings settings' : SolverSettings, settings.Admits p corner → settings'.Admits p corner →
      settings.maxPivots = settings'.maxPivots → ∀ cancelled,
        (∀ turns, solve p settings cancelled turns = solve p settings' cancelled turns) ∧
        ∀ turns turns' solution solution',
          solve p settings cancelled turns = .ok (some solution) →
          solve p settings' cancelled turns' = .ok (some solution') → solution = solution' := by
  have hsound := Problem.sound_of_ofTable hp
  refine ⟨fun k => ?_, fun settings hsettings => ?_, ?_,
    fun settings settings' hsettings hsettings' hmax cancelled => ?_⟩
  · obtain ⟨stage, hstage, -⟩ := exists_trajectory hsound corner k
    exact ⟨stage, hstage⟩
  · obtain ⟨s₀, hs₀⟩ := start_eq_ok hsound hsettings.defect?_eq
    refine ⟨s₀, hs₀, fun calls s hcalls => ?_⟩
    have hfollows := (leaves_forM hsound calls (start_valid hsound hs₀).1).follows hcalls
    obtain ⟨stage, htrajectory, hstage⟩ := hfollows.exists_stage hsound hs₀
    rw [hsettings.corner_eq] at htrajectory
    exact ⟨stage, htrajectory, hfollows.valid.at_stage hsound hsettings.countable hstage⟩
  · rintro settings rfl cancelled turns solution
    exact solve_eq_ok_iff_stage hsound
  · have heq := solve_eq hsound hsettings hsettings' hmax cancelled
    refine ⟨heq, fun turns turns' solution solution' hsolve hsolve' => ?_⟩
    rw [← heq] at hsolve'
    have hmore := solve_add hsolve turns'
    have hmore' := solve_add hsolve' turns
    rw [Nat.add_comm] at hmore'
    rw [hmore] at hmore'
    cases hmore'
    rfl

theorem calls_follow_trajectory_crossed :
    ∃ s : Solver, [SolverCall.evaluate, .step, .run false 1].forM SolverCall.perform crossedStart =
        .ok ⟨⟩ s ∧ s.pivots = 1 ∧
      ∃ stage, trajectory crossed .northWest s.pivots = .ok stage ∧ s.At stage := by
  have h := (calls_follow_trajectory ofTable_crossed .northWest).2.1 {}
    ⟨rfl, rfl, fun split hsplit => nomatch hsplit⟩
  obtain ⟨s₀, hs₀, hcalls⟩ := h
  cases start_crossed.symm.trans hs₀
  have hresult := eq_ok_of_call (show (crossedStart.call ([SolverCall.evaluate, .step,
    .run false 1].forM SolverCall.perform)).1 = .ok ⟨⟩ by decide +kernel)
  exact ⟨_, hresult, by decide +kernel, hcalls _ _ hresult⟩

end Solve

end Solver

end Transportation
