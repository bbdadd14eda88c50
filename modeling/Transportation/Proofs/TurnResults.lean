import Transportation.Proofs.TurnOrder
/-!
# The result of racers in turn

With one worker the racers run one after another. Up to the first one that proves its plan optimal,
each runs as it would alone; that one wins, and those after it stay at their first bases. If no
racer wins, the cheapest of their plans is chosen, the first of several.
-/
namespace Transportation

namespace Solver

open SolverM

section Flag

variable {p : Problem} {settings : SolverSettings} {s s' : Solver} {turns : Nat}

theorem run_not_cancelled {status : Ending}
    (h : run false turns s = .ok (some status) s') : status ≠ .cancelled := by
  induction turns generalizing s with
  | zero => cases h
  | succ turns ih =>
      rw [run] at h
      obtain ⟨ending, t, hturn, h⟩ := eq_ok_of_bind h
      cases ending with
      | none => exact ih h
      | some ending =>
          cases h
          rw [turn_false] at hturn
          obtain ⟨evaluation, u, -, hturn⟩ := eq_ok_of_bind hturn
          cases hentering : evaluation.entering with
          | none =>
              rw [hentering] at hturn
              cases hturn
              intro hcancelled
              cases hcancelled
          | some entering =>
              rw [hentering] at hturn
              dsimp only at hturn
              rw [get_bind] at hturn
              split at hturn
              · cases hturn
                intro hcancelled
                cases hcancelled
              · obtain ⟨result, v, -, hturn⟩ := eq_ok_of_bind hturn
                cases hturn

theorem limitReached_of_solve {solution : Solution}
    (h : solve p settings false turns = .ok (some solution))
    (hstatus : solution.status ≠ .optimal) :
    solution.status = .limitReached := by
  obtain ⟨s₀, status, s, -, hrun, hfinish⟩ := solve_eq_ok_iff.mp h
  have hending := run_not_cancelled hrun
  rw [status_of_finish hfinish] at hstatus ⊢
  cases status with
  | optimal => contradiction
  | cancelled => contradiction
  | limitReached => rfl

theorem corner_of_solve {flag : Bool} {solution : Solution} (hp : p.Sound)
    (h : solve p settings flag turns = .ok (some solution)) :
    solution.corner = settings.corner := by
  obtain ⟨s₀, status, s, -, -, rfl⟩ := (solve_eq_ok_iff_run hp).mp h
  rfl

structure Untouched (p : Problem) (corner : Corner) (solution : Solution) : Prop where
  corner_eq : solution.corner = corner
  status_eq : solution.status = .cancelled
  pivots_eq : solution.pivots = 0
  first : ∃ g, corner.firstBasis p = .ok g ∧ g.totalCost p = .ok solution.totalCost ∧
    g.toPlan = .ok solution.plan

theorem solve_raised (hp : p.Sound) (h : settings.defect? = none) :
    ∃ solution, Untouched p settings.corner solution ∧
      ∀ turns, solve p settings true (turns + 1) = .ok (some solution) := by
  obtain ⟨s, hs⟩ := start_eq_ok hp h
  obtain ⟨hvalid, hfirst, hpivots⟩ := start_valid hp hs
  have hfinish := hvalid.finish_eq hp .cancelled
  refine ⟨_, ⟨rfl, rfl, hpivots, s.grid, hfirst, ?_, hvalid.plan.toPlan_eq hp⟩, fun turns =>
    solve_eq_ok_iff.mpr ⟨s, .cancelled, s, hs, rfl, hfinish⟩⟩
  exact hvalid.plan.feasible.totalCost_eq_ok hp hvalid.plan.fits hvalid.plan.regular

theorem Untouched.isOptimal_eq {corner : Corner} {solution : Solution}
    (h : Untouched p corner solution) : solution.isOptimal = false := by
  rw [Solution.isOptimal, h.status_eq]
  rfl

end Flag

end Solver

namespace Race

open Solver

/-- The first of the cheapest solutions. -/
def FirstCheapest (solutions : List Solution) (s : Solution) : Prop :=
  ∃ before after, solutions = before ++ s :: after ∧
    (∀ t ∈ before, s.totalCost < t.totalCost) ∧ ∀ t ∈ after, s.totalCost ≤ t.totalCost

theorem FirstCheapest.le {solutions : List Solution} {s t : Solution}
    (h : FirstCheapest solutions s) (ht : t ∈ solutions) : s.totalCost ≤ t.totalCost := by
  obtain ⟨before, after, rfl, hbefore, hafter⟩ := h
  rcases List.mem_append.mp ht with ht | ht
  · exact (hbefore t ht).le
  · rcases List.mem_cons.mp ht with rfl | ht
    · exact le_rfl
    · exact hafter t ht

private theorem preferred_eq {s t : Solution} (hs : s.isOptimal = false)
    (ht : t.isOptimal = false) : preferred s t = decide (s.totalCost < t.totalCost) := by
  rw [preferred, hs, ht]
  rfl

private theorem firstCheapest_foldl {s : Solution} {rest : List Solution}
    (h : ∀ t ∈ s :: rest, t.isOptimal = false) :
    FirstCheapest (s :: rest)
      (rest.foldl (fun best t => if preferred t best then t else best) s) := by
  -- From the end: the last solution takes the place of the best before it only if it is cheaper.
  induction rest using List.reverseRecOn with
  | nil => exact ⟨[], [], rfl, nofun, nofun⟩
  | append_singleton rest t ih =>
      have hleast := ih fun u hu => h u (by simp at hu ⊢; tauto)
      rw [List.foldl_append, List.foldl_cons, List.foldl_nil]
      generalize rest.foldl (fun best t => if preferred t best then t else best) s = best
        at hleast ⊢
      have hall := hleast
      obtain ⟨before, after, hsplit, hbefore, hafter⟩ := hleast
      have hbest : best ∈ s :: rest := by simp [hsplit]
      have hrest : s :: (rest ++ [t]) = (s :: rest) ++ [t] := rfl
      rw [preferred_eq (h t (by simp)) (h best (by rw [hrest]; exact List.mem_append_left _ hbest))]
      by_cases hlt : t.totalCost < best.totalCost
      · rw [if_pos (decide_eq_true hlt)]
        exact ⟨s :: rest, [], hrest, fun u hu => hlt.trans_le (hall.le hu), nofun⟩
      · rw [if_neg (by simpa using hlt)]
        refine ⟨before, after ++ [t], by rw [hrest, hsplit]; simp, hbefore, fun u hu => ?_⟩
        rcases List.mem_append.mp hu with hu | hu
        · exact hafter u hu
        · rw [List.mem_singleton.mp hu]
          exact not_lt.mp hlt

theorem best?_spec {solutions : List Solution} (hne : solutions ≠ [])
    (h : ∀ s ∈ solutions, s.isOptimal = false) :
    ∃ s, best? solutions = some s ∧ FirstCheapest solutions s := by
  obtain ⟨s, rest, rfl⟩ := List.exists_cons_of_ne_nil hne
  exact ⟨_, rfl, firstCheapest_foldl h⟩

section Results

variable {p : Problem} {settings : RaceSettings} {flag : Bool} {turns : Nat}
  {before after : List Corner} {corner : Corner} {solutions : List Solution} {solution : Solution}

/-- The racer from a corner ends with a solution if nobody changes the flag. -/
def Solves (p : Problem) (settings : RaceSettings) (flag : Bool) (turns : Nat) (corner : Corner)
    (solution : Solution) : Prop :=
  solve p (settings.racer corner) flag turns = .ok (some solution)

instance (p : Problem) (settings : RaceSettings) (flag : Bool) (turns : Nat) (corner : Corner)
    (solution : Solution) : Decidable (Solves p settings flag turns corner solution) :=
  inferInstanceAs (Decidable (_ = _))

def lost (solutions : List Solution) : List Finish := solutions.map fun s => ⟨s, false⟩

private theorem runInTurn_cons {rest : List Corner}
    (h : Solves p settings flag turns corner solution) {won : Bool}
    (hwon : (solution.isOptimal && !flag) = won) {finishes : List Finish} {flag' : Bool}
    (hrest : runInTurn p settings turns rest (flag || won) = .ok (some (finishes, flag'))) :
    runInTurn p settings turns (corner :: rest) flag =
      .ok (some (⟨solution, won⟩ :: finishes, flag')) := by
  subst hwon
  rw [Solves] at h
  rw [runInTurn, h, ok_bind]
  dsimp only
  rw [hrest]
  rfl

private theorem runInTurn_append {rest : List Corner} {finishes : List Finish} {flag' : Bool}
    (h : List.Forall₂ (Solves p settings flag turns) before solutions)
    (hlost : ∀ s ∈ solutions, (s.isOptimal && !flag) = false)
    (hrest : runInTurn p settings turns rest flag = .ok (some (finishes, flag'))) :
    runInTurn p settings turns (before ++ rest) flag =
      .ok (some (lost solutions ++ finishes, flag')) := by
  induction h with
  | nil => exact hrest
  | cons hsolve _ ih =>
      refine runInTurn_cons hsolve (hlost _ List.mem_cons_self) ?_
      rw [Bool.or_false]
      exact ih fun s hs => hlost s (List.mem_cons_of_mem _ hs)

private theorem runInTurn_lost
    (h : List.Forall₂ (Solves p settings flag turns) before solutions)
    (hlost : ∀ s ∈ solutions, (s.isOptimal && !flag) = false) :
    runInTurn p settings turns before flag = .ok (some (lost solutions, flag)) := by
  have hnil : runInTurn p settings turns [] flag = .ok (some ([], flag)) := rfl
  have happend := runInTurn_append h hlost hnil
  rwa [List.append_nil, List.append_nil] at happend

private theorem exists_of_mem_forall₂ {α β : Type} {R : α → β → Prop} {xs : List α}
    {ys : List β} (h : List.Forall₂ R xs ys) {y : β} (hy : y ∈ ys) : ∃ x ∈ xs, R x y := by
  induction h with
  | nil => simp at hy
  | cons hxy _ ih =>
      rcases List.mem_cons.mp hy with rfl | hy
      · exact ⟨_, List.mem_cons_self, hxy⟩
      · obtain ⟨x, hx, hxy⟩ := ih hy
        exact ⟨x, List.mem_cons_of_mem _ hx, hxy⟩

private theorem ne_nil_of_forall₂ {α β : Type} {R : α → β → Prop} {xs : List α} {ys : List β}
    (h : List.Forall₂ R xs ys) (hne : xs ≠ []) : ys ≠ [] := by
  rintro rfl
  cases h
  exact hne rfl

private theorem limitReached_of_solves {corners : List Corner}
    (h : List.Forall₂ (Solves p settings false turns) corners solutions)
    (hlost : ∀ s ∈ solutions, s.status ≠ .optimal) : ∀ s ∈ solutions, s.status = .limitReached := by
  intro s hs
  obtain ⟨corner, -, hsolve⟩ := exists_of_mem_forall₂ h hs
  exact limitReached_of_solve hsolve (hlost s hs)

private theorem exists_untouched (hp : p.Sound) (h : settings.solver.defect? = none)
    (corners : List Corner) : ∃ firsts, List.Forall₂ (Untouched p) corners firsts ∧
      ∀ turns, List.Forall₂ (Solves p settings true (turns + 1)) corners firsts := by
  induction corners with
  | nil => exact ⟨[], .nil, fun _ => .nil⟩
  | cons corner corners ih =>
      obtain ⟨firsts, hfirsts, hsolve⟩ := ih
      have hdefect : (settings.racer corner).defect? = none := h
      obtain ⟨first, hfirst, hfirstSolve⟩ := solve_raised hp hdefect
      exact ⟨first :: firsts, .cons hfirst hfirsts, fun turns =>
        .cons (hfirstSolve turns) (hsolve turns)⟩

private theorem run_of_runInTurn (hsettings : settings.defect? = none) {finishes : List Finish}
    {flag' : Bool} {outcome : RaceOutcome}
    (h : runInTurn p settings turns settings.corners flag = .ok (some (finishes, flag')))
    (hresult : result? finishes = some outcome) :
    run p settings flag turns = .ok (some (outcome, flag')) := by
  rw [run, hsettings]
  dsimp only
  rw [h, onWorkers_ok, ok_bind]
  dsimp only
  rw [hresult]
  rfl

private theorem map_solution_lost (solutions : List Solution) :
    (lost solutions).map Finish.solution = solutions := by
  rw [lost, List.map_map]
  exact List.map_id solutions

private theorem find?_lost (solutions : List Solution) :
    (lost solutions).find? (·.won) = none := by
  rw [List.find?_eq_none]
  intro f hf
  obtain ⟨s, -, rfl⟩ := List.mem_map.mp hf
  exact Bool.false_ne_true

private theorem result?_won (solos firsts : List Solution) (solution : Solution) :
    result? (lost solos ++ ⟨solution, true⟩ :: lost firsts) =
      some ⟨solution, some solution.corner, (solos ++ solution :: firsts).map .ofSolution⟩ := by
  have hfind : (lost solos ++ ⟨solution, true⟩ :: lost firsts).find? (·.won) =
      some ⟨solution, true⟩ := by
    rw [List.find?_append, find?_lost, Option.none_or, List.find?_cons_of_pos rfl]
  have hsolutions : (lost solos ++ ⟨solution, true⟩ :: lost firsts).map Finish.solution =
      solos ++ solution :: firsts := by
    rw [List.map_append, List.map_cons, map_solution_lost, map_solution_lost]
  rw [result?, hfind, ← hsolutions, List.map_map]
  rfl

private theorem result?_lost (hbest : best? solutions = some solution) :
    result? (lost solutions) = some ⟨solution, none, solutions.map .ofSolution⟩ := by
  have hmap : (lost solutions).map (fun f => RacerReport.ofSolution f.solution) =
      solutions.map .ofSolution := by
    change (lost solutions).map (RacerReport.ofSolution ∘ Finish.solution) = _
    rw [← List.map_map, map_solution_lost]
  rw [result?, find?_lost]
  dsimp only
  rw [map_solution_lost, hbest, hmap]
  rfl

private theorem isOptimal_eq_false (h : solution.status ≠ .optimal) :
    solution.isOptimal = false := by
  rw [Solution.isOptimal]
  exact beq_false_of_ne h

private theorem run_lost (hsettings : settings.defect? = none)
    (h : List.Forall₂ (Solves p settings flag turns) settings.corners solutions)
    (hlost : ∀ s ∈ solutions, s.isOptimal = false) (hbest : best? solutions = some solution) :
    run p settings flag turns =
      .ok (some (⟨solution, none, solutions.map .ofSolution⟩, flag)) :=
  run_of_runInTurn hsettings
    (runInTurn_lost h fun s hs => by rw [hlost s hs, Bool.false_and]) (result?_lost hbest)

/-- The first racer that would end with an optimal plan alone wins. -/
private theorem run_won (hp : p.Sound) (hsettings : settings.defect? = none)
    (hcorners : settings.corners = before ++ corner :: after)
    (hsolos : List.Forall₂ (Solves p settings false turns) before solutions)
    (hlost : ∀ s ∈ solutions, s.status ≠ .optimal)
    (hsolve : Solves p settings false turns corner solution)
    (hoptimal : solution.status = .optimal) :
    ∃ firsts, List.Forall₂ (Untouched p) after firsts ∧
      run p settings false turns = .ok (some (⟨solution, some corner,
        (solutions ++ solution :: firsts).map .ofSolution⟩, true)) := by
  obtain ⟨firsts, hfirsts, hraised⟩ :=
    exists_untouched hp (defect?_eq_none hsettings).2 after
  refine ⟨firsts, hfirsts, ?_⟩
  cases turns with
  | zero =>
      obtain ⟨s₀, status, s, -, hrun, -⟩ := solve_eq_ok_iff.mp hsolve
      cases hrun
  | succ turns =>
      have hrest : runInTurn p settings (turns + 1) after true = .ok (some (lost firsts, true)) :=
        runInTurn_lost (hraised turns) fun s _ => by rw [Bool.not_true, Bool.and_false]
      have hwon : (solution.isOptimal && !false) = true := by
        rw [Solution.isOptimal, hoptimal]
        rfl
      have hturn := runInTurn_append hsolos
        (fun s hs => by rw [isOptimal_eq_false (hlost s hs), Bool.false_and])
        (runInTurn_cons hsolve hwon hrest)
      have hcorner : solution.corner = corner := corner_of_solve hp hsolve
      rw [← hcorners] at hturn
      have hresult := run_of_runInTurn hsettings hturn (result?_won solutions firsts solution)
      rwa [hcorner] at hresult

private theorem corners_of_runInTurn (hp : p.Sound) {corners : List Corner}
    {finishes : List Finish} {flag' : Bool}
    (h : runInTurn p settings turns corners flag = .ok (some (finishes, flag'))) :
    finishes.map (fun f => f.solution.corner) = corners := by
  induction corners generalizing flag finishes with
  | nil =>
      cases h
      rfl
  | cons corner rest ih =>
      obtain ⟨result, hsolve, h⟩ := bind_eq_ok_iff.mp h
      cases result with
      | none => cases h
      | some solution =>
          obtain ⟨result, hrest, h⟩ := bind_eq_ok_iff.mp h
          cases result with
          | none => cases h
          | some result =>
              cases h
              rw [List.map_cons, ih hrest, corner_of_solve hp hsolve]
              rfl

private theorem reports_eq {finishes : List Finish} {outcome : RaceOutcome}
    (h : result? finishes = some outcome) :
    outcome.reports = finishes.map fun f => RacerReport.ofSolution f.solution := by
  have hne : finishes ≠ [] := by
    rintro rfl
    cases h
  obtain ⟨outcome', hresult, hdecides⟩ := result?_decides hne
  cases hresult.symm.trans h
  exact hdecides.reports_eq

private theorem corners_of_run (hp : p.Sound) {outcome : RaceOutcome} {flag' : Bool}
    (h : run p settings flag turns = .ok (some (outcome, flag'))) :
    outcome.reports.map RacerReport.corner = settings.corners := by
  rw [run] at h
  split at h
  · contradiction
  · obtain ⟨result, hturn, h⟩ := bind_eq_ok_iff.mp h
    cases result with
    | none => cases h
    | some result =>
        obtain ⟨finishes, flag''⟩ := result
        cases hresult : result? finishes with
        | none =>
            dsimp only at h
            rw [hresult] at h
            contradiction
        | some outcome' =>
            dsimp only at h
            rw [hresult] at h
            cases h
            rw [reports_eq hresult, List.map_map]
            exact corners_of_runInTurn hp (onWorkers_eq_ok_iff.mp hturn)

private theorem runInTurn_withCorner (corner : Corner) (corners : List Corner) (flag : Bool) :
    runInTurn p { settings with solver := { settings.solver with corner } } turns corners flag =
      runInTurn p settings turns corners flag := by
  induction corners generalizing flag with
  | nil => rfl
  | cons c corners ih =>
      have hracer : RaceSettings.racer
          { settings with solver := { settings.solver with corner } } c = settings.racer c := rfl
      rw [runInTurn, runInTurn, hracer]
      simp only [ih]

/-- The result of a race in turn, for each way in which it can go. With one worker every race is in
turn. -/
theorem turn_results {costs : List (List Int)} {supply demand : List Int}
    (hp : Problem.ofTable costs supply demand = .ok p) (hsettings : settings.defect? = none) :
    (∀ before corner after solos solution turns,
      settings.corners = before ++ corner :: after →
      List.Forall₂ (Solves p settings false turns) before solos →
      (∀ s ∈ solos, s.status ≠ .optimal) →
      Solves p settings false turns corner solution → solution.status = .optimal →
      (∀ s ∈ solos, s.status = .limitReached) ∧
      ∃ firsts, List.Forall₂ (Untouched p) after firsts ∧
        run p settings false turns = .ok (some (⟨solution, some corner,
          (solos ++ solution :: firsts).map .ofSolution⟩, true))) ∧
    (∀ solos turns,
      List.Forall₂ (Solves p settings false turns) settings.corners solos →
      (∀ s ∈ solos, s.status ≠ .optimal) →
      (∀ s ∈ solos, s.status = .limitReached) ∧
      ∃ solution, FirstCheapest solos solution ∧
        run p settings false turns = .ok (some (⟨solution, none, solos.map .ofSolution⟩, false))) ∧
    (∃ firsts solution, List.Forall₂ (Untouched p) settings.corners firsts ∧
      FirstCheapest firsts solution ∧ ∀ turns, run p settings true (turns + 1) =
        .ok (some (⟨solution, none, firsts.map .ofSolution⟩, true))) ∧
    (∀ flag turns outcome flag', run p settings flag turns = .ok (some (outcome, flag')) →
      outcome.reports.map RacerReport.corner = settings.corners) ∧
    ∀ corner,
      run p { settings with solver := { settings.solver with corner } } = run p settings := by
  have hsound := Problem.sound_of_ofTable hp
  obtain ⟨hne, hdefect⟩ := defect?_eq_none hsettings
  refine ⟨?_, ?_, ?_, ?_, ?_⟩
  · intro before corner after solos solution turns hcorners hsolos hlost hsolve hoptimal
    exact ⟨limitReached_of_solves hsolos hlost,
      run_won hsound hsettings hcorners hsolos hlost hsolve hoptimal⟩
  · intro solos turns hsolos hlost
    have hlost' : ∀ s ∈ solos, s.isOptimal = false := fun s hs => isOptimal_eq_false (hlost s hs)
    obtain ⟨solution, hbest, hcheapest⟩ := best?_spec (ne_nil_of_forall₂ hsolos hne) hlost'
    exact ⟨limitReached_of_solves hsolos hlost, solution, hcheapest,
      run_lost hsettings hsolos hlost' hbest⟩
  · obtain ⟨firsts, hfirsts, hraised⟩ := exists_untouched hsound hdefect settings.corners
    have hlost : ∀ s ∈ firsts, s.isOptimal = false := by
      intro s hs
      obtain ⟨corner, -, hfirst⟩ := exists_of_mem_forall₂ hfirsts hs
      exact hfirst.isOptimal_eq
    obtain ⟨solution, hbest, hcheapest⟩ := best?_spec (ne_nil_of_forall₂ hfirsts hne) hlost
    exact ⟨firsts, solution, hfirsts, hcheapest, fun turns =>
      run_lost hsettings (hraised turns) hlost hbest⟩
  · intro flag turns outcome flag' h
    exact corners_of_run hsound h
  · intro corner
    funext flag turns
    have hdefect : RaceSettings.defect?
        { settings with solver := { settings.solver with corner } } = settings.defect? := rfl
    rw [run, run, hdefect, runInTurn_withCorner]

def square : Problem :=
  ⟨3, 3, [8, 2, 6, 10, 9, 9, 7, 10, 7], [100, 120, 80], [100, 100, 100], 300⟩

theorem ofTable_square : Problem.ofTable [[8, 2, 6], [10, 9, 9], [7, 10, 7]] [100, 120, 80]
    [100, 100, 100] = .ok square := rfl

/-- The first racer reaches its limit, the second one wins, and the others stay where they are. -/
theorem turn_results_square : ∃ firsts,
    List.Forall₂ (Untouched square) [.southWest, .southEast] firsts ∧
    run square { workers := 1, solver := { maxPivots := 1 } } false 3 = .ok (some
      (⟨⟨[[0, 100, 0], [20, 0, 100], [80, 0, 0]], 1860, 1, .optimal, .northEast⟩,
        some .northEast, ⟨.northWest, .limitReached, 1, 1940⟩ ::
          ⟨.northEast, .optimal, 1, 1860⟩ :: firsts.map .ofSolution⟩, true)) := by
  have hsettings : RaceSettings.defect? { workers := 1, solver := { maxPivots := 1 } } = none := by
    decide
  obtain ⟨hwon, -⟩ := turn_results ofTable_square hsettings
  obtain ⟨-, hfirsts⟩ := hwon [.northWest] .northEast [.southWest, .southEast]
    [⟨[[0, 100, 0], [100, 0, 20], [0, 0, 80]], 1940, 1, .limitReached, .northWest⟩]
    ⟨[[0, 100, 0], [20, 0, 100], [80, 0, 0]], 1860, 1, .optimal, .northEast⟩ 3 rfl
    (.cons (by decide +kernel) .nil) (by decide) (by decide +kernel) rfl
  exact hfirsts

end Results

end Race

end Transportation
