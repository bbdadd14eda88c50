import Transportation.Race.Schedule
import Transportation.Proofs.Trajectory
/-!
# Racers

A racer is as far as the solve from its corner is by itself after as many pivots, whatever the
others do to the flag. Only a racer that finds the flag down wins, and an optimal end leaves it
raised.
-/
namespace Transportation

namespace Solver

open SolverM

/-- A solver that is as far as the solve by itself after as many turns as it made pivots. -/
def Solo (s : Solver) (p : Problem) (settings : SolverSettings) : Prop :=
  ∃ s₀, start p settings = .ok s₀ ∧ run false s.pivots s₀ = .ok none s

section Solo

variable {p : Problem} {settings : SolverSettings} {s s' : Solver}

theorem run_append {cancelled : Bool} {turns : Nat} (h : run cancelled turns s = .ok none s')
    (more : Nat) : run cancelled (turns + more) s = run cancelled more s' := by
  induction turns generalizing s with
  | zero =>
      cases h
      rw [Nat.zero_add]
  | succ n ih =>
      rw [run] at h
      obtain ⟨ending, t, hturn, h⟩ := eq_ok_of_bind h
      rw [Nat.succ_add, run, bind_of_ok hturn]
      cases ending with
      | none => exact ih h
      | some ending => cases h

theorem Solo.valid (h : s.Solo p settings) (hp : p.Sound) : s.Valid p settings := by
  obtain ⟨s₀, hs₀, hrun⟩ := h
  exact (follows_of_run hp hs₀ hrun).valid

theorem Valid.turn_none (h : s.Valid p settings) (hp : p.Sound) (hcount : settings.Countable p)
    (hturn : turn false s = .ok none s') : s'.pivots = s.pivots + 1 := by
  obtain ⟨f, hf⟩ := h.plan.exists_prices
  rcases turn_eq_ok_cases h hp hcount hf hturn with ⟨-, hending⟩ | ⟨e, g, result, -, -, -, -, rfl⟩
  · rcases hending with ⟨hending, -⟩ | hending <;> contradiction
  · rfl

theorem Valid.turn_some (h : s.Valid p settings) (hp : p.Sound) (hcount : settings.Countable p)
    {status : Ending} (hturn : turn false s = .ok (some status) s') :
    s'.Valid p settings ∧ s'.grid = s.grid ∧ s'.pivots = s.pivots ∧
      (status = .optimal → Cheapest p s.grid (s.grid.objective p)) := by
  obtain ⟨f, hf⟩ := h.plan.exists_prices
  rcases turn_eq_ok_cases h hp hcount hf hturn with
    ⟨rfl, hending⟩ | ⟨e, g, result, -, -, -, hending, -⟩
  · refine ⟨h.evaluated hp hf, rfl, rfl, fun hstatus => ?_⟩
    rcases hending with ⟨-, hoptimal⟩ | hlimit
    · exact hf.cheapest hp h.plan ((Evaluation.optimal_iff hp h.plan.fits hf).mp hoptimal)
    · rw [hstatus] at hlimit
      contradiction
  · contradiction

theorem Solo.turn_none (h : s.Solo p settings) (hp : p.Sound) (hcount : settings.Countable p)
    (hturn : turn false s = .ok none s') : s'.Solo p settings := by
  have hpivots := (h.valid hp).turn_none hp hcount hturn
  obtain ⟨s₀, hs₀, hrun⟩ := h
  refine ⟨s₀, hs₀, ?_⟩
  rw [hpivots, run_append hrun, run, bind_of_ok hturn]
  rfl

theorem Solo.solve_eq (h : s.Solo p settings) {status : Ending} {solution : Solution}
    (hturn : turn false s = .ok (some status) s') (hfinish : s'.finish status = .ok solution) :
    solve p settings false (s.pivots + 1) = .ok (some solution) := by
  obtain ⟨s₀, hs₀, hrun⟩ := h
  refine solve_eq_ok_iff.mpr ⟨s₀, status, s', hs₀, ?_, hfinish⟩
  rw [run_append hrun, run, bind_of_ok hturn]
  rfl

/-- The solve by itself makes more pivots than can be counted. -/
def Exhausted (p : Problem) (settings : SolverSettings) : Prop :=
  ∃ s : Solver, s.Solo p settings ∧ Count.greatest ≤ s.pivots

end Solo

theorem status_of_finish {s : Solver} {status : Ending} {solution : Solution}
    (h : s.finish status = .ok solution) : solution.status = status := by
  rw [finish] at h
  obtain ⟨plan, -, h⟩ := bind_eq_ok_iff.mp h
  obtain ⟨cost, -, h⟩ := bind_eq_ok_iff.mp h
  cases h
  rfl

end Solver

/-- What a racer leaves is where the solve by itself is after as many pivots, and an optimal plan is
its end. -/
structure Finish.Earned (f : Finish) (p : Problem) (settings : SolverSettings) : Prop where
  corner_eq : f.solution.corner = settings.corner
  solo : ∃ s₀ s, Solver.start p settings = .ok s₀ ∧
    Solver.run false f.solution.pivots s₀ = .ok none s ∧ s.pivots = f.solution.pivots ∧
    s.grid.totalCost p = .ok f.solution.totalCost
  optimal : f.solution.status = .optimal → (∃ g, Cheapest p g f.solution.totalCost) ∧
    Solver.solve p settings false (f.solution.pivots + 1) = .ok (some f.solution)
  won : f.won = true → f.solution.status = .optimal

namespace Racer

inductive Sound (p : Problem) (settings : SolverSettings) : Racer → Prop
  | ready {s : Solver} (h : s.Solo p settings) : Sound p settings (.ready s)
  | running {s : Solver} (h : s.Solo p settings) : Sound p settings (.running s)
  | proven {s s' : Solver} (h : s.Solo p settings)
      (hturn : Solver.turn false s = .ok (some .optimal) s') : Sound p settings (.proven s')
  | faulted {failure : Failure} (h : Solver.Exhausted p settings) :
      Sound p settings (.faulted failure)
  | failed {failure : Failure} (h : Solver.Exhausted p settings) :
      Sound p settings (.done (.error failure))
  | finished {f : Finish} (h : f.Earned p settings) : Sound p settings (.done (.ok f))

inductive Won : Racer → Prop
  | done {f : Finish} (h : f.won = true) : Won (.done (.ok f))

inductive Optimal : Racer → Prop
  | done {f : Finish} (h : f.solution.status = .optimal) : Optimal (.done (.ok f))

inductive Failed : Racer → Prop
  | done (failure : Failure) : Failed (.done (.error failure))

section Move

variable {p : Problem} {settings : SolverSettings} {r : Racer} {s s' : Solver}

theorem sound_start (hp : p.Sound) (h : settings.defect? = none) :
    (start p settings).Sound p settings := by
  obtain ⟨s, hs⟩ := Solver.start_eq_ok hp h
  obtain ⟨-, -, hpivots⟩ := Solver.start_valid hp hs
  rw [start, hs]
  exact .ready ⟨s, hs, by rw [hpivots]; rfl⟩

theorem Sound.optimal_of_won (h : r.Sound p settings) (hwon : r.Won) : r.Optimal := by
  cases hwon with
  | done hwon =>
      cases h with
      | finished h => exact .done (h.won hwon)

private theorem sound_leave (h : s.Solo p settings) (hp : p.Sound)
    (hcount : settings.Countable p) (hvalid : s'.Valid p settings) (hgrid : s'.grid = s.grid)
    (hpivots : s'.pivots = s.pivots) {status : Ending} {won : Bool}
    (hwon : won = true → status = .optimal)
    (hoptimal : status = .optimal → Solver.turn false s = .ok (some .optimal) s') :
    (leave s' status won).Sound p settings := by
  have hfinish := hvalid.finish_eq hp status
  have hplan := hvalid.plan
  rw [leave, hfinish]
  refine .finished ⟨rfl, ?_, fun hstatus => ?_, hwon⟩
  · obtain ⟨s₀, hs₀, hrun⟩ := h
    rw [← hpivots] at hrun
    refine ⟨s₀, s, hs₀, hrun, hpivots.symm, ?_⟩
    rw [← hgrid]
    exact hplan.feasible.totalCost_eq_ok hp hplan.fits hplan.regular
  · cases hstatus
    have hturn := hoptimal rfl
    obtain ⟨-, -, -, hcheapest⟩ := (h.valid hp).turn_some hp hcount hturn
    refine ⟨⟨s.grid, ?_⟩, ?_⟩
    · have hcost := hcheapest rfl
      rwa [← hgrid] at hcost ⊢
    · have hsolve := h.solve_eq hturn hfinish
      rwa [← hpivots] at hsolve

theorem Sound.move (h : r.Sound p settings) (hp : p.Sound) (hcount : settings.Countable p)
    (flag : Bool) : (r.move flag).1.Sound p settings := by
  cases h with
  | ready h =>
      cases flag with
      | true => exact sound_leave h hp hcount (h.valid hp) rfl rfl nofun nofun
      | false => exact .running h
  | @running s h =>
      rw [Racer.move]
      cases hturn : Solver.turn false s with
      | error failure s' => exact .faulted ⟨s, h, Solver.turn_error (h.valid hp) hp hcount hturn⟩
      | ok ending s' =>
          cases ending with
          | none => exact .ready (h.turn_none hp hcount hturn)
          | some status =>
              obtain ⟨hvalid, hgrid, hpivots, -⟩ := (h.valid hp).turn_some hp hcount hturn
              cases status with
              | optimal => exact .proven h hturn
              | cancelled => exact sound_leave h hp hcount hvalid hgrid hpivots nofun nofun
              | limitReached => exact sound_leave h hp hcount hvalid hgrid hpivots nofun nofun
  | proven h hturn =>
      obtain ⟨hvalid, hgrid, hpivots, -⟩ := (h.valid hp).turn_some hp hcount hturn
      exact sound_leave h hp hcount hvalid hgrid hpivots (fun _ => rfl) fun _ => hturn
  | faulted h => exact .failed h
  | failed h => exact .failed h
  | finished h => exact .finished h

/-- What one step can do to its racer and to the flag: a raised flag stays raised, only a racer that
finds it down wins, an optimal end leaves it raised, and only an end raises it. -/
structure Steps (r : Racer) (flag : Bool) (r' : Racer) (flag' : Bool) : Prop where
  flag_mono : flag = true → flag' = true
  optimal : r'.Optimal → r.Optimal ∨ flag' = true
  won : r'.Won → r.Won ∨ flag = false
  raised : flag' = true → flag = true ∨ r'.Won ∨ r'.Failed
  keeps : r.Won ∨ r.Failed → r'.Won ∨ r'.Failed

private theorem leave_cases (s : Solver) (status : Ending) (won : Bool) :
    (∃ f, leave s status won = .done (.ok f) ∧ f.solution.status = status ∧ f.won = won) ∨
      ∃ failure, leave s status won = .done (.error failure) := by
  rw [leave]
  cases hfinish : s.finish status with
  | error failure => exact .inr ⟨failure, rfl⟩
  | ok solution => exact .inl ⟨_, rfl, Solver.status_of_finish hfinish, rfl⟩

/-- The racer is still on its way or leaves without an optimal plan. -/
private def Quiet (r : Racer) : Prop := ¬ r.Won ∧ ¬ r.Optimal

private theorem quiet_leave (s : Solver) {status : Ending} (hstatus : status ≠ .optimal) :
    (leave s status false).Quiet := by
  rcases leave_cases s status false with ⟨f, hleave, rfl, hwon⟩ | ⟨failure, hleave⟩
  · rw [hleave]
    constructor
    · rintro ⟨hwon'⟩
      rw [hwon] at hwon'
      contradiction
    · rintro ⟨hoptimal⟩
      exact hstatus hoptimal
  · rw [hleave]
    exact ⟨nofun, nofun⟩

private theorem quiet_ofTurn (result : EStateM.Result Failure Solver (Option Ending)) :
    (ofTurn result).Quiet := by
  cases result with
  | error failure s => exact ⟨nofun, nofun⟩
  | ok ending s =>
      cases ending with
      | none => exact ⟨nofun, nofun⟩
      | some status =>
          cases status with
          | optimal => exact ⟨nofun, nofun⟩
          | cancelled => exact quiet_leave s nofun
          | limitReached => exact quiet_leave s nofun

private theorem Quiet.steps {r' : Racer} (h : r'.Quiet) (hr : ¬ r.Won ∧ ¬ r.Failed)
    (flag : Bool) : r.Steps flag r' flag where
  flag_mono := id
  optimal hoptimal := absurd hoptimal h.2
  won hwon' := absurd hwon' h.1
  raised := .inl
  keeps hended := (hended.elim hr.1 hr.2).elim

theorem steps_move (r : Racer) (flag : Bool) :
    r.Steps flag (r.move flag).1 (r.move flag).2 := by
  cases r with
  | ready s =>
      have hready : ¬ (ready s).Won ∧ ¬ (ready s).Failed := ⟨nofun, nofun⟩
      cases flag with
      | true =>
          have hquiet : (leave s .cancelled false).Quiet := quiet_leave s nofun
          exact hquiet.steps hready true
      | false =>
          have hquiet : (running s).Quiet := ⟨nofun, nofun⟩
          exact hquiet.steps hready false
  | running s =>
      have hrunning : ¬ (running s).Won ∧ ¬ (running s).Failed := ⟨nofun, nofun⟩
      exact (quiet_ofTurn (Solver.turn false s)).steps hrunning flag
  | proven s =>
      rw [Racer.move]
      rcases leave_cases s .optimal (!flag) with ⟨f, hleave, -, hwon⟩ | ⟨failure, hleave⟩
      · rw [hleave]
        refine ⟨fun _ => rfl, fun _ => .inr rfl, ?_, fun _ => ?_, nofun⟩
        · rintro ⟨hwon'⟩
          rw [hwon'] at hwon
          exact .inr (by simpa using hwon.symm)
        · cases flag with
          | true => exact .inl rfl
          | false => exact .inr (.inl (.done hwon))
      · rw [hleave]
        exact ⟨fun _ => rfl, fun _ => .inr rfl, nofun, fun _ => .inr (.inr (.done failure)), nofun⟩
  | faulted failure =>
      exact {
        flag_mono := fun hflag => by rw [Racer.move, hflag, Bool.true_or]
        optimal := nofun
        won := nofun
        raised := fun _ => .inr (.inr (.done failure))
        keeps := nofun }
  | done result => exact ⟨id, .inl, .inl, .inl, id⟩

end Move

end Racer

end Transportation
