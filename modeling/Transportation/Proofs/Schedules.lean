import Mathlib.Data.List.Induction
import Transportation.Proofs.Racers
/-!
# Races under every schedule

In whatever order the racers of a race take their steps, and whenever the flag is raised from
outside, at most one racer wins, its solution is the one that it would have found alone, and the
reports are on plans that the solves reach alone.
-/
namespace Transportation

namespace RaceState

def Has (st : RaceState) (k : Nat) (r : Racer) : Prop := st.racers[k]? = some r

/-- What every schedule keeps. `raised` says whether the flag was raised from outside. -/
structure Kept (st : RaceState) (p : Problem) (settings : RaceSettings) (raised : Prop) :
    Prop where
  length_eq : st.racers.length = settings.corners.length
  sound : ∀ k r, st.Has k r → ∃ corner, settings.corners[k]? = some corner ∧
    r.Sound p (settings.racer corner)
  optimal : ∀ k r, st.Has k r → r.Optimal → st.flag = true
  unique : ∀ k l r r', st.Has k r → st.Has l r' → r.Won → r'.Won → k = l
  raised : st.flag = true → raised ∨ ∃ k r, st.Has k r ∧ (r.Won ∨ r.Failed)

section Play

variable {p : Problem} {settings : RaceSettings} {st : RaceState} {raised : Prop}

theorem kept_start (hp : p.Sound) (h : settings.solver.defect? = none) (flag : Bool) :
    (start p settings flag).Kept p settings (flag = true) := by
  have hracer : ∀ k r, (start p settings flag).Has k r → ∃ corner,
      settings.corners[k]? = some corner ∧ r.Sound p (settings.racer corner) ∧
        ∃ s, r = .ready s := by
    intro k r hr
    rw [Has, start, List.getElem?_map, Option.map_eq_some_iff] at hr
    obtain ⟨corner, hcorner, rfl⟩ := hr
    have hdefect : (settings.racer corner).defect? = none := h
    obtain ⟨s, hs⟩ := Solver.start_eq_ok hp hdefect
    exact ⟨corner, hcorner, Racer.sound_start hp h, s, by rw [Racer.start, hs]⟩
  refine ⟨by simp [start], fun k r hr => ?_, fun k r hr hoptimal => ?_,
    fun k l r r' hr hr' hwon => ?_, .inl⟩
  · obtain ⟨corner, hcorner, hsound, -⟩ := hracer k r hr
    exact ⟨corner, hcorner, hsound⟩
  · obtain ⟨-, -, -, s, rfl⟩ := hracer k r hr
    cases hoptimal
  · obtain ⟨-, -, -, s, rfl⟩ := hracer k r hr
    cases hwon

theorem move_absent {k : Nat} (h : st.racers[k]? = none) : st.move (.racer k) = st := by
  rw [move]
  dsimp only
  rw [h]

section Step

variable {k : Nat} {r : Racer} (hr : st.Has k r)

include hr

theorem move_racer : st.move (.racer k) =
    ⟨(r.move st.flag).2, st.racers.set k (r.move st.flag).1⟩ := by
  rw [move]
  dsimp only
  rw [show st.racers[k]? = some r from hr]

theorem has_move_iff {l : Nat} {x : Racer} : (st.move (.racer k)).Has l x ↔
    l = k ∧ x = (r.move st.flag).1 ∨ l ≠ k ∧ st.Has l x := by
  obtain ⟨hlt, -⟩ := List.getElem?_eq_some_iff.mp hr
  rw [move_racer hr, Has, Has, List.getElem?_set]
  by_cases heq : k = l
  · subst heq
    simp [hlt, eq_comm]
  · simp [heq, Ne.symm heq]

theorem has_moved : (st.move (.racer k)).Has k (r.move st.flag).1 :=
  (has_move_iff hr).mpr (.inl ⟨rfl, rfl⟩)

end Step

theorem Kept.flag_of_won (h : st.Kept p settings raised) {k : Nat} {r : Racer}
    (hr : st.Has k r) (hwon : r.Won) : st.flag = true := by
  obtain ⟨corner, -, hsound⟩ := h.sound k r hr
  exact h.optimal k r hr (hsound.optimal_of_won hwon)

section Step

variable (h : st.Kept p settings raised) {k : Nat} {r : Racer} (hr : st.Has k r)

include h hr

private theorem Kept.sound_move (hp : p.Sound) (hsplit : settings.solver.split = none) {l : Nat}
    {x : Racer} (hx : (st.move (.racer k)).Has l x) :
    ∃ corner, settings.corners[l]? = some corner ∧ x.Sound p (settings.racer corner) := by
  rcases (has_move_iff hr).mp hx with ⟨rfl, rfl⟩ | ⟨-, hx⟩
  · obtain ⟨corner, hcorner, hsound⟩ := h.sound _ _ hr
    exact ⟨corner, hcorner, hsound.move hp (SolverSettings.countable_of_split hsplit) st.flag⟩
  · exact h.sound l x hx

private theorem Kept.optimal_move {l : Nat} {x : Racer} (hx : (st.move (.racer k)).Has l x)
    (hoptimal : x.Optimal) : (st.move (.racer k)).flag = true := by
  have hsteps := r.steps_move st.flag
  rw [move_racer hr]
  rcases (has_move_iff hr).mp hx with ⟨rfl, rfl⟩ | ⟨-, hx⟩
  · rcases hsteps.optimal hoptimal with hbefore | hflag
    · exact hsteps.flag_mono (h.optimal _ _ hr hbefore)
    · exact hflag
  · exact hsteps.flag_mono (h.optimal l x hx hoptimal)

/-- No racer wins after another has won: it finds the flag raised. -/
private theorem Kept.not_won_move {l : Nat} {x : Racer} (hne : l ≠ k) (hx : st.Has l x)
    (hwon : x.Won) : ¬ (r.move st.flag).1.Won := by
  intro hwon'
  rcases (r.steps_move st.flag).won hwon' with hbefore | hdown
  · exact hne (h.unique l k x r hx hr hwon hbefore)
  · rw [h.flag_of_won hx hwon] at hdown
    contradiction

private theorem Kept.unique_move {l m : Nat} {x y : Racer} (hx : (st.move (.racer k)).Has l x)
    (hy : (st.move (.racer k)).Has m y) (hwon : x.Won) (hwon' : y.Won) : l = m := by
  rcases (has_move_iff hr).mp hx with ⟨rfl, rfl⟩ | ⟨hne, hold⟩
  · rcases (has_move_iff hr).mp hy with ⟨rfl, rfl⟩ | ⟨hne', hold'⟩
    · rfl
    · exact absurd hwon (h.not_won_move hr hne' hold' hwon')
  · rcases (has_move_iff hr).mp hy with ⟨rfl, rfl⟩ | ⟨hne', hold'⟩
    · exact absurd hwon' (h.not_won_move hr hne hold hwon)
    · exact h.unique l m x y hold hold' hwon hwon'

private theorem Kept.raised_move (hflag : (st.move (.racer k)).flag = true) :
    raised ∨ ∃ l x, (st.move (.racer k)).Has l x ∧ (x.Won ∨ x.Failed) := by
  have hsteps := r.steps_move st.flag
  rw [move_racer hr] at hflag
  rcases hsteps.raised hflag with hbefore | hended
  · rcases h.raised hbefore with hraised | ⟨l, x, hx, hended⟩
    · exact .inl hraised
    · by_cases heq : l = k
      · subst heq
        cases Option.some.inj (hx.symm.trans hr)
        exact .inr ⟨l, _, has_moved hr, hsteps.keeps hended⟩
      · exact .inr ⟨l, x, (has_move_iff hr).mpr (.inr ⟨heq, hx⟩), hended⟩
  · exact .inr ⟨k, _, has_moved hr, hended⟩

end Step

theorem Kept.move (h : st.Kept p settings raised) (hp : p.Sound)
    (hsplit : settings.solver.split = none) (m : RaceMove) :
    (st.move m).Kept p settings (raised ∨ m = .outside) := by
  cases m with
  | outside =>
      exact ⟨h.length_eq, h.sound, fun _ _ _ _ => rfl, h.unique, fun _ => .inl (.inr rfl)⟩
  | racer k =>
      cases hr : st.racers[k]? with
      | none =>
          rw [move_absent hr]
          exact ⟨h.length_eq, h.sound, h.optimal, h.unique,
            fun hflag => (h.raised hflag).imp_left .inl⟩
      | some r =>
          refine ⟨?_, fun l x hx => h.sound_move hr hp hsplit hx,
            fun l x hx => h.optimal_move hr hx, fun l m x y hx hy => h.unique_move hr hx hy,
            fun hflag => (h.raised_move hr hflag).imp_left .inl⟩
          rw [move_racer hr, List.length_set, h.length_eq]

theorem kept_play (hp : p.Sound) (hdefect : settings.solver.defect? = none)
    (hsplit : settings.solver.split = none) (flag : Bool) (moves : List RaceMove) :
    ((start p settings flag).play moves).Kept p settings (flag = true ∨ .outside ∈ moves) := by
  induction moves using List.reverseRecOn with
  | nil => simpa [play] using kept_start hp hdefect flag
  | append_singleton moves m ih =>
      have hmove := ih.move hp hsplit m
      rw [play, List.foldl_append]
      simpa [play, eq_comm, or_assoc] using hmove

private theorem finish?_eq_some_iff {r : Racer} {f : Finish} :
    r.finish? = some f ↔ r = .done (.ok f) := by
  constructor
  · intro h
    cases r with
    | done result => cases result <;> simp_all [Racer.finish?]
    | _ => cases h
  · rintro rfl
    rfl

theorem finishes?_eq_some_iff {finishes : List Finish} : st.finishes? = some finishes ↔
    st.racers = finishes.map fun f => .done (.ok f) := by
  rw [finishes?]
  generalize st.racers = racers
  induction racers generalizing finishes with
  | nil => cases finishes <;> simp
  | cons r racers ih =>
      simp only [List.mapM_cons, Option.bind_eq_bind, Option.bind_eq_some_iff,
        finish?_eq_some_iff, ih]
      cases finishes <;> simp [eq_comm]

section Finished

variable {finishes : List Finish} (h : st.Kept p settings raised)
  (hracers : st.racers = finishes.map fun f => .done (.ok f))

include hracers

private theorem has_of_getElem? {k : Nat} {f : Finish} (hf : finishes[k]? = some f) :
    st.Has k (.done (.ok f)) := by
  rw [Has, hracers, List.getElem?_map, hf]
  rfl

include h

theorem Kept.earned {k : Nat} {f : Finish} (hf : finishes[k]? = some f) :
    ∃ corner, settings.corners[k]? = some corner ∧ f.Earned p (settings.racer corner) := by
  obtain ⟨corner, hcorner, hsound⟩ := h.sound k _ (has_of_getElem? hracers hf)
  cases hsound with
  | finished hearned => exact ⟨corner, hcorner, hearned⟩

theorem Kept.earned_of_mem {f : Finish} (hf : f ∈ finishes) :
    f.Earned p (settings.racer f.solution.corner) := by
  obtain ⟨k, hk⟩ := List.mem_iff_getElem?.mp hf
  obtain ⟨corner, -, hearned⟩ := h.earned hracers hk
  have hcorner : f.solution.corner = corner := hearned.corner_eq
  rwa [hcorner]

theorem Kept.corners_eq : finishes.map (fun f => f.solution.corner) = settings.corners := by
  have hlength : finishes.length = settings.corners.length := by
    rw [← h.length_eq, hracers, List.length_map]
  apply List.ext_getElem? fun k => ?_
  rw [List.getElem?_map]
  cases hf : finishes[k]? with
  | none =>
      rw [List.getElem?_eq_none_iff, hlength] at hf
      exact (List.getElem?_eq_none hf).symm
  | some f =>
      obtain ⟨corner, hcorner, hearned⟩ := h.earned hracers hf
      rw [hcorner]
      exact congrArg some hearned.corner_eq

theorem Kept.winner_unique {k l : Nat} {f f' : Finish} (hf : finishes[k]? = some f)
    (hf' : finishes[l]? = some f') (hwon : f.won = true) (hwon' : f'.won = true) : k = l :=
  h.unique k l _ _ (has_of_getElem? hracers hf) (has_of_getElem? hracers hf') (.done hwon)
    (.done hwon')

theorem Kept.flag_of_optimal {f : Finish} (hf : f ∈ finishes)
    (hoptimal : f.solution.status = .optimal) : st.flag = true := by
  obtain ⟨k, hk⟩ := List.mem_iff_getElem?.mp hf
  exact h.optimal k _ (has_of_getElem? hracers hk) (.done hoptimal)

theorem Kept.exists_winner (hflag : st.flag = true) (hraised : ¬ raised) :
    ∃ f ∈ finishes, f.won = true := by
  obtain ⟨k, r, hr, hended⟩ := (h.raised hflag).resolve_left hraised
  rw [Has, hracers, List.getElem?_map, Option.map_eq_some_iff] at hr
  obtain ⟨f, hf, rfl⟩ := hr
  rcases hended with hwon | hfailed
  · cases hwon with
    | done hwon => exact ⟨f, List.mem_of_getElem? hf, hwon⟩
  · nomatch hfailed

end Finished

end Play

end RaceState

namespace Race

section Outcome

variable {p : Problem} {settings : RaceSettings} {finishes : List Finish}

theorem defect?_eq_none (h : settings.defect? = none) :
    settings.corners ≠ [] ∧ settings.solver.defect? = none := by
  rw [RaceSettings.defect?] at h
  split at h
  · contradiction
  · next hempty =>
      refine ⟨fun hnil => hempty (by rw [hnil]; rfl), ?_⟩
      split at h
      · contradiction
      · split at h
        · contradiction
        · exact h

/-- The result of a race: all reports, and the solution of a racer who won, if there is one. -/
structure Decides (finishes : List Finish) (outcome : RaceOutcome) : Prop where
  reports_eq : outcome.reports = finishes.map fun f => RacerReport.ofSolution f.solution
  winner_eq_none_iff : outcome.winner = none ↔ ∀ f ∈ finishes, f.won = false
  of_winner : ∀ corner, outcome.winner = some corner →
    ⟨outcome.solution, true⟩ ∈ finishes ∧ outcome.solution.corner = corner

theorem result?_decides (h : finishes ≠ []) :
    ∃ outcome, result? finishes = some outcome ∧ Decides finishes outcome := by
  rw [result?]
  cases hfind : finishes.find? (·.won) with
  | some f =>
      have hmem := List.mem_of_find?_eq_some hfind
      have hwon : f.won = true := List.find?_some hfind
      refine ⟨_, rfl, rfl, iff_of_false nofun fun hnone => ?_, fun corner hcorner => ⟨?_, ?_⟩⟩
      · rw [hnone f hmem] at hwon
        contradiction
      · rwa [← hwon]
      · exact Option.some.inj hcorner
  | none =>
      obtain ⟨f, rest, rfl⟩ := List.exists_cons_of_ne_nil h
      refine ⟨_, rfl, rfl, iff_of_true rfl fun f hf => ?_, nofun⟩
      simpa using List.find?_eq_none.mp hfind f hf

theorem Decides.exists_report {outcome : RaceOutcome} (h : Decides finishes outcome)
    {r : RacerReport} (hr : r ∈ outcome.reports) :
    ∃ f ∈ finishes, r = .ofSolution f.solution := by
  rw [h.reports_eq] at hr
  obtain ⟨f, hf, rfl⟩ := List.mem_map.mp hr
  exact ⟨f, hf, rfl⟩

/-- The plan reported on is the one that the solve from its corner reaches after as many pivots. -/
def Reached (p : Problem) (settings : RaceSettings) (r : RacerReport) : Prop :=
  ∃ s₀ s, Solver.start p (settings.racer r.corner) = .ok s₀ ∧
    Solver.run false r.pivots s₀ = .ok none s ∧ s.pivots = r.pivots ∧
    s.grid.totalCost p = .ok r.totalCost

/-- A cheapest solution, which is the one that the solve from its corner ends with. -/
structure Settled (p : Problem) (settings : RaceSettings) (solution : Solution) : Prop where
  status_eq : solution.status = .optimal
  cheapest : ∃ g, Cheapest p g solution.totalCost
  solve_eq : ∃ turns, ∀ more, Solver.solve p (settings.racer solution.corner) false
    (turns + more) = .ok (some solution)

theorem settled_of_earned {f : Finish} (h : f.Earned p (settings.racer f.solution.corner))
    (hstatus : f.solution.status = .optimal) : Settled p settings f.solution := by
  obtain ⟨hcheapest, hsolve⟩ := h.optimal hstatus
  exact ⟨hstatus, hcheapest, f.solution.pivots + 1, Solver.solve_add hsolve⟩

/-- However the moves of a race are ordered, at most one racer wins, and its solution is the one
that it would have found alone. -/
theorem schedule_safe {costs : List (List Int)} {supply demand : List Int}
    (hp : Problem.ofTable costs supply demand = .ok p) (hsettings : settings.defect? = none)
    (hsplit : settings.solver.split = none) (flag : Bool) (moves : List RaceMove)
    (hfinishes : ((RaceState.start p settings flag).play moves).finishes? = some finishes) :
    ∃ outcome, result? finishes = some outcome ∧
      outcome.reports.map RacerReport.corner = settings.corners ∧
      (∀ (k l : Nat) (f f' : Finish), finishes[k]? = some f → finishes[l]? = some f' →
        f.won = true → f'.won = true → k = l) ∧
      (outcome.winner = none ↔ ∀ f ∈ finishes, f.won = false) ∧
      (∀ corner, outcome.winner = some corner →
        ((RaceState.start p settings flag).play moves).flag = true ∧
        ⟨outcome.solution, true⟩ ∈ finishes ∧ outcome.solution.corner = corner ∧
        Settled p settings outcome.solution) ∧
      (flag = false → RaceMove.outside ∉ moves →
        ((∃ corner, outcome.winner = some corner) ↔ ∃ r ∈ outcome.reports, r.status = .optimal)) ∧
      (∀ r ∈ outcome.reports, Reached p settings r) ∧
      (∀ r ∈ outcome.reports, r.status = .optimal → ∃ g, Cheapest p g r.totalCost) ∧
      ∀ r ∈ outcome.reports, ∀ r' ∈ outcome.reports, r.status = .optimal →
        r'.status = .optimal → r.totalCost = r'.totalCost := by
  have hsound := Problem.sound_of_ofTable hp
  obtain ⟨hcorners, hdefect⟩ := defect?_eq_none hsettings
  have hkept := RaceState.kept_play hsound hdefect hsplit flag moves
  generalize (RaceState.start p settings flag).play moves = final at hkept hfinishes ⊢
  rw [RaceState.finishes?_eq_some_iff] at hfinishes
  have hearned : ∀ f ∈ finishes, f.Earned p (settings.racer f.solution.corner) :=
    fun f => hkept.earned_of_mem hfinishes
  have hcorners_eq := hkept.corners_eq hfinishes
  have hne : finishes ≠ [] := by
    rintro rfl
    exact hcorners hcorners_eq.symm
  obtain ⟨outcome, hresult, hdecides⟩ := result?_decides hne
  have hcheapest : ∀ r ∈ outcome.reports, r.status = .optimal →
      ∃ g, Cheapest p g r.totalCost := by
    intro r hr hstatus
    obtain ⟨f, hf, rfl⟩ := hdecides.exists_report hr
    exact (settled_of_earned (hearned f hf) hstatus).cheapest
  refine ⟨outcome, hresult, ?_, fun k l f f' => hkept.winner_unique hfinishes,
    hdecides.winner_eq_none_iff, fun corner hcorner => ?_, fun hflag houtside => ⟨?_, ?_⟩,
    fun r hr => ?_, hcheapest, fun r hr r' hr' hstatus hstatus' => ?_⟩
  · rw [hdecides.reports_eq, List.map_map]
    exact hcorners_eq
  · obtain ⟨hmem, hcorner⟩ := hdecides.of_winner corner hcorner
    have hstatus := (hearned _ hmem).won rfl
    exact ⟨hkept.flag_of_optimal hfinishes hmem hstatus, hmem, hcorner,
      settled_of_earned (hearned _ hmem) hstatus⟩
  · rintro ⟨corner, hcorner⟩
    obtain ⟨hmem, -⟩ := hdecides.of_winner corner hcorner
    refine ⟨.ofSolution outcome.solution, ?_, (hearned _ hmem).won rfl⟩
    rw [hdecides.reports_eq]
    exact List.mem_map.mpr ⟨_, hmem, rfl⟩
  · rintro ⟨r, hr, hstatus⟩
    obtain ⟨f, hf, rfl⟩ := hdecides.exists_report hr
    have hdown : ¬ (flag = true ∨ RaceMove.outside ∈ moves) := by
      rw [hflag]
      exact not_or.mpr ⟨Bool.false_ne_true, houtside⟩
    obtain ⟨f', hf', hwon⟩ :=
      hkept.exists_winner hfinishes (hkept.flag_of_optimal hfinishes hf hstatus) hdown
    refine Option.ne_none_iff_exists'.mp fun hnone => ?_
    rw [hdecides.winner_eq_none_iff.mp hnone f' hf'] at hwon
    contradiction
  · obtain ⟨f, hf, rfl⟩ := hdecides.exists_report hr
    exact (hearned f hf).solo
  · obtain ⟨g, hg⟩ := hcheapest r hr hstatus
    obtain ⟨g', hg'⟩ := hcheapest r' hr' hstatus'
    exact hg.unique hg'

/-- The racer from the north-east claims the victory while the other is on its last turn. -/
theorem schedule_safe_crossed : ∃ finishes outcome,
    ((RaceState.start crossed { corners := [.northWest, .northEast] } false).play
      [.racer 0, .racer 1, .racer 0, .racer 1, .racer 0, .racer 1, .racer 0, .racer 0]).finishes? =
        some finishes ∧
    result? finishes = some outcome ∧
    (∃ corner, outcome.winner = some corner) ∧
    ∀ r ∈ outcome.reports, r.status = .optimal → ∃ g, Cheapest crossed g r.totalCost := by
  have hfinishes : ((RaceState.start crossed { corners := [.northWest, .northEast] } false).play
      [.racer 0, .racer 1, .racer 0, .racer 1, .racer 0, .racer 1, .racer 0, .racer 0]).finishes? =
        some [⟨⟨[[0, 1], [1, 0]], 0, 1, .optimal, .northWest⟩, false⟩,
          ⟨⟨[[0, 1], [1, 0]], 0, 0, .optimal, .northEast⟩, true⟩] := by decide +kernel
  obtain ⟨outcome, hresult, -, -, -, -, hwinner, -, hcheapest, -⟩ :=
    schedule_safe ofTable_crossed (by decide) rfl false _ hfinishes
  refine ⟨_, outcome, hfinishes, hresult, ?_, hcheapest⟩
  cases hresult
  exact ⟨.northEast, rfl⟩

end Outcome

end Race

end Transportation
