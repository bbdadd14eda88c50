import Transportation.Proofs.TreeFlows
import Transportation.Proofs.Trajectory
/-!
# Progress

A pivot changes the cost of the plan by the amount moved times the opportunity cost of the entering
cell, so the cost never rises, and it stays the same only while pivots move nothing. A basis fixes
its plan, and so it cannot recur after a pivot that moved something. Without balanced parts of the
problem every pivot moves something, and a run ends before the cost runs out.
-/
namespace Transportation

/-- A pivot to a basic plan that costs no more. -/
structure Improves (p : Problem) (g : Grid) (e : Entering) (g' : Grid) (result : PivotResult) :
    Prop where
  plan : g'.BasicPlan p
  theta_nonneg : 0 ≤ result.theta
  delta_le : e.delta ≤ -1
  objective_eq : g'.objective p = g.objective p + result.theta * e.delta
  theta_pos : p.Indivisible → 1 ≤ result.theta

section Improves

variable {p : Problem} {g g' : Grid} {f : Node → Int} {e : Entering} {result : PivotResult}
  {stage : Stage}

/-- Around a circuit the costs add up, with their signs, to the opportunity cost of its first
cell. -/
theorem Grid.Circuit.sum_cost {c : Nat × Nat} {cs : List (Nat × Nat)} (h : g.Circuit c cs)
    (hf : Prices p g f) :
    ((g.around p c cs).links.map fun l => l.sign.factor * p.costAt l.row l.col).sum =
      reducedCost p f c.1 c.2 := by
  have hbasic : (g.signed p .minus cs).map (fun l => l.sign.factor * p.costAt l.row l.col) =
      (g.signed p .minus cs).map fun l =>
        l.sign.factor * (f (.source l.row) + f (.sink l.col)) := by
    apply List.map_congr_left
    intro l hl
    have hcell := hf.cell l.place (h.basic _ (mem_signed _ hl).1)
    exact congrArg (l.sign.factor * ·) hcell.symm
  have hsum := h.sum_around (p := p) f
  change (g.link p .plus c :: g.signed p .minus cs |>.map _).sum = 0 at hsum
  change (g.link p .plus c :: g.signed p .minus cs |>.map _).sum = _
  rw [List.map_cons, List.sum_cons] at hsum ⊢
  rw [hbasic, reducedCost]
  simp only [Grid.link, Sign.factor, one_mul] at hsum ⊢
  omega

theorem Grid.BasicPlan.improves (hg : g.BasicPlan p) (hp : p.Sound) (hf : Prices p g f)
    (hentering : (Evaluation.ofValues p g f).entering = some e)
    (henter : Pivot.enter p g e = .ok (g', result)) : Improves p g e g' result := by
  obtain ⟨he, hvacant, hdelta, hneg⟩ := Evaluation.entering_spec hp hg.fits hentering
  obtain ⟨g₁, result₁, henter₁, cs, hcircuit, hexchange⟩ := hg.enter_eq_ok hp he hvacant
  cases henter.symm.trans henter₁
  have htheta := hcircuit.theta_nonneg hg he
  rw [← hexchange.theta] at htheta
  refine ⟨hexchange.plan, htheta, by omega, ?_, fun hindivisible => ?_⟩
  · rw [Grid.objective, hexchange.weigh, hcircuit.sum_cost hf, ← hexchange.theta, ← hdelta,
      Grid.objective]
  · obtain ⟨⟨l, hl, hminus, hamount⟩, -⟩ := hcircuit.theta_spec (p := p)
    rw [hexchange.theta, ← hamount]
    exact hg.amount_pos hp hindivisible (hcircuit.basic_of_minus hl hminus)

theorem Improves.objective_le (h : Improves p g e g' result) :
    g'.objective p ≤ g.objective p := by
  rw [h.objective_eq]
  have := mul_nonpos_of_nonneg_of_nonpos h.theta_nonneg (h.delta_le.trans (by decide))
  omega

theorem Improves.objective_lt (h : Improves p g e g' result) (hindivisible : p.Indivisible) :
    g'.objective p < g.objective p := by
  rw [h.objective_eq]
  have := mul_neg_of_pos_of_neg (h.theta_pos hindivisible) (Int.lt_of_le_sub_one h.delta_le)
  omega

theorem Improves.theta_eq_zero (h : Improves p g e g' result)
    (heq : g'.objective p = g.objective p) : result.theta = 0 := by
  rw [h.objective_eq] at heq
  have hzero : result.theta * e.delta = 0 := by omega
  have hdelta := h.delta_le
  exact (mul_eq_zero.mp hzero).resolve_right (by omega)

theorem Grid.BasicPlan.stage_improves (hg : g.BasicPlan p) (hp : p.Sound)
    (hstage : g.stage p = .ok stage) (hpivot : stage.pivot = some (g', result)) :
    ∃ e, stage.evaluation.entering = some e ∧ Improves p g e g' result := by
  obtain ⟨f, hf⟩ := hg.exists_prices
  rcases Grid.stage_cases hp hg hf with
    ⟨-, hstage'⟩ | ⟨e, g₁, result₁, hentering, henter, -, hstage'⟩
  · cases hstage.symm.trans hstage'
    contradiction
  · cases hstage.symm.trans hstage'
    cases hpivot
    exact ⟨e, hentering, hg.improves hp hf hentering henter⟩

/-- Without balanced parts the cost falls with every pivot that is counted. -/
theorem objective_le_of_advances (hp : p.Sound) (hindivisible : p.Indivisible)
    {a b : Grid × Nat} (ha : a.1.BasicPlan p) (h : Relation.ReflTransGen (Advance p) a b) :
    b.1.BasicPlan p ∧ (b.2 : Int) + b.1.objective p ≤ a.2 + a.1.objective p := by
  induction h with
  | refl => exact ⟨ha, le_rfl⟩
  | tail _ hstep ih =>
      obtain ⟨hplan, hle⟩ := ih
      obtain ⟨stage, result, hstage, hpivot, hcount⟩ := hstep
      obtain ⟨e, -, himproves⟩ := hplan.stage_improves hp hstage hpivot
      have hlt := himproves.objective_lt hindivisible
      exact ⟨himproves.plan, by omega⟩

end Improves

/-- The stages of a trajectory, one after the other. -/
structure Course (p : Problem) (stages : Nat → Stage) : Prop where
  plan : ∀ k, (stages k).grid.BasicPlan p
  stage_eq : ∀ k, (stages k).grid.stage p = .ok (stages k)
  following_eq : ∀ k, (stages k).following = (stages (k + 1)).grid

section Course

variable {p : Problem} {stages : Nat → Stage} {k l : Nat}

theorem exists_course (hp : p.Sound) (corner : Corner) :
    ∃ stages, (∀ k, trajectory p corner k = .ok (stages k)) ∧ Course p stages := by
  choose stages htrajectory hplan hstage using exists_trajectory hp corner
  refine ⟨stages, htrajectory, hplan, hstage, fun k => ?_⟩
  obtain ⟨stage, hstage', hfollowing⟩ := (hplan k).exists_stage hp
  cases (hstage k).symm.trans hstage'
  have hnext := (trajectory_succ (htrajectory k) (hstage k)).symm.trans (htrajectory (k + 1))
  exact (hfollowing.grid_of_stage hp hnext).symm

theorem Course.improves (h : Course p stages) (hp : p.Sound) {g : Grid} {result : PivotResult}
    (hpivot : (stages k).pivot = some (g, result)) :
    g = (stages (k + 1)).grid ∧ ∃ e, (stages k).evaluation.entering = some e ∧
      Improves p (stages k).grid e g result := by
  have hnext := h.following_eq k
  rw [Stage.following, hpivot] at hnext
  exact ⟨hnext, (h.plan k).stage_improves hp (h.stage_eq k) hpivot⟩

theorem Course.eq_of_grid_eq (h : Course p stages) (heq : (stages k).grid = (stages l).grid) :
    stages k = stages l := by
  have hstage := h.stage_eq k
  rw [heq, h.stage_eq l] at hstage
  exact (Except.ok.inj hstage).symm

theorem Course.eq_of_basis_eq (h : Course p stages)
    (heq : (stages k).grid.basis = (stages l).grid.basis) : stages k = stages l :=
  h.eq_of_grid_eq ((h.plan k).eq_of_basis_eq (h.plan l) heq)

theorem Course.objective_le (h : Course p stages) (hp : p.Sound) (hle : k ≤ l) :
    (stages l).grid.objective p ≤ (stages k).grid.objective p := by
  induction l, hle using Nat.le_induction with
  | base => exact le_rfl
  | succ l _ ih =>
      refine le_trans ?_ ih
      cases hpivot : (stages l).pivot with
      | none =>
          have hnext := h.following_eq l
          rw [Stage.following, hpivot] at hnext
          exact (congrArg (Grid.objective · p) hnext).ge
      | some next =>
          obtain ⟨hnext, e, -, himproves⟩ := h.improves hp hpivot
          exact hnext ▸ himproves.objective_le

theorem Course.eq_of_pivot_eq_none (h : Course p stages) (hnone : (stages k).pivot = none)
    (hle : k ≤ l) : stages l = stages k := by
  induction l, hle using Nat.le_induction with
  | base => rfl
  | succ l _ ih =>
      have hnext := h.following_eq l
      rw [Stage.following, ih, hnone] at hnext
      exact (h.eq_of_grid_eq hnext).symm

/-- Between two pivots on one basis nothing is moved. -/
theorem Course.theta_eq_zero (h : Course p stages) (hp : p.Sound) (hlt : k < l)
    (hpivot : (stages l).pivot ≠ none)
    (hbasis : (stages k).grid.basis = (stages l).grid.basis) {i : Nat} (hki : k ≤ i) (hil : i ≤ l) :
    ∃ g result, (stages i).pivot = some (g, result) ∧ result.theta = 0 := by
  have heq := h.eq_of_basis_eq hbasis
  have hbefore : ∀ i, k ≤ i → i < l →
      ∃ g result, (stages i).pivot = some (g, result) ∧ result.theta = 0 := by
    intro i hki hil
    obtain ⟨⟨g, result⟩, hresult⟩ := Option.ne_none_iff_exists'.mp fun hnone =>
      hpivot (by rw [h.eq_of_pivot_eq_none hnone hil.le, hnone])
    obtain ⟨hnext, e, -, himproves⟩ := h.improves hp hresult
    refine ⟨g, result, hresult, himproves.theta_eq_zero (le_antisymm himproves.objective_le ?_)⟩
    rw [hnext]
    have hfirst := h.objective_le hp hki
    rw [heq] at hfirst
    exact hfirst.trans (h.objective_le hp hil)
  rcases hil.eq_or_lt with rfl | hil
  · exact heq ▸ hbefore k le_rfl hlt
  · exact hbefore i hki hil

/-- Without balanced parts no basis recurs. -/
theorem Course.basis_ne (h : Course p stages) (hp : p.Sound) (hindivisible : p.Indivisible)
    (hlt : k < l) (hpivot : (stages k).pivot ≠ none) :
    (stages k).grid.basis ≠ (stages l).grid.basis := by
  intro hbasis
  obtain ⟨⟨g, result⟩, hresult⟩ := Option.ne_none_iff_exists'.mp hpivot
  obtain ⟨hnext, e, -, himproves⟩ := h.improves hp hresult
  have hlater := h.objective_le hp (Nat.succ_le_of_lt hlt)
  have hdrop := himproves.objective_lt hindivisible
  rw [hnext, h.eq_of_basis_eq hbasis] at hdrop
  exact (hlater.trans_lt hdrop).false

end Course

namespace Solver

open SolverM

/-- A solver that successful calls lead to. -/
def Obtained (s : Solver) (p : Problem) (settings : SolverSettings) : Prop :=
  ∃ (s₀ : Solver) (calls : List SolverCall), start p settings = .ok s₀ ∧
    calls.forM SolverCall.perform s₀ = .ok ⟨⟩ s

section Run

variable {p : Problem} {settings : SolverSettings} {s : Solver}

theorem Obtained.follows (h : s.Obtained p settings) (hp : p.Sound) :
    ∃ g, settings.corner.firstBasis p = .ok g ∧ g.BasicPlan p ∧ s.Valid p settings ∧
      Relation.ReflTransGen (Advance p) (g, 0) (s.grid, s.pivots) := by
  obtain ⟨s₀, calls, hs₀, hcalls⟩ := h
  obtain ⟨hvalid, hfirst, hpivots⟩ := start_valid hp hs₀
  have hfollows := (leaves_forM hp calls hvalid).follows hcalls
  refine ⟨s₀.grid, hfirst, hvalid.plan, hfollows.valid, ?_⟩
  rw [← hpivots]
  exact hfollows.pivots

/-- Without balanced parts a run without a limit ends, each of its pivots paid for by the cost. -/
theorem Valid.run_ends (h : s.Valid p settings) (hp : p.Sound) (hcount : settings.Countable p)
    (hmax : settings.maxPivots = 0) (hindivisible : p.Indivisible)
    (hroom : (s.pivots : Int) + s.grid.objective p ≤ Count.greatest) :
    ∃ s' z, Cheapest p s'.grid z ∧ s.pivots ≤ s'.pivots ∧
      (s'.pivots : Int) + z ≤ s.pivots + s.grid.objective p ∧
      ∀ turns, s'.pivots < s.pivots + turns → run false turns s = .ok (some .optimal) s' := by
  -- Every pivot lowers the cost, which never falls below zero.
  induction hn : (s.grid.objective p).toNat using Nat.strong_induction_on generalizing s with
  | _ n ih =>
    obtain ⟨f, hf⟩ := h.plan.exists_prices
    rcases turn_cases h hp hcount hf with
      ⟨hnone, hturn⟩ | ⟨e, g, result, hentering, henter, hg, hturn⟩
    · have hoptimal : (Evaluation.ofValues p s.grid f).optimal = true := by
        rw [Evaluation.optimal, hnone]
        rfl
      have hle := (Evaluation.optimal_iff hp h.plan.fits hf).mp hoptimal
      refine ⟨s.evaluated p f, _, hf.cheapest hp h.plan hle, le_rfl, le_rfl, fun turns hturns => ?_⟩
      change s.pivots < s.pivots + turns at hturns
      obtain ⟨m, rfl⟩ := Nat.exists_eq_succ_of_ne_zero (show turns ≠ 0 by omega)
      rw [run, bind_of_ok hturn]
      rfl
    · have hlt := (h.plan.improves hp hf hentering henter).objective_lt hindivisible
      have hnonneg := hg.feasible.objective_nonneg hp hg.fits
      have hlimit : ¬ s.atLimit = true := by simp [atLimit, h.settings, hmax]
      rw [if_neg hlimit, if_pos (by omega)] at hturn
      obtain ⟨s', z, hz, hpivots, hle, hrun⟩ := ih _ (by
        rw [← hn]
        exact (Int.toNat_lt_toNat (by omega)).mpr hlt)
        ((h.evaluated hp hf).moved hg (s.pivots + 1)) (by
          change ((s.pivots + 1 : Nat) : Int) + g.objective p ≤ _
          omega) rfl
      change (s'.pivots : Int) + z ≤ ((s.pivots + 1 : Nat) : Int) + g.objective p at hle
      change s.pivots + 1 ≤ s'.pivots at hpivots
      change ∀ turns, s'.pivots < s.pivots + 1 + turns → _ at hrun
      refine ⟨s', z, hz, by omega, by omega, fun turns hturns => ?_⟩
      obtain ⟨m, rfl⟩ := Nat.exists_eq_succ_of_ne_zero (show turns ≠ 0 by omega)
      rw [run, bind_of_ok hturn]
      exact hrun m (by omega)

theorem Obtained.run_ends (h : s.Obtained p settings) (hp : p.Sound)
    (hcount : settings.Countable p) (hmax : settings.maxPivots = 0)
    (hindivisible : p.Indivisible) {g : Grid} (hfirst : settings.corner.firstBasis p = .ok g) :
    ∃ s' z, Cheapest p s'.grid z ∧ (s'.pivots : Int) ≤ g.objective p - z ∧
      ∀ turns : Nat, g.objective p - z < turns → run false turns s = .ok (some .optimal) s' := by
  obtain ⟨g', hfirst', hplan, hvalid, hadvances⟩ := h.follows hp
  cases hfirst.symm.trans hfirst'
  have hspent := (objective_le_of_advances hp hindivisible hplan hadvances).2
  have hroom := hplan.feasible.objective_le hp hplan.fits
  change (s.pivots : Int) + s.grid.objective p ≤ 0 + g.objective p at hspent
  simp only [Amount.greatest] at hroom
  obtain ⟨s', z, hz, -, hle, hrun⟩ := hvalid.run_ends hp hcount hmax hindivisible
    (by simp only [Count.greatest]; omega)
  exact ⟨s', z, hz, by omega, fun turns hturns => hrun turns (by omega)⟩

/-- Pivots pay for themselves: the cost falls by what they move, they repeat a basis only while
they move nothing, and without balanced parts they move something each time until the cheapest plan
is found. -/
theorem pivots_progress {costs : List (List Int)} {supply demand : List Int}
    (hp : Problem.ofTable costs supply demand = .ok p) (corner : Corner) :
    ∃ (stages : Nat → Stage) (cost : Nat → Int),
      (∀ k, trajectory p corner k = .ok (stages k) ∧
        (stages k).grid.totalCost p = .ok (cost k)) ∧
      (∀ (settings : SolverSettings) (s : Solver), settings.corner = corner →
        s.Obtained p settings →
          s.grid = (stages s.pivots).grid ∧ (settings.Countable p → s.At (stages s.pivots))) ∧
      (∀ k g result, (stages k).pivot = some (g, result) → g = (stages (k + 1)).grid ∧
        ∃ e, (stages k).evaluation.entering = some e ∧
          cost (k + 1) = cost k + result.theta * e.delta ∧ 0 ≤ result.theta ∧ e.delta ≤ -1) ∧
      (∀ k l, k ≤ l → cost l ≤ cost k) ∧
      (∀ k l, k < l → (stages l).pivot ≠ none →
        (stages k).grid.basis = (stages l).grid.basis → ∀ i, k ≤ i → i ≤ l →
          ∃ g result, (stages i).pivot = some (g, result) ∧ result.theta = 0) ∧
      (p.Indivisible →
        (∀ k g result, (stages k).pivot = some (g, result) → 1 ≤ result.theta) ∧
        (∀ k l, k < l → (stages k).pivot ≠ none →
          (stages k).grid.basis ≠ (stages l).grid.basis) ∧
        ∀ (settings : SolverSettings) (s : Solver), settings.Admits p corner →
          settings.maxPivots = 0 → s.Obtained p settings →
          ∃ s' z, Cheapest p s'.grid z ∧ (s'.pivots : Int) ≤ cost 0 - z ∧
            ∀ turns : Nat, cost 0 - z < turns →
              run false turns s = .ok (some .optimal) s') := by
  have hsound := Problem.sound_of_ofTable hp
  obtain ⟨stages, htrajectory, hcourse⟩ := exists_course hsound corner
  have hcost : ∀ k, (stages k).grid.totalCost p = .ok ((stages k).grid.objective p) := fun k =>
    (hcourse.plan k).feasible.totalCost_eq_ok hsound (hcourse.plan k).fits (hcourse.plan k).regular
  refine ⟨stages, fun k => (stages k).grid.objective p, fun k => ⟨htrajectory k, hcost k⟩,
    fun settings s hcorner hs => ?_, fun k g result hpivot => ?_,
    fun k l hle => hcourse.objective_le hsound hle,
    fun k l hlt hpivot hbasis i hki hil => hcourse.theta_eq_zero hsound hlt hpivot hbasis hki hil,
    fun hindivisible => ⟨fun k g result hpivot => ?_,
      fun k l hlt hpivot => hcourse.basis_ne hsound hindivisible hlt hpivot,
      fun settings s hsettings hmax hs => ?_⟩⟩
  · obtain ⟨g, hfirst, -, hvalid, hadvances⟩ := hs.follows hsound
    rw [hcorner] at hfirst
    have hstage := (trajectory_of_advances hfirst hadvances).symm.trans (htrajectory s.pivots)
    exact ⟨(hvalid.plan.grid_of_stage hsound hstage).symm,
      fun hcount => hvalid.at_stage hsound hcount hstage⟩
  · obtain ⟨hnext, e, hentering, himproves⟩ := hcourse.improves hsound hpivot
    refine ⟨hnext, e, hentering, ?_, himproves.theta_nonneg, himproves.delta_le⟩
    dsimp only
    rw [← hnext, himproves.objective_eq]
  · obtain ⟨-, e, -, himproves⟩ := hcourse.improves hsound hpivot
    exact himproves.theta_pos hindivisible
  · obtain ⟨g, hfirst, hplan⟩ := Corner.basicPlan_firstBasis hsound corner
    have hzero := htrajectory 0
    rw [trajectory, hfirst, ok_bind] at hzero
    rw [← hsettings.corner_eq, ← hplan.grid_of_stage hsound hzero] at hfirst
    exact hs.run_ends hsound hsettings.countable hmax hindivisible hfirst

end Run

def uneven : Problem := ⟨2, 2, [1, 0, 0, 1], [3, 2], [4, 1], 5⟩

theorem ofTable_uneven : Problem.ofTable [[1, 0], [0, 1]] [3, 2] [4, 1] = .ok uneven := rfl

theorem pivots_progress_uneven :
    ∃ (stages : Nat → Stage) (cost : Nat → Int),
      (stages 0).pivot =
        some (⟨2, 2, [.basic 2, .basic 1, .basic 2, .vacant], 3⟩, ⟨1, [(1, 1)], []⟩) ∧
      cost 0 = 4 ∧ cost 1 = 2 ∧
      ∃ s₀ s' z, start uneven {} = .ok s₀ ∧ Cheapest uneven s'.grid z ∧
        (s'.pivots : Int) ≤ 4 - z ∧
        ∀ turns : Nat, 4 - z < turns → run false turns s₀ = .ok (some .optimal) s' := by
  obtain ⟨stages, cost, hstages, -, hpivots, -, -, hends⟩ :=
    pivots_progress ofTable_uneven .northWest
  obtain ⟨-, -, hends⟩ := hends (by decide +kernel)
  have hpivot : (trajectory uneven .northWest 0).map Stage.pivot = .ok
      (some (⟨2, 2, [.basic 2, .basic 1, .basic 2, .vacant], 3⟩, ⟨1, [(1, 1)], []⟩)) := by
    decide +kernel
  have hcost : (trajectory uneven .northWest 0).bind (fun stage => stage.grid.totalCost uneven) =
      .ok 4 := by decide +kernel
  rw [(hstages 0).1] at hpivot hcost
  have hpivot := Except.ok.inj hpivot
  have hzero : cost 0 = 4 := Except.ok.inj ((hstages 0).2.symm.trans hcost)
  have hsettings : SolverSettings.Admits {} uneven .northWest := ⟨rfl, rfl, by rintro _ ⟨⟩⟩
  obtain ⟨s₀, hs₀⟩ := start_eq_ok (Problem.sound_of_ofTable ofTable_uneven) hsettings.defect?_eq
  obtain ⟨s', z, hz, hle, hrun⟩ := hends {} s₀ hsettings rfl ⟨s₀, [], hs₀, rfl⟩
  rw [hzero] at hle hrun
  refine ⟨stages, cost, hpivot, hzero, ?_, s₀, s', z, hs₀, hz, hle, hrun⟩
  have hone := (hstages 1).2
  rw [← (hpivots 0 _ _ hpivot).1] at hone
  exact Except.ok.inj (hone.symm.trans (by decide +kernel))

end Solver

end Transportation
