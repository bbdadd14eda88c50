import Transportation.Solver
import Transportation.Proofs.CornerWalk
import Transportation.Proofs.Evaluations
import Transportation.Proofs.Exchanges
import Transportation.Proofs.LevelSearch
/-!
# The operations of a solver

What each operation does on a solver whose grid is a basic plan: the potentials are the only ones
that fit, the evaluation and the pivot are those without a split, and a split with blocks that
cannot be counted stops the evaluation before anything moves.
-/
namespace Transportation

/-- The blocks of a split, if there is one, can be counted. -/
def SolverSettings.Countable (settings : SolverSettings) (p : Problem) : Prop :=
  ∀ split, settings.split = some split → split.rowsPerBlock p.rows * p.cols ≤ Count.greatest

theorem SolverSettings.countable_of_split {settings : SolverSettings} {p : Problem}
    (h : settings.split = none) : settings.Countable p := by
  intro split hsplit
  rw [h] at hsplit
  contradiction

def Pivot.enter (p : Problem) (g : Grid) (e : Entering) : Except Failure (Grid × PivotResult) := do
  let chain ← Chain.cycle p g e.row e.col
  Pivot.apply p g chain

section SolverM

variable {α β : Type} {x : SolverM α} {f : α → SolverM β} {s s' : Solver}

theorem SolverM.bind_of_ok {a : α} (h : x s = .ok a s') : (x >>= f) s = f a s' := by
  change EStateM.bind x f s = f a s'
  rw [EStateM.bind, h]

theorem SolverM.bind_of_error {failure : Failure} (h : x s = .error failure s') :
    (x >>= f) s = .error failure s' := by
  change EStateM.bind x f s = _
  rw [EStateM.bind, h]

theorem SolverM.eq_ok_of_bind {b : β} (h : (x >>= f) s = .ok b s') :
    ∃ a s₁, x s = .ok a s₁ ∧ f a s₁ = .ok b s' := by
  cases hresult : x s with
  | ok a s₁ =>
      rw [SolverM.bind_of_ok hresult] at h
      exact ⟨a, s₁, rfl, h⟩
  | error failure s₁ =>
      rw [SolverM.bind_of_error hresult] at h
      contradiction

theorem SolverM.get_bind (f : Solver → SolverM β) : (get >>= f) s = f s s := rfl

theorem SolverM.modify_bind (g : Solver → Solver) (f : PUnit → SolverM β) :
    (modify g >>= f) s = f ⟨⟩ (g s) := rfl

theorem SolverM.eq_ok_of_call {a : α} (h : (s.call x).1 = .ok a) : x s = .ok a (s.call x).2 := by
  rw [Solver.call] at h ⊢
  cases hresult : x s with
  | ok b s' =>
      rw [hresult] at h
      cases h
      rfl
  | error failure s' =>
      rw [hresult] at h
      contradiction

end SolverM

theorem Grid.Circuit.applyInBlocks_eq {p : Problem} {g : Grid} {e : Nat × Nat}
    {cs : List (Nat × Nat)} (hp : p.Sound) (hg : g.BasicPlan p)
    (he : e.1 < p.rows ∧ e.2 < p.cols) (h : g.Circuit e cs) (split : WorkSplit)
    (hsize : split.rowsPerBlock p.rows * p.cols ≤ Count.greatest) :
    Pivot.applyInBlocks split p g (g.around p e cs) =
      Pivot.settle p (g.around p e cs)
        (Pivot.shift (g.around p e cs).theta g (g.around p e cs).links)
        (Pivot.leavingByRow (g.around p e cs).theta g (g.around p e cs).links) := by
  refine Pivot.applyInBlocks_eq hp hg.fits hg.regular (h.placed hg.fits he) (h.movable hg he hp)
    ?_ split hsize
  have hsub := Finset.card_le_card (h.basis_shift_subset hg he)
  have hcard := Finset.card_insert_le e g.basis
  have hbasis := hg.card_basis hp
  have hspan := hp.span_le
  rw [(Pivot.regular_shift hg.regular _).card_basis] at hsub
  change (Pivot.shift (g.around p e cs).theta g (g.around p e cs).links).basicCount ≤ _
  simp only [Amount.greatest, Count.greatest] at hspan ⊢
  omega

/-- Every vacant cell can enter a basic plan, and a split does not change the exchange. -/
theorem Grid.BasicPlan.exchange_eq_ok {p : Problem} {g : Grid} {e : Nat × Nat}
    (hg : g.BasicPlan p) (hp : p.Sound) (he : e.1 < p.rows ∧ e.2 < p.cols)
    (hvacant : e ∉ g.basis) :
    ∃ cs g' result, g.Circuit e cs ∧ Grid.Exchange p g e cs g' result ∧
      Chain.cycle p g e.1 e.2 = .ok (g.around p e cs) ∧
      Pivot.apply p g (g.around p e cs) = .ok (g', result) ∧
      ∀ split : WorkSplit, split.rowsPerBlock p.rows * p.cols ≤ Count.greatest →
        Pivot.applyInBlocks split p g (g.around p e cs) = .ok (g', result) := by
  obtain ⟨cs, hcircuit, hcycle⟩ := Chain.cycle_eq_ok hp hg he hvacant
  obtain ⟨init, l, -, hexchange, hsettle⟩ := hcircuit.settle_eq_ok hp hg he hvacant
  refine ⟨cs, _, _, hcircuit, hexchange, hcycle, ?_, fun split hsize => ?_⟩
  · exact (hcircuit.apply_eq hp hg he).trans (hsettle _ (.refl _))
  · exact (hcircuit.applyInBlocks_eq hp hg he split hsize).trans
      (hsettle _ (Pivot.leavingByRow_perm (hcircuit.placed hg.fits he)))

theorem Grid.BasicPlan.enter_eq_ok {p : Problem} {g : Grid} {e : Entering} (hg : g.BasicPlan p)
    (hp : p.Sound) (he : e.row < p.rows ∧ e.col < p.cols) (hvacant : (e.row, e.col) ∉ g.basis) :
    ∃ g' result, Pivot.enter p g e = .ok (g', result) ∧
      ∃ cs, g.Circuit (e.row, e.col) cs ∧ Grid.Exchange p g (e.row, e.col) cs g' result := by
  obtain ⟨cs, g', result, hcircuit, hexchange, hcycle, happly, -⟩ :=
    hg.exchange_eq_ok hp he hvacant
  refine ⟨g', result, ?_, cs, hcircuit, hexchange⟩
  rw [Pivot.enter, hcycle, ok_bind, happly]

namespace Solver

open SolverM

theorem solve_eq_ok_iff {p : Problem} {settings : SolverSettings} {cancelled : Bool} {turns : Nat}
    {solution : Solution} : solve p settings cancelled turns = .ok (some solution) ↔
      ∃ s₀ status s, start p settings = .ok s₀ ∧ run cancelled turns s₀ = .ok (some status) s ∧
        s.finish status = .ok solution := by
  constructor
  · intro h
    rw [solve] at h
    obtain ⟨s₀, hs₀, h⟩ := bind_eq_ok_iff.mp h
    rw [Solver.call] at h
    cases hrun : run cancelled turns s₀ with
    | error failure s =>
        rw [hrun] at h
        contradiction
    | ok ending s =>
        rw [hrun] at h
        cases ending with
        | none =>
            change (Except.ok none : Except Failure (Option Solution)) = _ at h
            cases h
        | some status =>
            change (do return some (← s.finish status)) = _ at h
            obtain ⟨solution', hfinish, h⟩ := bind_eq_ok_iff.mp h
            cases h
            exact ⟨s₀, status, s, hs₀, hrun, hfinish⟩
  · rintro ⟨s₀, status, s, hs₀, hrun, hfinish⟩
    rw [solve, hs₀, ok_bind, Solver.call, hrun]
    change (do return some (← s.finish status)) = _
    rw [hfinish]
    rfl

private theorem lift_of_ok {α : Type} {result : Except Failure α} {a : α} (h : result = .ok a)
    (s : Solver) : lift result s = .ok a s := by
  rw [h]
  rfl

private theorem lift_of_error {α : Type} {result : Except Failure α} {failure : Failure}
    (h : result = .error failure) (s : Solver) : lift result s = .error failure s := by
  rw [h]
  rfl

/-- A solver of a problem with a basic plan. What it keeps belongs to that plan. -/
structure Valid (s : Solver) (p : Problem) (settings : SolverSettings) : Prop where
  problem : s.problem = p
  settings : s.settings = settings
  plan : s.grid.BasicPlan p
  potentials : ∀ values, s.potentials = some values →
    ∀ f, Prices p s.grid f → values = .ofValues p f
  deltas : s.deltas.Sized p

def evaluated (s : Solver) (p : Problem) (f : Node → Int) : Solver :=
  { s with
    potentials := some (.ofValues p f)
    deltas := .ofValues p s.grid f
    phase := if (Evaluation.ofValues p s.grid f).optimal then .optimal else .evaluated }

/-- The solver after a pivot that is not counted yet. -/
def moved (s : Solver) (g : Grid) : Solver :=
  { s with grid := g, potentials := none, phase := .pivoted }

section Valid

variable {p : Problem} {settings : SolverSettings} {s : Solver} {f : Node → Int}

theorem start_valid (hp : p.Sound) (h : start p settings = .ok s) :
    s.Valid p settings ∧ settings.corner.firstBasis p = .ok s.grid ∧ s.pivots = 0 := by
  rw [start] at h
  cases hdefect : settings.defect? with
  | some defect =>
      rw [hdefect] at h
      contradiction
  | none =>
      rw [hdefect] at h
      obtain ⟨g, hg, hplan⟩ := Corner.basicPlan_firstBasis hp settings.corner
      simp only [hg, ok_bind, pure_eq_ok, Except.ok.injEq] at h
      subst h
      exact ⟨⟨rfl, rfl, hplan, by simp, OpportunityTable.sized_blank p⟩, hg, rfl⟩

theorem start_eq_ok (hp : p.Sound) (h : settings.defect? = none) :
    ∃ s, start p settings = .ok s := by
  obtain ⟨g, hg, -⟩ := Corner.basicPlan_firstBasis hp settings.corner
  rw [start, h]
  simp only [hg, ok_bind]
  exact ⟨_, rfl⟩

theorem Valid.newPotentials_eq (h : s.Valid p settings) (hp : p.Sound) (hf : Prices p s.grid f) :
    s.newPotentials = .ok (.ofValues p f) := by
  have hfit := h.plan.fits
  have hreg := h.plan.regular
  have hscan := (Potentials.exhausts_scan hp hfit hreg).eq_ok hp h.plan hf
  have hbreadth := (Potentials.exhausts_breadthFirst hp hfit hreg).eq_ok hp h.plan hf
  have hlevel := (Potentials.exhausts_levelwise hp hfit hreg).eq_ok hp h.plan hf
  rw [newPotentials, h.problem]
  cases s.settings.split with
  | none => cases s.settings.potentials <;> assumption
  | some split => cases s.settings.potentials <;> assumption

theorem Valid.evaluation_eq (h : s.Valid p settings) (hp : p.Sound) (hf : Prices p s.grid f)
    (hcount : settings.Countable p) : s.evaluation (.ofValues p f) =
      .ok (Evaluation.ofValues p s.grid f, OpportunityTable.ofValues p s.grid f) := by
  rw [evaluation, h.problem, h.settings]
  cases hsplit : settings.split with
  | none => exact Evaluation.evaluate_eq hp h.plan hf h.deltas
  | some split =>
      exact Evaluation.evaluateInBlocks_eq hp h.plan hf h.deltas split (hcount split hsplit)

theorem Valid.evaluation_error (h : s.Valid p settings) (hcount : ¬ settings.Countable p)
    (values : Potentials) : s.evaluation values = .error (.breach .overflow) := by
  rw [SolverSettings.Countable] at hcount
  push Not at hcount
  obtain ⟨split, hsplit, hsize⟩ := hcount
  rw [evaluation, h.problem, h.settings, hsplit]
  dsimp only
  rw [Evaluation.evaluateInBlocks, Grid.requireFit_eq_ok_iff.mpr h.plan.fits, ok_bind,
    WorkSplit.cellsPerBlock, Count.ofNat, if_neg (by omega)]
  rfl

theorem refreshPotentials_eq (h : s.Valid p settings) (hp : p.Sound) (hf : Prices p s.grid f) :
    refreshPotentials s = .ok (.ofValues p f)
      { s with phase := .priced, potentials := some (.ofValues p f) } := by
  rw [refreshPotentials, get_bind, bind_of_ok (lift_of_ok (h.newPotentials_eq hp hf) s)]
  rfl

private theorem takePotentials_eq (h : s.Valid p settings) (hp : p.Sound)
    (hf : Prices p s.grid f) :
    ∃ phase, takePotentials s = .ok (.ofValues p f) { s with phase, potentials := none } := by
  rw [takePotentials, get_bind]
  cases hkept : s.potentials with
  | some values =>
      refine ⟨s.phase, ?_⟩
      rw [← h.potentials values hkept f hf]
      rfl
  | none =>
      refine ⟨.priced, ?_⟩
      dsimp only
      rw [get_bind, bind_of_ok (lift_of_ok (h.newPotentials_eq hp hf) s), modify_bind, hkept]
      rfl

theorem evaluate_eq (h : s.Valid p settings) (hp : p.Sound) (hf : Prices p s.grid f)
    (hcount : settings.Countable p) :
    evaluate s = .ok (Evaluation.ofValues p s.grid f) (s.evaluated p f) := by
  obtain ⟨phase, htake⟩ := takePotentials_eq h hp hf
  have hevaluation : evaluation { s with phase, potentials := none } (.ofValues p f) =
      .ok (Evaluation.ofValues p s.grid f, OpportunityTable.ofValues p s.grid f) :=
    h.evaluation_eq hp hf hcount
  rw [evaluate, bind_of_ok htake, get_bind, modify_bind,
    bind_of_ok (lift_of_ok hevaluation _)]
  rfl

/-- An evaluation that fails has changed neither the plan nor the number of pivots. -/
theorem evaluate_error (h : s.Valid p settings) (hp : p.Sound) (hf : Prices p s.grid f)
    (hcount : ¬ settings.Countable p) :
    ∃ phase, evaluate s = .error (.breach .overflow)
      { s with phase, potentials := some (.ofValues p f) } := by
  obtain ⟨phase, htake⟩ := takePotentials_eq h hp hf
  have hevaluation : evaluation { s with phase, potentials := none } (.ofValues p f) =
      .error (.breach .overflow) := h.evaluation_error hcount _
  refine ⟨phase, ?_⟩
  rw [evaluate, bind_of_ok htake, get_bind, modify_bind,
    bind_of_error (lift_of_error hevaluation _)]

theorem Valid.priced (h : s.Valid p settings) (hp : p.Sound) (hf : Prices p s.grid f)
    (phase : Phase) :
    ({ s with phase, potentials := some (.ofValues p f) } : Solver).Valid p settings where
  problem := h.problem
  settings := h.settings
  plan := h.plan
  potentials values hvalues f' hf' := by
    cases hvalues
    have hscan := Potentials.exhausts_scan hp h.plan.fits h.plan.regular
    exact Except.ok.inj ((hscan.eq_ok hp h.plan hf).symm.trans (hscan.eq_ok hp h.plan hf'))
  deltas := h.deltas

theorem Valid.evaluated (h : s.Valid p settings) (hp : p.Sound) (hf : Prices p s.grid f) :
    (s.evaluated p f).Valid p settings where
  problem := h.problem
  settings := h.settings
  plan := h.plan
  potentials := (h.priced hp hf s.phase).potentials
  deltas := OpportunityTable.sized_ofValues p s.grid f

theorem Valid.moved (h : s.Valid p settings) {g : Grid} (hg : g.BasicPlan p) (pivots : Nat) :
    ({ s.moved g with pivots } : Solver).Valid p settings where
  problem := h.problem
  settings := h.settings
  plan := hg
  potentials := by simp [Solver.moved]
  deltas := h.deltas

/-- A pivot on a vacant cell does the same under all settings, and fails only if it cannot be
counted. -/
theorem pivot_eq (h : s.Valid p settings) (hp : p.Sound) (hcount : settings.Countable p)
    {e : Entering} (he : e.row < p.rows ∧ e.col < p.cols)
    (hvacant : (e.row, e.col) ∉ s.grid.basis) :
    ∃ g result, Pivot.enter p s.grid e = .ok (g, result) ∧
      (∃ cs, s.grid.Circuit (e.row, e.col) cs ∧
        Grid.Exchange p s.grid (e.row, e.col) cs g result) ∧
      pivot e s = if s.pivots + 1 ≤ Count.greatest then
          .ok result { s.moved g with pivots := s.pivots + 1 }
        else
          .error (.breach .overflow) (s.moved g) := by
  obtain ⟨cs, g, result, hcircuit, hexchange, hcycle, happly, hblocks⟩ :=
    h.plan.exchange_eq_ok hp he hvacant
  have hpivoting : s.pivoting (s.grid.around p (e.row, e.col) cs) = .ok (g, result) := by
    rw [pivoting, h.problem, h.settings]
    cases hsplit : settings.split with
    | none => exact happly
    | some split => exact hblocks split (hcount split hsplit)
  refine ⟨g, result, ?_, ⟨cs, hcircuit, hexchange⟩, ?_⟩
  · rw [Pivot.enter, hcycle, ok_bind, happly]
  · rw [pivot, get_bind, h.problem, bind_of_ok (lift_of_ok hcycle s), modify_bind,
      bind_of_ok (lift_of_ok hpivoting _)]
    dsimp only
    rw [modify_bind, Count.ofNat]
    split <;> rfl

theorem step_cases (h : s.Valid p settings) (hp : p.Sound) (hcount : settings.Countable p)
    (hf : Prices p s.grid f) :
    ((Evaluation.ofValues p s.grid f).entering = none ∧
      step s = .ok .optimal (s.evaluated p f)) ∨
    ∃ e g result, (Evaluation.ofValues p s.grid f).entering = some e ∧
      Pivot.enter p s.grid e = .ok (g, result) ∧ g.BasicPlan p ∧
      step s = if s.pivots + 1 ≤ Count.greatest then
          .ok (.pivoted result) { (s.evaluated p f).moved g with pivots := s.pivots + 1 }
        else
          .error (.breach .overflow) ((s.evaluated p f).moved g) := by
  have hevaluate := evaluate_eq h hp hf hcount
  cases hentering : (Evaluation.ofValues p s.grid f).entering with
  | none =>
      refine .inl ⟨rfl, ?_⟩
      rw [step, bind_of_ok hevaluate, hentering]
      rfl
  | some e =>
      obtain ⟨he, hvacant, -, -⟩ := Evaluation.entering_spec hp h.plan.fits hentering
      obtain ⟨g, result, henter, ⟨cs, -, hexchange⟩, hpivot⟩ :=
        pivot_eq (h.evaluated hp hf) hp hcount he hvacant
      refine .inr ⟨e, g, result, rfl, henter, hexchange.plan, ?_⟩
      rw [step, bind_of_ok hevaluate, hentering]
      dsimp only
      change (pivot e >>= _) (s.evaluated p f) = if (s.evaluated p f).pivots + 1 ≤ _ then _ else _
      by_cases hroom : (s.evaluated p f).pivots + 1 ≤ Count.greatest
      · rw [if_pos hroom] at hpivot ⊢
        rw [bind_of_ok hpivot]
        rfl
      · rw [if_neg hroom] at hpivot ⊢
        rw [bind_of_error hpivot]

theorem step_of_none (h : s.Valid p settings) (hp : p.Sound) (hcount : settings.Countable p)
    (hf : Prices p s.grid f) (hnone : (Evaluation.ofValues p s.grid f).entering = none) :
    step s = .ok .optimal (s.evaluated p f) := by
  rcases step_cases h hp hcount hf with ⟨-, hstep⟩ | ⟨e, g, result, hentering, -⟩
  · exact hstep
  · rw [hnone] at hentering
    contradiction

theorem step_of_some (h : s.Valid p settings) (hp : p.Sound) (hcount : settings.Countable p)
    (hf : Prices p s.grid f) {e : Entering} {g : Grid} {result : PivotResult}
    (hentering : (Evaluation.ofValues p s.grid f).entering = some e)
    (henter : Pivot.enter p s.grid e = .ok (g, result)) :
    step s = if s.pivots + 1 ≤ Count.greatest then
        .ok (.pivoted result) { (s.evaluated p f).moved g with pivots := s.pivots + 1 }
      else
        .error (.breach .overflow) ((s.evaluated p f).moved g) := by
  rcases step_cases h hp hcount hf with
    ⟨hnone, -⟩ | ⟨e', g', result', hentering', henter', -, hstep⟩
  · rw [hnone] at hentering
    contradiction
  · cases hentering.symm.trans hentering'
    cases henter.symm.trans henter'
    exact hstep

theorem turn_false : turn false = (do
    match (← evaluate).entering with
    | none => return some .optimal
    | some entering =>
      if (← get).atLimit then
        return some .limitReached
      else
        let _ ← pivot entering
        return none) := rfl

/-- A turn that is not cancelled is a step, unless the limit of pivots stops it. -/
theorem turn_cases (h : s.Valid p settings) (hp : p.Sound) (hcount : settings.Countable p)
    (hf : Prices p s.grid f) :
    ((Evaluation.ofValues p s.grid f).entering = none ∧
      turn false s = .ok (some .optimal) (s.evaluated p f)) ∨
    ∃ e g result, (Evaluation.ofValues p s.grid f).entering = some e ∧
      Pivot.enter p s.grid e = .ok (g, result) ∧ g.BasicPlan p ∧
      turn false s = if s.atLimit then
          .ok (some .limitReached) (s.evaluated p f)
        else if s.pivots + 1 ≤ Count.greatest then
          .ok none { (s.evaluated p f).moved g with pivots := s.pivots + 1 }
        else
          .error (.breach .overflow) ((s.evaluated p f).moved g) := by
  have hevaluate := evaluate_eq h hp hf hcount
  rw [turn_false, bind_of_ok hevaluate]
  cases hentering : (Evaluation.ofValues p s.grid f).entering with
  | none => exact .inl ⟨rfl, rfl⟩
  | some e =>
      obtain ⟨he, hvacant, -, -⟩ := Evaluation.entering_spec hp h.plan.fits hentering
      obtain ⟨g, result, henter, ⟨cs, -, hexchange⟩, hpivot⟩ :=
        pivot_eq (h.evaluated hp hf) hp hcount he hvacant
      refine .inr ⟨e, g, result, rfl, henter, hexchange.plan, ?_⟩
      have hatLimit : (s.evaluated p f).atLimit = s.atLimit := rfl
      dsimp only
      rw [get_bind, hatLimit]
      by_cases hlimit : s.atLimit = true
      · rw [if_pos hlimit, if_pos hlimit]
        rfl
      · rw [if_neg hlimit, if_neg hlimit]
        change (pivot e >>= _) (s.evaluated p f) =
          if (s.evaluated p f).pivots + 1 ≤ _ then _ else _
        by_cases hroom : (s.evaluated p f).pivots + 1 ≤ Count.greatest
        · rw [if_pos hroom] at hpivot ⊢
          rw [bind_of_ok hpivot]
          rfl
        · rw [if_neg hroom] at hpivot ⊢
          rw [bind_of_error hpivot]

theorem turn_of_none (h : s.Valid p settings) (hp : p.Sound) (hcount : settings.Countable p)
    (hf : Prices p s.grid f) (hnone : (Evaluation.ofValues p s.grid f).entering = none) :
    turn false s = .ok (some .optimal) (s.evaluated p f) := by
  rcases turn_cases h hp hcount hf with ⟨-, hturn⟩ | ⟨e, g, result, hentering, -⟩
  · exact hturn
  · rw [hnone] at hentering
    contradiction

theorem turn_of_some (h : s.Valid p settings) (hp : p.Sound) (hcount : settings.Countable p)
    (hf : Prices p s.grid f) {e : Entering} {g : Grid} {result : PivotResult}
    (hentering : (Evaluation.ofValues p s.grid f).entering = some e)
    (henter : Pivot.enter p s.grid e = .ok (g, result)) :
    turn false s = if s.atLimit then
        .ok (some .limitReached) (s.evaluated p f)
      else if s.pivots + 1 ≤ Count.greatest then
        .ok none { (s.evaluated p f).moved g with pivots := s.pivots + 1 }
      else
        .error (.breach .overflow) ((s.evaluated p f).moved g) := by
  rcases turn_cases h hp hcount hf with
    ⟨hnone, -⟩ | ⟨e', g', result', hentering', henter', -, hturn⟩
  · rw [hnone] at hentering
    contradiction
  · cases hentering.symm.trans hentering'
    cases henter.symm.trans henter'
    exact hturn

theorem turn_eq_ok_cases (h : s.Valid p settings) (hp : p.Sound) (hcount : settings.Countable p)
    (hf : Prices p s.grid f) {ending : Option Ending} {s' : Solver}
    (hturn : turn false s = .ok ending s') :
    (s' = s.evaluated p f ∧
      (ending = some .optimal ∧ (Evaluation.ofValues p s.grid f).optimal = true ∨
        ending = some .limitReached)) ∨
    ∃ e g result, (Evaluation.ofValues p s.grid f).entering = some e ∧
      Pivot.enter p s.grid e = .ok (g, result) ∧ g.BasicPlan p ∧ ending = none ∧
      s' = { (s.evaluated p f).moved g with pivots := s.pivots + 1 } := by
  rcases turn_cases h hp hcount hf with
    ⟨hnone, hturn'⟩ | ⟨e, g, result, hentering, henter, hg, hturn'⟩
  · cases hturn'.symm.trans hturn
    refine .inl ⟨rfl, .inl ⟨rfl, ?_⟩⟩
    rw [Evaluation.optimal, hnone]
    rfl
  · rw [hturn'] at hturn
    split at hturn
    · cases hturn
      exact .inl ⟨rfl, .inr rfl⟩
    · split at hturn
      · cases hturn
        exact .inr ⟨e, g, result, hentering, henter, hg, rfl, rfl⟩
      · contradiction

theorem turn_error (h : s.Valid p settings) (hp : p.Sound) (hcount : settings.Countable p)
    {failure : Failure} {s' : Solver} (hturn : turn false s = .error failure s') :
    Count.greatest ≤ s.pivots := by
  obtain ⟨f, hf⟩ := h.plan.exists_prices
  rcases turn_cases h hp hcount hf with ⟨-, hturn'⟩ | ⟨e, g, result, -, -, -, hturn'⟩
  · rw [hturn'] at hturn
    contradiction
  · rw [hturn'] at hturn
    split at hturn
    · contradiction
    · split at hturn
      · contradiction
      · omega

end Valid

end Solver

end Transportation
