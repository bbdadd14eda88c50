import Transportation.Proofs.Trajectory
/-!
# What a solver keeps

Between calls a solver keeps potentials and opportunity costs. Its phase tells what it keeps, and
whatever it keeps belongs to the present plan: a pivot drops the potentials, and only an evaluation
makes the opportunity costs current. The count of pivots is the number of pivots made by the calls.
-/
namespace Transportation

/-- The potentials of a grid: zero at the first source, and with the values of the ends of every
basic cell adding up to its cost. Every method computes them. -/
structure Potentials.Fit (values : Potentials) (p : Problem) (g : Grid) : Prop where
  length_u : values.u.length = p.rows
  length_v : values.v.length = p.cols
  first : values.u.getD 0 0 = 0
  basic_eq : ∀ i j, i < p.rows → j < p.cols → (g.cell i j).isBasic = true →
    values.u.getD i 0 + values.v.getD j 0 = p.costAt i j
  compute_eq : ∀ method, compute method p g = .ok values
  levelwise_eq : levelwise p g = .ok values

/-- The opportunity costs of a grid: none for a basic cell, and for a vacant one its cost less the
values of its ends. -/
structure OpportunityTable.Fit (t : OpportunityTable) (p : Problem) (g : Grid)
    (values : Potentials) : Prop where
  sized : t.Sized p
  basic_eq : ∀ i j, i < p.rows → j < p.cols → (g.cell i j).isBasic = true → t.get i j = .ok none
  vacant_eq : ∀ i j, i < p.rows → j < p.cols → (g.cell i j).isBasic = false →
    t.get i j = .ok (some (p.costAt i j - (values.u.getD i 0 + values.v.getD j 0)))

/-- No cell has a negative opportunity cost. -/
def OpportunityTable.Nonneg (t : OpportunityTable) (p : Problem) : Prop :=
  ∀ i j delta, i < p.rows → j < p.cols → t.get i j = .ok (some delta) → 0 ≤ delta

section Fit

variable {p : Problem} {g : Grid} {f : Node → Int} {i j : Nat}

theorem Prices.fit_potentials (hf : Prices p g f) (hp : p.Sound) (hg : g.BasicPlan p) :
    (Potentials.ofValues p f).Fit p g where
  length_u := by simp [Potentials.ofValues]
  length_v := by simp [Potentials.ofValues]
  first := by rw [(getD_ofValues f hp.rows_pos hp.cols_pos).1, hf.first]
  basic_eq i j hi hj hbasic := by
    rw [(getD_ofValues f hi hj).1, (getD_ofValues f hi hj).2]
    exact hf.cell (i, j) (Grid.mem_basis.mpr ⟨hg.fits.1.symm ▸ hi, hg.fits.2.symm ▸ hj, hbasic⟩)
  compute_eq method := by
    cases method with
    | scan => exact (Potentials.exhausts_scan hp hg.fits hg.regular).eq_ok hp hg hf
    | breadthFirst => exact (Potentials.exhausts_breadthFirst hp hg.fits hg.regular).eq_ok hp hg hf
  levelwise_eq := (Potentials.exhausts_levelwise hp hg.fits hg.regular).eq_ok hp hg hf

theorem OpportunityTable.get_ofValues (g : Grid) (f : Node → Int) (hi : i < p.rows)
    (hj : j < p.cols) : (ofValues p g f).get i j =
      .ok (if (g.cell i j).isBasic then none else some (reducedCost p f i j)) := by
  have hget : (ofValues p g f).get i j = .ok (vacantCost p g f (i * p.cols + j)) := by
    rw [OpportunityTable.get, entry_eq_ok_iff]
    simp [ofValues, position_lt hi hj]
  rw [hget, vacantCost, position_div i hj, position_mod i hj]

theorem OpportunityTable.fit_ofValues (p : Problem) (g : Grid) (f : Node → Int) :
    (ofValues p g f).Fit p g (.ofValues p f) where
  sized := sized_ofValues p g f
  basic_eq i j hi hj hbasic := by rw [get_ofValues g f hi hj, if_pos hbasic]
  vacant_eq i j hi hj hvacant := by
    rw [get_ofValues g f hi hj, hvacant, (getD_ofValues f hi hj).1, (getD_ofValues f hi hj).2]
    rfl

theorem Evaluation.optimal_iff_nonneg (hp : p.Sound) (hfit : g.Fits p) (f : Node → Int) :
    (ofValues p g f).optimal = true ↔ (OpportunityTable.ofValues p g f).Nonneg p := by
  rw [optimal_iff_vacant hp hfit]
  constructor
  · intro hall i j delta hi hj hget
    rw [OpportunityTable.get_ofValues g f hi hj] at hget
    split at hget
    · cases hget
    · next hvacant =>
        cases hget
        exact hall i j hi hj ((Grid.not_mem_basis_iff hfit hi hj).mpr (by simpa using hvacant))
  · intro hnonneg i j hi hj hvacant
    refine hnonneg i j (reducedCost p f i j) hi hj ?_
    rw [OpportunityTable.get_ofValues g f hi hj, (Grid.not_mem_basis_iff hfit hi hj).mp hvacant]
    rfl

end Fit

namespace Solver

open SolverM

/-- A solver whose phase tells what it keeps, all of it for the present plan. -/
structure Coherent (s : Solver) (p : Problem) : Prop where
  phase_ne : s.phase ≠ .cycleFound
  pivots_eq_zero : s.phase = .fresh → s.pivots = 0
  isSome_potentials : s.potentials.isSome = true ↔
    s.phase = .priced ∨ s.phase = .evaluated ∨ s.phase = .optimal
  fit_potentials : ∀ values, s.potentials = some values → values.Fit p s.grid
  fit_deltas : s.phase = .evaluated ∨ s.phase = .optimal →
    ∃ values, s.potentials = some values ∧ s.deltas.Fit p s.grid values ∧
      (s.phase = .optimal ↔ s.deltas.Nonneg p)

def Keeps (s : Solver) (p : Problem) (f : Node → Int) : Prop :=
  match s.phase with
  | .fresh => s.potentials = none ∧ s.pivots = 0
  | .priced => s.potentials = some (.ofValues p f)
  | .evaluated | .optimal => s = s.evaluated p f
  | .cycleFound => False
  | .pivoted => s.potentials = none

/-- The changes of which every call is made. -/
inductive Change (p : Problem) : Solver → Solver → Prop
  | price {s : Solver} {f : Node → Int} (hf : Prices p s.grid f) :
      Change p s { s with phase := .priced, potentials := some (.ofValues p f) }
  | evaluate {s : Solver} {f : Node → Int} (hf : Prices p s.grid f) : Change p s (s.evaluated p f)
  | pivot {s : Solver} {f : Node → Int} {g : Grid} (hf : Prices p s.grid f) (hg : g.BasicPlan p)
      (pivots : Nat) : Change p s { (s.evaluated p f).moved g with pivots }

def Changes {α : Type} (p : Problem) (s : Solver) : EStateM.Result Failure Solver α → Prop
  | .ok _ s' => Relation.ReflTransGen (Change p) s s'
  | .error _ s' => Relation.ReflTransGen (Change p) s s'

section Changes

variable {p : Problem} {settings : SolverSettings} {s s' : Solver} {f : Node → Int}

theorem Change.valid (h : Change p s s') (hp : p.Sound) (hs : s.Valid p settings) :
    s'.Valid p settings := by
  cases h with
  | price hf => exact hs.priced hp hf _
  | evaluate hf => exact hs.evaluated hp hf
  | pivot hf hg pivots => exact (hs.evaluated hp hf).moved hg pivots

theorem valid_of_changes (h : Relation.ReflTransGen (Change p) s s') (hp : p.Sound)
    (hs : s.Valid p settings) : s'.Valid p settings := by
  induction h with
  | refl => exact hs
  | tail _ hchange ih => exact hchange.valid hp ih

theorem Changes.bind {α β : Type} {x : SolverM α} {k : α → SolverM β} (hx : Changes p s (x s))
    (hk : ∀ a (s' : Solver), Relation.ReflTransGen (Change p) s s' → Changes p s' (k a s')) :
    Changes p s ((x >>= k) s) := by
  cases hresult : x s with
  | ok a s₁ =>
      rw [hresult] at hx
      rw [bind_of_ok hresult]
      have hrest := hk a s₁ hx
      cases hresult' : k a s₁ with
      | ok b s₂ =>
          rw [hresult'] at hrest
          exact Relation.ReflTransGen.trans hx hrest
      | error failure s₂ =>
          rw [hresult'] at hrest
          exact Relation.ReflTransGen.trans hx hrest
  | error failure s₁ =>
      rw [hresult] at hx
      rw [bind_of_error hresult]
      exact hx

private theorem changes_step (h : s.Valid p settings) (hp : p.Sound)
    (hcount : settings.Countable p) : Changes p s (step s) := by
  obtain ⟨f, hf⟩ := h.plan.exists_prices
  rcases step_cases h hp hcount hf with ⟨-, hstep⟩ | ⟨e, g, result, -, -, hg, hstep⟩
  · rw [hstep]
    exact .single (.evaluate hf)
  · rw [hstep]
    split
    · exact .single (.pivot hf hg _)
    · exact .single (.pivot hf hg s.pivots)

private theorem changes_turn (h : s.Valid p settings) (hp : p.Sound)
    (hcount : settings.Countable p) (cancelled : Bool) : Changes p s (turn cancelled s) := by
  cases cancelled with
  | true =>
      rw [turn_true]
      exact .refl
  | false =>
      obtain ⟨f, hf⟩ := h.plan.exists_prices
      rcases turn_cases h hp hcount hf with ⟨-, hturn⟩ | ⟨e, g, result, -, -, hg, hturn⟩
      · rw [hturn]
        exact .single (.evaluate hf)
      · rw [hturn]
        split
        · exact .single (.evaluate hf)
        · split
          · exact .single (.pivot hf hg _)
          · exact .single (.pivot hf hg s.pivots)

private theorem changes_run (h : s.Valid p settings) (hp : p.Sound)
    (hcount : settings.Countable p) (cancelled : Bool) (turns : Nat) :
    Changes p s (run cancelled turns s) := by
  induction turns generalizing s with
  | zero => exact .refl
  | succ n ih =>
      rw [run]
      apply (changes_turn h hp hcount cancelled).bind
      intro status s' hs'
      cases status with
      | none => exact ih (valid_of_changes hs' hp h)
      | some status => exact .refl

theorem changes_perform (h : s.Valid p settings) (hp : p.Sound) (hcount : settings.Countable p)
    (c : SolverCall) : Changes p s (c.perform s) := by
  obtain ⟨f, hf⟩ := h.plan.exists_prices
  cases c with
  | refreshPotentials =>
      have hrefresh : Changes p s (refreshPotentials s) := by
        rw [refreshPotentials_eq h hp hf]
        exact .single (.price hf)
      exact hrefresh.bind fun _ _ _ => .refl
  | evaluate =>
      have hevaluate : Changes p s (evaluate s) := by
        rw [evaluate_eq h hp hf hcount]
        exact .single (.evaluate hf)
      exact hevaluate.bind fun _ _ _ => .refl
  | step => exact (changes_step h hp hcount).bind fun _ _ _ => .refl
  | run cancelled turns =>
      exact (changes_run h hp hcount cancelled turns).bind fun _ _ _ => .refl

theorem Keeps.evaluated (s : Solver) (p : Problem) (f : Node → Int) :
    (s.evaluated p f).Keeps p f := by
  rw [Keeps]
  cases hoptimal : (Evaluation.ofValues p s.grid f).optimal <;> simp [Solver.evaluated, hoptimal]

theorem Change.keeps (h : Change p s s') :
    ∃ f, Prices p s'.grid f ∧ s'.Keeps p f := by
  cases h with
  | price hf => exact ⟨_, hf, rfl⟩
  | evaluate hf => exact ⟨_, hf, .evaluated s p _⟩
  | pivot hf hg pivots =>
      obtain ⟨f', hf'⟩ := hg.exists_prices
      exact ⟨f', hf', rfl⟩

theorem start_keeps (hp : p.Sound) (h : start p settings = .ok s) :
    ∃ f, Prices p s.grid f ∧ s.Keeps p f := by
  obtain ⟨hvalid, -, -⟩ := start_valid hp h
  obtain ⟨f, hf⟩ := hvalid.plan.exists_prices
  refine ⟨f, hf, ?_⟩
  rw [start] at h
  cases hdefect : settings.defect? with
  | some defect =>
      rw [hdefect] at h
      contradiction
  | none =>
      rw [hdefect] at h
      obtain ⟨g, hg, -⟩ := Corner.basicPlan_firstBasis hp settings.corner
      simp only [hg, ok_bind, pure_eq_ok, Except.ok.injEq] at h
      subst h
      exact ⟨rfl, rfl⟩

theorem Reachable.keeps (h : s.Reachable p settings) (hp : p.Sound)
    (hcount : settings.Countable p) : ∃ f, Prices p s.grid f ∧ s.Keeps p f := by
  induction h with
  | start h => exact start_keeps hp h
  | @call s hs c ih =>
      have hvalid := hs.valid hp
      have hchanges : Relation.ReflTransGen (Change p) s (s.call c.perform).2 := by
        have hperform := changes_perform hvalid hp hcount c
        rw [Solver.call]
        cases hresult : c.perform s <;> rwa [hresult] at hperform
      rcases hchanges.cases_tail with heq | ⟨s₁, hs₁, hchange⟩
      · rwa [heq]
      · exact hchange.keeps

private theorem coherent_of_evaluated (h : s = s.evaluated p f) (hp : p.Sound)
    (hf : Prices p s.grid f) (hg : s.grid.BasicPlan p) : s.Coherent p := by
  have hpotentials : s.potentials = some (.ofValues p f) := congrArg Solver.potentials h
  have hdeltas : s.deltas = .ofValues p s.grid f := congrArg Solver.deltas h
  have hphase : s.phase = if (Evaluation.ofValues p s.grid f).optimal then .optimal
      else .evaluated := congrArg Solver.phase h
  have hoptimal := Evaluation.optimal_iff_nonneg hp hg.fits f
  rw [← hdeltas] at hoptimal
  have hcases : s.phase = .evaluated ∧ ¬ s.deltas.Nonneg p ∨
      s.phase = .optimal ∧ s.deltas.Nonneg p := by
    rw [hphase, ← hoptimal]
    cases (Evaluation.ofValues p s.grid f).optimal <;> simp
  refine ⟨?_, ?_, ?_, ?_, fun _ => ⟨_, hpotentials, ?_, ?_⟩⟩
  · rcases hcases with ⟨hphase, -⟩ | ⟨hphase, -⟩ <;> simp [hphase]
  · rcases hcases with ⟨hphase, -⟩ | ⟨hphase, -⟩ <;> simp [hphase]
  · rcases hcases with ⟨hphase, -⟩ | ⟨hphase, -⟩ <;> simp [hphase, hpotentials]
  · intro values hvalues
    rw [hpotentials] at hvalues
    cases hvalues
    exact hf.fit_potentials hp hg
  · rw [hdeltas]
    exact OpportunityTable.fit_ofValues p s.grid f
  · rcases hcases with ⟨hphase, hnonneg⟩ | ⟨hphase, hnonneg⟩ <;> simp [hphase, hnonneg]

private theorem coherent_of_dropped (h : s.potentials = none)
    (hphase : s.phase = .fresh ∧ s.pivots = 0 ∨ s.phase = .pivoted) : s.Coherent p := by
  rcases hphase with ⟨hphase, hpivots⟩ | hphase
  · refine ⟨?_, ?_, ?_, ?_, ?_⟩ <;> simp [h, hphase, hpivots]
  · refine ⟨?_, ?_, ?_, ?_, ?_⟩ <;> simp [h, hphase]

private theorem coherent_of_priced (h : s.potentials = some (.ofValues p f))
    (hphase : s.phase = .priced) (hfit : (Potentials.ofValues p f).Fit p s.grid) :
    s.Coherent p := by
  refine ⟨?_, ?_, ?_, ?_, ?_⟩ <;> simp [h, hphase, hfit]

theorem Keeps.coherent (h : s.Keeps p f) (hp : p.Sound) (hf : Prices p s.grid f)
    (hg : s.grid.BasicPlan p) : s.Coherent p := by
  rw [Keeps] at h
  cases hphase : s.phase <;> rw [hphase] at h
  case fresh => exact coherent_of_dropped h.1 (.inl ⟨hphase, h.2⟩)
  case priced => exact coherent_of_priced h hphase (hf.fit_potentials hp hg)
  case evaluated => exact coherent_of_evaluated h hp hf hg
  case cycleFound => exact h.elim
  case pivoted => exact coherent_of_dropped h (.inr hphase)
  case optimal => exact coherent_of_evaluated h hp hf hg

/-- The number of turns of a run that make a pivot. A turn that makes none ends the run. -/
def pivotsInRun (cancelled : Bool) : Nat → Solver → Nat
  | 0, _ => 0
  | n + 1, s =>
    match turn cancelled s with
    | .ok none s' => pivotsInRun cancelled n s' + 1
    | _ => 0

def pivotsInCall (s : Solver) : SolverCall → Nat
  | .refreshPotentials | .evaluate => 0
  | .step =>
    match step s with
    | .ok (.pivoted _) _ => 1
    | _ => 0
  | .run cancelled turns => pivotsInRun cancelled turns s

def pivotsInCalls (s : Solver) : List SolverCall → Nat
  | [] => 0
  | c :: calls => s.pivotsInCall c + pivotsInCalls (s.call c.perform).2 calls

private theorem pivots_of_step (h : s.Valid p settings) (hp : p.Sound)
    (hcount : settings.Countable p) {result : StepResult} (hstep : step s = .ok result s') :
    s'.pivots = s.pivots + s.pivotsInCall .step := by
  obtain ⟨f, hf⟩ := h.plan.exists_prices
  rw [pivotsInCall, hstep]
  rcases step_cases h hp hcount hf with ⟨-, hstep'⟩ | ⟨e, g, result', -, -, -, hstep'⟩
  · cases hstep'.symm.trans hstep
    rfl
  · rw [hstep'] at hstep
    split at hstep
    · cases hstep
      rfl
    · contradiction

private theorem pivots_of_turn (h : s.Valid p settings) (hp : p.Sound)
    (hcount : settings.Countable p) {cancelled : Bool} {ending : Option Ending}
    (hturn : turn cancelled s = .ok ending s') :
    s'.pivots = s.pivots + if ending.isNone then 1 else 0 := by
  cases cancelled with
  | true =>
      rw [turn_true] at hturn
      cases hturn
      rfl
  | false =>
      obtain ⟨f, hf⟩ := h.plan.exists_prices
      rcases turn_eq_ok_cases h hp hcount hf hturn with
        ⟨rfl, ⟨rfl, -⟩ | rfl⟩ | ⟨e, g, result, -, -, -, rfl, rfl⟩ <;> rfl

private theorem pivots_of_run (h : s.Valid p settings) (hp : p.Sound)
    (hcount : settings.Countable p) {cancelled : Bool} {turns : Nat} {ending : Option Ending}
    (hrun : run cancelled turns s = .ok ending s') :
    s'.pivots = s.pivots + pivotsInRun cancelled turns s := by
  induction turns generalizing s with
  | zero =>
      cases (show EStateM.Result.ok none s = .ok ending s' from hrun)
      rfl
  | succ n ih =>
      rw [run] at hrun
      obtain ⟨status, s₁, hturn, hrest⟩ := eq_ok_of_bind hrun
      have hpivots := pivots_of_turn h hp hcount hturn
      have hvalid := changes_turn h hp hcount cancelled
      rw [hturn] at hvalid
      rw [pivotsInRun, hturn]
      cases status with
      | none =>
          rw [ih (valid_of_changes hvalid hp h) hrest, hpivots]
          simp only [Option.isNone_none, if_true]
          omega
      | some status =>
          cases (show EStateM.Result.ok (some status) s₁ = .ok ending s' from hrest)
          exact hpivots

private theorem pivots_of_perform (h : s.Valid p settings) (hp : p.Sound)
    (hcount : settings.Countable p) {c : SolverCall} (hc : c.perform s = .ok ⟨⟩ s') :
    s'.pivots = s.pivots + s.pivotsInCall c := by
  obtain ⟨f, hf⟩ := h.plan.exists_prices
  cases c with
  | refreshPotentials =>
      obtain ⟨values, s₁, hrefresh, hrest⟩ := eq_ok_of_bind hc
      rw [refreshPotentials_eq h hp hf] at hrefresh
      cases hrefresh
      cases hrest
      rfl
  | evaluate =>
      obtain ⟨evaluation, s₁, hevaluate, hrest⟩ := eq_ok_of_bind hc
      rw [evaluate_eq h hp hf hcount] at hevaluate
      cases hevaluate
      cases hrest
      rfl
  | step =>
      obtain ⟨result, s₁, hstep, hrest⟩ := eq_ok_of_bind hc
      cases hrest
      exact pivots_of_step h hp hcount hstep
  | run cancelled turns =>
      obtain ⟨ending, s₁, hrun, hrest⟩ := eq_ok_of_bind hc
      cases hrest
      exact pivots_of_run h hp hcount hrun

private theorem pivots_of_forM (hp : p.Sound) (hcount : settings.Countable p)
    (calls : List SolverCall) (hs : s.Reachable p settings)
    (h : calls.forM SolverCall.perform s = .ok ⟨⟩ s') :
    s'.Reachable p settings ∧ s'.pivots = s.pivots + s.pivotsInCalls calls := by
  induction calls generalizing s with
  | nil =>
      cases (show EStateM.Result.ok PUnit.unit s = .ok ⟨⟩ s' from h)
      exact ⟨hs, rfl⟩
  | cons c calls ih =>
      obtain ⟨⟨⟩, s₁, hc, hrest⟩ := eq_ok_of_bind h
      have hcall : (s.call c.perform).2 = s₁ := by rw [Solver.call, hc]
      obtain ⟨hreach, hpivots⟩ := ih (hcall ▸ hs.call c) hrest
      refine ⟨hreach, ?_⟩
      rw [hpivots, pivots_of_perform (hs.valid hp) hp hcount hc, pivotsInCalls, hcall,
        Nat.add_assoc]

/-- Every solver that calls lead to keeps only what belongs to its plan and knows its phase. -/
theorem reachable_coherent {costs : List (List Int)} {supply demand : List Int}
    (hp : Problem.ofTable costs supply demand = .ok p) (hcount : settings.Countable p) :
    (∀ s : Solver, s.Reachable p settings → s.Coherent p ∧
      (∃ values s', refreshPotentials s = .ok values s' ∧ s'.grid = s.grid ∧
        s'.pivots = s.pivots) ∧
      ∃ evaluation s', evaluate s = .ok evaluation s' ∧ s'.grid = s.grid ∧
        s'.pivots = s.pivots ∧ evaluate s' = .ok evaluation s') ∧
    ∀ s₀ calls s, start p settings = .ok s₀ → calls.forM SolverCall.perform s₀ = .ok ⟨⟩ s →
      s.Reachable p settings ∧ s.pivots = s₀.pivotsInCalls calls ∧
        Relation.ReflTransGen (Advance p) (s₀.grid, 0) (s.grid, s.pivots) := by
  have hsound := Problem.sound_of_ofTable hp
  refine ⟨fun s hs => ?_, fun s₀ calls s hs₀ hcalls => ?_⟩
  · have hvalid := hs.valid hsound
    obtain ⟨f, hf, hkeeps⟩ := hs.keeps hsound hcount
    exact ⟨hkeeps.coherent hsound hf hvalid.plan,
      ⟨_, _, refreshPotentials_eq hvalid hsound hf, rfl, rfl⟩,
      ⟨_, _, evaluate_eq hvalid hsound hf hcount, rfl, rfl,
        evaluate_eq (hvalid.evaluated hsound hf) hsound hf hcount⟩⟩
  · obtain ⟨hvalid, -, hpivots⟩ := start_valid hsound hs₀
    obtain ⟨hreach, hcount'⟩ := pivots_of_forM hsound hcount calls (.start hs₀) hcalls
    have hadvances := ((leaves_forM hsound calls hvalid).follows hcalls).pivots
    rw [hpivots] at hadvances hcount'
    exact ⟨hreach, by rw [hcount', Nat.zero_add], hadvances⟩

theorem reachable_coherent_crossed : ∃ s : Solver, s.Reachable crossed { split := some ⟨2, 1⟩ } ∧
    s.phase = .optimal ∧ s.pivots = 1 ∧ s.Coherent crossed :=
  have hcount : SolverSettings.Countable { split := some ⟨2, 1⟩ } crossed := by
    rintro split ⟨⟩
    decide
  have hs := Reachable.call (@Reachable.start crossed { split := some ⟨2, 1⟩ } _ rfl) (.run false 2)
  ⟨_, hs, by decide +kernel, by decide +kernel,
    ((reachable_coherent ofTable_crossed hcount).1 _ hs).1⟩

end Changes

end Solver

end Transportation
