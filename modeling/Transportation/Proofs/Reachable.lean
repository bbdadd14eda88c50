import Mathlib.Logic.Relation
import Transportation.Proofs.SolverSteps
/-!
# Reachable solvers

A solver is reachable if a sequence of calls leads to it from its start. Every call keeps the plan
of its solver a basic plan, and moves it on, one pivot at a time, from a basis to the next one that
the evaluation without a split chooses.
-/
namespace Transportation

/-- What an evaluation without a split computes at a plan, and the pivot that it leads to, none if
the plan is optimal. -/
structure Stage where
  grid : Grid
  values : Potentials
  deltas : OpportunityTable
  evaluation : Evaluation
  pivot : Option (Grid × PivotResult)
  deriving DecidableEq, Repr

def Grid.stage (p : Problem) (g : Grid) : Except Failure Stage := do
  let values ← Potentials.scan p g
  let (evaluation, deltas) ← Evaluation.evaluate p g values (.blank p.rows p.cols)
  match evaluation.entering with
  | none => return ⟨g, values, deltas, evaluation, none⟩
  | some e => return ⟨g, values, deltas, evaluation, some (← Pivot.enter p g e)⟩

section Stage

variable {p : Problem} {g : Grid} {f : Node → Int}

def Stage.ofValues (p : Problem) (g : Grid) (f : Node → Int)
    (pivot : Option (Grid × PivotResult)) : Stage :=
  ⟨g, .ofValues p f, .ofValues p g f, .ofValues p g f, pivot⟩

theorem Grid.stage_eq (hp : p.Sound) (hg : g.BasicPlan p) (hf : Prices p g f) :
    g.stage p = match (Evaluation.ofValues p g f).entering with
      | none => .ok (.ofValues p g f none)
      | some e => (Pivot.enter p g e).map fun next => .ofValues p g f (some next) := by
  have hscan := (Potentials.exhausts_scan hp hg.fits hg.regular).eq_ok hp hg hf
  have hevaluate := Evaluation.evaluate_eq hp hg hf (OpportunityTable.sized_blank p)
  rw [Grid.stage, hscan, ok_bind, hevaluate, ok_bind]
  dsimp only
  cases (Evaluation.ofValues p g f).entering with
  | none => rfl
  | some e => cases Pivot.enter p g e <;> rfl

/-- Every basic plan has a stage, and its pivot leads to a basic plan. -/
theorem Grid.stage_cases (hp : p.Sound) (hg : g.BasicPlan p) (hf : Prices p g f) :
    ((Evaluation.ofValues p g f).entering = none ∧ g.stage p = .ok (.ofValues p g f none)) ∨
    ∃ e g' result, (Evaluation.ofValues p g f).entering = some e ∧
      Pivot.enter p g e = .ok (g', result) ∧ g'.BasicPlan p ∧
      g.stage p = .ok (.ofValues p g f (some (g', result))) := by
  rw [Grid.stage_eq hp hg hf]
  cases hentering : (Evaluation.ofValues p g f).entering with
  | none => exact .inl ⟨rfl, rfl⟩
  | some e =>
      obtain ⟨he, hvacant, -, -⟩ := Evaluation.entering_spec hp hg.fits hentering
      obtain ⟨g', result, henter, cs, -, hexchange⟩ := hg.enter_eq_ok hp he hvacant
      refine .inr ⟨e, g', result, rfl, henter, hexchange.plan, ?_⟩
      dsimp only
      rw [henter]
      rfl

end Stage

def Advance (p : Problem) (a b : Grid × Nat) : Prop :=
  ∃ stage result, a.1.stage p = .ok stage ∧ stage.pivot = some (b.1, result) ∧ b.2 = a.2 + 1

inductive SolverCall where
  | refreshPotentials
  | evaluate
  | step
  | run (cancelled : Bool) (turns : Nat)
  deriving DecidableEq, Repr

def SolverCall.perform : SolverCall → SolverM Unit
  | .refreshPotentials => do let _ ← Solver.refreshPotentials
  | .evaluate => do let _ ← Solver.evaluate
  | .step => do let _ ← Solver.step
  | .run cancelled turns => do let _ ← Solver.run cancelled turns

namespace Solver

/-- The solvers that calls lead to, also calls that fail. -/
inductive Reachable (p : Problem) (settings : SolverSettings) : Solver → Prop
  | start {s : Solver} (h : Solver.start p settings = .ok s) : Reachable p settings s
  | call {s : Solver} (h : Reachable p settings s) (c : SolverCall) :
      Reachable p settings (s.call c.perform).2

/-- A valid solver that pivots lead to from another one. -/
structure Follows (s' s : Solver) (p : Problem) (settings : SolverSettings) : Prop where
  valid : s'.Valid p settings
  pivots : Relation.ReflTransGen (Advance p) (s.grid, s.pivots) (s'.grid, s'.pivots)

/-- What calls on a valid solver leave behind. They fail only if blocks or pivots cannot be
counted. -/
def Leaves {α : Type} (s : Solver) (p : Problem) (settings : SolverSettings) :
    EStateM.Result Failure Solver α → Prop
  | .ok _ s' => s'.Follows s p settings
  | .error _ s' =>
      s'.Valid p settings ∧ (settings.Countable p → Count.greatest ≤ s'.pivots)

section Calls

open SolverM

variable {p : Problem} {settings : SolverSettings} {s : Solver} {f : Node → Int}

theorem Follows.refl (h : s.Valid p settings) : s.Follows s p settings := ⟨h, .refl⟩

theorem Follows.trans {s₁ s₂ : Solver} (h₁ : s₁.Follows s p settings)
    (h₂ : s₂.Follows s₁ p settings) : s₂.Follows s p settings :=
  ⟨h₂.valid, h₁.pivots.trans h₂.pivots⟩

private theorem Follows.moved (h : s.Valid p settings) (hp : p.Sound) (hf : Prices p s.grid f)
    {e : Entering} {g : Grid} {result : PivotResult}
    (hentering : (Evaluation.ofValues p s.grid f).entering = some e)
    (henter : Pivot.enter p s.grid e = .ok (g, result)) (hg : g.BasicPlan p) :
    ({ (s.evaluated p f).moved g with pivots := s.pivots + 1 } : Solver).Follows s p settings where
  valid := (h.evaluated hp hf).moved hg _
  pivots := by
    refine .single ⟨.ofValues p s.grid f (some (g, result)), result, ?_, rfl, rfl⟩
    rw [Grid.stage_eq hp h.plan hf, hentering]
    dsimp only
    rw [henter]
    rfl

theorem Leaves.follows {α : Type} {result : EStateM.Result Failure Solver α} {a : α} {s' : Solver}
    (h : s.Leaves p settings result) (hresult : result = .ok a s') : s'.Follows s p settings := by
  rw [hresult] at h
  exact h

theorem Leaves.bind {α β : Type} {x : SolverM α} {k : α → SolverM β}
    (hx : s.Leaves p settings (x s))
    (hk : ∀ a (s' : Solver), s'.Valid p settings → s'.Leaves p settings (k a s')) :
    s.Leaves p settings ((x >>= k) s) := by
  cases hresult : x s with
  | ok a s₁ =>
      rw [hresult] at hx
      rw [bind_of_ok hresult]
      have hrest := hk a s₁ hx.valid
      cases hresult' : k a s₁ with
      | ok b s₂ =>
          rw [hresult'] at hrest
          exact hx.trans hrest
      | error failure s₂ =>
          rw [hresult'] at hrest
          exact hrest
  | error failure s₁ =>
      rw [hresult] at hx
      rw [bind_of_error hresult]
      exact hx

private theorem leaves_refreshPotentials (h : s.Valid p settings) (hp : p.Sound) :
    s.Leaves p settings (refreshPotentials s) := by
  obtain ⟨f, hf⟩ := h.plan.exists_prices
  rw [refreshPotentials_eq h hp hf]
  exact ⟨h.priced hp hf _, .refl⟩

private theorem leaves_evaluate (h : s.Valid p settings) (hp : p.Sound) :
    s.Leaves p settings (evaluate s) := by
  obtain ⟨f, hf⟩ := h.plan.exists_prices
  by_cases hcount : settings.Countable p
  · rw [evaluate_eq h hp hf hcount]
    exact ⟨h.evaluated hp hf, .refl⟩
  · obtain ⟨phase, herror⟩ := evaluate_error h hp hf hcount
    rw [herror]
    exact ⟨h.priced hp hf phase, fun hcount' => absurd hcount' hcount⟩

private theorem leaves_step (h : s.Valid p settings) (hp : p.Sound) :
    s.Leaves p settings (step s) := by
  obtain ⟨f, hf⟩ := h.plan.exists_prices
  by_cases hcount : settings.Countable p
  · rcases step_cases h hp hcount hf with ⟨-, hstep⟩ | ⟨e, g, result, hentering, henter, hg, hstep⟩
    · rw [hstep]
      exact ⟨h.evaluated hp hf, .refl⟩
    · rw [hstep]
      split
      · exact Follows.moved h hp hf hentering henter hg
      · next hroom => exact ⟨(h.evaluated hp hf).moved hg s.pivots, fun _ => by
          change Count.greatest ≤ s.pivots
          omega⟩
  · obtain ⟨phase, herror⟩ := evaluate_error h hp hf hcount
    rw [step, bind_of_error herror]
    exact ⟨h.priced hp hf phase, fun hcount' => absurd hcount' hcount⟩

theorem leaves_turn (h : s.Valid p settings) (hp : p.Sound) (cancelled : Bool) :
    s.Leaves p settings (turn cancelled s) := by
  cases cancelled with
  | true =>
      rw [turn_true]
      exact Follows.refl h
  | false =>
      obtain ⟨f, hf⟩ := h.plan.exists_prices
      by_cases hcount : settings.Countable p
      · rcases turn_cases h hp hcount hf with
          ⟨-, hturn⟩ | ⟨e, g, result, hentering, henter, hg, hturn⟩
        · rw [hturn]
          exact ⟨h.evaluated hp hf, .refl⟩
        · rw [hturn]
          split
          · exact ⟨h.evaluated hp hf, .refl⟩
          · split
            · exact Follows.moved h hp hf hentering henter hg
            · next hroom => exact ⟨(h.evaluated hp hf).moved hg s.pivots, fun _ => by
                change Count.greatest ≤ s.pivots
                omega⟩
      · obtain ⟨phase, herror⟩ := evaluate_error h hp hf hcount
        rw [turn_false, bind_of_error herror]
        exact ⟨h.priced hp hf phase, fun hcount' => absurd hcount' hcount⟩

theorem leaves_run (h : s.Valid p settings) (hp : p.Sound) (cancelled : Bool)
    (turns : Nat) : s.Leaves p settings (run cancelled turns s) := by
  induction turns generalizing s with
  | zero => exact Follows.refl h
  | succ n ih =>
      rw [run]
      apply (leaves_turn h hp cancelled).bind
      intro status s' hs'
      cases status with
      | none => exact ih hs'
      | some status => exact Follows.refl hs'

theorem follows_of_run {s₀ : Solver} {cancelled : Bool} {turns : Nat} {ending : Option Ending}
    (hp : p.Sound) (hs₀ : start p settings = .ok s₀)
    (hrun : run cancelled turns s₀ = .ok ending s) : s.Follows s₀ p settings :=
  (leaves_run (start_valid hp hs₀).1 hp cancelled turns).follows hrun

/-- Every call keeps the solver valid and makes pivots only. -/
theorem leaves_perform (h : s.Valid p settings) (hp : p.Sound) (c : SolverCall) :
    s.Leaves p settings (c.perform s) := by
  cases c with
  | refreshPotentials =>
      exact (leaves_refreshPotentials h hp).bind fun _ s' hs' => Follows.refl hs'
  | evaluate => exact (leaves_evaluate h hp).bind fun _ s' hs' => Follows.refl hs'
  | step => exact (leaves_step h hp).bind fun _ s' hs' => Follows.refl hs'
  | run cancelled turns =>
      exact (leaves_run h hp cancelled turns).bind fun _ s' hs' => Follows.refl hs'

theorem Reachable.valid (h : s.Reachable p settings) (hp : p.Sound) : s.Valid p settings := by
  induction h with
  | start h => exact (start_valid hp h).1
  | @call s h c ih =>
      have hleaves := leaves_perform ih hp c
      rw [Solver.call]
      cases hresult : c.perform s with
      | ok a s' =>
          rw [hresult] at hleaves
          exact hleaves.valid
      | error failure s' =>
          rw [hresult] at hleaves
          exact hleaves.1

end Calls

end Solver

/-- Two sources and two sinks for which the first basis is not the best one. -/
def crossed : Problem := ⟨2, 2, [1, 0, 0, 1], [1, 1], [1, 1], 2⟩

theorem ofTable_crossed : Problem.ofTable [[1, 0], [0, 1]] [1, 1] [1, 1] = .ok crossed := rfl

def crossedStart : Solver where
  problem := crossed
  settings := {}
  grid := ⟨2, 2, [.basic 1, .vacant, .basic 0, .basic 1], 3⟩
  potentials := none
  deltas := .blank 2 2
  phase := .fresh
  pivots := 0

theorem start_crossed : Solver.start crossed {} = .ok crossedStart := rfl

theorem basicPlan_crossed : crossedStart.grid.BasicPlan crossed :=
  ((Solver.Reachable.start start_crossed).valid (Problem.sound_of_ofTable ofTable_crossed)).plan

end Transportation
