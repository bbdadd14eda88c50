import Transportation.Proofs.Trajectory
/-!
# Splits of any size

Every split with a worker and a row for each task is accepted, however many rows it asks for. As
long as the cells of a block can be counted the split computes what no split computes, and a block
of all rows is a single task. A larger block is refused, and the evaluation with it.
-/
namespace Transportation

namespace WorkSplit

private theorem ceilDiv_eq_one {total size : Nat} (hpos : 0 < total) (hle : total ≤ size) :
    ceilDiv total size = 1 := by
  rw [ceilDiv]
  exact Nat.div_eq_of_lt_le (by omega) (by omega)

theorem length_blocks_eq_one {split : WorkSplit} {rows cols : Nat} (hrows : 0 < rows)
    (hcols : 0 < cols) (h : rows ≤ split.minRows) :
    (blocks rows (split.rowsPerBlock rows)).length = 1 ∧
      (blocks (rows * cols) (split.rowsPerBlock rows * cols)).length = 1 := by
  have hle : rows ≤ split.rowsPerBlock rows := by
    unfold rowsPerBlock
    omega
  simp only [blocks, List.length_map, List.length_range]
  exact ⟨ceilDiv_eq_one hrows hle,
    ceilDiv_eq_one (Nat.mul_pos hrows hcols) (Nat.mul_le_mul_right cols hle)⟩

end WorkSplit

namespace Solver

open SolverM

section Split

variable {p : Problem} {settings settings' : SolverSettings} {s s₁ s' t : Solver}

/-- The solvers give the same answers, opportunity costs and plans when they evaluate or step. -/
structure Agree (s t : Solver) : Prop where
  evaluate_eq : ∃ evaluation s' t', evaluate s = .ok evaluation s' ∧
    evaluate t = .ok evaluation t' ∧ s'.deltas = t'.deltas
  step_eq : ∃ result s' t', step s = .ok result s' ∧ step t = .ok result t' ∧
    s'.grid = t'.grid ∧ s'.deltas = t'.deltas

theorem Valid.deltas_of_step (h : s.Valid p settings) (hp : p.Sound)
    (hcount : settings.Countable p) {evaluation : Evaluation} {result : StepResult}
    (hevaluate : evaluate s = .ok evaluation s₁) (hstep : step s = .ok result s') :
    s'.deltas = s₁.deltas := by
  obtain ⟨f, hf⟩ := h.plan.exists_prices
  cases (evaluate_eq h hp hf hcount).symm.trans hevaluate
  rcases step_cases h hp hcount hf with ⟨-, hstep'⟩ | ⟨e, g, result', -, -, -, hstep'⟩
  · cases hstep'.symm.trans hstep
    rfl
  · rw [hstep'] at hstep
    split at hstep
    · cases hstep
      rfl
    · contradiction

theorem Valid.agree (hs : s.Valid p settings) (ht : t.Valid p settings') (hp : p.Sound)
    (hcount : settings.Countable p) (hcount' : settings'.Countable p) (hgrid : t.grid = s.grid)
    (hpivots : s.pivots < Count.greatest) (hpivots' : t.pivots < Count.greatest) : s.Agree t := by
  obtain ⟨stage, hstage, -⟩ := hs.plan.exists_stage hp
  have hat := hs.at_stage hp hcount hstage
  have hat' := ht.at_stage hp hcount' (hgrid ▸ hstage)
  obtain ⟨s₁, hevaluate, -, hdeltas⟩ := hat.evaluate_eq
  obtain ⟨t₁, hevaluate', -, hdeltas'⟩ := hat'.evaluate_eq
  obtain ⟨s₂, hstep, hgrid⟩ := hat.step_eq hpivots
  obtain ⟨t₂, hstep', hgrid'⟩ := hat'.step_eq hpivots'
  have hsame : s₁.deltas = t₁.deltas := hdeltas.trans hdeltas'.symm
  refine ⟨⟨_, s₁, t₁, hevaluate, hevaluate', hsame⟩,
    ⟨_, s₂, t₂, hstep, hstep', hgrid.trans hgrid'.symm, ?_⟩⟩
  rw [hs.deltas_of_step hp hcount hevaluate hstep, ht.deltas_of_step hp hcount' hevaluate' hstep',
    hsame]

theorem Agree.evaluate_ne_error (h : s.Agree t) (failure : Failure) :
    (s.call evaluate).1 ≠ .error failure := by
  obtain ⟨evaluation, s', t', hevaluate, -⟩ := h.evaluate_eq
  rw [Solver.call, hevaluate]
  intro heq
  cases heq

theorem Valid.call_error (h : s.Valid p settings) (hp : p.Sound)
    (hcount : ¬ settings.Countable p) :
    (s.call evaluate).1 = .error (.breach .overflow) ∧
      (s.call step).1 = .error (.breach .overflow) := by
  obtain ⟨f, hf⟩ := h.plan.exists_prices
  obtain ⟨phase, herror⟩ := evaluate_error h hp hf hcount
  constructor
  · rw [Solver.call, herror]
  · rw [Solver.call, step, bind_of_error herror]

/-- An accepted split computes what no split computes if and only if its blocks can be counted. -/
theorem split_agrees_iff {costs : List (List Int)} {supply demand : List Int}
    (hp : Problem.ofTable costs supply demand = .ok p) {split : WorkSplit}
    (hsplit : split.defect? = none) (settings : SolverSettings) :
    ∃ s t, start p { settings with split := some split } = .ok s ∧
      start p { settings with split := none } = .ok t ∧
      (s.Agree t ↔ split.rowsPerBlock p.rows * p.cols ≤ Count.greatest) ∧
      (Count.greatest < split.rowsPerBlock p.rows * p.cols →
        (s.call evaluate).1 = .error (.breach .overflow) ∧
        (s.call step).1 = .error (.breach .overflow)) ∧
      (p.rows ≤ split.minRows →
        (WorkSplit.blocks p.rows (split.rowsPerBlock p.rows)).length = 1 ∧
        (WorkSplit.blocks (p.rows * p.cols) (split.rowsPerBlock p.rows * p.cols)).length = 1) := by
  have hsound := Problem.sound_of_ofTable hp
  have hdefect : SolverSettings.defect? { settings with split := some split } = none := hsplit
  have hdefect' : SolverSettings.defect? { settings with split := none } = none := rfl
  obtain ⟨s, hs⟩ := start_eq_ok hsound hdefect
  obtain ⟨t, ht⟩ := start_eq_ok hsound hdefect'
  obtain ⟨hvalid, hgrid, hpivots⟩ := start_valid hsound hs
  obtain ⟨hvalid', hgrid', hpivots'⟩ := start_valid hsound ht
  have hfail : Count.greatest < split.rowsPerBlock p.rows * p.cols →
      (s.call evaluate).1 = .error (.breach .overflow) ∧
        (s.call step).1 = .error (.breach .overflow) := fun hsize =>
    hvalid.call_error hsound fun hcount => absurd (hcount split rfl) (by omega)
  refine ⟨s, t, hs, ht, ⟨fun hagree => ?_, fun hsize => ?_⟩, hfail,
    WorkSplit.length_blocks_eq_one hsound.rows_pos hsound.cols_pos⟩
  · by_contra hsize
    exact hagree.evaluate_ne_error _ (hfail (by omega)).1
  · have hcount : SolverSettings.Countable { settings with split := some split } p := by
      rintro _ ⟨⟩
      exact hsize
    have hcount' : SolverSettings.Countable { settings with split := none } p := by
      rintro _ ⟨⟩
    have hsame : t.grid = s.grid := Except.ok.inj (hgrid'.symm.trans hgrid)
    exact hvalid.agree hvalid' hsound hcount hcount' hsame (hpivots ▸ by decide)
      (hpivots' ▸ by decide)

theorem split_agrees_iff_crossed :
    ∃ s t, start crossed { split := some ⟨2, 4611686018427387904⟩ } = .ok s ∧
      start crossed {} = .ok t ∧ s.Agree t ∧
      (WorkSplit.blocks 2 (WorkSplit.rowsPerBlock ⟨2, 4611686018427387904⟩ 2)).length = 1 := by
  have hdefect : WorkSplit.defect? ⟨2, 4611686018427387904⟩ = none := rfl
  obtain ⟨s, t, hs, ht, hagree, -, hblocks⟩ := split_agrees_iff ofTable_crossed hdefect {}
  exact ⟨s, t, hs, ht, hagree.mpr (by decide), (hblocks (by decide)).1⟩

/-- A split that is accepted asks for so many rows that its blocks cannot be counted. -/
theorem split_disagrees_crossed :
    WorkSplit.defect? ⟨1, 9223372036854775808⟩ = none ∧
    ∃ s t, start crossed { split := some ⟨1, 9223372036854775808⟩ } = .ok s ∧
      start crossed {} = .ok t ∧
      (s.call evaluate).1 = .error (.breach .overflow) ∧
      (s.call step).1 = .error (.breach .overflow) ∧
      (t.call evaluate).1 = .ok ⟨some ⟨0, 1, -2⟩⟩ ∧
      (t.call step).1 = .ok (.pivoted ⟨1, [(1, 1)], [(0, 0)]⟩) ∧ ¬ s.Agree t := by
  let s : Solver :=
    { crossedStart with settings := { split := some ⟨1, 9223372036854775808⟩ } }
  have hfail : (s.call evaluate).1 = .error (.breach .overflow) := by decide +kernel
  refine ⟨rfl, s, crossedStart, rfl, start_crossed, hfail, by decide +kernel, by decide +kernel,
    by decide +kernel, fun hagree => hagree.evaluate_ne_error _ hfail⟩

end Split

end Solver

end Transportation
