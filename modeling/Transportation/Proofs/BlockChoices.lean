import Transportation.Proofs.Reachable
/-!
# The choices of blocks

The better of two choices depends neither on their order nor, with a third one, on their grouping.
So the blocks of a table come to the choice from the whole table however their choices are compared.
A table may have any length: a cell that cannot be evaluated stops the evaluation of the whole, and
the task of its block as well.
-/
namespace Transportation

namespace Entering

theorem pick_comm (a b : Option Entering) : pick a b = pick b a := by
  cases a with
  | none => rw [pick_none, none_pick]
  | some a =>
      cases b with
      | none => rw [pick_none, none_pick]
      | some b =>
          rw [pick, pick]
          rcases before_total a b with rfl | hab | hba
          · rfl
          · rw [if_neg (before_asymm hab), if_pos hab]
          · rw [if_pos hba, if_neg (before_asymm hba)]

private theorem pick_assoc_some (a b c : Entering) :
    pick (pick (some a) (some b)) (some c) = pick (some a) (pick (some b) (some c)) := by
  have hab : pick (some a) (some b) = if b.before a then some b else some a := rfl
  have hbc : pick (some b) (some c) = if c.before b then some c else some b := rfl
  have hac : pick (some a) (some c) = if c.before a then some c else some a := rfl
  by_cases hba : b.before a = true
  · by_cases hcb : c.before b = true
    · rw [hab, if_pos hba, hbc, if_pos hcb, hac, if_pos (before_trans hcb hba)]
    · rw [hab, if_pos hba, hbc, if_neg hcb, hab, if_pos hba]
  · by_cases hcb : c.before b = true
    · rw [hab, if_neg hba, hbc, if_pos hcb]
    · have hca : ¬ c.before a = true := by
        intro hca
        rcases before_total a b with rfl | hab | hba'
        · exact hcb hca
        · exact hcb (before_trans hca hab)
        · exact hba hba'
      rw [hab, if_neg hba, hbc, if_neg hcb, hac, if_neg hca, hab, if_neg hba]

theorem pick_assoc (a b c : Option Entering) : pick (pick a b) c = pick a (pick b c) := by
  cases a with
  | none => rw [none_pick, none_pick]
  | some a =>
      cases b with
      | none => rw [pick_none, none_pick]
      | some b =>
          cases c with
          | none => rw [pick_none, pick_none]
          | some c => exact pick_assoc_some a b c

instance : Std.Commutative pick := ⟨pick_comm⟩

instance : Std.Associative pick := ⟨pick_assoc⟩

end Entering

/-- An order and grouping in which the choices of blocks are compared. Parts without a block may
take part as well. -/
inductive Comparison where
  | nothing
  | block (k : Nat)
  | pair (left right : Comparison)
  deriving DecidableEq, Repr

namespace Comparison

def blocks : Comparison → List Nat
  | .nothing => []
  | .block k => [k]
  | .pair left right => left.blocks ++ right.blocks

def outcome (choices : List (Option Entering)) : Comparison → Option Entering
  | .nothing => none
  | .block k => choices.getD k none
  | .pair left right => Entering.pick (left.outcome choices) (right.outcome choices)

private theorem foldl_pick_eq (a : Option Entering) (choices : List (Option Entering)) :
    choices.foldl Entering.pick a = Entering.pick a (choices.foldl Entering.pick none) := by
  have hassoc : choices.foldl Entering.pick (Entering.pick a none) =
      Entering.pick a (choices.foldl Entering.pick none) := List.foldl_assoc
  rwa [Entering.pick_none] at hassoc

theorem outcome_eq_foldl (choices : List (Option Entering)) (c : Comparison) :
    c.outcome choices = (c.blocks.map fun k => choices.getD k none).foldl Entering.pick none := by
  induction c with
  | nothing => rfl
  | block k => simp [outcome, blocks]
  | pair left right ihl ihr =>
      rw [outcome, ihl, ihr, blocks, List.map_append, List.foldl_append, ← foldl_pick_eq]

/-- Every comparison of all blocks ends with the choice from comparing them one after another. -/
theorem outcome_of_perm {choices : List (Option Entering)} {c : Comparison}
    (h : c.blocks.Perm (List.range choices.length)) :
    c.outcome choices = choices.foldl Entering.pick none := by
  rw [outcome_eq_foldl, (h.map _).foldl_eq, map_getD_range]

end Comparison

namespace Evaluation

/-- All cells that a table has a place for can be evaluated. -/
def Evaluable (p : Problem) (g : Grid) (values : Potentials) (total : Nat) : Prop :=
  ∀ k, k < total → ∃ cost, cellCost p g values (k / p.cols) (k % p.cols) = .ok cost

def blockResults (p : Problem) (g : Grid) (values : Potentials) (total size : Nat) :
    Except Failure (List (Option Entering × List (Option Int))) :=
  (WorkSplit.blocks total size).mapM fun block =>
    evaluateBlock p g values (block.1 / p.cols) block.2

section Tables

variable {p : Problem} {g : Grid} {values : Potentials} {table table' : OpportunityTable}
  {evaluation : Evaluation} {split : WorkSplit} {failure : Failure}

theorem onlyBreaches_cellCost (row col : Nat) : OnlyBreaches (cellCost p g values row col) := by
  have hbasic : OnlyBreaches (g.isBasic row col) :=
    (onlyBreaches_entry g.cells _).bind fun cell => onlyBreaches_ok cell.isBasic
  have hcost : OnlyBreaches (values.opportunityCost p row col) :=
    (onlyBreaches_entry p.costs _).bind fun _ => (onlyBreaches_entry values.u row).bind fun _ =>
      (onlyBreaches_entry values.v col).bind fun _ => (onlyBreaches_ofInt _).bind fun _ =>
        onlyBreaches_ofInt _
  refine hbasic.bind fun basic => ?_
  cases basic with
  | true => exact onlyBreaches_ok _
  | false => exact hcost.bind fun _ => onlyBreaches_ok _

theorem onlyBreaches_cellCosts (firstRow count : Nat) :
    OnlyBreaches (cellCosts p g values firstRow count) :=
  OnlyBreaches.mapM (fun _ => onlyBreaches_cellCost _ _) _

theorem onlyBreaches_blockResults (total size : Nat) :
    OnlyBreaches (blockResults p g values total size) :=
  OnlyBreaches.mapM (fun _ => (onlyBreaches_cellCosts _ _).bind fun _ => onlyBreaches_ok _) _

theorem onlyBreaches_evaluate (hfit : g.Fits p) (table : OpportunityTable) :
    OnlyBreaches (evaluate p g values table) := by
  rw [evaluate, Grid.requireFit_eq_ok_iff.mpr hfit, ok_bind]
  exact (onlyBreaches_cellCosts 0 _).bind fun _ => onlyBreaches_ok _

private theorem evaluable_of_cellCosts (hcols : 0 < p.cols) {firstRow count : Nat}
    {costs : List (Option Int)} (h : cellCosts p g values firstRow count = .ok costs) {k : Nat}
    (hk : k < count) : ∃ cost, cellCost p g values ((firstRow * p.cols + k) / p.cols)
      ((firstRow * p.cols + k) % p.cols) = .ok cost := by
  rw [Nat.mul_comm, Nat.mul_add_div hcols, Nat.mul_add_mod]
  exact exists_ok_of_mapM h (List.mem_range.mpr hk)

theorem evaluable_of_evaluate (hcols : 0 < p.cols)
    (h : evaluate p g values table = .ok (evaluation, table')) :
    Evaluable p g values table.values.length := by
  obtain ⟨-, -, h⟩ := bind_eq_ok_iff.mp h
  obtain ⟨costs, hcosts, -⟩ := bind_eq_ok_iff.mp h
  intro k hk
  simpa using evaluable_of_cellCosts hcols hcosts hk

theorem evaluable_of_blocks (hcols : 0 < p.cols) {total size : Nat} (hsize : 0 < size)
    {results : List (Option Entering × List (Option Int))}
    (h : blockResults p g values total (size * p.cols) = .ok results) :
    Evaluable p g values total := by
  intro k hk
  have hcover := WorkSplit.flatMap_blocks (List.range total) (Nat.mul_pos hsize hcols)
  rw [List.length_range] at hcover
  rw [← List.mem_range, ← hcover] at hk
  obtain ⟨block, hblock, hmem⟩ := List.mem_flatMap.mp hk
  have hpart : k ∈ ((List.range total).drop block.1).take block.2 := hmem
  rw [(block_eq hcols hblock).2] at hpart
  obtain ⟨j, hj, rfl⟩ := List.mem_map.mp hpart
  obtain ⟨result, hresult⟩ := exists_ok_of_mapM h hblock
  obtain ⟨costs, hcosts, -⟩ := bind_eq_ok_iff.mp hresult
  exact evaluable_of_cellCosts hcols hcosts (List.mem_range.mp hj)

theorem Evaluable.evaluate_eq (h : Evaluable p g values table.values.length) (hfit : g.Fits p)
    (hcols : 0 < p.cols) (hsize : split.rowsPerBlock p.rows * p.cols ≤ Count.greatest) :
    ∃ result, evaluate p g values table = .ok result ∧
      evaluateInBlocks split p g values table = .ok result := by
  choose! cost hcost using h
  exact ⟨_, evaluate_eq_ok hfit hcols hcost, evaluateInBlocks_eq_ok hfit hcols hcost split hsize⟩

section Blocks

variable (hfit : g.Fits p) (hsize : split.rowsPerBlock p.rows * p.cols ≤ Count.greatest)

include hfit hsize

private theorem evaluateInBlocks_eq_bind : evaluateInBlocks split p g values table = (do
    let results ← onWorkers <| blockResults p g values table.values.length
      (split.rowsPerBlock p.rows * p.cols)
    let entering := (results.map Prod.fst).foldl Entering.pick none
    return (⟨entering⟩, { table with values := (results.map Prod.snd).flatten })) := by
  rw [evaluateInBlocks, Grid.requireFit_eq_ok_iff.mpr hfit, ok_bind, WorkSplit.cellsPerBlock,
    Count.ofNat, if_pos hsize, ok_bind]
  rfl

theorem evaluateInBlocks_of_error (hcols : 0 < p.cols)
    (h : evaluate p g values table = .error failure) :
    evaluateInBlocks split p g values table = .error .taskFailed := by
  rw [evaluateInBlocks_eq_bind hfit hsize]
  cases hblocks : blockResults p g values table.values.length
      (split.rowsPerBlock p.rows * p.cols) with
  | ok results =>
      obtain ⟨result, hresult, -⟩ := (evaluable_of_blocks hcols (split.rowsPerBlock_pos p.rows)
        hblocks).evaluate_eq hfit hcols hsize
      rw [hresult] at h
      cases h
  | error e =>
      have hbreaches : OnlyBreaches (blockResults p g values table.values.length
        (split.rowsPerBlock p.rows * p.cols)) := onlyBreaches_blockResults _ _
      rw [hblocks] at hbreaches
      rw [hbreaches.onWorkers_eq rfl]
      rfl

end Blocks

/-- Block by block an evaluation fails exactly when the evaluation of the whole table does.
Otherwise both give the same table and the same choice, in whatever order and grouping the choices
of the blocks are compared. -/
theorem evaluateInBlocks_agrees {costs : List (List Int)} {supply demand : List Int}
    (hp : Problem.ofTable costs supply demand = .ok p) (hfit : g.Fits p)
    (hsize : split.rowsPerBlock p.rows * p.cols ≤ Count.greatest) (values : Potentials)
    (table : OpportunityTable) :
    ((∃ b, evaluate p g values table = .error (.breach b)) ↔
      evaluateInBlocks split p g values table = .error .taskFailed) ∧
    ((¬ ∃ b, evaluate p g values table = .error (.breach b)) →
      ∃ evaluation table' results,
        evaluate p g values table = .ok (evaluation, table') ∧
        evaluateInBlocks split p g values table = .ok (evaluation, table') ∧
        blockResults p g values table.values.length (split.rowsPerBlock p.rows * p.cols) =
          .ok results ∧
        ∀ c : Comparison, c.blocks.Perm (List.range results.length) →
          c.outcome (results.map Prod.fst) = evaluation.entering) := by
  have hcols := (Problem.sound_of_ofTable hp).cols_pos
  cases hwhole : evaluate p g values table with
  | error failure =>
      obtain ⟨b, rfl⟩ := onlyBreaches_evaluate hfit table failure hwhole
      have hblocks := evaluateInBlocks_of_error hfit hsize hcols hwhole
      exact ⟨iff_of_true ⟨b, rfl⟩ hblocks, fun hnone => absurd ⟨b, rfl⟩ hnone⟩
  | ok result =>
      obtain ⟨evaluation, table'⟩ := result
      obtain ⟨result, hresult, hblocks⟩ :=
        (evaluable_of_evaluate hcols hwhole).evaluate_eq hfit hcols hsize
      cases hwhole.symm.trans hresult
      refine ⟨iff_of_false nofun (by rw [hblocks]; nofun), fun _ => ?_⟩
      have hopen := hblocks
      rw [evaluateInBlocks_eq_bind hfit hsize] at hopen
      obtain ⟨results, hresults, hreturn⟩ := bind_eq_ok_iff.mp hopen
      refine ⟨evaluation, table', results, rfl, hblocks, onWorkers_eq_ok_iff.mp hresults,
        fun c hc => ?_⟩
      cases hreturn
      exact Comparison.outcome_of_perm (by rwa [List.length_map])

/-- A table that is too short for the grid, and potentials that are. -/
theorem evaluateInBlocks_agrees_crossed :
    (∃ results, blockResults crossed crossedStart.grid ⟨[0, -1], [1, 2]⟩ 3 2 = .ok results ∧
      (Comparison.pair (.block 1) (.pair .nothing (.block 0))).outcome (results.map Prod.fst) =
        some ⟨0, 1, -2⟩) ∧
    evaluateInBlocks ⟨2, 1⟩ crossed crossedStart.grid ⟨[0, -1], [1, 2]⟩
      ⟨1, 3, [some 7, none, some 5]⟩ = .ok (⟨some ⟨0, 1, -2⟩⟩, ⟨1, 3, [none, some (-2), none]⟩) ∧
    evaluateInBlocks ⟨2, 1⟩ crossed crossedStart.grid ⟨[0, -1], [1]⟩
      ⟨1, 3, [some 7, none, some 5]⟩ = .error .taskFailed := by
  have hfit : crossedStart.grid.Fits crossed := by decide
  have hsize : WorkSplit.rowsPerBlock ⟨2, 1⟩ crossed.rows * crossed.cols ≤ Count.greatest := by
    decide
  have hwhole : evaluate crossed crossedStart.grid ⟨[0, -1], [1, 2]⟩
      ⟨1, 3, [some 7, none, some 5]⟩ =
        .ok (⟨some ⟨0, 1, -2⟩⟩, ⟨1, 3, [none, some (-2), none]⟩) := by decide +kernel
  obtain ⟨-, hagree⟩ := evaluateInBlocks_agrees ofTable_crossed hfit hsize ⟨[0, -1], [1, 2]⟩
    ⟨1, 3, [some 7, none, some 5]⟩
  obtain ⟨evaluation, table', results, hresult, hblocks, hresults, hcomparison⟩ :=
    hagree (by rw [hwhole]; nofun)
  cases hwhole.symm.trans hresult
  have hlength : results.length = 2 := by
    have hcount : (blockResults crossed crossedStart.grid ⟨[0, -1], [1, 2]⟩ 3 2).map List.length =
        .ok 2 := by decide +kernel
    have hresults' : blockResults crossed crossedStart.grid ⟨[0, -1], [1, 2]⟩ 3 2 = .ok results :=
      hresults
    rw [hresults'] at hcount
    exact Except.ok.inj hcount
  refine ⟨⟨results, hresults, hcomparison _ ?_⟩, hblocks, ?_⟩
  · rw [hlength]
    decide
  · exact (evaluateInBlocks_agrees ofTable_crossed hfit hsize ⟨[0, -1], [1]⟩
      ⟨1, 3, [some 7, none, some 5]⟩).1.mp ⟨.outOfRange, by decide +kernel⟩

end Tables

end Evaluation

end Transportation
