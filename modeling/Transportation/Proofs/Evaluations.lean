import Transportation.Opportunity.InBlocks
import Transportation.Proofs.Choices
import Transportation.Proofs.PivotBlocks
import Transportation.Proofs.ScanSearch
/-!
# Evaluations

An evaluation fills the table cell by cell, so blocks of whole rows fill it the same way, and the
choices of the blocks combine to the choice from the whole table. On a basic plan all costs are
amounts: the potentials stay far enough from the ends of the range.
-/
namespace Transportation

namespace Evaluation

section Blocks

variable {p : Problem} {g : Grid} {values : Potentials} {table : OpportunityTable}
  {cost : Nat → Option Int}

private theorem cellCosts_eq_ok (hcols : 0 < p.cols) (cost : Nat → Option Int)
    {firstRow count : Nat}
    (hcost : ∀ k, k < count → cellCost p g values ((firstRow * p.cols + k) / p.cols)
      ((firstRow * p.cols + k) % p.cols) = .ok (cost (firstRow * p.cols + k))) :
    cellCosts p g values firstRow count =
      .ok ((List.range count).map fun k => cost (firstRow * p.cols + k)) := by
  rw [cellCosts]
  apply mapM_eq_ok_map
  intro k hk
  rw [← hcost k (List.mem_range.mp hk), Nat.mul_comm, Nat.mul_add_div hcols, Nat.mul_add_mod]

theorem evaluate_eq_ok (hfit : g.Fits p) (hcols : 0 < p.cols)
    (hcost : ∀ k, k < table.values.length →
      cellCost p g values (k / p.cols) (k % p.cols) = .ok (cost k)) :
    evaluate p g values table =
      .ok (⟨Entering.choose p.cols 0 ((List.range table.values.length).map cost)⟩,
        { table with values := (List.range table.values.length).map cost }) := by
  have hcosts : cellCosts p g values 0 table.values.length = _ :=
    cellCosts_eq_ok hcols cost fun k hk => by simpa using hcost k hk
  simp only [Nat.zero_mul, Nat.zero_add] at hcosts
  rw [evaluate, Grid.requireFit_eq_ok_iff.mpr hfit, ok_bind, hcosts]
  rfl

private theorem drop_take_range (n start count : Nat) :
    ((List.range n).drop start).take count =
      (List.range (min count (n - start))).map fun k => start + k := by
  apply List.ext_getElem
  · simp
  · intro k hk hk'
    simp

private theorem choose_eq_of_chosen (hcols : 0 < p.cols) (n : Nat) {choice : Option Entering}
    (h : Entering.Chosen ((List.range n).filterMap (Entering.candidate p.cols cost)) choice) :
    choice = Entering.choose p.cols 0 ((List.range n).map cost) := by
  have hall := Entering.chosen_choose hcols cost 0 n
  simp only [Nat.zero_mul, Nat.zero_add] at hall
  exact h.unique hall

theorem block_eq (hcols : 0 < p.cols) {total size : Nat} {block : Nat × Nat}
    (hmem : block ∈ WorkSplit.blocks total (size * p.cols)) :
    (∀ k, k < block.2 → block.1 / p.cols * p.cols + k < total) ∧
      ((List.range total).drop block.1).take block.2 =
        (List.range block.2).map fun k => block.1 / p.cols * p.cols + k := by
  obtain ⟨k, -, rfl⟩ := List.mem_map.mp hmem
  have hstart : k * (size * p.cols) / p.cols * p.cols = k * (size * p.cols) := by
    rw [← Nat.mul_assoc, Nat.mul_div_cancel _ hcols]
  dsimp only
  rw [hstart]
  refine ⟨fun l hl => by omega, ?_⟩
  rw [drop_take_range, Nat.min_eq_left (by omega)]

private theorem choose_blocks (hcols : 0 < p.cols) (cost : Nat → Option Int) (total : Nat)
    {size : Nat} (hsize : 0 < size) :
    ((WorkSplit.blocks total (size * p.cols)).map fun block =>
      Entering.choose p.cols (block.1 / p.cols) ((List.range block.2).map fun k =>
        cost (block.1 / p.cols * p.cols + k))).foldl Entering.pick none =
      Entering.choose p.cols 0 ((List.range total).map cost) := by
  have hcover := WorkSplit.flatMap_blocks (List.range total) (Nat.mul_pos hsize hcols)
  rw [List.length_range] at hcover
  apply choose_eq_of_chosen hcols
  have hchosen := Entering.chosen_foldl_pick (WorkSplit.blocks total (size * p.cols))
    (fun block => (((List.range total).drop block.1).take block.2).filterMap
      (Entering.candidate p.cols cost))
    (fun block => Entering.choose p.cols (block.1 / p.cols)
      ((List.range block.2).map fun k => cost (block.1 / p.cols * p.cols + k)))
    fun block hmem => by
      rw [(block_eq hcols hmem).2, List.filterMap_map]
      exact Entering.chosen_choose hcols cost _ _
  rw [← List.filterMap_flatMap, hcover] at hchosen
  exact hchosen

theorem evaluateInBlocks_eq_ok (hfit : g.Fits p) (hcols : 0 < p.cols)
    (hcost : ∀ k, k < table.values.length →
      cellCost p g values (k / p.cols) (k % p.cols) = .ok (cost k))
    (split : WorkSplit) (hsize : split.rowsPerBlock p.rows * p.cols ≤ Count.greatest) :
    evaluateInBlocks split p g values table =
      .ok (⟨Entering.choose p.cols 0 ((List.range table.values.length).map cost)⟩,
        { table with values := (List.range table.values.length).map cost }) := by
  have hpos := split.rowsPerBlock_pos p.rows
  have hcover := WorkSplit.flatMap_blocks (List.range table.values.length) (Nat.mul_pos hpos hcols)
  rw [List.length_range] at hcover
  have hentering := choose_blocks hcols cost table.values.length hpos
  set blocks := WorkSplit.blocks table.values.length (split.rowsPerBlock p.rows * p.cols)
    with hblocks
  have hresult : ∀ block ∈ blocks, evaluateBlock p g values (block.1 / p.cols) block.2 =
      .ok (Entering.choose p.cols (block.1 / p.cols) ((List.range block.2).map fun k =>
        cost (block.1 / p.cols * p.cols + k)),
        (((List.range table.values.length).drop block.1).take block.2).map cost) := by
    intro block hmem
    obtain ⟨hinside, hpart⟩ := block_eq hcols hmem
    rw [evaluateBlock, cellCosts_eq_ok hcols cost fun k hk => hcost _ (hinside k hk), ok_bind,
      hpart, List.map_map]
    rfl
  have hvalues : (blocks.map fun block =>
      (((List.range table.values.length).drop block.1).take block.2).map cost).flatten =
      (List.range table.values.length).map cost := by
    rw [← List.flatMap_def, ← List.map_flatMap, hcover]
  rw [evaluateInBlocks, Grid.requireFit_eq_ok_iff.mpr hfit, ok_bind, WorkSplit.cellsPerBlock,
    Count.ofNat, if_pos hsize, ok_bind, ← hblocks]
  dsimp only
  rw [mapM_eq_ok_map _ _ _ hresult, onWorkers_ok, ok_bind, pure_eq_ok, List.map_map, List.map_map,
    ← hentering, ← hvalues]
  rfl

end Blocks

end Evaluation

def reducedCost (p : Problem) (f : Node → Int) (i j : Nat) : Int :=
  p.costAt i j - (f (.source i) + f (.sink j))

def vacantCost (p : Problem) (g : Grid) (f : Node → Int) (k : Nat) : Option Int :=
  if (g.cell (k / p.cols) (k % p.cols)).isBasic then none
  else some (reducedCost p f (k / p.cols) (k % p.cols))

def OpportunityTable.ofValues (p : Problem) (g : Grid) (f : Node → Int) : OpportunityTable :=
  ⟨p.rows, p.cols, (List.range (p.rows * p.cols)).map (vacantCost p g f)⟩

def Evaluation.ofValues (p : Problem) (g : Grid) (f : Node → Int) : Evaluation :=
  ⟨Entering.choose p.cols 0 (OpportunityTable.ofValues p g f).values⟩

structure OpportunityTable.Sized (t : OpportunityTable) (p : Problem) : Prop where
  rows_eq : t.rows = p.rows
  cols_eq : t.cols = p.cols
  length_values : t.values.length = p.rows * p.cols

theorem OpportunityTable.sized_blank (p : Problem) : (blank p.rows p.cols).Sized p :=
  ⟨rfl, rfl, by simp [blank]⟩

theorem OpportunityTable.sized_ofValues (p : Problem) (g : Grid) (f : Node → Int) :
    (ofValues p g f).Sized p :=
  ⟨rfl, rfl, by simp [ofValues]⟩

theorem Grid.not_mem_basis_iff {p : Problem} {g : Grid} (hfit : g.Fits p) {i j : Nat}
    (hi : i < p.rows) (hj : j < p.cols) : (i, j) ∉ g.basis ↔ (g.cell i j).isBasic = false := by
  simp [Grid.mem_basis, hfit.1.symm ▸ hi, hfit.2.symm ▸ hj]

/-- The values leave room for the opportunity cost of every vacant cell. -/
def Evaluation.InReach (p : Problem) (g : Grid) (f : Node → Int) : Prop :=
  ∀ i j, i < p.rows → j < p.cols → (g.cell i j).isBasic = false →
    Amount.InRange (f (.source i) + f (.sink j)) ∧ Amount.InRange (reducedCost p f i j)

section Cells

variable {p : Problem} {g : Grid} {f : Node → Int} {i j : Nat}

theorem opportunityCost_ofValues (hp : p.Sound) (hi : i < p.rows) (hj : j < p.cols)
    (hends : Amount.InRange (f (.source i) + f (.sink j)))
    (hcost : Amount.InRange (reducedCost p f i j)) :
    (Potentials.ofValues p f).opportunityCost p i j = .ok (reducedCost p f i j) := by
  have hu : entry (Potentials.ofValues p f).u i = .ok (f (.source i)) := by
    rw [entry_of_lt (by simpa [Potentials.ofValues] using hi)]
    simp [Potentials.ofValues]
  have hv : entry (Potentials.ofValues p f).v j = .ok (f (.sink j)) := by
    rw [entry_of_lt (by simpa [Potentials.ofValues] using hj)]
    simp [Potentials.ofValues]
  rw [Potentials.opportunityCost, hp.cost_eq_ok hi hj, ok_bind, hu, ok_bind, hv, ok_bind,
    Amount.ofInt_of_inRange hends, ok_bind]
  exact Amount.ofInt_of_inRange hcost

theorem inRange_reducedCost (hp : p.Sound) (hi : i < p.rows) (hj : j < p.cols)
    (hsource : |f (.source i)| + p.greatestCost ≤ ((p.rows : Int) + p.cols) * p.greatestCost)
    (hsink : |f (.sink j)| + p.greatestCost ≤ ((p.rows : Int) + p.cols) * p.greatestCost) :
    Amount.InRange (f (.source i) + f (.sink j)) ∧ Amount.InRange (reducedCost p f i j) := by
  have hC := p.greatestCost_nonneg
  have hroom := hp.potentials_le
  have hends : |f (.source i) + f (.sink j)| ≤
      2 * (((p.rows : Int) + p.cols) * p.greatestCost - p.greatestCost) := by
    have := abs_add_le (f (.source i)) (f (.sink j))
    linarith
  have hcost : |p.costAt i j| ≤ p.greatestCost :=
    abs_le.mpr ⟨by linarith [hp.costAt_nonneg hi hj], hp.costAt_le hi hj⟩
  have hreduced : |reducedCost p f i j| ≤
      2 * (((p.rows : Int) + p.cols) * p.greatestCost - p.greatestCost) + p.greatestCost := by
    have := abs_sub (p.costAt i j) (f (.source i) + f (.sink j))
    rw [reducedCost]
    linarith
  exact ⟨Amount.inRange_of_abs_le hends (by linarith),
    Amount.inRange_of_abs_le hreduced (by linarith)⟩

private theorem cellCost_eq_ok (hp : p.Sound) (hfit : g.Fits p) (hreg : g.Regular)
    (hreach : Evaluation.InReach p g f) {k : Nat} (hk : k < p.rows * p.cols) :
    Evaluation.cellCost p g (.ofValues p f) (k / p.cols) (k % p.cols) =
      .ok (vacantCost p g f k) := by
  obtain ⟨hi, hj, -⟩ := place_of_position hk
  rw [Evaluation.cellCost, hreg.isBasic_eq_ok (hfit.1.symm ▸ hi) (hfit.2.symm ▸ hj),
    ok_bind, vacantCost]
  cases hcell : (g.cell (k / p.cols) (k % p.cols)).isBasic with
  | true => rfl
  | false =>
      obtain ⟨hends, hcost⟩ := hreach _ _ hi hj hcell
      rw [if_neg (by simp), if_neg (by simp), opportunityCost_ofValues hp hi hj hends hcost]
      rfl

private theorem OpportunityTable.Sized.eq_ofValues {table : OpportunityTable} (h : table.Sized p) :
    { table with values := (List.range table.values.length).map (vacantCost p g f) } =
      ofValues p g f := by
  rw [ofValues, h.length_values, h.rows_eq, h.cols_eq]

namespace Evaluation

/-- Whatever a table of the problem's shape held, an evaluation replaces all of it. -/
theorem InReach.evaluate_eq (hreach : InReach p g f) (hp : p.Sound) (hfit : g.Fits p)
    (hreg : g.Regular) {table : OpportunityTable} (htable : table.Sized p) :
    evaluate p g (.ofValues p f) table =
      .ok (ofValues p g f, OpportunityTable.ofValues p g f) := by
  rw [evaluate_eq_ok hfit hp.cols_pos fun k hk =>
    cellCost_eq_ok hp hfit hreg hreach (htable.length_values ▸ hk), htable.eq_ofValues,
    htable.length_values]
  rfl

theorem InReach.evaluateInBlocks_eq (hreach : InReach p g f) (hp : p.Sound) (hfit : g.Fits p)
    (hreg : g.Regular) {table : OpportunityTable} (htable : table.Sized p) (split : WorkSplit)
    (hsize : split.rowsPerBlock p.rows * p.cols ≤ Count.greatest) :
    evaluateInBlocks split p g (.ofValues p f) table =
      .ok (ofValues p g f, OpportunityTable.ofValues p g f) := by
  rw [evaluateInBlocks_eq_ok hfit hp.cols_pos (fun k hk =>
    cellCost_eq_ok hp hfit hreg hreach (htable.length_values ▸ hk)) split hsize, htable.eq_ofValues,
    htable.length_values]
  rfl

private theorem chosen_ofValues (hp : p.Sound) (g : Grid) (f : Node → Int) :
    Entering.Chosen ((List.range (p.rows * p.cols)).filterMap
      (Entering.candidate p.cols (vacantCost p g f))) (ofValues p g f).entering := by
  have hchosen := Entering.chosen_choose hp.cols_pos (vacantCost p g f) 0 (p.rows * p.cols)
  simp only [Nat.zero_mul, Nat.zero_add] at hchosen
  exact hchosen

private theorem mem_candidates (hfit : g.Fits p) {e : Entering} :
    e ∈ (List.range (p.rows * p.cols)).filterMap
        (Entering.candidate p.cols (vacantCost p g f)) ↔
      (e.row < p.rows ∧ e.col < p.cols) ∧ (e.row, e.col) ∉ g.basis ∧
        e.delta = reducedCost p f e.row e.col := by
  rw [List.mem_filterMap]
  constructor
  · rintro ⟨k, hk, hcandidate⟩
    obtain ⟨hi, hj, -⟩ := place_of_position (List.mem_range.mp hk)
    obtain ⟨delta, hdelta, rfl⟩ := Option.map_eq_some_iff.mp hcandidate
    rw [vacantCost] at hdelta
    split at hdelta
    · contradiction
    · next hvacant =>
        cases hdelta
        exact ⟨⟨hi, hj⟩, (Grid.not_mem_basis_iff hfit hi hj).mpr (by simpa using hvacant), rfl⟩
  · rintro ⟨⟨hi, hj⟩, hvacant, hdelta⟩
    refine ⟨e.row * p.cols + e.col, List.mem_range.mpr (position_lt hi hj), ?_⟩
    rw [Entering.candidate, vacantCost, position_div _ hj, position_mod _ hj,
      (Grid.not_mem_basis_iff hfit hi hj).mp hvacant, if_neg (by simp), Option.map_some, ← hdelta]

theorem entering_spec (hp : p.Sound) (hfit : g.Fits p) {e : Entering}
    (he : (ofValues p g f).entering = some e) :
    (e.row < p.rows ∧ e.col < p.cols) ∧ (e.row, e.col) ∉ g.basis ∧
      e.delta = reducedCost p f e.row e.col ∧ e.delta < 0 := by
  have hchosen := chosen_ofValues hp g f
  rw [he] at hchosen
  obtain ⟨hplace, hvacant, hdelta⟩ := (mem_candidates hfit).mp hchosen.1
  exact ⟨hplace, hvacant, hdelta, hchosen.2.1⟩

/-- No vacant cell goes before the entering cell in the order of cost, row and column. -/
theorem entering_le (hp : p.Sound) (hfit : g.Fits p) {e : Entering}
    (he : (ofValues p g f).entering = some e) (hi : i < p.rows) (hj : j < p.cols)
    (hvacant : (i, j) ∉ g.basis) :
    e.delta < reducedCost p f i j ∨
      e.delta = reducedCost p f i j ∧ (e.row < i ∨ e.row = i ∧ e.col ≤ j) := by
  have hchosen := chosen_ofValues hp g f
  rw [he] at hchosen
  rcases hchosen.2.2 ⟨i, j, reducedCost p f i j⟩
    ((mem_candidates hfit).mpr ⟨⟨hi, hj⟩, hvacant, rfl⟩) with heq | hbefore
  · rw [← heq]
    exact .inr ⟨rfl, .inr ⟨rfl, le_rfl⟩⟩
  · rw [Entering.before_iff, Entering.Earlier] at hbefore
    dsimp only at hbefore
    omega

theorem optimal_iff_vacant (hp : p.Sound) (hfit : g.Fits p) :
    (ofValues p g f).optimal = true ↔
      ∀ i j, i < p.rows → j < p.cols → (i, j) ∉ g.basis → 0 ≤ reducedCost p f i j := by
  have hchosen := chosen_ofValues hp g f
  cases hentering : (ofValues p g f).entering with
  | none =>
      rw [hentering] at hchosen
      refine iff_of_true (by rw [optimal, hentering]; rfl) fun i j hi hj hvacant => ?_
      exact hchosen ⟨i, j, reducedCost p f i j⟩
        ((mem_candidates hfit).mpr ⟨⟨hi, hj⟩, hvacant, rfl⟩)
  | some e =>
      obtain ⟨⟨hi, hj⟩, hvacant, hdelta, hneg⟩ := entering_spec hp hfit hentering
      refine iff_of_false (by rw [optimal, hentering]; simp) fun hall => ?_
      have hcost := hall e.row e.col hi hj hvacant
      omega

/-- With values that fit the basic cells, no values of two ends exceed the cost between them. -/
theorem optimal_iff (hp : p.Sound) (hfit : g.Fits p) (hf : Prices p g f) :
    (ofValues p g f).optimal = true ↔
      ∀ i j, i < p.rows → j < p.cols → f (.source i) + f (.sink j) ≤ p.costAt i j := by
  rw [optimal_iff_vacant hp hfit]
  constructor
  · intro hall i j hi hj
    by_cases hbasic : (i, j) ∈ g.basis
    · exact (hf.cell _ hbasic).le
    · exact sub_nonneg.mp (hall i j hi hj hbasic)
  · intro hall i j hi hj _
    exact sub_nonneg.mpr (hall i j hi hj)

end Evaluation

end Cells

section BasicPlan

variable {p : Problem} {g : Grid} {f : Node → Int}

theorem Prices.abs_le (hf : Prices p g f) (hp : p.Sound) (hg : g.BasicPlan p) {n : Node}
    (hn : n.Within p.rows p.cols) :
    |f n| + p.greatestCost ≤ ((p.rows : Int) + p.cols) * p.greatestCost :=
  (Potentials.exhausts_scan hp hg.fits hg.regular).abs_le hp hg hf hn

private theorem Prices.inRange (hf : Prices p g f) (hp : p.Sound) (hg : g.BasicPlan p) {i j : Nat}
    (hi : i < p.rows) (hj : j < p.cols) :
    Amount.InRange (f (.source i) + f (.sink j)) ∧ Amount.InRange (reducedCost p f i j) :=
  inRange_reducedCost hp hi hj (hf.abs_le hp hg (n := .source i) hi)
    (hf.abs_le hp hg (n := .sink j) hj)

theorem opportunityCost_eq_ok (hp : p.Sound) (hg : g.BasicPlan p) (hf : Prices p g f) {i j : Nat}
    (hi : i < p.rows) (hj : j < p.cols) :
    (Potentials.ofValues p f).opportunityCost p i j = .ok (reducedCost p f i j) :=
  opportunityCost_ofValues hp hi hj (hf.inRange hp hg hi hj).1 (hf.inRange hp hg hi hj).2

namespace Evaluation

private theorem inReach_of_prices (hp : p.Sound) (hg : g.BasicPlan p) (hf : Prices p g f) :
    InReach p g f := fun _ _ hi hj _ => hf.inRange hp hg hi hj

theorem evaluate_eq (hp : p.Sound) (hg : g.BasicPlan p) (hf : Prices p g f)
    {table : OpportunityTable} (htable : table.Sized p) :
    evaluate p g (.ofValues p f) table =
      .ok (ofValues p g f, OpportunityTable.ofValues p g f) :=
  (inReach_of_prices hp hg hf).evaluate_eq hp hg.fits hg.regular htable

theorem evaluateInBlocks_eq (hp : p.Sound) (hg : g.BasicPlan p) (hf : Prices p g f)
    {table : OpportunityTable} (htable : table.Sized p) (split : WorkSplit)
    (hsize : split.rowsPerBlock p.rows * p.cols ≤ Count.greatest) :
    evaluateInBlocks split p g (.ofValues p f) table =
      .ok (ofValues p g f, OpportunityTable.ofValues p g f) :=
  (inReach_of_prices hp hg hf).evaluateInBlocks_eq hp hg.fits hg.regular htable split hsize

end Evaluation

end BasicPlan

end Transportation
