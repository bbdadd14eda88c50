import Mathlib.Tactic.Ring
import Transportation.Proofs.Accepted
import Transportation.Proofs.Trees
/-!
# Basic plans

A basic plan ships every supply and meets every demand with amounts that are not negative, and its
basic cells are a spanning tree. All its sums stay within their ranges.
-/
namespace Transportation

namespace Grid

def graph (g : Grid) : SimpleGraph (Fin g.rows ⊕ Fin g.cols) := cellGraph g.rows g.cols g.basis

def weigh (g : Grid) (w : Nat → Nat → Int) : Int :=
  ∑ i ∈ Finset.range g.rows, ∑ j ∈ Finset.range g.cols, g.amount i j * w i j

/-- The exact cost of the amounts shipped. -/
def objective (g : Grid) (p : Problem) : Int := g.weigh p.costAt

/-- A grid that ships what each source has and each sink needs. -/
structure Feasible (g : Grid) (p : Problem) : Prop where
  nonneg : ∀ i j, i < p.rows → j < p.cols → 0 ≤ g.amount i j
  sum_row : ∀ i, i < p.rows → ∑ j ∈ Finset.range p.cols, g.amount i j = p.supplyAt i
  sum_col : ∀ j, j < p.cols → ∑ i ∈ Finset.range p.rows, g.amount i j = p.demandAt j

/-- A grid that ships what each source has, whatever reaches the sinks. -/
structure Supplied (g : Grid) (p : Problem) : Prop where
  nonneg : ∀ i j, i < p.rows → j < p.cols → 0 ≤ g.amount i j
  sum_row : ∀ i, i < p.rows → ∑ j ∈ Finset.range p.cols, g.amount i j = p.supplyAt i

theorem Feasible.supplied {g : Grid} {p : Problem} (h : g.Feasible p) : g.Supplied p :=
  ⟨h.nonneg, h.sum_row⟩

/-- A feasible grid whose basic cells are a spanning tree of the rows and columns. -/
structure BasicPlan (g : Grid) (p : Problem) : Prop where
  fits : g.Fits p
  regular : g.Regular
  feasible : g.Feasible p
  tree : g.graph.IsTree

theorem basis_subset (g : Grid) : g.basis ⊆ Finset.range g.rows ×ˢ Finset.range g.cols :=
  Finset.filter_subset _ _

theorem amount_eq_zero_of_vacant {g : Grid} {i j : Nat} (h : (g.cell i j).isBasic = false) :
    g.amount i j = 0 := by
  unfold amount
  cases hc : g.cell i j with
  | vacant => rfl
  | basic x => simp [hc, Cell.isBasic] at h

theorem cell_eq_basic {g : Grid} {i j : Nat} (h : (g.cell i j).isBasic = true) :
    g.cell i j = .basic (g.amount i j) := by
  unfold amount
  cases hc : g.cell i j with
  | vacant => simp [hc, Cell.isBasic] at h
  | basic x => rfl

private theorem sum_filterMap_shipments (cells : List Cell) (k cols : Nat) (w : Nat → Nat → Int) :
    (((cells.zipIdx k).filterMap fun (cell, k) =>
      cell.toOption.map fun x => (⟨k / cols, k % cols, x⟩ : Shipment)).map
        fun s => s.amount * w s.row s.col).sum =
      ((cells.zipIdx k).map fun (cell, k) => cell.amount * w (k / cols) (k % cols)).sum := by
  induction cells generalizing k with
  | nil => rfl
  | cons c cells ih =>
      rw [List.zipIdx_cons, List.map_cons, List.sum_cons, ← ih]
      cases c with
      | vacant => simp [Cell.toOption, Cell.amount]
      | basic x => simp [Cell.toOption, Cell.amount]

/-- A weighted sum over the basic cells is one over the whole table. -/
theorem Regular.sum_shipments {g : Grid} (h : g.Regular) (w : Nat → Nat → Int) :
    (g.shipments.map fun s => s.amount * w s.row s.col).sum = g.weigh w := by
  rw [shipments, sum_filterMap_shipments, sum_map_eq_sum_range _ (.vacant, 0), List.length_zipIdx,
    h.length_cells, sum_positions, weigh]
  apply Finset.sum_congr rfl
  intro i hi
  apply Finset.sum_congr rfl
  intro j hj
  have hlt := h.position_lt (Finset.mem_range.mp hi) (Finset.mem_range.mp hj)
  have hj' := Finset.mem_range.mp hj
  have hget : g.cells.zipIdx.getD (i * g.cols + j) (.vacant, 0) =
      (g.cell i j, i * g.cols + j) := by
    rw [List.getD_eq_getElem _ _ (by simpa using hlt), cell, List.getD_eq_getElem _ _ hlt]
    simp
  rw [hget, amount]
  dsimp only
  rw [position_div i hj', position_mod i hj']

def inRow (row : Nat) : Nat → Nat → Int := fun i _ => if i = row then 1 else 0

def inCol (col : Nat) : Nat → Nat → Int := fun _ j => if j = col then 1 else 0

theorem weigh_inRow (g : Grid) {i : Nat} (hi : i < g.rows) :
    g.weigh (inRow i) = ∑ j ∈ Finset.range g.cols, g.amount i j := by
  rw [weigh, Finset.sum_eq_single_of_mem i (Finset.mem_range.mpr hi)]
  · simp [inRow]
  · intro k _ hk
    simp [inRow, hk]

theorem weigh_inCol (g : Grid) {j : Nat} (hj : j < g.cols) :
    g.weigh (inCol j) = ∑ i ∈ Finset.range g.rows, g.amount i j := by
  rw [weigh]
  apply Finset.sum_congr rfl
  intro i _
  rw [Finset.sum_eq_single_of_mem j (Finset.mem_range.mpr hj)]
  · simp [inCol]
  · intro k _ hk
    simp [inCol, hk]

section Put

variable {g : Grid} {i j : Nat}

theorem Regular.amount_put (h : g.Regular) (hi : i < g.rows) (hj : j < g.cols) {i' j' : Nat}
    (hj' : j' < g.cols) (c : Cell) :
    (g.put i j c).amount i' j' = if i' = i ∧ j' = j then c.amount else g.amount i' j' := by
  rw [amount, h.cell_put hi hj hj']
  split <;> rfl

theorem Regular.weigh_put (h : g.Regular) (hi : i < g.rows) (hj : j < g.cols) (c : Cell)
    (w : Nat → Nat → Int) :
    (g.put i j c).weigh w = g.weigh w + (c.amount - g.amount i j) * w i j := by
  have hrow : ∀ i', ∑ l ∈ Finset.range g.cols, (g.put i j c).amount i' l * w i' l =
      ∑ l ∈ Finset.range g.cols, g.amount i' l * w i' l +
        if i' = i then (c.amount - g.amount i j) * w i j else 0 := by
    intro i'
    have hterm : ∀ l ∈ Finset.range g.cols, (g.put i j c).amount i' l * w i' l =
        g.amount i' l * w i' l +
          if l = j then (if i' = i then (c.amount - g.amount i j) * w i j else 0) else 0 := by
      intro l hl
      rw [h.amount_put hi hj (Finset.mem_range.mp hl)]
      by_cases hi' : i' = i <;> by_cases hl' : l = j <;> simp [hi', hl']
      ring
    rw [Finset.sum_congr rfl hterm, Finset.sum_add_distrib,
      Finset.sum_ite_eq' (Finset.range g.cols) j, if_pos (Finset.mem_range.mpr hj)]
  rw [weigh, rows_put, cols_put, Finset.sum_congr rfl fun i' _ => hrow i', Finset.sum_add_distrib,
    Finset.sum_ite_eq' (Finset.range g.rows) i, if_pos (Finset.mem_range.mpr hi)]
  rfl

theorem Regular.basis_put_basic (h : g.Regular) (hi : i < g.rows) (hj : j < g.cols) (x : Int) :
    (g.put i j (.basic x)).basis = insert (i, j) g.basis := by
  ext ⟨i', j'⟩
  simp only [mem_basis, rows_put, cols_put, Finset.mem_insert, Prod.mk.injEq]
  by_cases hj' : j' < g.cols
  · rw [h.cell_put hi hj hj']
    by_cases heq : i' = i ∧ j' = j
    · obtain ⟨rfl, rfl⟩ := heq
      simp [hi, hj, Cell.isBasic]
    · simp [heq]
  · have hne : j' ≠ j := by omega
    simp [hj', hne]

theorem amount_eq_zero_of_not_mem_basis (hi : i < g.rows)
    (hj : j < g.cols) (h : (i, j) ∉ g.basis) : g.amount i j = 0 := by
  apply amount_eq_zero_of_vacant
  simpa [mem_basis, hi, hj] using h

end Put

section Feasible

variable {g : Grid} {p : Problem} {i j : Nat}

theorem Feasible.of_amount_eq {g' : Grid} (h : g.Feasible p)
    (heq : ∀ i j, i < p.rows → j < p.cols → g'.amount i j = g.amount i j) : g'.Feasible p where
  nonneg i j hi hj := heq i j hi hj ▸ h.nonneg i j hi hj
  sum_row i hi := by
    rw [← h.sum_row i hi]
    exact Finset.sum_congr rfl fun j hj => heq i j hi (Finset.mem_range.mp hj)
  sum_col j hj := by
    rw [← h.sum_col j hj]
    exact Finset.sum_congr rfl fun i hi => heq i j (Finset.mem_range.mp hi) hj

theorem feasible_of_weigh (hfit : g.Fits p)
    (hpos : ∀ i j, i < p.rows → j < p.cols → 0 ≤ g.amount i j)
    (hrow : ∀ i, i < p.rows → g.weigh (inRow i) = p.supplyAt i)
    (hcol : ∀ j, j < p.cols → g.weigh (inCol j) = p.demandAt j) : g.Feasible p where
  nonneg := hpos
  sum_row i hi := by rw [← hrow i hi, g.weigh_inRow (hfit.1.symm ▸ hi), hfit.2]
  sum_col j hj := by rw [← hcol j hj, g.weigh_inCol (hfit.2.symm ▸ hj), hfit.1]

theorem Feasible.weigh_inRow_eq (h : g.Feasible p) (hfit : g.Fits p) (hi : i < p.rows) :
    g.weigh (inRow i) = p.supplyAt i := by
  rw [g.weigh_inRow (hfit.1.symm ▸ hi), hfit.2, h.sum_row i hi]

theorem Feasible.weigh_inCol_eq (h : g.Feasible p) (hfit : g.Fits p) (hj : j < p.cols) :
    g.weigh (inCol j) = p.demandAt j := by
  rw [g.weigh_inCol (hfit.2.symm ▸ hj), hfit.1, h.sum_col j hj]

theorem objective_eq (hfit : g.Fits p) :
    g.objective p =
      ∑ i ∈ Finset.range p.rows, ∑ j ∈ Finset.range p.cols, g.amount i j * p.costAt i j := by
  rw [objective, weigh, hfit.1, hfit.2]

theorem Supplied.amount_le_supply (h : g.Supplied p) (hi : i < p.rows) (hj : j < p.cols) :
    g.amount i j ≤ p.supplyAt i := by
  rw [← h.sum_row i hi]
  exact Finset.single_le_sum (fun k hk => h.nonneg i k hi (Finset.mem_range.mp hk))
    (Finset.mem_range.mpr hj)

theorem supplyAt_le_total (hp : p.Sound) (hi : i < p.rows) : p.supplyAt i ≤ p.total := by
  rw [← hp.sum_supplyAt]
  exact Finset.single_le_sum (fun k hk => (hp.supplyAt_pos (Finset.mem_range.mp hk)).le)
    (Finset.mem_range.mpr hi)

theorem Supplied.amount_le_total (h : g.Supplied p) (hp : p.Sound) (hi : i < p.rows)
    (hj : j < p.cols) : g.amount i j ≤ p.total :=
  (h.amount_le_supply hi hj).trans (supplyAt_le_total hp hi)

theorem Feasible.amount_le_total (h : g.Feasible p) (hp : p.Sound) (hi : i < p.rows)
    (hj : j < p.cols) : g.amount i j ≤ p.total :=
  h.supplied.amount_le_total hp hi hj

theorem Supplied.sum_col_le (h : g.Supplied p) (hp : p.Sound) (hj : j < p.cols) :
    ∑ i ∈ Finset.range p.rows, g.amount i j ≤ p.total := by
  rw [← hp.sum_supplyAt]
  exact Finset.sum_le_sum fun i hi => h.amount_le_supply (Finset.mem_range.mp hi) hj

theorem Feasible.objective_nonneg (h : g.Feasible p) (hp : p.Sound) (hfit : g.Fits p) :
    0 ≤ g.objective p := by
  rw [objective_eq hfit]
  refine Finset.sum_nonneg fun i hi => Finset.sum_nonneg fun j hj => ?_
  rw [Finset.mem_range] at hi hj
  exact mul_nonneg (h.nonneg i j hi hj) (hp.costAt_nonneg hi hj)

/-- No plan costs more than its total at the largest cost. -/
theorem Supplied.objective_le (h : g.Supplied p) (hp : p.Sound) (hfit : g.Fits p) :
    g.objective p ≤ Amount.greatest := by
  refine le_trans ?_ hp.objective_le
  rw [objective_eq hfit, ← hp.sum_supplyAt, Finset.sum_mul]
  apply Finset.sum_le_sum
  intro i hi
  rw [← h.sum_row i (Finset.mem_range.mp hi), Finset.sum_mul]
  apply Finset.sum_le_sum
  intro j hj
  exact mul_le_mul_of_nonneg_left (hp.costAt_le (Finset.mem_range.mp hi) (Finset.mem_range.mp hj))
    (h.nonneg i j (Finset.mem_range.mp hi) (Finset.mem_range.mp hj))

theorem Feasible.objective_le (h : g.Feasible p) (hp : p.Sound) (hfit : g.Fits p) :
    g.objective p ≤ Amount.greatest :=
  h.supplied.objective_le hp hfit

theorem Supplied.shippedFrom_eq_ok (h : g.Supplied p) (hp : p.Sound) (hfit : g.Fits p)
    (hreg : g.Regular) (hi : i < p.rows) : g.shippedFrom i = .ok (p.supplyAt i) := by
  have hrow := hreg.row_eq_ok (hfit.1 ▸ hi) (hfit.1 ▸ hp.rows_le)
  have hsum : (((List.range g.cols).map (g.cell i)).map Cell.amount).sum = p.supplyAt i := by
    rw [← h.sum_row i hi, List.map_map, hfit.2]
    rfl
  rw [shippedFrom, hrow, ok_bind, Amount.sum_eq_ok, hsum]
  · intro x hx
    simp only [List.map_map, List.mem_map, List.mem_range] at hx
    obtain ⟨j, hj, rfl⟩ := hx
    exact h.nonneg i j hi (hfit.2 ▸ hj)
  · rw [hsum]
    exact (supplyAt_le_total hp hi).trans hp.total_le

theorem Feasible.shippedFrom_eq_ok (h : g.Feasible p) (hp : p.Sound) (hfit : g.Fits p)
    (hreg : g.Regular) (hi : i < p.rows) : g.shippedFrom i = .ok (p.supplyAt i) :=
  h.supplied.shippedFrom_eq_ok hp hfit hreg hi

theorem Supplied.shippedTo_eq_ok (h : g.Supplied p) (hp : p.Sound) (hfit : g.Fits p)
    (hreg : g.Regular) (hj : j < p.cols) :
    g.shippedTo j = .ok (∑ i ∈ Finset.range p.rows, g.amount i j) := by
  have hstep : ∀ acc i, i ∈ List.range g.rows →
      (do Amount.ofInt (acc + (← g.get i j).amount)) = Amount.ofInt (acc + g.amount i j) := by
    intro acc i hi
    rw [hreg.get_eq_ok (List.mem_range.mp hi) (hfit.2 ▸ hj)]
    rfl
  have hsum : ((List.range g.rows).map fun i => g.amount i j).sum =
      ∑ i ∈ Finset.range p.rows, g.amount i j := by
    rw [hfit.1]
    rfl
  rw [shippedTo, foldlM_congr hstep, Amount.foldlM_ofInt_eq_ok (fun i => g.amount i j), hsum,
    zero_add]
  · intro i hi
    exact h.nonneg i j (hfit.1 ▸ List.mem_range.mp hi) hj
  · exact le_rfl
  · rw [hsum, zero_add]
    exact (h.sum_col_le hp hj).trans hp.total_le

theorem Feasible.shippedTo_eq_ok (h : g.Feasible p) (hp : p.Sound) (hfit : g.Fits p)
    (hreg : g.Regular) (hj : j < p.cols) : g.shippedTo j = .ok (p.demandAt j) := by
  rw [h.supplied.shippedTo_eq_ok hp hfit hreg hj, h.sum_col j hj]

private theorem allFrom_eq_ok_true (test : Nat → Except Failure Bool) (k count : Nat)
    (h : ∀ i, k ≤ i → i < k + count → test i = .ok true) : allFrom test k count = .ok true := by
  induction count generalizing k with
  | zero => rfl
  | succ count ih =>
      rw [allFrom, h k le_rfl (by omega), ok_bind, if_pos rfl]
      exact ih (k + 1) fun i hk hi => h i (by omega) (by omega)

theorem Feasible.meets_eq_ok (h : g.Feasible p) (hp : p.Sound) (hfit : g.Fits p)
    (hreg : g.Regular) : g.meets p = .ok true := by
  have hrows : ∀ i, 0 ≤ i → i < 0 + g.rows →
      (do return (← g.shippedFrom i) == (← entry p.supply i)) = Except.ok (ε := Failure) true := by
    intro i _ hi
    have hi' : i < p.rows := by have := hfit.1; omega
    rw [h.shippedFrom_eq_ok hp hfit hreg hi', ok_bind,
      entry_getD 0 (hp.length_supply.symm ▸ hi'), ok_bind]
    simp [Problem.supplyAt]
  have hcols : ∀ j, 0 ≤ j → j < 0 + g.cols →
      (do return (← g.shippedTo j) == (← entry p.demand j)) = Except.ok (ε := Failure) true := by
    intro j _ hj
    have hj' : j < p.cols := by have := hfit.2; omega
    rw [h.shippedTo_eq_ok hp hfit hreg hj', ok_bind,
      entry_getD 0 (hp.length_demand.symm ▸ hj'), ok_bind]
    simp [Problem.demandAt]
  rw [meets, allFrom_eq_ok_true _ 0 g.rows hrows, ok_bind, if_pos rfl]
  exact allFrom_eq_ok_true _ 0 g.cols hcols

theorem Regular.toPlan_eq_ok (h : g.Regular) (hroom : g.rows ≤ Count.greatest) :
    g.toPlan = .ok ((List.range g.rows).map fun i => (List.range g.cols).map (g.amount i)) := by
  rw [toPlan]
  apply mapM_eq_ok_map
  intro i hi
  rw [h.row_eq_ok (List.mem_range.mp hi) hroom, ok_bind, pure_eq_ok, List.map_map]
  rfl

section Terms

variable (hreg : g.Regular) (hp : p.Sound) (hfit : g.Fits p)
  (hnonneg : ∀ i j, i < p.rows → j < p.cols → 0 ≤ g.amount i j)
  (hend : g.objective p ≤ Amount.greatest)

include hreg hp hfit hnonneg

theorem Regular.shipment_cost_nonneg {s : Shipment} (hs : s ∈ g.shipments) :
    (s.row < p.rows ∧ s.col < p.cols) ∧ 0 ≤ s.amount * p.costAt s.row s.col := by
  obtain ⟨hi, hj, hcell⟩ := hreg.mem_shipments.mp hs
  rw [hfit.1] at hi
  rw [hfit.2] at hj
  have hamount : g.amount s.row s.col = s.amount := by rw [amount, hcell]; rfl
  have hpos : 0 ≤ s.amount := hamount ▸ hnonneg _ _ hi hj
  exact ⟨⟨hi, hj⟩, mul_nonneg hpos (hp.costAt_nonneg hi hj)⟩

include hend

theorem Regular.shipment_cost_le {s : Shipment} (hs : s ∈ g.shipments) :
    s.amount * p.costAt s.row s.col ≤ Amount.greatest := by
  have hterms : ∀ x ∈ g.shipments.map fun s => s.amount * p.costAt s.row s.col, 0 ≤ x :=
    List.forall_mem_map.mpr fun s hs => (hreg.shipment_cost_nonneg hp hfit hnonneg hs).2
  have hsum : (g.shipments.map fun s => s.amount * p.costAt s.row s.col).sum = g.objective p :=
    hreg.sum_shipments p.costAt
  refine le_trans ?_ hend
  rw [← hsum]
  exact List.single_le_sum hterms _ (List.mem_map_of_mem hs)

theorem Regular.totalCost_eq_ok : g.totalCost p = .ok (g.objective p) := by
  have hstep : ∀ acc s, s ∈ g.shipments →
      (do
        let cost ← Amount.ofInt (s.amount * (← p.cost s.row s.col))
        Amount.ofInt (acc + cost)) = Amount.ofInt (acc + s.amount * p.costAt s.row s.col) := by
    intro acc s hs
    obtain ⟨⟨hi, hj⟩, h₀⟩ := hreg.shipment_cost_nonneg hp hfit hnonneg hs
    have h₁ := hreg.shipment_cost_le hp hfit hnonneg hend hs
    rw [hp.cost_eq_ok hi hj, ok_bind, Amount.ofInt_of_inRange (Amount.inRange_of_nonneg h₀ h₁),
      ok_bind]
  have hsum : (g.shipments.map fun s => s.amount * p.costAt s.row s.col).sum = g.objective p :=
    hreg.sum_shipments p.costAt
  rw [totalCost, foldlM_congr hstep,
    Amount.foldlM_ofInt_eq_ok (fun s : Shipment => s.amount * p.costAt s.row s.col), hsum,
    zero_add]
  · exact fun s hs => (hreg.shipment_cost_nonneg hp hfit hnonneg hs).2
  · exact le_rfl
  · rwa [hsum, zero_add]

end Terms

theorem Supplied.shipment_cost (h : g.Supplied p) (hp : p.Sound) (hfit : g.Fits p)
    (hreg : g.Regular) {s : Shipment} (hs : s ∈ g.shipments) :
    0 ≤ s.amount * p.costAt s.row s.col ∧
      s.amount * p.costAt s.row s.col ≤ Amount.greatest :=
  ⟨(hreg.shipment_cost_nonneg hp hfit h.nonneg hs).2,
    hreg.shipment_cost_le hp hfit h.nonneg (h.objective_le hp hfit) hs⟩

theorem Supplied.totalCost_eq_ok (h : g.Supplied p) (hp : p.Sound) (hfit : g.Fits p)
    (hreg : g.Regular) : g.totalCost p = .ok (g.objective p) :=
  hreg.totalCost_eq_ok hp hfit h.nonneg (h.objective_le hp hfit)

theorem Feasible.totalCost_eq_ok (h : g.Feasible p) (hp : p.Sound) (hfit : g.Fits p)
    (hreg : g.Regular) : g.totalCost p = .ok (g.objective p) :=
  h.supplied.totalCost_eq_ok hp hfit hreg

end Feasible

section BasicPlan

variable {g : Grid} {p : Problem}

theorem connected_graph_iff (hp : p.Sound) (hfit : g.Fits p) :
    g.graph.Connected ↔ Spans p.rows p.cols g.basis := by
  rw [graph, connected_cellGraph_iff g.basis_subset (hfit.1.symm ▸ hp.rows_pos), hfit.1, hfit.2]

theorem BasicPlan.spans (h : g.BasicPlan p) (hp : p.Sound) : Spans p.rows p.cols g.basis :=
  (connected_graph_iff hp h.fits).mp h.tree.connected

theorem BasicPlan.card_basis (h : g.BasicPlan p) (hp : p.Sound) :
    g.basis.card + 1 = p.rows + p.cols := by
  have hcard := ((isTree_cellGraph_iff g.basis_subset (h.fits.1.symm ▸ hp.rows_pos)).mp h.tree).2
  rwa [h.fits.1, h.fits.2] at hcard

theorem BasicPlan.forest (h : g.BasicPlan p) : Forest g.basis :=
  forest_of_isAcyclic g.basis_subset h.tree.isAcyclic

theorem BasicPlan.basicCount_eq (h : g.BasicPlan p) (hp : p.Sound) :
    g.basicCount = p.basisSize := by
  have hcard := h.card_basis hp
  rw [h.regular.card_basis] at hcard
  rw [Problem.basisSize]
  omega

theorem basicPlan_of_spans (hp : p.Sound) (hfit : g.Fits p) (hreg : g.Regular)
    (hfeas : g.Feasible p) (hspans : Spans p.rows p.cols g.basis)
    (hcard : g.basis.card + 1 = p.rows + p.cols) : g.BasicPlan p where
  fits := hfit
  regular := hreg
  feasible := hfeas
  tree := by
    refine (isTree_cellGraph_iff g.basis_subset (hfit.1.symm ▸ hp.rows_pos)).mpr ?_
    rw [hfit.1, hfit.2]
    exact ⟨hspans, hcard⟩

end BasicPlan

end Grid

end Transportation
