import Mathlib.Tactic.Linarith
import Transportation.Proofs.Acceptance
/-!
# Accepted problems

What the tests on the data of a problem secure: a full table of costs that are not negative,
positive supplies and demands with one total, and magnitudes that leave room for the objective and
for the potentials.
-/
namespace Transportation

namespace Amount

theorem inRange_of_abs_le {x b : Int} (hx : |x| ≤ b) (hb : b ≤ greatest) : InRange x := by
  obtain ⟨hlo, hhi⟩ := abs_le.mp (hx.trans hb)
  exact ⟨le_trans (by decide) hlo, hhi⟩

theorem foldlM_ofInt_eq_ok {α : Type} (f : α → Int) (xs : List α) (acc : Int)
    (hf : ∀ x ∈ xs, 0 ≤ f x) (hacc : 0 ≤ acc) (hend : acc + (xs.map f).sum ≤ greatest) :
    xs.foldlM (fun acc x => ofInt (acc + f x)) acc = .ok (acc + (xs.map f).sum) := by
  induction xs generalizing acc with
  | nil => simp
  | cons x xs ih =>
      have hx := hf x List.mem_cons_self
      have hxs := fun y hy => hf y (List.mem_cons_of_mem x hy)
      have hrest : 0 ≤ (xs.map f).sum := List.sum_nonneg (by simpa using hxs)
      rw [List.map_cons, List.sum_cons, ← add_assoc] at hend ⊢
      rw [List.foldlM_cons, ofInt_of_inRange (inRange_of_nonneg (by omega) (by omega)), ok_bind]
      exact ih _ hxs (by omega) hend

theorem sum_eq_ok {xs : List Int} (hpos : ∀ x ∈ xs, 0 ≤ x) (hend : xs.sum ≤ greatest) :
    sum xs = .ok xs.sum := by
  simpa [sum] using foldlM_ofInt_eq_ok id xs 0 hpos le_rfl (by simpa using hend)

end Amount

namespace Problem

def costAt (p : Problem) (row col : Nat) : Int := p.costs.getD (row * p.cols + col) 0

def supplyAt (p : Problem) (row : Nat) : Int := p.supply.getD row 0

def demandAt (p : Problem) (col : Nat) : Int := p.demand.getD col 0

def greatestCost (p : Problem) : Int := p.costs.foldl max 0

/-- A problem whose data is complete, balanced and small enough. -/
structure Sound (p : Problem) : Prop where
  rows_pos : 0 < p.rows
  cols_pos : 0 < p.cols
  length_costs : p.costs.length = p.rows * p.cols
  length_supply : p.supply.length = p.rows
  length_demand : p.demand.length = p.cols
  cost_nonneg : ∀ c ∈ p.costs, 0 ≤ c
  supply_pos : ∀ s ∈ p.supply, 0 < s
  demand_pos : ∀ d ∈ p.demand, 0 < d
  sum_supply : p.supply.sum = p.total
  sum_demand : p.demand.sum = p.total
  total_le : p.total ≤ Amount.greatest
  span_le : 2 * ((p.rows : Int) + p.cols) + 1 ≤ Amount.greatest
  objective_le : p.total * p.greatestCost ≤ Amount.greatest
  potentials_le : p.greatestCost * (2 * ((p.rows : Int) + p.cols) + 1) ≤ Amount.greatest

theorem greatestCost_nonneg (p : Problem) : 0 ≤ p.greatestCost :=
  (foldl_max_spec p.costs 0).2 0 List.mem_cons_self

theorem sound_of_ofTable {costs : List (List Int)} {supply demand : List Int} {p : Problem}
    (hp : ofTable costs supply demand = .ok p) : p.Sound := by
  obtain ⟨hdefect, rfl⟩ := ofTable_eq_ok_iff.mp hp
  obtain ⟨⟨h, -⟩, hspan⟩ := defect?_eq_none_iff.mp hdefect
  obtain ⟨C, hC, hobjective, hpotentials⟩ := h.room
  obtain rfl := hC.eq_maxCost h.cost_nonneg
  exact {
    rows_pos := List.length_pos_of_ne_nil h.supply_ne
    cols_pos := List.length_pos_of_ne_nil h.demand_ne
    length_costs := by rw [length_flatten_of_forall h.length_row, h.length_costs]
    length_supply := rfl
    length_demand := rfl
    cost_nonneg := by
      intro c hc
      obtain ⟨row, hrow, hc⟩ := List.mem_flatten.mp hc
      exact h.cost_nonneg row hrow c hc
    supply_pos := fun s hs => zero_lt_one.trans_le (h.supply_pos s hs)
    demand_pos := fun d hd => zero_lt_one.trans_le (h.demand_pos d hd)
    sum_supply := (Amount.total_eq_sum supply).symm
    sum_demand := by rw [Amount.total_eq_sum, h.sum_eq]
    total_le := by
      rw [Amount.total_eq_sum]
      exact h.sum_le
    span_le := hspan
    objective_le := by
      rw [Amount.total_eq_sum]
      exact hobjective
    potentials_le := hpotentials }

theorem LargestCost.greatestCost_eq {costs : List (List Int)} {supply demand : List Int}
    {p : Problem} {C : Int} (hC : LargestCost costs C)
    (hp : ofTable costs supply demand = .ok p) : p.greatestCost = C := by
  obtain ⟨hdefect, rfl⟩ := ofTable_eq_ok_iff.mp hp
  exact (hC.eq_maxCost (defect?_eq_none_iff.mp hdefect).1.1.cost_nonneg).symm

namespace Sound

variable {p : Problem} {i j : Nat}

theorem position_lt (h : p.Sound) (hi : i < p.rows) (hj : j < p.cols) :
    i * p.cols + j < p.costs.length := by
  rw [h.length_costs]
  exact Transportation.position_lt hi hj

theorem cost_eq_ok (h : p.Sound) (hi : i < p.rows) (hj : j < p.cols) :
    p.cost i j = .ok (p.costAt i j) :=
  entry_getD _ (h.position_lt hi hj)

theorem costAt_nonneg (h : p.Sound) (hi : i < p.rows) (hj : j < p.cols) : 0 ≤ p.costAt i j := by
  rw [costAt, List.getD_eq_getElem _ _ (h.position_lt hi hj)]
  exact h.cost_nonneg _ (List.getElem_mem _)

theorem costAt_le (h : p.Sound) (hi : i < p.rows) (hj : j < p.cols) :
    p.costAt i j ≤ p.greatestCost := by
  rw [costAt, List.getD_eq_getElem _ _ (h.position_lt hi hj)]
  exact (foldl_max_spec p.costs 0).2 _ (List.mem_cons_of_mem 0 (List.getElem_mem _))

theorem rows_le (h : p.Sound) : p.rows ≤ Count.greatest := by
  have := h.span_le
  simp only [Amount.greatest, Count.greatest] at this ⊢
  omega

theorem supplyAt_pos (h : p.Sound) (hi : i < p.rows) : 0 < p.supplyAt i := by
  rw [← h.length_supply] at hi
  rw [supplyAt, List.getD_eq_getElem _ _ hi]
  exact h.supply_pos _ (List.getElem_mem hi)

theorem demandAt_pos (h : p.Sound) (hj : j < p.cols) : 0 < p.demandAt j := by
  rw [← h.length_demand] at hj
  rw [demandAt, List.getD_eq_getElem _ _ hj]
  exact h.demand_pos _ (List.getElem_mem hj)

theorem sum_supplyAt (h : p.Sound) : ∑ i ∈ Finset.range p.rows, p.supplyAt i = p.total := by
  rw [← h.sum_supply, ← h.length_supply, ← List.map_id p.supply, sum_map_eq_sum_range _ 0]
  simp [supplyAt]

theorem sum_demandAt (h : p.Sound) : ∑ j ∈ Finset.range p.cols, p.demandAt j = p.total := by
  rw [← h.sum_demand, ← h.length_demand, ← List.map_id p.demand, sum_map_eq_sum_range _ 0]
  simp [demandAt]

end Sound

end Problem

end Transportation
