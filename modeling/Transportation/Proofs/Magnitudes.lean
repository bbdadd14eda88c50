import Transportation.Proofs.ExactPotentials
import Transportation.Proofs.Offers
/-!
# Magnitudes

An accepted problem leaves room for all numbers of a solve. On any basis, also one with cycles or
apart, no search computes a value above the largest cost times the number of sources and sinks, and
its potentials leave room for every opportunity cost. Where each source ships what it has, the sums
over rows, columns and the whole table stay within their range from the first term to the last.
-/
namespace Transportation

/-- The sums over the rows, the columns and the costs of a grid are exact, and none of them leaves
the range on the way. -/
structure Grid.Summable (g : Grid) (p : Problem) : Prop where
  row : ∀ i, i < p.rows → g.shippedFrom i = .ok (∑ j ∈ Finset.range p.cols, g.amount i j)
  row_part : ∀ i k, i < p.rows → k ≤ p.cols →
    Amount.InRange (∑ j ∈ Finset.range k, g.amount i j)
  col : ∀ j, j < p.cols → g.shippedTo j = .ok (∑ i ∈ Finset.range p.rows, g.amount i j)
  col_part : ∀ j k, j < p.cols → k ≤ p.rows →
    Amount.InRange (∑ i ∈ Finset.range k, g.amount i j)
  cost : g.totalCost p = .ok (∑ i ∈ Finset.range p.rows, ∑ j ∈ Finset.range p.cols,
    g.amount i j * p.costAt i j)
  cost_cell : ∀ s ∈ g.shipments, Amount.InRange (s.amount * p.costAt s.row s.col)
  cost_part : ∀ done rest, g.shipments = done ++ rest →
    Amount.InRange (done.map fun s => s.amount * p.costAt s.row s.col).sum

section Sums

variable {p : Problem} {g : Grid}

private theorem inRange_sum_range {f : Nat → Int} {n k : Nat} (hf : ∀ i, i < n → 0 ≤ f i)
    (hk : k ≤ n) (hsum : ∑ i ∈ Finset.range n, f i ≤ Amount.greatest) :
    Amount.InRange (∑ i ∈ Finset.range k, f i) := by
  have hnonneg : ∀ i ∈ Finset.range n, 0 ≤ f i := fun i hi => hf i (Finset.mem_range.mp hi)
  have hsub : Finset.range k ⊆ Finset.range n := Finset.range_subset_range.mpr hk
  refine Amount.inRange_of_nonneg (Finset.sum_nonneg fun i hi => hnonneg i (hsub hi)) ?_
  exact (Finset.sum_le_sum_of_subset_of_nonneg hsub fun i hi _ => hnonneg i hi).trans hsum

theorem Grid.Supplied.summable (h : g.Supplied p) (hp : p.Sound) (hfit : g.Fits p)
    (hreg : g.Regular) : g.Summable p where
  row i hi := by rw [h.shippedFrom_eq_ok hp hfit hreg hi, h.sum_row i hi]
  row_part i k hi hk := by
    refine inRange_sum_range (fun j hj => h.nonneg i j hi hj) hk ?_
    rw [h.sum_row i hi]
    exact (Grid.supplyAt_le_total hp hi).trans hp.total_le
  col j hj := h.shippedTo_eq_ok hp hfit hreg hj
  col_part j k hj hk := inRange_sum_range (fun i hi => h.nonneg i j hi hj) hk
    ((h.sum_col_le hp hj).trans hp.total_le)
  cost := by rw [h.totalCost_eq_ok hp hfit hreg, Grid.objective_eq hfit]
  cost_cell s hs := by
    obtain ⟨hnonneg, hle⟩ := h.shipment_cost hp hfit hreg hs
    exact Amount.inRange_of_nonneg hnonneg hle
  cost_part done rest hsplit := by
    have hterm : ∀ s ∈ done ++ rest, 0 ≤ s.amount * p.costAt s.row s.col := fun s hs =>
      (h.shipment_cost hp hfit hreg (hsplit ▸ hs)).1
    have hsum := hreg.sum_shipments p.costAt
    rw [hsplit, List.map_append, List.sum_append] at hsum
    have hdone : 0 ≤ (done.map fun s => s.amount * p.costAt s.row s.col).sum :=
      List.sum_nonneg (List.forall_mem_map.mpr fun s hs => hterm s (List.mem_append_left rest hs))
    have hrest : 0 ≤ (rest.map fun s => s.amount * p.costAt s.row s.col).sum :=
      List.sum_nonneg (List.forall_mem_map.mpr fun s hs => hterm s (List.mem_append_right done hs))
    refine Amount.inRange_of_nonneg hdone (le_trans ?_ (h.objective_le hp hfit))
    rw [Grid.objective]
    omega

end Sums

namespace Potentials

def scanOffers (p : Problem) (g : Grid) : List Valued :=
  let start := PartialPotentials.seed p
  PartialPotentials.offersInScans p g.shipments (start.unknowns + 1) start

def breadthFirstOffers (p : Problem) (g : Grid) : List Valued :=
  let start := PartialPotentials.seed p
  PartialPotentials.offersInSpread p g (start.unknowns + 2) start [.source 0]

def levelwiseOffers (p : Problem) (g : Grid) : List Valued :=
  let start := PartialPotentials.seed p
  PartialPotentials.offersInLevels p g (start.unknowns + 2) start [⟨.source 0, 0⟩]

section Search

variable {p : Problem} {g : Grid}

theorem inSpan_offers (hp : p.Sound) (hfit : g.Fits p) (hreg : g.Regular) :
    ∀ v ∈ scanOffers p g ++ breadthFirstOffers p g ++ levelwiseOffers p g,
      PartialPotentials.InSpan p v := by
  have hseed := PartialPotentials.found_seed hp g
  have hstored : (PartialPotentials.seed p).Stored [⟨.source 0, 0⟩] := fun v hv => by
    rw [List.mem_singleton.mp hv, hseed.first]
  intro v hv
  rcases List.mem_append.mp hv with hv | hv
  · rcases List.mem_append.mp hv with hv | hv
    · exact PartialPotentials.inSpan_scans hp hfit hreg _ hseed v hv
    · refine PartialPotentials.inSpan_spread hp hfit hreg _ _ hseed (fun n hn => ?_) v hv
      rw [List.mem_singleton.mp hn, hseed.first]
      simp
  · exact PartialPotentials.inSpan_levels hp hfit hreg _ _ hseed hstored v hv

/-- On any basis of an accepted problem no search offers more than the largest cost for each source
and sink, and the potentials it returns join to an opportunity cost in every cell. A grid that ships
the supplies is summed up without leaving the range. -/
theorem magnitudes_suffice {costs : List (List Int)} {supply demand : List Int} {C : Int}
    (hp : Problem.ofTable costs supply demand = .ok p) (hC : Problem.LargestCost costs C)
    (hfit : g.Fits p) (hreg : g.Regular) :
    (∀ v ∈ scanOffers p g ++ breadthFirstOffers p g ++ levelwiseOffers p g,
      |v.value| ≤ ((p.rows : Int) + p.cols) * C ∧ Amount.InRange v.value) ∧
    (∀ result ∈ [scan p g, breadthFirst p g, levelwise p g],
      (∀ failure, result = .error failure → failure = .disconnectedBasis) ∧
      ∀ values, result = .ok values → ∀ i j, i < p.rows → j < p.cols →
        Amount.InRange (values.u.getD i 0 + values.v.getD j 0) ∧
        Amount.InRange (p.costAt i j - (values.u.getD i 0 + values.v.getD j 0)) ∧
        values.opportunityCost p i j =
          .ok (p.costAt i j - (values.u.getD i 0 + values.v.getD j 0))) ∧
    (g.Supplied p → g.Summable p) := by
  have hsound := Problem.sound_of_ofTable hp
  have hgreatest := hC.greatestCost_eq hp
  refine ⟨fun v hv => ?_, fun result hresult => ?_, fun h => h.summable hsound hfit hreg⟩
  · rw [← hgreatest]
    exact inSpan_offers hsound hfit hreg v hv
  · have hexhausts : Exhausts p g result := by
      simp only [List.mem_cons, List.not_mem_nil, or_false] at hresult
      rcases hresult with rfl | rfl | rfl
      · exact exhausts_scan hsound hfit hreg
      · exact exhausts_breadthFirst hsound hfit hreg
      · exact exhausts_levelwise hsound hfit hreg
    refine ⟨fun failure hfailure => hexhausts.eq_disconnected hfailure,
      fun values hvalues i j hi hj => ?_⟩
    obtain ⟨f, rfl, hbound⟩ := hexhausts.exists_of_eq_ok hvalues
    obtain ⟨hu, hv⟩ := getD_ofValues f hi hj
    obtain ⟨hends, hcost⟩ :=
      inRange_reducedCost hsound hi hj (hbound (.source i) hi) (hbound (.sink j) hj)
    rw [hu, hv]
    exact ⟨hends, hcost, opportunityCost_ofValues hsound hi hj hends hcost⟩

/-- Two cells of the largest cost that is accepted here: nine times it is at most `2 ^ 63 - 1`. -/
def steep : Problem :=
  ⟨2, 2, [1024819115206086200, 0, 0, 1024819115206086200], [1, 1], [1, 1], 2⟩

/-- On a ring the two sinks offer the second source the largest cost and its negative. The second
offer is not accepted, but within the range as well. -/
theorem magnitudes_suffice_steep :
    (levelwiseOffers steep ⟨2, 2, [.basic 1, .basic 0, .basic 0, .basic 1], 4⟩).map Valued.value =
      [1024819115206086200, 0, -1024819115206086200, 1024819115206086200] ∧
    (∀ v ∈ levelwiseOffers steep ⟨2, 2, [.basic 1, .basic 0, .basic 0, .basic 1], 4⟩,
      |v.value| ≤ 4 * 1024819115206086200) ∧
    Grid.Summable ⟨2, 2, [.basic 1, .basic 0, .basic 0, .basic 1], 4⟩ steep := by
  have haccepted : Problem.ofTable [[1024819115206086200, 0], [0, 1024819115206086200]]
      [1, 1] [1, 1] = .ok steep := by decide
  have hlargest : Problem.LargestCost [[1024819115206086200, 0], [0, 1024819115206086200]]
      1024819115206086200 := by decide
  obtain ⟨hoffers, -, hsums⟩ := magnitudes_suffice haccepted hlargest
    (g := ⟨2, 2, [.basic 1, .basic 0, .basic 0, .basic 1], 4⟩) ⟨rfl, rfl⟩ ⟨rfl, rfl⟩
  refine ⟨by decide +kernel, fun v hv => ?_, hsums ⟨?_, ?_⟩⟩
  · exact (hoffers v (List.mem_append_right _ hv)).1
  · have hnonneg : ∀ i < 2, ∀ j < 2,
        0 ≤ (Grid.mk 2 2 [.basic 1, .basic 0, .basic 0, .basic 1] 4).amount i j := by decide
    exact fun i j hi hj => hnonneg i hi j hj
  · have hrows : ∀ i < 2, ∑ j ∈ Finset.range 2,
        (Grid.mk 2 2 [.basic 1, .basic 0, .basic 0, .basic 1] 4).amount i j =
          steep.supplyAt i := by decide
    exact hrows

end Search

end Potentials

end Transportation
