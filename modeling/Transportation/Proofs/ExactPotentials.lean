import Transportation.Proofs.Reachable
/-!
# Exact potentials

On any grid of the shape of its problem a search for potentials ends by itself. It fails exactly if
the basic cells do not connect every source and sink. On a spanning tree the searches find the same
values, the only ones that are zero at the first source and add up to the cost of each basic cell.
-/
namespace Transportation

namespace Potentials

/-- Values of the sources and sinks that add up to the cost of each basic cell, from zero at the
first source. -/
structure AddUp (values : Potentials) (p : Problem) (g : Grid) : Prop where
  length_u : values.u.length = p.rows
  length_v : values.v.length = p.cols
  first : values.u.getD 0 0 = 0
  basic_eq : ∀ i j, i < p.rows → j < p.cols → (g.cell i j).isBasic = true →
    values.u.getD i 0 + values.v.getD j 0 = p.costAt i j

def valueAt (values : Potentials) : Node → Int
  | .source i => values.u.getD i 0
  | .sink j => values.v.getD j 0

section AddUp

variable {p : Problem} {g : Grid} {values : Potentials} {f : Node → Int}

theorem ofValues_valueAt (hu : values.u.length = p.rows) (hv : values.v.length = p.cols) :
    ofValues p values.valueAt = values := by
  rw [ofValues, ← hu, ← hv]
  simp only [valueAt, map_getD_range]

theorem AddUp.ofValues_valueAt (h : values.AddUp p g) : ofValues p values.valueAt = values :=
  Potentials.ofValues_valueAt h.length_u h.length_v

theorem AddUp.prices (h : values.AddUp p g) (hfit : g.Fits p) : Prices p g values.valueAt where
  first := h.first
  cell c hc := by
    obtain ⟨hi, hj, hbasic⟩ := Grid.mem_basis.mp hc
    exact h.basic_eq c.1 c.2 (hfit.1 ▸ hi) (hfit.2 ▸ hj) hbasic

theorem addUp_ofValues (h : Prices p g f) (hp : p.Sound) (hfit : g.Fits p) :
    (ofValues p f).AddUp p g where
  length_u := by simp [ofValues]
  length_v := by simp [ofValues]
  first := by simpa [ofValues, hp.rows_pos] using h.first
  basic_eq i j hi hj hbasic := by
    have hmem : (i, j) ∈ g.basis :=
      Grid.mem_basis.mpr ⟨hfit.1.symm ▸ hi, hfit.2.symm ▸ hj, hbasic⟩
    simpa [ofValues, hi, hj] using h.cell (i, j) hmem

end AddUp

section Search

variable {p : Problem} {g : Grid}

theorem exhausts_compute (hp : p.Sound) (hfit : g.Fits p) (hreg : g.Regular)
    (method : PotentialMethod) : Exhausts p g (compute method p g) := by
  cases method with
  | scan => exact exhausts_scan hp hfit hreg
  | breadthFirst => exact exhausts_breadthFirst hp hfit hreg

/-- The searches end by themselves, fail exactly on a basis that is not connected, and agree with
the equations on a spanning tree. -/
theorem searches_exact {costs : List (List Int)} {supply demand : List Int}
    (hp : Problem.ofTable costs supply demand = .ok p) (hfit : g.Fits p) (hreg : g.Regular) :
    (∃ s, PartialPotentials.ScansTo p g.shipments (.seed p) s ∧ scan p g = s.complete) ∧
    (∃ s, PartialPotentials.SpreadsTo p g (.seed p) [.source 0] s ∧
      breadthFirst p g = s.complete) ∧
    (∀ method, (compute method p g = .error .disconnectedBasis ↔ ¬ g.graph.Connected) ∧
      (g.graph.Connected → ∃ values, compute method p g = .ok values)) ∧
    (g.graph.IsTree → ∃ values, scan p g = .ok values ∧ breadthFirst p g = .ok values ∧
      ∀ other : Potentials, other.AddUp p g ↔ other = values) := by
  have hsound := Problem.sound_of_ofTable hp
  refine ⟨?_, ?_, fun method => ?_, fun htree => ?_⟩
  · obtain ⟨s, hscans, hs, -⟩ := scan_ends hsound hfit hreg
    exact ⟨s, hscans, hs⟩
  · obtain ⟨s, hspreads, hs, -⟩ := breadthFirst_ends hsound hfit hreg
    exact ⟨s, hspreads, hs⟩
  · have hexhausts := exhausts_compute hsound hfit hreg method
    rw [Grid.connected_graph_iff hsound hfit]
    exact ⟨hexhausts.eq_error_iff hsound, hexhausts.exists_eq_ok hsound⟩
  · have hspans := (Grid.connected_graph_iff hsound hfit).mp htree.connected
    have hforest : Forest g.basis := forest_of_isAcyclic g.basis_subset htree.isAcyclic
    obtain ⟨f, hf⟩ := hforest.exists_prices p
    have hscan := exhausts_scan hsound hfit hreg
    refine ⟨ofValues p f, hscan.eq_ok_of_spans hsound hspans hf,
      (exhausts_breadthFirst hsound hfit hreg).eq_ok_of_spans hsound hspans hf, fun other => ?_⟩
    constructor
    · intro hother
      have hresult := hscan.eq_ok_of_spans hsound hspans (hother.prices hfit)
      rw [hscan.eq_ok_of_spans hsound hspans hf, hother.ofValues_valueAt] at hresult
      exact (Except.ok.inj hresult).symm
    · rintro rfl
      exact addUp_ofValues hf hsound hfit

theorem searches_exact_crossed :
    ¬ (Grid.mk 2 2 [.basic 1, .vacant, .vacant, .basic 1] 2).graph.Connected ∧
    crossedStart.grid.graph.IsTree ∧
    ∀ other : Potentials, other.AddUp crossed crossedStart.grid ↔ other = ⟨[0, -1], [1, 2]⟩ := by
  have hapart := searches_exact (g := ⟨2, 2, [.basic 1, .vacant, .vacant, .basic 1], 2⟩)
    ofTable_crossed ⟨rfl, rfl⟩ ⟨rfl, rfl⟩
  obtain ⟨values, hscan, -, hunique⟩ :=
    (searches_exact ofTable_crossed ⟨rfl, rfl⟩ ⟨rfl, rfl⟩).2.2.2 basicPlan_crossed.tree
  cases hscan.symm.trans (show scan crossed crossedStart.grid = .ok ⟨[0, -1], [1, 2]⟩ by
    decide +kernel)
  exact ⟨(hapart.2.2.1 .scan).1.mp (by decide +kernel), basicPlan_crossed.tree, hunique⟩

end Search

end Potentials

end Transportation
