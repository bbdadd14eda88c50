import Transportation.Proofs.ExactPotentials
import Transportation.Proofs.KeptResults
/-!
# Exact evaluations

An evaluation is exact on any grid and with any potentials, as long as no opportunity cost leaves
the range: it replaces the whole table, whatever that held, and its entering cell is the first
vacant cell in the order of cost, row and column.
-/
namespace Transportation

/-- Values for each source and each sink that leave room for the opportunity cost of every vacant
cell. -/
structure Potentials.InReach (values : Potentials) (p : Problem) (g : Grid) : Prop where
  length_u : values.u.length = p.rows
  length_v : values.v.length = p.cols
  inRange : ∀ i j, i < p.rows → j < p.cols → (g.cell i j).isBasic = false →
    Amount.InRange (values.u.getD i 0 + values.v.getD j 0) ∧
      Amount.InRange (p.costAt i j - (values.u.getD i 0 + values.v.getD j 0))

namespace OpportunityTable

variable {p : Problem} {g : Grid} {f : Node → Int}

private theorem mem_ofValues {delta : Int} (h : some delta ∈ (ofValues p g f).values) :
    ∃ i j, i < p.rows ∧ j < p.cols ∧ (g.cell i j).isBasic = false ∧
      delta = reducedCost p f i j := by
  obtain ⟨k, hk, hdelta⟩ := List.mem_map.mp h
  obtain ⟨hi, hj, -⟩ := place_of_position (List.mem_range.mp hk)
  rw [vacantCost] at hdelta
  split at hdelta
  · contradiction
  · next hvacant =>
      cases hdelta
      exact ⟨_, _, hi, hj, by simpa using hvacant, rfl⟩

theorem least?_ofValues (hp : p.Sound) (hfit : g.Fits p) {e : Entering}
    (he : (Evaluation.ofValues p g f).entering = some e) :
    (ofValues p g f).get e.row e.col = .ok (some e.delta) ∧
      (ofValues p g f).least? = some e.delta := by
  obtain ⟨⟨hi, hj⟩, hvacant, hdelta, -⟩ := Evaluation.entering_spec hp hfit he
  have hcell := (Grid.not_mem_basis_iff hfit hi hj).mp hvacant
  have hget : (ofValues p g f).get e.row e.col = .ok (some e.delta) := by
    rw [get_ofValues g f hi hj, hcell, hdelta]
    rfl
  refine ⟨hget, List.min?_eq_some_iff.mpr ⟨?_, fun delta hmem => ?_⟩⟩
  · exact List.mem_filterMap.mpr ⟨_, List.mem_of_getElem? (entry_eq_ok_iff.mp hget), rfl⟩
  · obtain ⟨value, hvalue, hsome⟩ := List.mem_filterMap.mp hmem
    rw [id_eq] at hsome
    rw [hsome] at hvalue
    obtain ⟨i, j, hi', hj', hvacant', rfl⟩ := mem_ofValues hvalue
    have hle := Evaluation.entering_le hp hfit he hi' hj'
      ((Grid.not_mem_basis_iff hfit hi' hj').mpr hvacant')
    omega

end OpportunityTable

namespace Evaluation

/-- An evaluation fills the whole table, reports an optimal plan exactly if no vacant cell has a
negative opportunity cost, and otherwise chooses the first vacant cell by cost, row and column. -/
theorem evaluate_exact {costs : List (List Int)} {supply demand : List Int} {p : Problem} {g : Grid}
    {values : Potentials} {table : OpportunityTable}
    (hp : Problem.ofTable costs supply demand = .ok p) (hfit : g.Fits p) (hreg : g.Regular)
    (hvalues : values.InReach p g) (htable : table.Sized p) :
    ∃ evaluation table', evaluate p g values table = .ok (evaluation, table') ∧
      table'.Fit p g values ∧
      (evaluation.optimal = true ↔ ∀ i j, i < p.rows → j < p.cols →
        (g.cell i j).isBasic = false → 0 ≤ reducedCost p values.valueAt i j) ∧
      (evaluation.optimal = false → ∃ e, evaluation.entering = some e ∧
        e.row < p.rows ∧ e.col < p.cols ∧ (g.cell e.row e.col).isBasic = false ∧
        e.delta = reducedCost p values.valueAt e.row e.col ∧
        table'.get e.row e.col = .ok (some e.delta) ∧ table'.least? = some e.delta ∧
        ∀ i j, i < p.rows → j < p.cols → (g.cell i j).isBasic = false →
          e.delta < reducedCost p values.valueAt i j ∨
            e.delta = reducedCost p values.valueAt i j ∧
              (e.row < i ∨ e.row = i ∧ e.col ≤ j)) := by
  have hsound := Problem.sound_of_ofTable hp
  have heq := Potentials.ofValues_valueAt hvalues.length_u hvalues.length_v
  have hreach : InReach p g values.valueAt := hvalues.inRange
  have hresult := hreach.evaluate_eq hsound hfit hreg htable
  have hfill := OpportunityTable.fit_ofValues p g values.valueAt
  rw [heq] at hresult hfill
  refine ⟨_, _, hresult, hfill, ?_, fun hnot => ?_⟩
  · rw [optimal_iff_vacant hsound hfit]
    refine forall₄_congr fun i j hi hj => ?_
    rw [Grid.not_mem_basis_iff hfit hi hj]
  · obtain ⟨e, he⟩ : ∃ e, (ofValues p g values.valueAt).entering = some e := by
      rw [optimal] at hnot
      exact Option.isSome_iff_exists.mp (by simpa using hnot)
    obtain ⟨⟨hi, hj⟩, hvacant, hdelta, -⟩ := entering_spec hsound hfit he
    obtain ⟨hget, hleast⟩ := OpportunityTable.least?_ofValues hsound hfit he
    refine ⟨e, he, hi, hj, (Grid.not_mem_basis_iff hfit hi hj).mp hvacant, hdelta, hget, hleast,
      fun i j hi' hj' hvacant' => ?_⟩
    exact entering_le hsound hfit he hi' hj' ((Grid.not_mem_basis_iff hfit hi' hj').mpr hvacant')

/-- Three vacant cells of one cost, in a table full of stale entries: the first one enters. -/
theorem evaluate_exact_tied :
    Potentials.InReach ⟨[5, 4], [0, -1]⟩ crossed
      ⟨2, 2, [.vacant, .vacant, .vacant, .basic 1], 1⟩ ∧
    ∃ table', evaluate crossed ⟨2, 2, [.vacant, .vacant, .vacant, .basic 1], 1⟩
        ⟨[5, 4], [0, -1]⟩ ⟨2, 2, [none, some (-7), some 5, some (-9)]⟩ =
        .ok (⟨some ⟨0, 0, -4⟩⟩, table') ∧
      table'.get 1 1 = .ok none ∧ table'.least? = some (-4) := by
  have hrange : ∀ i < 2, ∀ j < 2,
      Amount.InRange ([5, 4].getD i 0 + [0, -1].getD j 0) ∧
        Amount.InRange (crossed.costAt i j - ([5, 4].getD i 0 + [0, -1].getD j 0)) := by decide
  have hreach : Potentials.InReach ⟨[5, 4], [0, -1]⟩ crossed
      ⟨2, 2, [.vacant, .vacant, .vacant, .basic 1], 1⟩ :=
    ⟨rfl, rfl, fun i j hi hj _ => hrange i hi j hj⟩
  have htable : OpportunityTable.Sized ⟨2, 2, [none, some (-7), some 5, some (-9)]⟩ crossed :=
    ⟨rfl, rfl, rfl⟩
  obtain ⟨evaluation, table', hresult, hfill, -, hentering⟩ :=
    evaluate_exact ofTable_crossed ⟨rfl, rfl⟩ ⟨rfl, rfl⟩ hreach htable
  have hvalue : evaluate crossed ⟨2, 2, [.vacant, .vacant, .vacant, .basic 1], 1⟩
      ⟨[5, 4], [0, -1]⟩ ⟨2, 2, [none, some (-7), some 5, some (-9)]⟩ =
        .ok (⟨some ⟨0, 0, -4⟩⟩, ⟨2, 2, [some (-4), some (-4), some (-4), none]⟩) := by
    decide +kernel
  cases hvalue.symm.trans hresult
  obtain ⟨e, he, -, -, -, -, -, hleast, -⟩ := hentering rfl
  cases he
  exact ⟨hreach, _, hvalue, hfill.basic_eq 1 1 (by decide) (by decide) (by decide), hleast⟩

end Evaluation

end Transportation
