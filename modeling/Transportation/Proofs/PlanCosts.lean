import Transportation.Proofs.Plans
/-!
# The cost of a plan

A plan may come from outside, with rows of any number and lengths. Its cost is a sum over the rows
and columns of the problem, to which surplus entries add nothing, and missing ones neither. If a
cost is found it is exact, and without negative amounts none is found only if the sum itself is too
large. The plan of a grid costs what the grid costs.
-/
namespace Transportation

namespace Problem

def exactCost (p : Problem) (plan : List (List Int)) : Int :=
  ∑ i ∈ Finset.range p.rows, ∑ j ∈ Finset.range p.cols, (plan.getD i []).getD j 0 * p.costAt i j

private def addTerm (acc : Int) (term : Int × Int) : Option Int :=
  (Amount.ofInt? (term.1 * term.2)).bind fun x => Amount.ofInt? (x + acc)

private def planTerms (p : Problem) (plan : List (List Int)) : List (Int × Int) :=
  (plan.take p.rows).zipIdx.flatMap fun (row, i) => (row.take p.cols).zip (p.costRow i)

section Terms

variable {terms : List (Int × Int)} {acc s : Int}

private theorem addTerm_eq_some_iff {t : Int × Int} : addTerm acc t = some s ↔
    Amount.InRange (t.1 * t.2) ∧ Amount.InRange (t.1 * t.2 + acc) ∧ t.1 * t.2 + acc = s := by
  simp [addTerm, Option.bind_eq_some_iff, Amount.ofInt?_eq_some_iff]

private theorem eq_of_foldlM_addTerm (h : terms.foldlM addTerm acc = some s) :
    s = acc + (terms.map fun t => t.1 * t.2).sum := by
  induction terms generalizing acc with
  | nil =>
      cases h
      simp
  | cons t terms ih =>
      rw [List.foldlM_cons] at h
      obtain ⟨next, hnext, hrest⟩ := Option.bind_eq_some_iff.mp h
      obtain ⟨-, -, rfl⟩ := addTerm_eq_some_iff.mp hnext
      rw [ih hrest, List.map_cons, List.sum_cons]
      ring

private theorem foldlM_addTerm_eq_ite (hterms : ∀ t ∈ terms, 0 ≤ t.1 * t.2) (hacc : 0 ≤ acc)
    (hle : acc ≤ Amount.greatest) : terms.foldlM addTerm acc =
      if acc + (terms.map fun t => t.1 * t.2).sum ≤ Amount.greatest then
        some (acc + (terms.map fun t => t.1 * t.2).sum)
      else none := by
  induction terms generalizing acc with
  | nil => simp [hle]
  | cons t terms ih =>
      obtain ⟨ht, hrest⟩ := List.forall_mem_cons.mp hterms
      have hsum : 0 ≤ (terms.map fun t => t.1 * t.2).sum :=
        List.sum_nonneg (List.forall_mem_map.mpr hrest)
      rw [List.foldlM_cons, List.map_cons, List.sum_cons, ← add_assoc]
      by_cases hnext : acc + t.1 * t.2 ≤ Amount.greatest
      · have hstep : addTerm acc t = some (acc + t.1 * t.2) :=
          addTerm_eq_some_iff.mpr ⟨Amount.inRange_of_nonneg ht (by omega),
            Amount.inRange_of_nonneg (by omega) (by omega), add_comm _ _⟩
        rw [hstep]
        exact ih hrest (by omega) hnext
      · have hstep : addTerm acc t = none := by
          rw [Option.eq_none_iff_forall_ne_some]
          intro next hnext'
          obtain ⟨-, hrange, -⟩ := addTerm_eq_some_iff.mp hnext'
          exact hnext (add_comm acc _ ▸ hrange.2)
        rw [hstep, if_neg (by omega)]
        rfl

end Terms

private theorem sum_zip_range (xs : List Int) (n : Nat) (f : Nat → Int) :
    (((xs.take n).zip ((List.range n).map f)).map fun t => t.1 * t.2).sum =
      ∑ j ∈ Finset.range n, xs.getD j 0 * f j := by
  induction xs generalizing n f with
  | nil => simp
  | cons x xs ih =>
      cases n with
      | zero => simp
      | succ n =>
          rw [List.range_succ_eq_map, List.map_cons, List.map_map, List.take_succ_cons,
            List.zip_cons_cons, List.map_cons, List.sum_cons, ih, Finset.sum_range_succ',
            add_comm]
          simp

private theorem sum_flatMap_zipIdx (rows : List (List Int)) (m k : Nat)
    (terms : List Int → Nat → List (Int × Int)) (hnil : ∀ i, terms [] i = []) :
    ((((rows.take m).zipIdx k).flatMap fun (row, i) => terms row i).map fun t => t.1 * t.2).sum =
      ∑ i ∈ Finset.range m, ((terms (rows.getD i []) (k + i)).map fun t => t.1 * t.2).sum := by
  induction rows generalizing m k with
  | nil => simp [hnil]
  | cons row rows ih =>
      cases m with
      | zero => simp
      | succ m =>
          rw [List.take_succ_cons, List.zipIdx_cons, List.flatMap_cons, List.map_append,
            List.sum_append, ih, Finset.sum_range_succ', add_comm]
          simp only [List.getD_cons_succ, List.getD_cons_zero, Nat.add_zero, Nat.add_assoc,
            Nat.add_comm 1]

theorem Sound.costRow_eq {p : Problem} (h : p.Sound) {i : Nat} (hi : i < p.rows) :
    p.costRow i = (List.range p.cols).map (p.costAt i) := by
  have hend : i * p.cols + p.cols ≤ p.costs.length := by
    rw [h.length_costs, ← Nat.add_one_mul]
    exact Nat.mul_le_mul_right _ hi
  apply List.ext_getElem
  · simp [costRow]
    omega
  · intro k hk hk'
    have hcol : k < p.cols := by simpa using hk'
    have hlt := h.position_lt hi hcol
    have hget : p.costAt i k = p.costs[i * p.cols + k] := List.getD_eq_getElem _ _ hlt
    simp [costRow, hget]

private theorem Sound.sum_planTerms {p : Problem} (h : p.Sound) (plan : List (List Int)) :
    ((p.planTerms plan).map fun t => t.1 * t.2).sum = p.exactCost plan := by
  rw [planTerms, sum_flatMap_zipIdx plan p.rows 0 (fun row i => (row.take p.cols).zip (p.costRow i))
    (by simp), exactCost]
  apply Finset.sum_congr rfl
  intro i hi
  rw [Nat.zero_add, h.costRow_eq (Finset.mem_range.mp hi), sum_zip_range]

section Cost

variable {p : Problem} {plan : List (List Int)}

private theorem planCost_eq (p : Problem) (plan : List (List Int)) :
    p.planCost plan = Amount.orTooLarge ((p.planTerms plan).foldlM addTerm 0) := rfl

private theorem Sound.planTerms_nonneg (h : p.Sound)
    (hplan : ∀ i j, i < p.rows → j < p.cols → 0 ≤ (plan.getD i []).getD j 0) :
    ∀ t ∈ p.planTerms plan, 0 ≤ t.1 * t.2 := by
  intro t ht
  simp only [planTerms, List.mem_flatMap, Prod.exists, List.mem_zipIdx_iff_getElem?] at ht
  obtain ⟨row, i, hrow, hzip⟩ := ht
  obtain ⟨hi, hget⟩ := List.getElem?_eq_some_iff.mp hrow
  have hi' : i < p.rows ∧ i < plan.length := by simpa using hi
  rw [h.costRow_eq hi'.1] at hzip
  obtain ⟨j, hj, rfl⟩ := List.mem_iff_getElem.mp hzip
  have hj' : j < p.cols ∧ j < row.length := by simpa [and_comm, and_assoc] using hj
  have hx := hplan i j hi'.1 hj'.1
  have hrow' : plan.getD i [] = row := by
    rw [List.getD_eq_getElem _ _ hi'.2, ← hget]
    simp
  rw [hrow', List.getD_eq_getElem _ _ hj'.2] at hx
  simpa using mul_nonneg hx (h.costAt_nonneg hi'.1 hj'.1)

theorem planCost_cases (p : Problem) (plan : List (List Int)) :
    (∃ s, p.planCost plan = .ok s) ∨ p.planCost plan = .error .tooLarge := by
  rw [planCost_eq]
  cases (p.planTerms plan).foldlM addTerm 0 with
  | none => exact .inr rfl
  | some s => exact .inl ⟨s, rfl⟩

/-- A cost that is found is exact, whatever the signs of the amounts. -/
theorem Sound.eq_exactCost (h : p.Sound) {s : Int} (hs : p.planCost plan = .ok s) :
    s = p.exactCost plan := by
  rw [planCost_eq] at hs
  cases hfold : (p.planTerms plan).foldlM addTerm 0 with
  | none =>
      rw [hfold] at hs
      cases hs
  | some total =>
      rw [hfold] at hs
      cases hs
      rw [eq_of_foldlM_addTerm hfold, zero_add, h.sum_planTerms]

/-- Without negative amounts the cost is found unless it is too large. -/
theorem Sound.planCost_eq_ite (h : p.Sound)
    (hplan : ∀ i j, i < p.rows → j < p.cols → 0 ≤ (plan.getD i []).getD j 0) :
    p.planCost plan = if p.exactCost plan ≤ Amount.greatest then .ok (p.exactCost plan)
      else .error .tooLarge := by
  have hfold := foldlM_addTerm_eq_ite (h.planTerms_nonneg hplan) le_rfl (by decide)
  rw [zero_add, h.sum_planTerms] at hfold
  rw [planCost_eq, hfold]
  split <;> rfl

end Cost

end Problem

namespace Grid

section Plan

variable {p : Problem} {g : Grid}

theorem planCost_eq_ok (hp : p.Sound) (hfit : g.Fits p)
    (hnonneg : ∀ i j, i < p.rows → j < p.cols → 0 ≤ g.amount i j)
    (hend : g.objective p ≤ Amount.greatest) :
    p.planCost ((List.range p.rows).map fun i => (List.range p.cols).map (g.amount i)) =
      .ok (g.objective p) := by
  have hentry : ∀ i j, i < p.rows → j < p.cols →
      (((List.range p.rows).map fun i => (List.range p.cols).map (g.amount i)).getD i []).getD j 0 =
        g.amount i j := by
    intro i j hi hj
    simp [hi, hj]
  have hexact : p.exactCost ((List.range p.rows).map fun i =>
      (List.range p.cols).map (g.amount i)) = g.objective p := by
    rw [objective_eq hfit]
    apply Finset.sum_congr rfl
    intro i hi
    apply Finset.sum_congr rfl
    intro j hj
    rw [hentry i j (Finset.mem_range.mp hi) (Finset.mem_range.mp hj)]
  rw [hp.planCost_eq_ite fun i j hi hj => hentry i j hi hj ▸ hnonneg i j hi hj, hexact, if_pos hend]

theorem Feasible.planCost_eq_ok (h : g.Feasible p) (hp : p.Sound) (hfit : g.Fits p) :
    p.planCost ((List.range p.rows).map fun i => (List.range p.cols).map (g.amount i)) =
      .ok (g.objective p) :=
  Grid.planCost_eq_ok hp hfit h.nonneg (h.objective_le hp hfit)

end Plan

end Grid

namespace Problem

/-- A cost that is found for a plan is exact: it counts the entries on the rows and columns of the
problem and no others. Without negative ones among these, the plan is refused if and only if its
exact cost is too large. The plan of a grid without negative amounts costs what the grid costs. -/
theorem planCost_exact {costs : List (List Int)} {supply demand : List Int} {p : Problem}
    (hp : ofTable costs supply demand = .ok p) (plan : List (List Int)) :
    (∀ s, p.planCost plan = .ok s → s = p.exactCost plan) ∧
    ((∀ i j, i < p.rows → j < p.cols → 0 ≤ (plan.getD i []).getD j 0) →
      (p.planCost plan = .error .tooLarge ↔ Amount.greatest < p.exactCost plan)) ∧
    (∀ failure, p.planCost plan = .error failure → failure = .tooLarge) ∧
    ∀ g : Grid, g.Fits p → g.Regular →
      (∀ i j, i < p.rows → j < p.cols → 0 ≤ g.amount i j) → g.objective p ≤ Amount.greatest →
      ∃ rows, g.toPlan = .ok rows ∧ p.planCost rows = g.totalCost p ∧
        g.totalCost p = .ok (g.objective p) := by
  have hsound := sound_of_ofTable hp
  refine ⟨fun s hs => hsound.eq_exactCost hs, fun hplan => ?_, fun failure hfailure => ?_,
    fun g hfit hreg hnonneg hend => ?_⟩
  · rw [hsound.planCost_eq_ite hplan]
    split
    · next hle => simpa using hle
    · next hlt => simpa using hlt
  · rcases planCost_cases p plan with ⟨s, hs⟩ | herror
    · rw [hs] at hfailure
      cases hfailure
    · exact (Except.error.inj (herror.symm.trans hfailure)).symm
  · have hrows := hreg.toPlan_eq_ok (hfit.1.symm ▸ hsound.rows_le)
    rw [hfit.1, hfit.2] at hrows
    have hcost := hreg.totalCost_eq_ok hsound hfit hnonneg hend
    exact ⟨_, hrows, (Grid.planCost_eq_ok hsound hfit hnonneg hend).trans hcost.symm, hcost⟩

def priced : Problem := ⟨2, 2, [2, 3, 4, 5], [1, 1], [1, 1], 2⟩

/-- A plan with a row too long, one too short and one too many, a plan that costs too much, and a
grid that ships more than there is. -/
theorem planCost_exact_ragged :
    ofTable [[2, 3], [4, 5]] [1, 1] [1, 1] = .ok priced ∧
    (priced.planCost [[7, -1, 99], [6], [5]] = .ok 35 ∧
      35 = priced.exactCost [[7, -1, 99], [6], [5]]) ∧
    priced.planCost [[0, Amount.greatest], []] = .error .tooLarge ∧
    ∃ rows, Grid.toPlan ⟨2, 2, [.basic 1, .vacant, .basic 0, .basic 6], 3⟩ = .ok rows ∧
      priced.planCost rows = .ok 32 := by
  have hp : ofTable [[2, 3], [4, 5]] [1, 1] [1, 1] = .ok priced := rfl
  have hragged : priced.planCost [[7, -1, 99], [6], [5]] = .ok 35 := by decide
  obtain ⟨-, hlarge, -, hgrid⟩ := planCost_exact hp [[0, Amount.greatest], []]
  have hplan : ∀ i < 2, ∀ j < 2,
      0 ≤ (([[0, Amount.greatest], []] : List (List Int)).getD i []).getD j 0 := by decide
  have hamounts : ∀ i < 2, ∀ j < 2,
      0 ≤ Grid.amount ⟨2, 2, [.basic 1, .vacant, .basic 0, .basic 6], 3⟩ i j := by decide
  obtain ⟨rows, hrows, hcost, -⟩ := hgrid _ (by decide) ⟨rfl, rfl⟩
    (fun i j hi hj => hamounts i hi j hj) (by decide)
  exact ⟨hp, ⟨hragged, (planCost_exact hp _).1 35 hragged⟩,
    (hlarge fun i j hi hj => hplan i hi j hj).mpr (by decide), rows, hrows,
    hcost.trans (by decide)⟩

end Problem

end Transportation
