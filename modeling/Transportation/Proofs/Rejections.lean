import Transportation.Proofs.Acceptance
/-!
# Rejections

What a rejection says of the data: the numbers it carries are those of the data, and they show a
defect. One rejection shows none. Where there are more rows of costs than supplies the first row in
excess is reported by its width, and that width may be the right one.
-/
namespace Transportation

section FirstViolated

variable {failure : Failure}

/-- A violated requirement on the entries of a list is one on a single entry, and the entries before
it meet theirs. -/
theorem FirstViolated.exists_entry {α : Type} {xs : List α} {start : Nat}
    {requirementsOn : α × Nat → List Requirement}
    (h : FirstViolated ((xs.zipIdx start).flatMap requirementsOn) failure) :
    ∃ k x, xs[k]? = some x ∧ FirstViolated (requirementsOn (x, start + k)) failure ∧
      ∀ i < k, ∀ y, xs[i]? = some y → ∀ r ∈ requirementsOn (y, start + i), r.holds := by
  induction xs generalizing start with
  | nil => simp at h
  | cons x xs ih =>
      rw [List.zipIdx_cons, List.flatMap_cons, firstViolated_append_iff] at h
      rcases h with hx | ⟨hx, hrest⟩
      · exact ⟨0, x, rfl, hx, by simp⟩
      · obtain ⟨k, y, hk, hy, hbefore⟩ := ih hrest
        refine ⟨k + 1, y, by simpa using hk, ?_, fun i hi z hz => ?_⟩
        · rwa [Nat.add_comm k 1, ← Nat.add_assoc]
        · cases i with
          | zero =>
              obtain rfl : x = z := by simpa using hz
              exact hx
          | succ i =>
              have hholds := hbefore i (by omega) z (by simpa using hz)
              rwa [Nat.add_comm i 1, ← Nat.add_assoc]

end FirstViolated

namespace Problem

def FirstNonPositive (amounts : List Int) (k : Nat) (x : Int) : Prop :=
  amounts[k]? = some x ∧ x ≤ 0 ∧ ∀ i < k, ∀ y, amounts[i]? = some y → 0 < y

/-- The defect of the data that a failure stands for. A row that is missing has the width zero. A
breach stands for no defect but for a table of costs too large to be made. -/
inductive HasDefect (costs : List (List Int)) (supply demand : List Int) : Failure → Prop where
  | noParties (h : supply = [] ∨ demand = []) : HasDefect costs supply demand .noParties
  | rowWidth {i : Nat} (hi : i < supply.length) (h : (costs.getD i []).length ≠ demand.length) :
      HasDefect costs supply demand (.rowWidth i demand.length (costs.getD i []).length)
  | surplusRow (h : supply.length < costs.length) :
      HasDefect costs supply demand
        (.rowWidth supply.length demand.length (costs.getD supply.length []).length)
  | negativeCost {i j : Nat} {row : List Int} {c : Int} (hrow : costs[i]? = some row)
      (hcost : row[j]? = some c) (h : c < 0) : HasDefect costs supply demand (.negativeCost i j c)
  | nonPositiveSupply {i : Nat} {s : Int} (h : FirstNonPositive supply i s) :
      HasDefect costs supply demand (.nonPositiveSupply i s)
  | nonPositiveDemand {j : Nat} {d : Int} (h : FirstNonPositive demand j d) :
      HasDefect costs supply demand (.nonPositiveDemand j d)
  | imbalanced (h : supply.sum ≠ demand.sum) :
      HasDefect costs supply demand (.imbalanced supply.sum demand.sum)
  | tooLarge (h : ¬ (supply.sum ≤ Amount.greatest ∧ demand.sum ≤ Amount.greatest ∧
      2 * ((supply.length : Int) + demand.length) + 1 ≤ Amount.greatest ∧
      Room costs supply demand)) : HasDefect costs supply demand .tooLarge
  | oversized (h : Oversized costs supply demand) :
      HasDefect costs supply demand (.breach .overflow)

section Rejections

variable {costs : List (List Int)} {supply demand : List Int} {failure : Failure}

private theorem hasDefect_of_shape
    (h : FirstViolated (shapeRequirements costs supply demand) failure) :
    HasDefect costs supply demand failure := by
  simp only [shapeRequirements, firstViolated_cons_iff, not_firstViolated_nil, and_false,
    or_false] at h
  rcases h with ⟨hparties, rfl⟩ | ⟨⟨-, hdemand⟩, hlength, rfl⟩
  · exact .noParties (by simpa [or_iff_not_imp_left] using hparties)
  · rcases Nat.lt_or_gt_of_ne hlength with hless | hmore
    · rw [Nat.min_eq_left hless.le]
      have hmissing : (costs.getD costs.length []).length ≠ demand.length := by
        simpa [eq_comm] using hdemand
      exact .rowWidth hless hmissing
    · rw [Nat.min_eq_right hmore.le]
      exact .surplusRow hmore

private theorem hasDefect_of_rows (hlength : costs.length = supply.length)
    (h : FirstViolated (costs.zipIdx.flatMap fun e => rowRequirements demand.length e.2 e.1)
      failure) : HasDefect costs supply demand failure := by
  obtain ⟨i, row, hrow, hfirst, -⟩ := h.exists_entry
  rw [rowRequirements, firstViolated_cons_iff, Nat.zero_add] at hfirst
  rcases hfirst with ⟨hwidth, rfl⟩ | ⟨-, hentries⟩
  · have hget : costs.getD i [] = row := by simp [hrow]
    have hi : i < costs.length := (List.getElem?_eq_some_iff.mp hrow).1
    exact hget ▸ .rowWidth (hlength ▸ hi) (hget ▸ hwidth)
  · obtain ⟨j, c, hc, hfirst, -⟩ := hentries.exists_entry
    simp only [firstViolated_cons_iff, not_firstViolated_nil, and_false, or_false,
      Nat.zero_add] at hfirst
    obtain ⟨hneg, rfl⟩ := hfirst
    exact .negativeCost hrow hc (not_le.mp hneg)

private theorem exists_firstNonPositive {defect : Nat → Int → Failure} {amounts : List Int}
    (h : FirstViolated (amountRequirements defect amounts) failure) :
    ∃ k x, FirstNonPositive amounts k x ∧ failure = defect k x := by
  obtain ⟨k, x, hx, hfirst, hbefore⟩ := h.exists_entry
  simp only [firstViolated_cons_iff, not_firstViolated_nil, and_false, or_false,
    Nat.zero_add] at hfirst
  obtain ⟨hnonpos, rfl⟩ := hfirst
  refine ⟨k, x, ⟨hx, by omega, fun i hi y hy => ?_⟩, rfl⟩
  have := hbefore i hi y hy _ List.mem_cons_self
  omega

private theorem hasDefect_of_numbers (h : FirstViolated
    (totalRequirements supply demand ++ magnitudeRequirements costs supply demand) failure) :
    HasDefect costs supply demand failure := by
  simp only [totalRequirements, magnitudeRequirements, List.cons_append, List.nil_append,
    firstViolated_cons_iff, not_firstViolated_nil, and_false, or_false] at h
  rcases h with ⟨h, rfl⟩ | ⟨-, ⟨h, rfl⟩ | ⟨-, ⟨h, rfl⟩ | ⟨-, ⟨h, rfl⟩ | ⟨-, h, rfl⟩⟩⟩⟩
  · exact .tooLarge fun hall => h hall.1
  · exact .tooLarge fun hall => h hall.2.1
  · exact .imbalanced h
  · exact .tooLarge fun hall => h hall.2.2.1
  · exact .tooLarge fun hall => h hall.2.2.2

theorem hasDefect_of_firstViolated
    (h : FirstViolated (requirements costs supply demand) failure) :
    HasDefect costs supply demand failure := by
  rw [requirements, numberRequirements, firstViolated_append_iff, firstViolated_append_iff,
    firstViolated_append_iff, firstViolated_append_iff] at h
  rcases h with h | ⟨hshape, h | ⟨-, h | ⟨-, h | ⟨-, h⟩⟩⟩⟩
  · exact hasDefect_of_shape h
  · exact hasDefect_of_rows (holds_shape_iff.mp hshape).2 h
  · obtain ⟨i, s, hs, rfl⟩ := exists_firstNonPositive h
    exact .nonPositiveSupply hs
  · obtain ⟨j, d, hd, rfl⟩ := exists_firstNonPositive h
    exact .nonPositiveDemand hd
  · exact hasDefect_of_numbers h

theorem hasDefect_of_ofTable (h : ofTable costs supply demand = .error failure) :
    HasDefect costs supply demand failure := by
  rcases ofTable_eq_error_iff.mp h with ⟨hsize, rfl⟩ | ⟨-, hfirst⟩
  · exact .oversized hsize
  · exact hasDefect_of_firstViolated hfirst

private theorem parties_of_ofTable_error (h : ofTable costs supply demand = .error failure)
    (hne : failure ≠ .noParties) : supply ≠ [] ∧ demand ≠ [] := by
  rcases ofTable_eq_error_iff.mp h with ⟨hsize, -⟩ | ⟨-, hreported⟩
  · exact ⟨hsize.supply_ne, hsize.demand_ne⟩
  · by_contra hparties
    have hfirst : FirstViolated (requirements costs supply demand) .noParties := .here hparties
    exact hne (hreported.unique hfirst)

theorem ofTable_eq_surplusRow (hparties : supply ≠ [] ∧ demand ≠ [])
    (h : supply.length < costs.length) : ofTable costs supply demand =
      .error (.rowWidth supply.length demand.length (costs.getD supply.length []).length) := by
  have hshape : FirstViolated (shapeRequirements costs supply demand)
      (.rowWidth supply.length demand.length (costs.getD supply.length []).length) := by
    simp only [shapeRequirements, firstViolated_cons_iff, not_firstViolated_nil,
      Nat.min_eq_right h.le]
    simp [hparties, h.ne']
  have hsize : ¬ Oversized costs supply demand := fun hsize => h.ne' hsize.length_costs
  exact ofTable_eq_error_iff.mpr (.inr ⟨hsize, firstViolated_append_iff.mpr (.inl hshape)⟩)

/-- A rejection names a defect of the data, with the numbers that show it. A width that it names is
a wrong one, except where a row in excess has the right width. -/
theorem rejection_names_defect (costs : List (List Int)) (supply demand : List Int) :
    (∀ failure, ofTable costs supply demand = .error failure →
      HasDefect costs supply demand failure) ∧
    ∀ row width, ofTable costs supply demand = .error (.rowWidth row width width) ↔
      (supply ≠ [] ∧ demand ≠ []) ∧ supply.length < costs.length ∧
        (costs.getD supply.length []).length = demand.length ∧
        row = supply.length ∧ width = demand.length := by
  refine ⟨fun failure h => hasDefect_of_ofTable h, fun row width => ⟨fun h => ?_, ?_⟩⟩
  · have hparties := parties_of_ofTable_error h (by simp)
    have hnamed := hasDefect_of_ofTable h
    generalize hfailure : Failure.rowWidth row width width = failure at hnamed
    cases hnamed with
    | rowWidth hi hwrong =>
        injection hfailure with hrow hexpected hfound
        exact absurd (hfound.symm.trans hexpected) hwrong
    | surplusRow hmore =>
        injection hfailure with hrow hexpected hfound
        exact ⟨hparties, hmore, hfound.symm.trans hexpected, hrow, hexpected⟩
    | _ => cases hfailure
  · rintro ⟨hparties, hmore, hwidth, rfl, rfl⟩
    have h := ofTable_eq_surplusRow hparties hmore
    rwa [hwidth] at h

theorem rejection_names_defect_ragged :
    HasDefect [[4, 6], [5], [7, 0]] [20, 10, 20] [25, 25] (.rowWidth 1 2 1) ∧
    ¬ ∃ row width, ofTable [[4, 6], [5], [7, 0]] [20, 10, 20] [25, 25] =
      .error (.rowWidth row width width) := by
  obtain ⟨hnames, hright⟩ := rejection_names_defect [[4, 6], [5], [7, 0]] [20, 10, 20] [25, 25]
  refine ⟨hnames _ (by decide), ?_⟩
  rintro ⟨row, width, h⟩
  obtain ⟨-, hmore, -⟩ := (hright row width).mp h
  exact absurd hmore (by decide)

/-- The first of two rows has two columns instead of one. The second row is in excess and is
reported with the one column that it should have. -/
theorem rejection_misnames_surplus_row :
    ofTable [[1, 2], [3]] [1] [1] = .error (.rowWidth 1 1 1) ∧
    (Failure.rowWidth 1 1 1).message = "cost row 1 has 1 columns, expected 1" ∧
    ¬ ∀ row expected found, ofTable [[1, 2], [3]] [1] [1] = .error (.rowWidth row expected found) →
      found ≠ expected := by
  refine ⟨by decide, by decide +kernel, fun h => ?_⟩
  exact h 1 1 1 (by decide) rfl

end Rejections

end Problem

end Transportation
