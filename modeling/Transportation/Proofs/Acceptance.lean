import Transportation.Proofs.Table
/-!
# Acceptance

A cost table with supplies and demands makes a problem if it meets all requirements of a list. The
tests on the data go through the list in order, so a rejection reports the first requirement that is
violated, and nothing is accepted or rejected for another reason.
-/
namespace Transportation

structure Requirement where
  holds : Prop
  failure : Failure

/-- The failure belongs to the first requirement of the list that is violated. -/
inductive FirstViolated : List Requirement → Failure → Prop where
  | here {r : Requirement} {rest : List Requirement} (h : ¬ r.holds) :
      FirstViolated (r :: rest) r.failure
  | later {r : Requirement} {rest : List Requirement} {failure : Failure} (h : r.holds)
      (hrest : FirstViolated rest failure) : FirstViolated (r :: rest) failure

/-- What a test of requirements in turn comes to: nothing if all of them hold, else the failure of
the first that is violated. -/
inductive Reports (requirements : List Requirement) : Option Failure → Prop where
  | passed (h : ∀ r ∈ requirements, r.holds) : Reports requirements none
  | failed {failure : Failure} (h : FirstViolated requirements failure) :
      Reports requirements (some failure)

section Reports

variable {r : Requirement} {requirements more : List Requirement} {failure failure' : Failure}

@[simp] theorem not_firstViolated_nil : ¬ FirstViolated [] failure := by
  intro h
  cases h

@[simp] theorem firstViolated_cons_iff : FirstViolated (r :: more) failure ↔
    (¬ r.holds ∧ r.failure = failure) ∨ (r.holds ∧ FirstViolated more failure) := by
  constructor
  · intro h
    cases h with
    | here h => exact .inl ⟨h, rfl⟩
    | later h hrest => exact .inr ⟨h, hrest⟩
  · rintro (⟨h, rfl⟩ | ⟨h, hrest⟩)
    · exact .here h
    · exact .later h hrest

theorem firstViolated_append_iff : FirstViolated (requirements ++ more) failure ↔
    FirstViolated requirements failure ∨
      (∀ r ∈ requirements, r.holds) ∧ FirstViolated more failure := by
  induction requirements with
  | nil => simp
  | cons r requirements ih =>
      rw [List.cons_append, firstViolated_cons_iff, ih, firstViolated_cons_iff,
        List.forall_mem_cons]
      tauto

theorem FirstViolated.not_forall_holds (h : FirstViolated requirements failure) :
    ¬ ∀ r ∈ requirements, r.holds := by
  induction h with
  | here h => exact fun hall => h (hall _ List.mem_cons_self)
  | later _ _ ih => exact fun hall => ih fun r hr => hall r (List.mem_cons_of_mem _ hr)

theorem FirstViolated.unique (h : FirstViolated requirements failure)
    (h' : FirstViolated requirements failure') : failure = failure' := by
  induction h with
  | here h =>
      cases h' with
      | here => rfl
      | later hholds => contradiction
  | later hholds _ ih =>
      cases h' with
      | here h => contradiction
      | later _ hrest => exact ih hrest

/-- Tests one after the other; the second ones may rely on the requirements of the first. -/
theorem Reports.append {x y : Option Failure} (hx : Reports requirements x)
    (hy : (∀ r ∈ requirements, r.holds) → Reports more y) :
    Reports (requirements ++ more) (x.or y) := by
  cases hx with
  | failed h => exact .failed (firstViolated_append_iff.mpr (.inl h))
  | passed hholds =>
      cases hy hholds with
      | passed h => exact .passed (List.forall_mem_append.mpr ⟨hholds, h⟩)
      | failed h => exact .failed (firstViolated_append_iff.mpr (.inr ⟨hholds, h⟩))

theorem Reports.single {x : Option Failure} (h : r.holds → x = none)
    (h' : ¬ r.holds → x = some r.failure) : Reports [r] x := by
  by_cases hr : r.holds
  · rw [h hr]
    exact .passed (List.forall_mem_singleton.mpr hr)
  · rw [h' hr]
    exact .failed (.here hr)

theorem Reports.findSome? {α : Type} {requirements : α → List Requirement}
    {defect? : α → Option Failure} (h : ∀ a, Reports (requirements a) (defect? a))
    (items : List α) : Reports (items.flatMap requirements) (items.findSome? defect?) := by
  induction items with
  | nil => exact .passed (by simp)
  | cons a items ih =>
      have hrest := (h a).append fun _ => ih
      rw [List.flatMap_cons, List.findSome?_cons]
      cases hdefect : defect? a with
      | none => simpa [hdefect] using hrest
      | some failure => simpa [hdefect] using hrest

theorem Reports.eq_none_iff {x : Option Failure} (h : Reports requirements x) :
    x = none ↔ ∀ r ∈ requirements, r.holds := by
  cases h with
  | passed h => exact iff_of_true rfl h
  | failed h => exact iff_of_false (by simp) h.not_forall_holds

theorem Reports.eq_some_iff {x : Option Failure} (h : Reports requirements x) :
    x = some failure ↔ FirstViolated requirements failure := by
  cases h with
  | passed h => exact iff_of_false (by simp) fun hfirst => hfirst.not_forall_holds h
  | failed h =>
      constructor
      · rintro ⟨⟩
        exact h
      · intro hfirst
        rw [h.unique hfirst]

end Reports

namespace Amount

theorem inRange_of_nonneg {x : Int} (h₀ : 0 ≤ x) (h₁ : x ≤ greatest) : InRange x :=
  ⟨le_trans (by decide) h₀, h₁⟩

theorem total_eq_sum (xs : List Int) : total xs = xs.sum := by
  induction xs with
  | nil => rfl
  | cons x xs ih => rw [total, ih, List.sum_cons]

private theorem foldlM_ofInt?_eq_ite {xs : List Int} {acc : Int} (hxs : ∀ x ∈ xs, 0 ≤ x)
    (hacc : 0 ≤ acc) (hle : acc ≤ greatest) :
    xs.foldlM (fun acc x => ofInt? (acc + x)) acc =
      if acc + xs.sum ≤ greatest then some (acc + xs.sum) else none := by
  induction xs generalizing acc with
  | nil => simp [hle]
  | cons x xs ih =>
      obtain ⟨hx, hrest⟩ := List.forall_mem_cons.mp hxs
      have hsum : 0 ≤ xs.sum := List.sum_nonneg hrest
      rw [List.foldlM_cons, List.sum_cons, ← add_assoc]
      by_cases hnext : acc + x ≤ greatest
      · have hstep : ofInt? (acc + x) = some (acc + x) :=
          ofInt?_eq_some_iff.mpr ⟨inRange_of_nonneg (by omega) hnext, rfl⟩
        rw [hstep]
        exact ih hrest (by omega) hnext
      · have hstep : ofInt? (acc + x) = none := if_neg fun h => hnext h.2
        rw [hstep, if_neg (by omega)]
        rfl

theorem sum?_eq_ite {xs : List Int} (hxs : ∀ x ∈ xs, 0 ≤ x) :
    sum? xs = if xs.sum ≤ greatest then some xs.sum else none := by
  simpa [sum?] using foldlM_ofInt?_eq_ite hxs le_rfl (by decide)

end Amount

namespace Problem

def LargestCost (costs : List (List Int)) (C : Int) : Prop :=
  (∃ row ∈ costs, C ∈ row) ∧ ∀ row ∈ costs, ∀ c ∈ row, c ≤ C

instance (costs : List (List Int)) (C : Int) : Decidable (LargestCost costs C) :=
  inferInstanceAs (Decidable (_ ∧ _))

/-- The objective and the opportunity costs have room: with the largest cost, what the supplies can
cost in all, and what two potentials and a cost can come to. -/
def Room (costs : List (List Int)) (supply demand : List Int) : Prop :=
  ∃ C, LargestCost costs C ∧ supply.sum * C ≤ Amount.greatest ∧
    C * (2 * ((supply.length : Int) + demand.length) + 1) ≤ Amount.greatest

/-- Data that makes a problem. -/
structure Acceptable (costs : List (List Int)) (supply demand : List Int) : Prop where
  supply_ne : supply ≠ []
  demand_ne : demand ≠ []
  length_costs : costs.length = supply.length
  length_row : ∀ row ∈ costs, row.length = demand.length
  cost_nonneg : ∀ row ∈ costs, ∀ c ∈ row, 0 ≤ c
  supply_pos : ∀ s ∈ supply, 1 ≤ s
  demand_pos : ∀ d ∈ demand, 1 ≤ d
  sum_eq : supply.sum = demand.sum
  sum_le : supply.sum ≤ Amount.greatest
  room : Room costs supply demand

/-- Data of the right shape, but with a table of costs too large to be made. -/
structure Oversized (costs : List (List Int)) (supply demand : List Int) : Prop where
  supply_ne : supply ≠ []
  demand_ne : demand ≠ []
  length_costs : costs.length = supply.length
  size : ¬ FitsMemory 8 (supply.length * demand.length)

/-- A row that is missing or in excess is reported with its width, zero for a missing one. -/
def shapeRequirements (costs : List (List Int)) (supply demand : List Int) : List Requirement :=
  let row := min costs.length supply.length
  [⟨supply ≠ [] ∧ demand ≠ [], .noParties⟩,
    ⟨costs.length = supply.length, .rowWidth row demand.length (costs.getD row []).length⟩]

def rowRequirements (cols i : Nat) (row : List Int) : List Requirement :=
  ⟨row.length = cols, .rowWidth i cols row.length⟩ ::
    row.zipIdx.flatMap fun e => [⟨0 ≤ e.1, .negativeCost i e.2 e.1⟩]

def amountRequirements (defect : Nat → Int → Failure) (amounts : List Int) : List Requirement :=
  amounts.zipIdx.flatMap fun e => [⟨1 ≤ e.1, defect e.2 e.1⟩]

def totalRequirements (supply demand : List Int) : List Requirement :=
  [⟨supply.sum ≤ Amount.greatest, .tooLarge⟩, ⟨demand.sum ≤ Amount.greatest, .tooLarge⟩,
    ⟨supply.sum = demand.sum, .imbalanced supply.sum demand.sum⟩]

def magnitudeRequirements (costs : List (List Int)) (supply demand : List Int) :
    List Requirement :=
  [⟨2 * ((supply.length : Int) + demand.length) + 1 ≤ Amount.greatest, .tooLarge⟩,
    ⟨Room costs supply demand, .tooLarge⟩]

def numberRequirements (costs : List (List Int)) (supply demand : List Int) : List Requirement :=
  (costs.zipIdx.flatMap fun e => rowRequirements demand.length e.2 e.1) ++
    (amountRequirements .nonPositiveSupply supply ++
      (amountRequirements .nonPositiveDemand demand ++
        (totalRequirements supply demand ++ magnitudeRequirements costs supply demand)))

def requirements (costs : List (List Int)) (supply demand : List Int) : List Requirement :=
  shapeRequirements costs supply demand ++ numberRequirements costs supply demand

section Largest

variable {costs : List (List Int)} {C : Int}

theorem foldl_max_spec (xs : List Int) (b : Int) :
    xs.foldl max b ∈ b :: xs ∧ ∀ x ∈ b :: xs, x ≤ xs.foldl max b :=
  List.max?_eq_some_iff.mp List.max?_cons'

theorem maxCost_nonneg (costs : List (List Int)) : 0 ≤ maxCost costs :=
  (foldl_max_spec costs.flatten 0).2 0 List.mem_cons_self

theorem LargestCost.unique {C' : Int} (h : LargestCost costs C) (h' : LargestCost costs C') :
    C = C' := by
  obtain ⟨⟨row, hrow, hC⟩, hle⟩ := h
  obtain ⟨⟨row', hrow', hC'⟩, hle'⟩ := h'
  exact le_antisymm (hle' row hrow C hC) (hle row' hrow' C' hC')

theorem largestCost_maxCost (hne : ∃ row ∈ costs, row ≠ [])
    (hnonneg : ∀ row ∈ costs, ∀ c ∈ row, 0 ≤ c) : LargestCost costs (maxCost costs) := by
  obtain ⟨hmem, hmax⟩ := foldl_max_spec costs.flatten 0
  have hle : ∀ row ∈ costs, ∀ c ∈ row, c ≤ maxCost costs := fun row hrow c hc =>
    hmax c (List.mem_cons_of_mem 0 (List.mem_flatten.mpr ⟨row, hrow, hc⟩))
  refine ⟨?_, hle⟩
  rcases List.mem_cons.mp hmem with hzero | hmem
  · obtain ⟨row, hrow, hne⟩ := hne
    obtain ⟨c, hc⟩ := List.exists_mem_of_ne_nil row hne
    have hc₀ : c = maxCost costs :=
      le_antisymm (hle row hrow c hc) (hzero.trans_le (hnonneg row hrow c hc))
    exact ⟨row, hrow, hc₀ ▸ hc⟩
  · exact List.mem_flatten.mp hmem

theorem LargestCost.eq_maxCost (h : LargestCost costs C)
    (hnonneg : ∀ row ∈ costs, ∀ c ∈ row, 0 ≤ c) : C = maxCost costs := by
  obtain ⟨row, hrow, hmem⟩ := h.1
  exact h.unique (largestCost_maxCost ⟨row, hrow, List.ne_nil_of_mem hmem⟩ hnonneg)

theorem room_iff {supply demand : List Int} (hne : ∃ row ∈ costs, row ≠ [])
    (hnonneg : ∀ row ∈ costs, ∀ c ∈ row, 0 ≤ c) : Room costs supply demand ↔
      supply.sum * maxCost costs ≤ Amount.greatest ∧
        maxCost costs * (2 * ((supply.length : Int) + demand.length) + 1) ≤ Amount.greatest := by
  constructor
  · rintro ⟨C, hC, hbounds⟩
    rwa [← hC.eq_maxCost hnonneg]
  · intro hbounds
    exact ⟨_, largestCost_maxCost hne hnonneg, hbounds⟩

end Largest

section Requirements

variable {costs : List (List Int)} {supply demand : List Int}

private theorem forall_mem_zipIdx {α : Type} {xs : List α} {P : α → Prop} :
    (∀ e ∈ xs.zipIdx, P e.1) ↔ ∀ x ∈ xs, P x := by
  conv_rhs => rw [← List.zipIdx_map_fst 0 xs]
  exact List.forall_mem_map.symm

theorem holds_shape_iff :
    (∀ r ∈ shapeRequirements costs supply demand, r.holds) ↔
      (supply ≠ [] ∧ demand ≠ []) ∧ costs.length = supply.length := by
  simp [shapeRequirements]

private theorem holds_rows_iff {cols : Nat} :
    (∀ r ∈ costs.zipIdx.flatMap fun e => rowRequirements cols e.2 e.1, r.holds) ↔
      ∀ row ∈ costs, row.length = cols ∧ ∀ c ∈ row, 0 ≤ c := by
  refine List.forall_mem_flatMap.trans (Iff.trans ?_
    (forall_mem_zipIdx (P := fun row : List Int => row.length = cols ∧ ∀ c ∈ row, 0 ≤ c)))
  refine forall₂_congr fun e _ => ?_
  rw [rowRequirements, List.forall_mem_cons, List.forall_mem_flatMap,
    ← forall_mem_zipIdx (P := fun c => 0 ≤ c)]
  simp

private theorem holds_amounts_iff {defect : Nat → Int → Failure} {amounts : List Int} :
    (∀ r ∈ amountRequirements defect amounts, r.holds) ↔ ∀ x ∈ amounts, 1 ≤ x := by
  rw [amountRequirements, List.forall_mem_flatMap, ← forall_mem_zipIdx (P := fun x => 1 ≤ x)]
  simp

theorem holds_requirements_iff :
    (∀ r ∈ requirements costs supply demand, r.holds) ↔ Acceptable costs supply demand ∧
      2 * ((supply.length : Int) + demand.length) + 1 ≤ Amount.greatest := by
  simp only [requirements, numberRequirements, List.forall_mem_append, holds_shape_iff,
    holds_rows_iff, holds_amounts_iff, totalRequirements, magnitudeRequirements,
    List.forall_mem_cons]
  constructor
  · rintro ⟨⟨⟨hsupply, hdemand⟩, hlength⟩, hrows, hs, hd, ⟨hle, -, heq, -⟩, hspan, hroom, -⟩
    have hacceptable : Acceptable costs supply demand := {
      supply_ne := hsupply
      demand_ne := hdemand
      length_costs := hlength
      length_row := fun row hrow => (hrows row hrow).1
      cost_nonneg := fun row hrow => (hrows row hrow).2
      supply_pos := hs
      demand_pos := hd
      sum_eq := heq
      sum_le := hle
      room := hroom }
    exact ⟨hacceptable, hspan⟩
  · rintro ⟨h, hspan⟩
    exact ⟨⟨⟨h.supply_ne, h.demand_ne⟩, h.length_costs⟩,
      fun row hrow => ⟨h.length_row row hrow, h.cost_nonneg row hrow⟩, h.supply_pos,
      h.demand_pos, ⟨h.sum_le, h.sum_eq ▸ h.sum_le, h.sum_eq, by simp⟩, hspan, h.room, by simp⟩

theorem oversized_iff : Oversized costs supply demand ↔
    (∀ r ∈ shapeRequirements costs supply demand, r.holds) ∧
      ¬ FitsMemory 8 (supply.length * demand.length) := by
  rw [holds_shape_iff]
  exact ⟨fun h => ⟨⟨⟨h.supply_ne, h.demand_ne⟩, h.length_costs⟩, h.size⟩,
    fun h => ⟨h.1.1.1, h.1.1.2, h.1.2, h.2⟩⟩

private theorem reports_shapeDefect? : Reports (shapeRequirements costs supply demand)
    (shapeDefect? costs supply.length demand.length) := by
  rw [shapeDefect?]
  by_cases hparties : supply ≠ [] ∧ demand ≠ []
  · rw [if_neg (by simpa using hparties)]
    by_cases hlength : costs.length = supply.length
    · rw [if_neg (by simpa using hlength)]
      exact .passed (holds_shape_iff.mpr ⟨hparties, hlength⟩)
    · rw [if_pos hlength]
      have hwidth (k : Nat) : (costs[k]?.map List.length).getD 0 = (costs.getD k []).length := by
        cases h : costs[k]? <;> simp [h]
      dsimp only
      rw [hwidth]
      exact .failed (.later hparties (.here hlength))
  · rw [if_pos (by simpa [or_iff_not_imp_left] using hparties)]
    exact .failed (.here hparties)

private theorem reports_rowDefect? (cols i : Nat) (row : List Int) :
    Reports (rowRequirements cols i row) (rowDefect? cols i row) := by
  rw [rowDefect?]
  by_cases hwidth : row.length = cols
  · rw [if_neg (by simpa using hwidth)]
    have hentries := Reports.findSome? (fun (e : Int × Nat) => Reports.single
      (r := ⟨0 ≤ e.1, .negativeCost i e.2 e.1⟩) (fun h => if_neg (not_lt_of_ge h))
      fun h => if_pos (lt_of_not_ge h)) row.zipIdx
    exact Reports.append (.passed (List.forall_mem_singleton.mpr hwidth)) fun _ => hentries
  · rw [if_pos hwidth]
    exact .failed (.here hwidth)

private theorem reports_amountDefect? (defect : Nat → Int → Failure) (amounts : List Int) :
    Reports (amountRequirements defect amounts) (amountDefect? defect amounts) :=
  Reports.findSome? (fun (_ : Int × Nat) => Reports.single (fun h => if_neg (not_le_of_gt h))
    fun h => if_pos (le_of_not_gt h)) amounts.zipIdx

private theorem reports_totalDefect? (hs : ∀ s ∈ supply, 1 ≤ s) (hd : ∀ d ∈ demand, 1 ≤ d) :
    Reports (totalRequirements supply demand) (totalDefect? supply demand) := by
  rw [totalDefect?, Amount.sum?_eq_ite fun s h => le_trans zero_le_one (hs s h),
    Amount.sum?_eq_ite fun d h => le_trans zero_le_one (hd d h)]
  by_cases hsupply : supply.sum ≤ Amount.greatest
  · rw [if_pos hsupply]
    by_cases hdemand : demand.sum ≤ Amount.greatest
    · rw [if_pos hdemand]
      dsimp only
      by_cases hequal : supply.sum = demand.sum
      · rw [if_neg (not_not.mpr hequal)]
        exact .passed (by simp [totalRequirements, hequal, hdemand])
      · rw [if_pos hequal]
        exact .failed (.later hsupply (.later hdemand (.here hequal)))
    · rw [if_neg hdemand]
      exact .failed (.later hsupply (.here hdemand))
  · rw [if_neg hsupply]
    exact .failed (.here hsupply)

private theorem reports_magnitudeDefect? (hne : ∃ row ∈ costs, row ≠ [])
    (hnonneg : ∀ row ∈ costs, ∀ c ∈ row, 0 ≤ c) (hs : ∀ s ∈ supply, 1 ≤ s) :
    Reports (magnitudeRequirements costs supply demand)
      (magnitudeDefect? costs supply.length demand.length (Amount.total supply)) := by
  have hmax := maxCost_nonneg costs
  have htotal : 0 ≤ supply.sum := List.sum_nonneg fun s h => le_trans zero_le_one (hs s h)
  have hrange {x : Int} (hx : 0 ≤ x) : Amount.InRange x ↔ x ≤ Amount.greatest :=
    ⟨fun h => h.2, Amount.inRange_of_nonneg hx⟩
  have hguard : (Amount.InRange (2 * ((supply.length : Int) + demand.length) + 1) ∧
      Amount.InRange (supply.sum * maxCost costs) ∧
        Amount.InRange (maxCost costs * (2 * ((supply.length : Int) + demand.length) + 1))) ↔
      2 * ((supply.length : Int) + demand.length) + 1 ≤ Amount.greatest ∧
        Room costs supply demand := by
    rw [hrange (by omega), hrange (Int.mul_nonneg htotal hmax),
      hrange (Int.mul_nonneg hmax (by omega)), room_iff hne hnonneg]
  rw [magnitudeDefect?, Amount.total_eq_sum]
  by_cases hspan : 2 * ((supply.length : Int) + demand.length) + 1 ≤ Amount.greatest
  · by_cases hfits : Room costs supply demand
    · rw [if_pos (hguard.mpr ⟨hspan, hfits⟩)]
      exact .passed (List.forall_mem_cons.mpr ⟨hspan, List.forall_mem_singleton.mpr hfits⟩)
    · rw [if_neg fun hall => hfits (hguard.mp hall).2]
      exact .failed (.later hspan (.here hfits))
  · rw [if_neg fun hall => hspan (hguard.mp hall).1]
    exact .failed (.here hspan)

private theorem reports_sizeDefect? (rows cols : Nat) :
    Reports [⟨FitsMemory 8 (rows * cols), .breach .overflow⟩] (sizeDefect? rows cols) :=
  .single (fun h => if_pos h) fun h => if_neg h

/-- The tests on the data go through the requirements in order. Between those on the shape and those
on the numbers the table of costs is made. -/
theorem reports_defect? : Reports (shapeRequirements costs supply demand ++
    ⟨FitsMemory 8 (supply.length * demand.length), .breach .overflow⟩ ::
      numberRequirements costs supply demand) (defect? costs supply demand) := by
  refine reports_shapeDefect?.append fun hshape => (reports_sizeDefect? _ _).append fun _ => ?_
  obtain ⟨⟨hsupply, hdemand⟩, hlength⟩ := holds_shape_iff.mp hshape
  refine (Reports.findSome? (fun e : List Int × Nat => reports_rowDefect? _ e.2 e.1) _).append
    fun hrows => ?_
  have hrow := holds_rows_iff.mp hrows
  refine (reports_amountDefect? _ supply).append fun hs => ?_
  refine (reports_amountDefect? _ demand).append fun hd => ?_
  rw [holds_amounts_iff] at hs hd
  have hentry : ∃ row ∈ costs, row ≠ [] := by
    obtain ⟨row, hmem⟩ := List.exists_mem_of_length_pos
      (hlength.trans_gt (List.length_pos_of_ne_nil hsupply))
    refine ⟨row, hmem, List.ne_nil_of_length_pos ?_⟩
    rw [(hrow row hmem).1]
    exact List.length_pos_of_ne_nil hdemand
  refine (reports_totalDefect? hs hd).append fun _ => ?_
  exact reports_magnitudeDefect? hentry (fun row hmem => (hrow row hmem).2) hs

theorem defect?_eq_none_iff : defect? costs supply demand = none ↔
    (Acceptable costs supply demand ∧ FitsMemory 8 (supply.length * demand.length)) ∧
      2 * ((supply.length : Int) + demand.length) + 1 ≤ Amount.greatest := by
  rw [reports_defect?.eq_none_iff, and_right_comm, ← holds_requirements_iff, requirements,
    List.forall_mem_append, List.forall_mem_append, List.forall_mem_cons]
  tauto

theorem ofTable_eq_error_iff {failure : Failure} : ofTable costs supply demand = .error failure ↔
    Oversized costs supply demand ∧ failure = .breach .overflow ∨
      ¬ Oversized costs supply demand ∧
        FirstViolated (requirements costs supply demand) failure := by
  have hdefect : ofTable costs supply demand = .error failure ↔
      defect? costs supply demand = some failure := by
    rw [ofTable]
    cases defect? costs supply demand <;> simp
  have hshape := fun h : FirstViolated (shapeRequirements costs supply demand) failure =>
    h.not_forall_holds
  rw [hdefect, reports_defect?.eq_some_iff, requirements, firstViolated_append_iff,
    firstViolated_append_iff, firstViolated_cons_iff, oversized_iff, eq_comm (a := failure)]
  tauto

end Requirements

structure Represents (p : Problem) (costs : List (List Int)) (supply demand : List Int) :
    Prop where
  rows_eq : p.rows = supply.length
  cols_eq : p.cols = demand.length
  cost_eq : ∀ i j, i < p.rows → j < p.cols → ∃ row c, costs[i]? = some row ∧ row[j]? = some c ∧
    p.cost i j = .ok c
  supply_eq : p.supply = supply
  demand_eq : p.demand = demand
  total_eq : p.total = supply.sum

section Table

variable {costs : List (List Int)} {supply demand : List Int}

theorem length_flatten_of_forall {rows : List (List Int)} {n : Nat}
    (h : ∀ row ∈ rows, row.length = n) : rows.flatten.length = rows.length * n := by
  induction rows with
  | nil => simp
  | cons row rows ih =>
      rw [List.flatten_cons, List.length_append, h row List.mem_cons_self,
        ih fun r hr => h r (List.mem_cons_of_mem row hr), List.length_cons, Nat.add_one_mul,
        Nat.add_comm]

private theorem getElem?_flatten {rows : List (List Int)} {n : Nat}
    (h : ∀ row ∈ rows, row.length = n) {i j : Nat} {row : List Int} (hi : rows[i]? = some row)
    (hj : j < n) : rows.flatten[i * n + j]? = row[j]? := by
  induction rows generalizing i with
  | nil => simp at hi
  | cons head rows ih =>
      obtain ⟨hhead, hrows⟩ := List.forall_mem_cons.mp h
      rw [List.flatten_cons]
      cases i with
      | zero =>
          obtain rfl : head = row := by simpa using hi
          rw [Nat.zero_mul, Nat.zero_add, List.getElem?_append_left (hhead ▸ hj)]
      | succ i =>
          have hskip : (i + 1) * n + j - head.length = i * n + j := by
            rw [hhead, Nat.add_one_mul]
            omega
          rw [List.getElem?_append_right (by rw [hhead, Nat.add_one_mul]; omega), hskip]
          exact ih hrows (by simpa using hi)

theorem Acceptable.represents {p : Problem} (h : Acceptable costs supply demand)
    (hp : ofTable costs supply demand = .ok p) : p.Represents costs supply demand := by
  obtain ⟨-, rfl⟩ := ofTable_eq_ok_iff.mp hp
  refine ⟨rfl, rfl, fun i j hi hj => ?_, rfl, rfl, Amount.total_eq_sum supply⟩
  have hrow : i < costs.length := h.length_costs ▸ hi
  have hwidth := h.length_row costs[i] (List.getElem_mem hrow)
  have hcol : j < costs[i].length := hwidth ▸ hj
  refine ⟨costs[i], costs[i][j], List.getElem?_eq_getElem hrow, List.getElem?_eq_getElem hcol, ?_⟩
  rw [cost, entry_eq_ok_iff, getElem?_flatten h.length_row (List.getElem?_eq_getElem hrow) hj]
  exact List.getElem?_eq_getElem hcol

/-- Costs that fit into memory leave room for their table. -/
theorem Acceptable.fitsMemory (h : Acceptable costs supply demand)
    (hmemory : FitsMemory 8 (costs.map List.length).sum) :
    FitsMemory 8 (supply.length * demand.length) := by
  rwa [← List.length_flatten, length_flatten_of_forall h.length_row, h.length_costs] at hmemory

/-- Exactly the acceptable data makes a problem, which then holds this data, if the table of its
costs can be made. No table is too large that fits into memory with all its rows. For all other data
the first requirement that it violates is reported, unless so large a table is tried before the rows
are looked at. -/
theorem ofTable_exact (costs : List (List Int)) (supply demand : List Int)
    (hspan : 2 * ((supply.length : Int) + demand.length) + 1 ≤ Amount.greatest) :
    ((∃ p, ofTable costs supply demand = .ok p) ↔
      Acceptable costs supply demand ∧ FitsMemory 8 (supply.length * demand.length)) ∧
    (FitsMemory 8 (costs.map List.length).sum →
      ((∃ p, ofTable costs supply demand = .ok p) ↔ Acceptable costs supply demand)) ∧
    (∀ p, ofTable costs supply demand = .ok p → p.Represents costs supply demand) ∧
    ∀ failure, ofTable costs supply demand = .error failure ↔
      Oversized costs supply demand ∧ failure = .breach .overflow ∨
        ¬ Oversized costs supply demand ∧
          FirstViolated (requirements costs supply demand) failure := by
  have hnone : defect? costs supply demand = none ↔
      Acceptable costs supply demand ∧ FitsMemory 8 (supply.length * demand.length) := by
    rw [defect?_eq_none_iff, and_iff_left hspan]
  have haccepts : (∃ p, ofTable costs supply demand = .ok p) ↔
      Acceptable costs supply demand ∧ FitsMemory 8 (supply.length * demand.length) := by
    rw [← hnone]
    exact ⟨fun ⟨p, hp⟩ => (ofTable_eq_ok_iff.mp hp).1,
      fun h => ⟨_, ofTable_eq_ok_iff.mpr ⟨h, rfl⟩⟩⟩
  refine ⟨haccepts, fun hmemory => ?_, fun p hp => ?_, fun failure => ofTable_eq_error_iff⟩
  · rw [haccepts]
    exact and_iff_left_of_imp fun h => h.fitsMemory hmemory
  · exact (hnone.mp (ofTable_eq_ok_iff.mp hp).1).1.represents hp

/-- A negative cost in the second row is reported before the wrong width of the third one and before
the empty supply. Without these three the problem is accepted. Rows without entries are not looked
at if there are too many of them. -/
theorem ofTable_exact_ragged :
    FirstViolated (requirements [[4, 6], [-5, 3], [7]] [30, 0, 20] [25, 25])
      (.negativeCost 1 0 (-5)) ∧
    Acceptable [[4, 6], [5, 3], [7, 0]] [20, 10, 20] [25, 25] ∧
    (∃ p : Problem, p.Represents [[4, 6], [5, 3], [7, 0]] [20, 10, 20] [25, 25]) ∧
    ofTable (List.replicate 1073741824 []) (List.replicate 1073741824 1)
      (List.replicate 1073741824 1) = .error (.breach .overflow) := by
  obtain ⟨-, -, -, hrejects⟩ :=
    ofTable_exact [[4, 6], [-5, 3], [7]] [30, 0, 20] [25, 25] (by decide)
  obtain ⟨-, haccepts, hrepresents, -⟩ :=
    ofTable_exact [[4, 6], [5, 3], [7, 0]] [20, 10, 20] [25, 25] (by decide)
  have hlength {α : Type} (a : α) : (List.replicate 1073741824 a).length = 1073741824 :=
    List.length_replicate
  have hne {α : Type} (a : α) : List.replicate 1073741824 a ≠ [] :=
    List.ne_nil_of_length_pos (by rw [hlength]; decide)
  obtain ⟨-, -, -, hfails⟩ := ofTable_exact (List.replicate 1073741824 [])
    (List.replicate 1073741824 1) (List.replicate 1073741824 1) (by rw [hlength]; decide)
  have hok : ofTable [[4, 6], [5, 3], [7, 0]] [20, 10, 20] [25, 25] =
      .ok ⟨3, 2, [4, 6, 5, 3, 7, 0], [20, 10, 20], [25, 25], 50⟩ := by decide
  refine ⟨?_, (haccepts (by decide)).mp ⟨_, hok⟩, ⟨_, hrepresents _ hok⟩, ?_⟩
  · rcases (hrejects (.negativeCost 1 0 (-5))).mp (by decide) with ⟨-, hbreach⟩ | ⟨-, hfirst⟩
    · cases hbreach
    · exact hfirst
  · refine (hfails _).mpr (.inl ⟨⟨hne 1, hne 1, (hlength []).trans (hlength 1).symm, ?_⟩, rfl⟩)
    rw [hlength]
    decide

end Table

end Problem

end Transportation
