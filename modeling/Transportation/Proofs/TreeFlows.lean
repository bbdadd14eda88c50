import Mathlib.Data.Finset.Powerset
import Transportation.Proofs.Optimality
/-!
# Flows on a tree

A basis determines what its cells ship. Without one of its cells the tree falls apart, and the cell
carries what the sources on its side of the gap have more than the sinks there need. So the plans on
one basis are equal, and a basic cell can be empty only where some of the sources have just what
some of the sinks need.
-/
namespace Transportation

namespace Problem

/-- Never do some of the sources, but not all, have just what some of the sinks, but not all,
need. -/
def Indivisible (p : Problem) : Prop :=
  ∀ A ∈ (Finset.range p.rows).ssubsets, ∀ B ∈ (Finset.range p.cols).ssubsets,
    A.Nonempty → B.Nonempty → ∑ i ∈ A, p.supplyAt i ≠ ∑ j ∈ B, p.demandAt j

instance (p : Problem) : Decidable p.Indivisible :=
  inferInstanceAs (Decidable (∀ A ∈ (Finset.range p.rows).ssubsets,
    ∀ B ∈ (Finset.range p.cols).ssubsets, A.Nonempty → B.Nonempty →
      ∑ i ∈ A, p.supplyAt i ≠ ∑ j ∈ B, p.demandAt j))

end Problem

section Side

variable {p : Problem} {g g' : Grid} {c : Nat × Nat} {S : Node → Prop} [DecidablePred S]

/-- Values of nodes with which a cell counts only if it leads out of `S`. -/
def side (S : Node → Prop) [DecidablePred S] : Node → Int
  | .source i => if S (.source i) then 1 else 0
  | .sink j => if S (.sink j) then -1 else 0

theorem dualValue_side (p : Problem) (S : Node → Prop) [DecidablePred S] :
    dualValue p (side S) = ∑ i ∈ Finset.range p.rows with S (.source i), p.supplyAt i -
      ∑ j ∈ Finset.range p.cols with S (.sink j), p.demandAt j := by
  simp only [dualValue, side, ite_mul, one_mul, neg_one_mul, zero_mul, Int.cast_id]
  rw [Finset.sum_filter, Finset.sum_filter, sub_eq_add_neg, ← Finset.sum_neg_distrib]
  congr 1
  exact Finset.sum_congr rfl fun j _ => by split <;> simp

private theorem side_of_iff (h : S (.source c.1) ↔ S (.sink c.2)) :
    side S (.source c.1) + side S (.sink c.2) = 0 := by
  simp only [side]
  by_cases hS : S (.source c.1)
  · rw [if_pos hS, if_pos (h.mp hS)]
    rfl
  · rw [if_neg hS, if_neg fun hsink => hS (h.mpr hsink)]
    rfl

section Cut

variable (hg : g.BasicPlan p) (hc : c ∈ g.basis) (hS : Respects (g.basis.erase c) S)
  (hsource : S (.source c.1)) (hsink : ¬ S (.sink c.2))

include hg hc hS hsource hsink

/-- A basic cell ships what the sources on its side have more than the sinks there need. -/
theorem Grid.BasicPlan.amount_eq_dualValue : g.amount c.1 c.2 = dualValue p (side S) := by
  have hterm : ∀ i ∈ Finset.range p.rows, ∀ j ∈ Finset.range p.cols, (i, j) ≠ c →
      (side S (.source i) + side S (.sink j)) * g.amount i j = 0 := by
    intro i hi j hj hne
    by_cases hbasic : (i, j) ∈ g.basis
    · have hzero := side_of_iff (hS _ (Finset.mem_erase.mpr ⟨hne, hbasic⟩))
      rw [hzero, zero_mul]
    · rw [Grid.amount_eq_zero_of_not_mem_basis (hg.fits.1.symm ▸ Finset.mem_range.mp hi)
        (hg.fits.2.symm ▸ Finset.mem_range.mp hj) hbasic, mul_zero]
  obtain ⟨hrow, hcol, -⟩ := Grid.mem_basis.mp hc
  rw [hg.fits.1, ← Finset.mem_range] at hrow
  rw [hg.fits.2, ← Finset.mem_range] at hcol
  rw [← hg.feasible.ships.sum_ends, Finset.sum_eq_single_of_mem c.1 hrow,
    Finset.sum_eq_single_of_mem c.2 hcol]
  · simp [side, hsource, hsink]
  · intro j hj hne
    exact hterm c.1 hrow j hj fun heq => hne (congrArg Prod.snd heq)
  · intro i hi hne
    exact Finset.sum_eq_zero fun j hj => hterm i hi j hj fun heq => hne (congrArg Prod.fst heq)

theorem Grid.BasicPlan.not_indivisible (hp : p.Sound) (hzero : g.amount c.1 c.2 = 0) :
    ¬ p.Indivisible := by
  intro hindivisible
  obtain ⟨hrow, hcol, -⟩ := Grid.mem_basis.mp hc
  rw [hg.fits.1] at hrow
  rw [hg.fits.2] at hcol
  have hcut := hg.amount_eq_dualValue hc hS hsource hsink
  rw [hzero, dualValue_side] at hcut
  let A := (Finset.range p.rows).filter fun i => S (.source i)
  let B := (Finset.range p.cols).filter fun j => S (.sink j)
  have hbalance : ∑ i ∈ A, p.supplyAt i = ∑ j ∈ B, p.demandAt j := by
    change 0 = ∑ i ∈ A, p.supplyAt i - ∑ j ∈ B, p.demandAt j at hcut
    omega
  have hmemA : c.1 ∈ A := Finset.mem_filter.mpr ⟨Finset.mem_range.mpr hrow, hsource⟩
  have hsupply : 0 < ∑ i ∈ A, p.supplyAt i :=
    Finset.sum_pos (fun i hi => hp.supplyAt_pos (Finset.mem_range.mp (Finset.mem_filter.mp hi).1))
      ⟨_, hmemA⟩
  have hproperB : B ⊂ Finset.range p.cols := Finset.filter_ssubset.mpr
    ⟨c.2, Finset.mem_range.mpr hcol, hsink⟩
  have hdemand : ∑ j ∈ B, p.demandAt j < p.total := by
    rw [← hp.sum_demandAt]
    exact Finset.sum_lt_sum_of_subset hproperB.1 (Finset.mem_range.mpr hcol)
      (fun hmem => hsink (Finset.mem_filter.mp hmem).2) (hp.demandAt_pos hcol)
      fun j hj _ => (hp.demandAt_pos (Finset.mem_range.mp hj)).le
  have hproperA : A ⊂ Finset.range p.rows := by
    refine (Finset.filter_subset _ _).ssubset_of_ne fun hall => ?_
    rw [← hbalance, show A = Finset.range p.rows from hall, hp.sum_supplyAt] at hdemand
    exact hdemand.false
  have hnonemptyB : B.Nonempty := by
    rw [Finset.nonempty_iff_ne_empty]
    intro hempty
    rw [hbalance, hempty, Finset.sum_empty] at hsupply
    exact hsupply.false
  exact hindivisible A (Finset.mem_ssubsets.mpr hproperA) B (Finset.mem_ssubsets.mpr hproperB)
    ⟨_, hmemA⟩ hnonemptyB hbalance

end Cut

private theorem Grid.cell_eq_vacant {i j : Nat} (hi : i < g.rows) (hj : j < g.cols)
    (h : (i, j) ∉ g.basis) : g.cell i j = .vacant := by
  cases hcell : g.cell i j with
  | vacant => rfl
  | basic x => exact absurd (Grid.mem_basis.mpr ⟨hi, hj, by rw [hcell]; rfl⟩) h

/-- The plans on one basis are equal. -/
theorem Grid.BasicPlan.eq_of_basis_eq (hg : g.BasicPlan p) (hg' : g'.BasicPlan p)
    (h : g.basis = g'.basis) : g = g' := by
  classical
  have hrows := hg.fits.1.trans hg'.fits.1.symm
  have hcols := hg.fits.2.trans hg'.fits.2.symm
  refine hg.regular.ext hg'.regular hrows hcols fun i j hi hj => ?_
  by_cases hbasic : (i, j) ∈ g.basis
  · obtain ⟨S, hS, hsource, hsink⟩ := hg.forest _ hbasic
    have hamount := hg.amount_eq_dualValue hbasic hS hsource hsink
    have hbasic' : (i, j) ∈ g'.basis := h ▸ hbasic
    have hamount' := hg'.amount_eq_dualValue hbasic' (h ▸ hS) hsource hsink
    rw [Grid.cell_eq_basic (Grid.mem_basis.mp hbasic).2.2,
      Grid.cell_eq_basic (Grid.mem_basis.mp hbasic').2.2]
    exact congrArg Cell.basic (hamount.trans hamount'.symm)
  · have hbasic' : (i, j) ∉ g'.basis := h ▸ hbasic
    have hvacant := Grid.cell_eq_vacant hi hj hbasic
    have hvacant' := Grid.cell_eq_vacant (hrows ▸ hi) (hcols ▸ hj) hbasic'
    rw [hvacant, hvacant']

theorem Grid.BasicPlan.amount_pos (hg : g.BasicPlan p) (hp : p.Sound) (hindivisible : p.Indivisible)
    (hc : c ∈ g.basis) : 0 < g.amount c.1 c.2 := by
  classical
  obtain ⟨hi, hj, -⟩ := Grid.mem_basis.mp hc
  obtain ⟨S, hS, hsource, hsink⟩ := hg.forest c hc
  refine (hg.feasible.nonneg _ _ (hg.fits.1 ▸ hi) (hg.fits.2 ▸ hj)).lt_of_ne fun hzero => ?_
  exact hg.not_indivisible hc hS hsource hsink hp hzero.symm hindivisible

end Side

end Transportation
