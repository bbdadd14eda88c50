import Transportation.Proofs.ExactPotentials
import Transportation.Proofs.Progress
/-!
# The swap that a pivot makes

Whatever vacant cell enters a basic plan, one cell leaves it. Of the minus cells that the move
empties it is the cheapest one, and the last on the chain of several; the others stay in the basis
with nothing to ship. The cost changes by the amount moved times the opportunity cost of the
entering cell.
-/
namespace Transportation

namespace Pivot

/-- Whether the repair prefers one link of a chain to another: it costs more, or it costs the same
and comes earlier. -/
def Precedes (links : List Link) (a b : Link) : Prop :=
  b.cost < a.cost ∨ a.cost = b.cost ∧ [a, b].Sublist links

section Order

variable {links links' : List Link} {a b l : Link}

theorem Precedes.mono (h : Precedes links a b) (hsub : links.Sublist links') :
    Precedes links' a b :=
  h.imp_right fun ⟨hcost, horder⟩ => ⟨hcost, horder.trans hsub⟩

theorem precedes_cons_of_mem (hb : b ∈ links) (hcost : b.cost ≤ l.cost) :
    Precedes (l :: links) l b := by
  rcases lt_or_eq_of_le hcost with hlt | heq
  · exact .inl hlt
  · exact .inr ⟨heq.symm, (List.singleton_sublist.mpr hb).cons_cons l⟩

theorem Precedes.cost_le (h : Precedes links a b) : b.cost ≤ a.cost := by
  rcases h with hlt | ⟨heq, -⟩ <;> omega

theorem pairwise_insertByCost {sorted : List Link} (hsub : ∀ m ∈ sorted, m ∈ links)
    (h : sorted.Pairwise (Precedes links)) :
    (insertByCost l sorted).Pairwise (Precedes (l :: links)) := by
  induction sorted with
  | nil => exact List.pairwise_singleton _ _
  | cons m sorted ih =>
      obtain ⟨hm, hrest⟩ := List.forall_mem_cons.mp hsub
      obtain ⟨hfirst, hsorted⟩ := List.pairwise_cons.mp h
      have hlonger : ∀ x y, Precedes links x y → Precedes (l :: links) x y :=
        fun x y hxy => hxy.mono (List.sublist_cons_self l links)
      rw [insertByCost]
      split
      · next hlt =>
          refine List.pairwise_cons.mpr ⟨fun x hx => ?_, ih hrest hsorted⟩
          rcases List.mem_cons.mp ((insertByCost_perm l sorted).subset hx) with rfl | hx
          · exact .inl hlt
          · exact hlonger m x (hfirst x hx)
      · next hge =>
          refine List.pairwise_cons.mpr ⟨fun x hx => ?_, h.imp (hlonger _ _)⟩
          have hcost : x.cost ≤ m.cost := by
            rcases List.mem_cons.mp hx with rfl | hx
            · exact le_rfl
            · exact (hfirst x hx).cost_le
          exact precedes_cons_of_mem (hsub x hx) (hcost.trans (not_lt.mp hge))

theorem pairwise_byFallingCost (links : List Link) :
    (byFallingCost links).Pairwise (Precedes links) := by
  induction links with
  | nil => exact .nil
  | cons l links ih => exact pairwise_insertByCost (fun m hm => (byFallingCost_perm _).subset hm) ih

end Order

/-- A minus cell of the chain that ships just what the pivot moves. -/
def Empties (chain : Chain) (l : Link) : Prop :=
  l ∈ chain.links ∧ l.sign = .minus ∧ l.amount = chain.theta

/-- A pivot around the chain of `e` that takes the cell of `l` from the basis and keeps the cells of
`kept` in it. -/
structure Swap (p : Problem) (g : Grid) (e : Nat × Nat) (chain : Chain) (l : Link)
    (kept : List Link) (g' : Grid) : Prop where
  plan : g'.BasicPlan p
  basicCount_eq : g'.basicCount = p.rows + p.cols - 1
  basis_eq : g'.basis = (insert e g.basis).erase l.place
  entering : g'.cell e.1 e.2 = .basic chain.theta
  moved : ∀ m ∈ chain.links, g'.amount m.row m.col = m.amount + m.sign.factor * chain.theta
  unchanged : ∀ i j, i < p.rows → j < p.cols → (i, j) ∉ chain.links.map Link.place →
    g'.cell i j = g.cell i j
  leaves : Empties chain l
  last : ∀ m, Empties chain m → m ≠ l → Precedes chain.links m l
  mem_kept : ∀ m, m ∈ kept ↔ Empties chain m ∧ m ≠ l
  sorted : kept.Pairwise (Precedes chain.links)
  kept_eq : ∀ m ∈ kept, g'.cell m.row m.col = .basic 0

end Pivot

namespace Grid

open Pivot

section Swap

variable {p : Problem} {g : Grid} {e : Nat × Nat} {cs : List (Nat × Nat)} {init : List Link}
  {l : Link}

theorem Circuit.entering_eq (hg : g.BasicPlan p) (he : e.1 < p.rows ∧ e.2 < p.cols)
    (hvacant : (g.cell e.1 e.2).isBasic = false) (h : g.Circuit e cs) :
    (shift (g.around p e cs).theta g (g.around p e cs).links).cell e.1 e.2 =
      .basic (g.around p e cs).theta := by
  have hlink : g.link p .plus e ∈ (g.around p e cs).links := List.mem_cons_self
  have hzero : (g.cell e.1 e.2).amount = 0 := amount_eq_zero_of_vacant hvacant
  refine (cell_shift_of_mem hg.regular (h.placed hg.fits he) hlink).trans ?_
  change Cell.basic ((g.cell e.1 e.2).amount + (g.around p e cs).theta) = _
  rw [hzero, zero_add]

theorem Circuit.swap (hp : p.Sound) (hg : g.BasicPlan p) (he : e.1 < p.rows ∧ e.2 < p.cols)
    (hvacant : (g.cell e.1 e.2).isBasic = false) (h : g.Circuit e cs)
    (hsorted : byFallingCost (g.emptied p e cs) = init ++ [l])
    (hexchange : Exchange p g e cs (g.exchanged p e cs init)
      ⟨(g.around p e cs).theta, [l.place], init.map Link.place⟩) :
    Swap p g e (g.around p e cs) l init (g.exchanged p e cs init) := by
  have hperm : (g.emptied p e cs).Perm (init ++ [l]) := hsorted ▸ (byFallingCost_perm _).symm
  have hplaced := h.placed (p := p) hg.fits he
  have hin : ∀ m, m ∈ g.emptied p e cs ↔ m ∈ init ∨ m = l := by
    intro m
    rw [hperm.mem_iff, List.mem_append, List.mem_singleton]
  have hcells : ∀ {c}, c ∈ init.map Link.place → c ∈ cs := by
    intro c hc
    obtain ⟨m, hm, rfl⟩ := List.mem_map.mp hc
    exact h.place_mem_cells ((hin m).mpr (.inl hm))
  have hapart : ∀ m ∈ init, m ≠ l := by
    have hnodup := hperm.nodup_iff.mp h.nodup_emptied.of_map
    exact fun m hm => (List.nodup_append.mp hnodup).2.2 m hm l List.mem_cons_self
  have horder : (init ++ [l]).Pairwise (Precedes (g.around p e cs).links) := by
    rw [← hsorted]
    exact (pairwise_byFallingCost _).imp fun hab => hab.mono List.filter_sublist
  obtain ⟨hinit, -, hlast⟩ := List.pairwise_append.mp horder
  exact {
    plan := hexchange.plan
    basicCount_eq := hexchange.plan.basicCount_eq hp
    basis_eq := by
      obtain ⟨c, -, hc, hbasis⟩ := hexchange.leaving
      rwa [← List.singleton_inj.mp hc] at hbasis
    entering := by
      rw [h.cell_exchanged hg he hperm he.2, if_neg, h.entering_eq hg he hvacant]
      exact fun hmem => (List.nodup_cons.mp h.nodup).1 (hcells hmem)
    moved m hm := by
      have hj := (hplaced.within m hm).2
      rw [h.amount_exchanged hg he hperm (hg.fits.2 ▸ hj),
        amount_shift_of_mem hg.regular hplaced hm, (mem_around hm).2]
    unchanged i j hi hj hoff := by
      rw [h.cell_exchanged hg he hperm hj, if_neg,
        cell_shift_of_not_mem hg.regular hplaced.within (hg.fits.2.symm ▸ hj) hoff]
      rw [map_place_around] at hoff
      exact fun hmem => hoff (List.mem_cons_of_mem e (hcells hmem))
    leaves := h.mem_emptied_iff.mp ((hin l).mpr (.inr rfl))
    last m hm hne := by
      have hmem := (hin m).mp (h.mem_emptied_iff.mpr hm)
      exact hlast m (hmem.resolve_right hne) l List.mem_cons_self
    mem_kept m := by
      constructor
      · intro hm
        exact ⟨h.mem_emptied_iff.mp ((hin m).mpr (.inl hm)), hapart m hm⟩
      · intro ⟨hm, hne⟩
        exact ((hin m).mp (h.mem_emptied_iff.mpr hm)).resolve_right hne
    sorted := hinit
    kept_eq m hm := by
      have hmem : (m.row, m.col) ∈ init.map Link.place := List.mem_map_of_mem hm
      have hlink := (h.mem_emptied_iff.mp ((hin m).mpr (.inl hm))).1
      rw [h.cell_exchanged hg he hperm (hg.fits.2 ▸ (hplaced.within m hlink).2), if_pos hmem] }

end Swap

end Grid

namespace Pivot

section Apply

variable {p : Problem} {g : Grid} {e : Nat × Nat}

/-- Every vacant cell can enter a basic plan, in exchange for one emptied cell and at its
opportunity cost. -/
theorem apply_swaps {costs : List (List Int)} {supply demand : List Int}
    (hp : Problem.ofTable costs supply demand = .ok p) (hg : g.BasicPlan p)
    (he : e.1 < p.rows ∧ e.2 < p.cols) (hvacant : (g.cell e.1 e.2).isBasic = false) :
    ∃ chain l kept g', Chain.cycle p g e.1 e.2 = .ok chain ∧
      apply p g chain = .ok (g', ⟨chain.theta, [l.place], kept.map Link.place⟩) ∧
      Swap p g e chain l kept g' ∧
      ∀ method, ∃ values delta cost, Potentials.compute method p g = .ok values ∧
        values.opportunityCost p e.1 e.2 = .ok delta ∧ g.totalCost p = .ok cost ∧
        g'.totalCost p = .ok (cost + chain.theta * delta) := by
  have hsound := Problem.sound_of_ofTable hp
  have hnot : e ∉ g.basis := fun hmem => by simp [(Grid.mem_basis.mp hmem).2.2] at hvacant
  obtain ⟨cs, hcircuit, hcycle⟩ := Chain.cycle_eq_ok hsound hg he hnot
  obtain ⟨init, l, hsorted, hexchange, hsettle⟩ := hcircuit.settle_eq_ok hsound hg he hnot
  have hswap := hcircuit.swap hsound hg he hvacant hsorted hexchange
  refine ⟨_, l, init, _, hcycle,
    (hcircuit.apply_eq hsound hg he).trans (hsettle _ (.refl _)), hswap, fun method => ?_⟩
  obtain ⟨f, hf⟩ := hg.exists_prices
  have hvalues :=
    (Potentials.exhausts_compute hsound hg.fits hg.regular method).eq_ok hsound hg hf
  have hcost := hg.feasible.totalCost_eq_ok hsound hg.fits hg.regular
  have hcost' := hswap.plan.feasible.totalCost_eq_ok hsound hswap.plan.fits hswap.plan.regular
  have hobjective : (g.exchanged p e cs init).objective p =
      g.objective p + (g.around p e cs).theta * reducedCost p f e.1 e.2 := by
    rw [Grid.objective, hexchange.weigh, hcircuit.sum_cost hf, Grid.objective]
  exact ⟨_, _, _, hvalues, opportunityCost_eq_ok hsound hg hf he.1 he.2, hcost,
    hobjective ▸ hcost'⟩

theorem apply_swaps_crossed : ∃ chain l kept g',
    Chain.cycle crossed crossedStart.grid 0 1 = .ok chain ∧
      apply crossed crossedStart.grid chain = .ok (g', ⟨1, [(1, 1)], [(0, 0)]⟩) ∧
      Swap crossed crossedStart.grid (0, 1) chain l kept g' := by
  obtain ⟨chain, l, kept, g', hcycle, happly, hswap, -⟩ :=
    apply_swaps (e := (0, 1)) ofTable_crossed basicPlan_crossed (by decide) rfl
  have hrun : (do
      let chain ← Chain.cycle crossed crossedStart.grid 0 1
      let pivoted ← apply crossed crossedStart.grid chain
      return pivoted.2) = .ok ⟨1, [(1, 1)], [(0, 0)]⟩ := by decide +kernel
  rw [hcycle, ok_bind, happly, ok_bind] at hrun
  exact ⟨chain, l, kept, g', hcycle, happly.trans (by rw [← Except.ok.inj hrun]), hswap⟩

end Apply

end Pivot

end Transportation
