import Transportation.Proofs.Circuits
import Transportation.Proofs.Shifts
/-!
# Pivots of basic plans

Around the cycle of a vacant cell the least amount of a minus cell is moved. All totals stay, and of
the minus cells that are emptied the repair keeps all but one. So one cell enters the basis and one
leaves it, and since both lie on one cycle the basis stays connected.
-/
namespace Transportation

namespace Pivot

def fill (g : Grid) (places : List (Nat × Nat)) : Grid :=
  places.foldl (fun g c => g.put c.1 c.2 (.basic 0)) g

def kept (p : Problem) (g : Grid) (links : List Link) : List (Nat × Nat) :=
  ((byFallingCost (links.filter fun l => !(g.cell l.row l.col).isBasic)).take
    (p.basisSize - g.basicCount)).map Link.place

section Repair

variable {p : Problem} {g : Grid} {links : List Link} {places : List (Nat × Nat)}

@[simp] theorem rows_fill (places : List (Nat × Nat)) : (fill g places).rows = g.rows := by
  induction places generalizing g with
  | nil => rfl
  | cons c places ih => exact (ih (g := g.put c.1 c.2 (.basic 0))).trans rfl

@[simp] theorem cols_fill (places : List (Nat × Nat)) : (fill g places).cols = g.cols := by
  induction places generalizing g with
  | nil => rfl
  | cons c places ih => exact (ih (g := g.put c.1 c.2 (.basic 0))).trans rfl

theorem regular_fill (hreg : g.Regular) (places : List (Nat × Nat)) :
    (fill g places).Regular := by
  induction places generalizing g with
  | nil => exact hreg
  | cons c places ih => exact ih (hreg.put _ _ _)

theorem cell_fill (hreg : g.Regular) (hplaces : ∀ c ∈ places, c.1 < g.rows ∧ c.2 < g.cols)
    {i j : Nat} (hj : j < g.cols) :
    (fill g places).cell i j = if (i, j) ∈ places then .basic 0 else g.cell i j := by
  induction places generalizing g with
  | nil => simp [fill]
  | cons c places ih =>
      obtain ⟨hrow, hcol⟩ := hplaces c List.mem_cons_self
      have hrest := ih (hreg.put c.1 c.2 (.basic 0))
        (fun d hd => hplaces d (List.mem_cons_of_mem c hd)) hj
      rw [hreg.cell_put hrow hcol hj] at hrest
      refine hrest.trans ?_
      by_cases hmem : (i, j) ∈ places <;> simp [hmem, Prod.ext_iff]

theorem basis_fill (hreg : g.Regular) (hplaces : ∀ c ∈ places, c.1 < g.rows ∧ c.2 < g.cols) :
    (fill g places).basis = g.basis ∪ places.toFinset := by
  ext ⟨i, j⟩
  rw [Grid.mem_basis, rows_fill, cols_fill, Finset.mem_union, Grid.mem_basis, List.mem_toFinset]
  by_cases hj : j < g.cols
  · rw [cell_fill hreg hplaces hj]
    by_cases hmem : (i, j) ∈ places
    · simp [hmem, hplaces _ hmem, Cell.isBasic]
    · simp [hmem]
  · have hnot : (i, j) ∉ places := fun hmem => hj (hplaces _ hmem).2
    simp [hj, hnot]

theorem insertByCost_perm (l : Link) (links : List Link) :
    (insertByCost l links).Perm (l :: links) := by
  induction links with
  | nil => exact .refl _
  | cons m links ih =>
      rw [insertByCost]
      split
      · exact (ih.cons m).trans (.swap l m links)
      · exact .refl _

theorem byFallingCost_perm (links : List Link) : (byFallingCost links).Perm links := by
  induction links with
  | nil => exact .refl _
  | cons l links ih => exact (insertByCost_perm l _).trans (ih.cons l)

private theorem foldlM_set_eq_ok (hreg : g.Regular)
    (hplaces : ∀ c ∈ places, c.1 < g.rows ∧ c.2 < g.cols) :
    places.foldlM (fun (g : Grid) (c : Nat × Nat) => g.set c.1 c.2 (.basic 0)) g =
      .ok (fill g places) := by
  induction places generalizing g with
  | nil => rfl
  | cons c places ih =>
      obtain ⟨hi, hj⟩ := hplaces c List.mem_cons_self
      rw [List.foldlM_cons, hreg.set_eq_ok hi hj, ok_bind]
      exact ih (hreg.put _ _ _) fun d hd => hplaces d (List.mem_cons_of_mem c hd)

theorem mem_kept {c : Nat × Nat} (hc : c ∈ kept p g links) :
    ∃ l ∈ links, l.place = c ∧ (g.cell l.row l.col).isBasic = false := by
  obtain ⟨l, hl, rfl⟩ := List.mem_map.mp hc
  have hmem := (byFallingCost_perm _).subset (List.mem_of_mem_take hl)
  obtain ⟨hlink, hvacant⟩ := List.mem_filter.mp hmem
  exact ⟨l, hlink, rfl, by simpa using hvacant⟩

theorem repair_eq_ok (hreg : g.Regular)
    (hlinks : ∀ l ∈ links, l.row < g.rows ∧ l.col < g.cols) :
    repair p g ⟨links⟩ = .ok (fill g (kept p g links), kept p g links) := by
  rw [repair]
  dsimp only
  split
  · next hmissing =>
      rw [kept, hmissing, List.take_zero]
      rfl
  · rw [filterM_eq_ok_filter _ fun l => !(g.cell l.row l.col).isBasic]
    · rw [ok_bind]
      change ((kept p g links).foldlM _ g >>= _) = _
      rw [foldlM_set_eq_ok hreg]
      · rfl
      · intro c hc
        obtain ⟨l, hl, rfl, -⟩ := mem_kept hc
        exact hlinks l hl
    · intro l hl
      rw [hreg.isBasic_eq_ok (hlinks l hl).1 (hlinks l hl).2]
      rfl

theorem settle_eq_ok (hreg : g.Regular)
    (hlinks : ∀ l ∈ links, l.row < g.rows ∧ l.col < g.cols) (leaving : List (Nat × Nat)) :
    settle p ⟨links⟩ g leaving = .ok (fill g (kept p g links),
      ⟨(Chain.mk links).theta, leaving.filter fun c => !(kept p g links).contains c,
        kept p g links⟩) := by
  rw [settle, repair_eq_ok hreg hlinks]
  rfl

end Repair

end Pivot

namespace Grid

section Around

open Pivot

variable {p : Problem} {g : Grid} {e : Nat × Nat} {cs : List (Nat × Nat)} {l : Link}

theorem map_place_around : (g.around p e cs).links.map Link.place = e :: cs := map_place_signed _ _

theorem mem_around (hl : l ∈ (g.around p e cs).links) :
    l.place ∈ e :: cs ∧ l.amount = g.amount l.row l.col := by
  obtain ⟨hmem, heq⟩ := mem_signed _ hl
  refine ⟨hmem, ?_⟩
  rw [heq]
  rfl

theorem Circuit.placed (h : g.Circuit e cs) (hfit : g.Fits p)
    (he : e.1 < p.rows ∧ e.2 < p.cols) : Placed g (g.around p e cs).links where
  within l hl := by
    rcases List.mem_cons.mp (mem_around hl).1 with heq | hmem
    · rw [← heq] at he
      exact ⟨hfit.1.symm ▸ he.1, hfit.2.symm ▸ he.2⟩
    · obtain ⟨hi, hj, -⟩ := mem_basis.mp (h.basic _ hmem)
      exact ⟨hi, hj⟩
  nodup := by
    rw [map_place_around]
    exact h.nodup

theorem Circuit.basic_of_minus (h : g.Circuit e cs) (hl : l ∈ (g.around p e cs).links)
    (hminus : l.sign = .minus) : l.place ∈ g.basis := by
  rcases List.mem_cons.mp hl with rfl | hl
  · contradiction
  · exact h.basic _ (mem_signed _ hl).1

private theorem Circuit.exists_minus (h : g.Circuit e cs) :
    ∃ l ∈ (g.around p e cs).links, l.sign = .minus := by
  cases cs with
  | nil => exact absurd h.trail (by simp [Trail])
  | cons c cs =>
      exact ⟨g.link p .minus c, List.mem_cons_of_mem _ List.mem_cons_self, rfl⟩

private theorem min?_getD_spec (xs : List Int) (hne : xs ≠ []) :
    xs.min?.getD 0 ∈ xs ∧ ∀ x ∈ xs, xs.min?.getD 0 ≤ x := by
  cases hmin : xs.min? with
  | none => exact absurd (List.min?_eq_none_iff.mp hmin) hne
  | some x => exact List.min?_eq_some_iff.mp hmin

theorem Circuit.theta_spec (h : g.Circuit e cs) :
    (∃ l ∈ (g.around p e cs).links, l.sign = .minus ∧
      g.amount l.row l.col = (g.around p e cs).theta) ∧
    ∀ l ∈ (g.around p e cs).links, l.sign = .minus →
      (g.around p e cs).theta ≤ g.amount l.row l.col := by
  have hmem : ∀ l, l ∈ (g.around p e cs).links.filter (fun l => l.sign == .minus) ↔
      l ∈ (g.around p e cs).links ∧ l.sign = .minus := by
    intro l
    rw [List.mem_filter, beq_iff_eq]
  obtain ⟨l, hl, hminus⟩ := h.exists_minus (p := p)
  obtain ⟨hmin, hle⟩ := min?_getD_spec
    (((g.around p e cs).links.filter fun l => l.sign == .minus).map Link.amount)
    (List.ne_nil_of_mem (List.mem_map_of_mem ((hmem l).mpr ⟨hl, hminus⟩)))
  constructor
  · obtain ⟨m, hm, hamount⟩ := List.mem_map.mp hmin
    obtain ⟨hm, hminus⟩ := (hmem m).mp hm
    refine ⟨m, hm, hminus, ?_⟩
    rw [← (mem_around hm).2, hamount]
    rfl
  · intro m hm hminus
    rw [← (mem_around hm).2]
    exact hle _ (List.mem_map_of_mem ((hmem m).mpr ⟨hm, hminus⟩))

/-- Around a circuit the signed sum of values of nodes is zero. -/
theorem Circuit.sum_around (h : g.Circuit e cs) (f : Node → Int) :
    ((g.around p e cs).links.map fun l =>
      l.sign.factor * (f (.source l.row) + f (.sink l.col))).sum = 0 := by
  have hsum := h.closed.sum_signed (p := p) (g := g) f
  rw [sub_self] at hsum
  exact hsum

private def rowValue (row : Nat) : Node → Int
  | .source i => if i = row then 1 else 0
  | .sink _ => 0

private def colValue (col : Nat) : Node → Int
  | .source _ => 0
  | .sink j => if j = col then 1 else 0

private theorem Circuit.sum_inRow (h : g.Circuit e cs) (row : Nat) :
    ((g.around p e cs).links.map fun l => l.sign.factor * inRow row l.row l.col).sum = 0 := by
  rw [← h.sum_around (p := p) (rowValue row)]
  simp only [rowValue, inRow, add_zero]

private theorem Circuit.sum_inCol (h : g.Circuit e cs) (col : Nat) :
    ((g.around p e cs).links.map fun l => l.sign.factor * inCol col l.row l.col).sum = 0 := by
  rw [← h.sum_around (p := p) (colValue col)]
  simp only [colValue, inCol, zero_add]

section Shift

variable (hg : g.BasicPlan p) (he : e.1 < p.rows ∧ e.2 < p.cols) (h : g.Circuit e cs)

include hg he h

theorem Circuit.theta_nonneg : 0 ≤ (g.around p e cs).theta := by
  obtain ⟨⟨l, hl, -, htheta⟩, -⟩ := h.theta_spec (p := p)
  obtain ⟨hi, hj⟩ := (h.placed hg.fits he).within l hl
  rw [← htheta]
  exact hg.feasible.nonneg _ _ (hg.fits.1 ▸ hi) (hg.fits.2 ▸ hj)

private theorem Circuit.amount_shift_nonneg {i j : Nat} (hi : i < p.rows) (hj : j < p.cols) :
    0 ≤ (shift (g.around p e cs).theta g (g.around p e cs).links).amount i j := by
  have hplaced := h.placed hg.fits he
  by_cases hmem : (i, j) ∈ (g.around p e cs).links.map Link.place
  · obtain ⟨l, hl, hplace⟩ := List.mem_map.mp hmem
    have hnonneg := hg.feasible.nonneg i j hi hj
    cases hplace
    rw [amount_shift_of_mem hg.regular hplaced hl]
    cases hsign : l.sign with
    | plus =>
        have := h.theta_nonneg hg he
        rw [Sign.factor]
        omega
    | minus =>
        have := h.theta_spec.2 l hl hsign
        rw [Sign.factor]
        omega
  · rw [amount_shift_of_not_mem hg.regular hplaced.within (hg.fits.2.symm ▸ hj) hmem]
    exact hg.feasible.nonneg i j hi hj

theorem Circuit.feasible_shift :
    (shift (g.around p e cs).theta g (g.around p e cs).links).Feasible p := by
  have hwithin := (h.placed hg.fits he).within
  apply feasible_of_weigh (fits_shift hg.fits _)
  · exact fun i j hi hj => h.amount_shift_nonneg hg he hi hj
  · intro i hi
    rw [weigh_shift hg.regular hwithin, h.sum_inRow, mul_zero, add_zero,
      hg.feasible.weigh_inRow_eq hg.fits hi]
  · intro j hj
    rw [weigh_shift hg.regular hwithin, h.sum_inCol, mul_zero, add_zero,
      hg.feasible.weigh_inCol_eq hg.fits hj]

private theorem Circuit.weigh_shift (w : Nat → Nat → Int) :
    (shift (g.around p e cs).theta g (g.around p e cs).links).weigh w = g.weigh w +
      (g.around p e cs).theta *
        ((g.around p e cs).links.map fun l => l.sign.factor * w l.row l.col).sum :=
  Pivot.weigh_shift hg.regular (h.placed hg.fits he).within w

theorem Circuit.movable (hp : p.Sound) :
    Movable (g.around p e cs).theta g (g.around p e cs).links := by
  intro l hl
  have hplaced := h.placed hg.fits he
  obtain ⟨hi, hj⟩ := hplaced.within l hl
  rw [hg.fits.1] at hi
  rw [hg.fits.2] at hj
  rw [← amount_shift_of_mem hg.regular hplaced hl]
  have hfeasible := h.feasible_shift hg he
  exact Amount.inRange_of_nonneg (hfeasible.nonneg _ _ hi hj)
    ((hfeasible.amount_le_total hp hi hj).trans hp.total_le)

theorem Circuit.leaves_eq (hl : l ∈ (g.around p e cs).links) :
    leaves (g.around p e cs).theta g l =
      !((shift (g.around p e cs).theta g (g.around p e cs).links).cell l.row l.col).isBasic := by
  rw [cell_shift_of_mem hg.regular (h.placed hg.fits he) hl, leaves]
  cases hsign : l.sign with
  | plus => simp [after, Cell.isBasic]
  | minus =>
      have hbasic := (mem_basis.mp (h.basic_of_minus hl hsign)).2.2
      rw [show (g.cell l.row l.col).isBasic = true from hbasic, Bool.true_and]

end Shift

def emptied (p : Problem) (g : Grid) (e : Nat × Nat) (cs : List (Nat × Nat)) : List Link :=
  (g.around p e cs).links.filter (leaves (g.around p e cs).theta g)

section Exchange

variable (hp : p.Sound) (hg : g.BasicPlan p) (he : e.1 < p.rows ∧ e.2 < p.cols)
  (h : g.Circuit e cs)

include h in
theorem Circuit.mem_emptied_iff : l ∈ g.emptied p e cs ↔ l ∈ (g.around p e cs).links ∧
    l.sign = .minus ∧ l.amount = (g.around p e cs).theta := by
  rw [emptied, List.mem_filter]
  refine and_congr_right fun hl => ?_
  rw [(mem_around hl).2]
  cases hsign : l.sign with
  | plus => simp [leaves, hsign, after, Cell.isBasic]
  | minus =>
      have hbasic : (g.cell l.row l.col).isBasic = true :=
        (mem_basis.mp (h.basic_of_minus hl hsign)).2.2
      rw [leaves, hbasic, hsign, after, Bool.true_and, Bool.not_eq_true', amount]
      split
      · next hzero => exact iff_of_true rfl ⟨rfl, by omega⟩
      · next hrest => exact iff_of_false Bool.noConfusion fun heq => hrest (by omega)

include h in
private theorem Circuit.emptied_ne_nil : g.emptied p e cs ≠ [] := by
  obtain ⟨l, hl, hminus, htheta⟩ := (h.theta_spec (p := p)).1
  exact List.ne_nil_of_mem (h.mem_emptied_iff.mpr ⟨hl, hminus, (mem_around hl).2.trans htheta⟩)

include h in
theorem Circuit.place_mem_cells (hl : l ∈ g.emptied p e cs) : l.place ∈ cs := by
  obtain ⟨hmem, hminus, -⟩ := h.mem_emptied_iff.mp hl
  rcases List.mem_cons.mp hmem with rfl | hmem
  · contradiction
  · exact (mem_signed _ hmem).1

include h in
theorem Circuit.nodup_emptied : ((g.emptied p e cs).map Link.place).Nodup := by
  have hsub := (List.filter_sublist (l := (g.around p e cs).links)
    (p := leaves (g.around p e cs).theta g)).map Link.place
  refine List.Nodup.sublist hsub ?_
  rw [map_place_around]
  exact h.nodup

include hg he h

private theorem Circuit.basis_shift :
    (shift (g.around p e cs).theta g (g.around p e cs).links).basis =
      insert e g.basis \ ((g.emptied p e cs).map Link.place).toFinset := by
  have hplaced := h.placed hg.fits he
  ext ⟨i, j⟩
  rw [mem_basis, rows_shift, cols_shift, Finset.mem_sdiff, List.mem_toFinset]
  by_cases hmem : (i, j) ∈ (g.around p e cs).links.map Link.place
  · obtain ⟨l, hl, hplace⟩ := List.mem_map.mp hmem
    obtain ⟨hi, hj⟩ := hplaced.within l hl
    have hin : (i, j) ∈ insert e g.basis := by
      rw [map_place_around] at hmem
      rcases List.mem_cons.mp hmem with heq | hcs
      · exact heq ▸ Finset.mem_insert_self _ _
      · exact Finset.mem_insert_of_mem (h.basic _ hcs)
    have hout : (i, j) ∈ (g.emptied p e cs).map Link.place ↔
        leaves (g.around p e cs).theta g l = true := by
      constructor
      · intro hout
        obtain ⟨m, hm, hplace'⟩ := List.mem_map.mp hout
        obtain ⟨hm, hleaves⟩ := List.mem_filter.mp hm
        rwa [← List.inj_on_of_nodup_map hplaced.nodup hm hl (hplace'.trans hplace.symm)]
      · exact fun hleaves => List.mem_map.mpr ⟨l, List.mem_filter.mpr ⟨hl, hleaves⟩, hplace⟩
    cases hplace
    rw [hout, h.leaves_eq hg he hl]
    simp [hi, hj, hin]
  · have hcs : (i, j) ∉ e :: cs := by rwa [map_place_around] at hmem
    have hout : (i, j) ∉ (g.emptied p e cs).map Link.place := by
      intro hout
      obtain ⟨m, hm, hplace⟩ := List.mem_map.mp hout
      exact hmem (List.mem_map.mpr ⟨m, (List.mem_filter.mp hm).1, hplace⟩)
    rw [List.mem_cons, not_or] at hcs
    by_cases hj : j < g.cols
    · rw [cell_shift_of_not_mem hg.regular hplaced.within hj hmem]
      simp [Finset.mem_insert, hcs.1, hout, mem_basis]
    · simp [Finset.mem_insert, hcs.1, mem_basis, hj]

theorem Circuit.basis_shift_subset :
    (shift (g.around p e cs).theta g (g.around p e cs).links).basis ⊆ insert e g.basis := by
  rw [h.basis_shift hg he]
  exact Finset.sdiff_subset

/-- All emptied cells but one are missing from the basis after the move. -/
private theorem Circuit.missing_eq (hp : p.Sound) (hvacant : e ∉ g.basis) :
    p.basisSize - (shift (g.around p e cs).theta g (g.around p e cs).links).basicCount =
      (g.emptied p e cs).length - 1 := by
  have hsub : ((g.emptied p e cs).map Link.place).toFinset ⊆ insert e g.basis := by
    intro c hc
    obtain ⟨l, hl, rfl⟩ := List.mem_map.mp (List.mem_toFinset.mp hc)
    exact Finset.mem_insert_of_mem (h.basic _ (h.place_mem_cells hl))
  have hcard := congrArg Finset.card (h.basis_shift hg he)
  rw [(regular_shift hg.regular _).card_basis, Finset.card_sdiff_of_subset hsub,
    Finset.card_insert_of_notMem hvacant, hg.regular.card_basis,
    List.toFinset_card_of_nodup h.nodup_emptied, List.length_map] at hcard
  have hle := Finset.card_le_card hsub
  rw [Finset.card_insert_of_notMem hvacant, hg.regular.card_basis,
    List.toFinset_card_of_nodup h.nodup_emptied, List.length_map] at hle
  have hpos := List.length_pos_iff.mpr (h.emptied_ne_nil (p := p))
  rw [← hg.basicCount_eq hp]
  omega

/-- The repair keeps all emptied cells but the last in the order of cost. -/
private theorem Circuit.kept_eq (hp : p.Sound) (hvacant : e ∉ g.basis) :
    ∃ init l, byFallingCost (g.emptied p e cs) = init ++ [l] ∧
      kept p (shift (g.around p e cs).theta g (g.around p e cs).links) (g.around p e cs).links =
        init.map Link.place := by
  obtain ⟨init, l, hsorted⟩ :=
    (List.eq_nil_or_concat (byFallingCost (g.emptied p e cs))).resolve_left
    fun hnil => h.emptied_ne_nil (p := p) (List.length_eq_zero_iff.mp (by
      rw [← length_byFallingCost, hnil, List.length_nil]))
  rw [List.concat_eq_append] at hsorted
  refine ⟨init, l, hsorted, ?_⟩
  have hvacated : (g.around p e cs).links.filter (fun l => !((shift (g.around p e cs).theta g
      (g.around p e cs).links).cell l.row l.col).isBasic) = g.emptied p e cs :=
    List.filter_congr fun l hl => (h.leaves_eq hg he hl).symm
  have hlength := congrArg List.length hsorted
  rw [length_byFallingCost, List.length_append, List.length_singleton] at hlength
  rw [kept, hvacated, h.missing_eq hg he hp hvacant, hsorted, hlength, Nat.add_sub_cancel,
    List.take_left]

end Exchange

private theorem filter_not_mem_eq_singleton {xs init : List (Nat × Nat)} {c : Nat × Nat}
    (hperm : xs.Perm (init ++ [c])) (hnodup : (init ++ [c]).Nodup) :
    xs.filter (fun d => !init.contains d) = [c] := by
  have hc : c ∉ init := fun hc =>
    (List.nodup_append.mp hnodup).2.2 c hc c List.mem_cons_self rfl
  have hinit : init.filter (fun d => !init.contains d) = [] :=
    List.filter_eq_nil_iff.mpr fun d hd => by simp [hd]
  have hfilter := hperm.filter fun d => !init.contains d
  rw [List.filter_append, hinit, List.nil_append] at hfilter
  rw [List.filter_singleton] at hfilter
  simpa [hc] using hfilter

private theorem sdiff_union_eq_erase {X P : Finset (Nat × Nat)} {c : Nat × Nat} (hsub : P ⊆ X)
    (hc : c ∉ P) : X \ (P ∪ {c}) ∪ P = X.erase c := by
  ext d
  simp only [Finset.mem_union, Finset.mem_sdiff, Finset.mem_singleton, Finset.mem_erase]
  constructor
  · rintro (⟨hX, hnot⟩ | hP)
    · exact ⟨fun heq => hnot (.inr heq), hX⟩
    · exact ⟨fun heq => hc (heq ▸ hP), hsub hP⟩
  · rintro ⟨hne, hX⟩
    by_cases hP : d ∈ P
    · exact .inr hP
    · exact .inl ⟨hX, not_or.mpr ⟨hP, hne⟩⟩

/-- The outcome of a pivot around the circuit of `e`: one of its cells leaves the basis. -/
structure Exchange (p : Problem) (g : Grid) (e : Nat × Nat) (cs : List (Nat × Nat)) (g' : Grid)
    (result : PivotResult) : Prop where
  plan : g'.BasicPlan p
  theta : result.theta = (g.around p e cs).theta
  weigh : ∀ w, g'.weigh w = g.weigh w + (g.around p e cs).theta *
    ((g.around p e cs).links.map fun l => l.sign.factor * w l.row l.col).sum
  leaving : ∃ c ∈ cs, result.leaving = [c] ∧ g'.basis = (insert e g.basis).erase c

def exchanged (p : Problem) (g : Grid) (e : Nat × Nat) (cs : List (Nat × Nat)) (init : List Link) :
    Grid :=
  fill (shift (g.around p e cs).theta g (g.around p e cs).links) (init.map Link.place)

section Exchanged

variable {init : List Link} (hg : g.BasicPlan p) (he : e.1 < p.rows ∧ e.2 < p.cols)
  (h : g.Circuit e cs) (hperm : (g.emptied p e cs).Perm (init ++ [l]))

private theorem fits_exchanged (hfit : g.Fits p) : (g.exchanged p e cs init).Fits p :=
  ⟨(rows_fill _).trans (fits_shift hfit _).1, (cols_fill _).trans (fits_shift hfit _).2⟩

include hg he h hperm in
private theorem Circuit.emptied_within {c : Nat × Nat} (hc : c ∈ init.map Link.place) :
    c.1 < (shift (g.around p e cs).theta g (g.around p e cs).links).rows ∧
      c.2 < (shift (g.around p e cs).theta g (g.around p e cs).links).cols := by
  obtain ⟨m, hm, rfl⟩ := List.mem_map.mp hc
  rw [rows_shift, cols_shift]
  exact (h.placed hg.fits he).within m
    (h.mem_emptied_iff.mp (hperm.mem_iff.mpr (List.mem_append_left _ hm))).1

include hg he h hperm in
private theorem Circuit.amount_emptied {c : Nat × Nat} (hc : c ∈ init.map Link.place) :
    (shift (g.around p e cs).theta g (g.around p e cs).links).amount c.1 c.2 = 0 := by
  obtain ⟨m, hm, rfl⟩ := List.mem_map.mp hc
  obtain ⟨hmem, hminus, hamount⟩ :=
    h.mem_emptied_iff.mp (hperm.mem_iff.mpr (List.mem_append_left _ hm))
  change (shift (g.around p e cs).theta g (g.around p e cs).links).amount m.row m.col = 0
  rw [amount_shift_of_mem hg.regular (h.placed hg.fits he) hmem, hminus, ← (mem_around hmem).2,
    hamount, Sign.factor, neg_one_mul, add_neg_cancel]

include hg he h hperm in
theorem Circuit.cell_exchanged {i j : Nat} (hj : j < p.cols) :
    (g.exchanged p e cs init).cell i j = if (i, j) ∈ init.map Link.place then .basic 0 else
      (shift (g.around p e cs).theta g (g.around p e cs).links).cell i j := by
  refine cell_fill (regular_shift hg.regular _) (fun c hc => h.emptied_within hg he hperm hc) ?_
  rw [cols_shift, hg.fits.2]
  exact hj

include hg he h hperm in
theorem Circuit.amount_exchanged {i j : Nat} (hj : j < p.cols) :
    (g.exchanged p e cs init).amount i j =
      (shift (g.around p e cs).theta g (g.around p e cs).links).amount i j := by
  rw [amount, h.cell_exchanged hg he hperm hj]
  split
  · next hmem => exact (h.amount_emptied hg he hperm hmem).symm
  · rfl

include hg he h hperm in
private theorem Circuit.basis_exchanged :
    (g.exchanged p e cs init).basis = (insert e g.basis).erase l.place := by
  have hplaces := hperm.map Link.place
  rw [List.map_append, List.map_singleton] at hplaces
  have hnodup := hplaces.nodup_iff.mp h.nodup_emptied
  have hsub : (init.map Link.place).toFinset ⊆ insert e g.basis := by
    intro c hc
    obtain ⟨m, hm, rfl⟩ := List.mem_map.mp (List.mem_toFinset.mp hc)
    have hm' : m ∈ g.emptied p e cs := hperm.mem_iff.mpr (List.mem_append_left _ hm)
    exact Finset.mem_insert_of_mem (h.basic _ (h.place_mem_cells hm'))
  have hnot : l.place ∉ (init.map Link.place).toFinset := by
    rw [List.mem_toFinset]
    exact fun hin => (List.nodup_append.mp hnodup).2.2 _ hin _ List.mem_cons_self rfl
  rw [exchanged, basis_fill (regular_shift hg.regular _) fun c hc =>
      h.emptied_within hg he hperm hc, h.basis_shift hg he, List.toFinset_eq_of_perm _ _ hplaces,
    List.toFinset_append, List.toFinset_cons, List.toFinset_nil, insert_empty_eq,
    sdiff_union_eq_erase hsub hnot]

include hg he h hperm in
/-- One cell of the circuit leaves the basis for the entering cell, so the basis stays a tree. -/
private theorem Circuit.basicPlan_exchanged (hp : p.Sound) (hvacant : e ∉ g.basis) :
    (g.exchanged p e cs init).BasicPlan p := by
  have hl : l.place ∈ cs := h.place_mem_cells (hperm.mem_iff.mpr (by simp))
  have hin : l.place ∈ insert e g.basis := Finset.mem_insert_of_mem (h.basic _ hl)
  refine basicPlan_of_spans hp (fits_exchanged hg.fits)
    (regular_fill (regular_shift hg.regular _) _) ?_ ?_ ?_
  · exact (h.feasible_shift hg he).of_amount_eq fun i j _ hj => h.amount_exchanged hg he hperm hj
  · rw [h.basis_exchanged hg he hperm]
    apply Spans.erase_of_trail ((hg.spans hp).mono (Finset.subset_insert e _)) h.closed h.nodup
    · intro d hd
      rcases List.mem_cons.mp hd with rfl | hd
      · exact Finset.mem_insert_self _ _
      · exact Finset.mem_insert_of_mem (h.basic d hd)
    · exact List.mem_cons_of_mem e hl
  · rw [h.basis_exchanged hg he hperm, Finset.card_erase_of_mem hin,
      Finset.card_insert_of_notMem hvacant, Nat.add_sub_cancel]
    exact hg.card_basis hp

include hg he h hperm in
private theorem Circuit.weigh_exchanged (w : Nat → Nat → Int) :
    (g.exchanged p e cs init).weigh w = g.weigh w + (g.around p e cs).theta *
      ((g.around p e cs).links.map fun l => l.sign.factor * w l.row l.col).sum := by
  rw [← h.weigh_shift hg he, Grid.weigh, Grid.weigh, exchanged, rows_fill, cols_fill]
  apply Finset.sum_congr rfl
  intro i _
  apply Finset.sum_congr rfl
  intro j hj
  rw [Finset.mem_range, cols_shift, hg.fits.2] at hj
  rw [← h.amount_exchanged hg he hperm hj, exchanged]

end Exchanged

/-- However the emptied cells are listed, the pivot settles on one exchange: the last of them in the
order of cost leaves. -/
theorem Circuit.settle_eq_ok (hp : p.Sound) (hg : g.BasicPlan p)
    (he : e.1 < p.rows ∧ e.2 < p.cols) (hvacant : e ∉ g.basis) (h : g.Circuit e cs) :
    ∃ init l, byFallingCost (g.emptied p e cs) = init ++ [l] ∧
      Exchange p g e cs (g.exchanged p e cs init)
        ⟨(g.around p e cs).theta, [l.place], init.map Link.place⟩ ∧
      ∀ leaving, leaving.Perm ((g.emptied p e cs).map Link.place) →
        settle p (g.around p e cs) (shift (g.around p e cs).theta g (g.around p e cs).links)
          leaving = .ok (g.exchanged p e cs init,
            ⟨(g.around p e cs).theta, [l.place], init.map Link.place⟩) := by
  obtain ⟨init, l, hsorted, hkept⟩ := h.kept_eq hg he hp hvacant
  have hperm : (g.emptied p e cs).Perm (init ++ [l]) := hsorted ▸ (byFallingCost_perm _).symm
  have hplaces := hperm.map Link.place
  rw [List.map_append, List.map_singleton] at hplaces
  have hnodup := hplaces.nodup_iff.mp h.nodup_emptied
  refine ⟨init, l, hsorted, ?_, ?_⟩
  · exact {
      plan := h.basicPlan_exchanged hg he hperm hp hvacant
      theta := rfl
      weigh := h.weigh_exchanged hg he hperm
      leaving := ⟨l.place, h.place_mem_cells (hperm.mem_iff.mpr (by simp)), rfl,
        h.basis_exchanged hg he hperm⟩ }
  · intro leaving hleaving
    have hlinks : ∀ m ∈ (g.around p e cs).links,
        m.row < (shift (g.around p e cs).theta g (g.around p e cs).links).rows ∧
          m.col < (shift (g.around p e cs).theta g (g.around p e cs).links).cols := by
      intro m hm
      rw [rows_shift, cols_shift]
      exact (h.placed hg.fits he).within m hm
    have hsettle := Pivot.settle_eq_ok (p := p) (regular_shift hg.regular _) hlinks leaving
    rw [hkept, filter_not_mem_eq_singleton (hleaving.trans hplaces) hnodup] at hsettle
    exact hsettle

theorem Circuit.apply_eq (hp : p.Sound) (hg : g.BasicPlan p) (he : e.1 < p.rows ∧ e.2 < p.cols)
    (h : g.Circuit e cs) : Pivot.apply p g (g.around p e cs) =
      settle p (g.around p e cs) (shift (g.around p e cs).theta g (g.around p e cs).links)
        ((g.emptied p e cs).map Link.place) := by
  rw [Pivot.apply, requireFit_eq_ok_iff.mpr hg.fits, ok_bind,
    foldlM_shiftLink_eq_ok hg.regular (h.placed hg.fits he) (h.movable hg he hp), ok_bind,
    List.nil_append]
  rfl

end Around

end Grid

end Transportation
