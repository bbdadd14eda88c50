import Transportation.Proofs.Swaps
/-!
# Repairs of a basis

A repair keeps as many vacant cells of a chain in the basis as are missing from it, the costliest
first. What it keeps ships nothing, so no sum and no cost of the grid changes, and nothing is left
to repair. The grid may be any grid, and the chain may come from another one.
-/
namespace Transportation

namespace Grid

def amounts (g : Grid) : List Int := g.cells.map Cell.amount

section Amounts

variable {g g' : Grid} {p : Problem}

private theorem shippedFrom_eq_amounts (g : Grid) (i : Nat) : g.shippedFrom i = (do
    let next ← Count.ofNat (i + 1)
    if next * g.cols ≤ g.amounts.length then
      Amount.sum ((g.amounts.drop (i * g.cols)).take g.cols)
    else throw (.breach .outOfRange)) := by
  rw [shippedFrom, row, amounts, List.length_map, ← List.map_drop, ← List.map_take]
  cases Count.ofNat (i + 1) with
  | error failure => rfl
  | ok next =>
      rw [ok_bind, ok_bind]
      split <;> rfl

private theorem shippedTo_eq_amounts (g : Grid) (j : Nat) : g.shippedTo j =
    (List.range g.rows).foldlM (fun acc i => do
      Amount.ofInt (acc + (← entry g.amounts (i * g.cols + j)))) 0 := by
  apply foldlM_congr
  intro acc i _
  rw [get, entry, entry, amounts, List.getElem?_map]
  cases g.cells[i * g.cols + j]? <;> rfl

private def addCost (p : Problem) (acc : Int) (cell : Int × Nat) : Except Failure Int := do
  let cost ← Amount.ofInt (cell.1 * (← p.cost (cell.2 / p.cols) (cell.2 % p.cols)))
  Amount.ofInt (acc + cost)

private theorem inRange_of_addCost {acc acc' : Int} {cell : Int × Nat}
    (h : addCost p acc cell = .ok acc') : Amount.InRange acc' := by
  obtain ⟨cost, -, h⟩ := bind_eq_ok_iff.mp h
  obtain ⟨c, -, h⟩ := bind_eq_ok_iff.mp h
  obtain ⟨hrange, rfl⟩ := Amount.ofInt_eq_ok_iff.mp h
  exact hrange

private theorem addCost_zero (hp : p.Sound) {acc : Int} (hacc : Amount.InRange acc) {k : Nat}
    (hk : k < p.rows * p.cols) : addCost p acc (0, k) = .ok acc := by
  obtain ⟨hi, hj, -⟩ := place_of_position hk
  rw [addCost, hp.cost_eq_ok hi hj, ok_bind, zero_mul, Amount.ofInt_of_inRange (by decide), ok_bind,
    add_zero, Amount.ofInt_of_inRange hacc]

/-- The total cost hangs on the amounts only, not on which cells are basic. -/
private theorem totalCost_eq_amounts (hp : p.Sound) (hfit : g.Fits p) (hreg : g.Regular) :
    g.totalCost p = g.amounts.zipIdx.foldlM (addCost p) 0 := by
  have hzip : g.amounts.zipIdx = g.cells.zipIdx.map fun e => (e.1.amount, e.2) := by
    rw [amounts, List.zipIdx_map]
    rfl
  rw [totalCost, shipments, List.foldlM_filterMap, hzip, List.foldlM_map]
  symm
  refine foldlM_congr_of_inv Amount.InRange (by decide) ?_ fun _ _ _ => inRange_of_addCost
  rintro acc ⟨cell, k⟩ hmem hacc
  have hk : k < p.rows * p.cols := by
    have hlt := (List.mem_zipIdx hmem).2.1
    rw [← hfit.1, ← hfit.2, ← hreg.length_cells]
    omega
  cases cell with
  | vacant => exact addCost_zero hp hacc hk
  | basic x =>
      rw [addCost, ← hfit.2]
      rfl

theorem shippedFrom_eq_of_amounts (hcols : g'.cols = g.cols) (h : g'.amounts = g.amounts)
    (i : Nat) : g'.shippedFrom i = g.shippedFrom i := by
  rw [shippedFrom_eq_amounts, shippedFrom_eq_amounts, hcols, h]

theorem shippedTo_eq_of_amounts (hrows : g'.rows = g.rows) (hcols : g'.cols = g.cols)
    (h : g'.amounts = g.amounts) (j : Nat) : g'.shippedTo j = g.shippedTo j := by
  rw [shippedTo_eq_amounts, shippedTo_eq_amounts, hrows, hcols, h]

theorem totalCost_eq_of_amounts (hp : p.Sound) (hfit : g.Fits p) (hreg : g.Regular)
    (hfit' : g'.Fits p) (hreg' : g'.Regular) (h : g'.amounts = g.amounts) :
    g'.totalCost p = g.totalCost p := by
  rw [totalCost_eq_amounts hp hfit' hreg', totalCost_eq_amounts hp hfit hreg, h]

theorem Regular.amounts_eq (h : g.Regular) (h' : g'.Regular) (hrows : g'.rows = g.rows)
    (hcols : g'.cols = g.cols)
    (hamount : ∀ i j, i < g.rows → j < g.cols → g'.amount i j = g.amount i j) :
    g'.amounts = g.amounts := by
  apply List.ext_getElem
  · simp [amounts, h.length_cells, h'.length_cells, hrows, hcols]
  · intro k hk' hk
    rw [amounts, List.length_map] at hk hk'
    obtain ⟨hi, hj, hget⟩ := h.getElem_cells hk
    obtain ⟨-, -, hget'⟩ := h'.getElem_cells hk'
    rw [hcols] at hget'
    simp only [amounts, List.getElem_map, hget, hget']
    exact hamount _ _ hi hj

end Amounts

end Grid

namespace Pivot

def vacancies (g : Grid) (links : List Link) : List Link :=
  links.filter fun l => !(g.cell l.row l.col).isBasic

def promotions (p : Problem) (g : Grid) (links : List Link) : List Link :=
  (byFallingCost (vacancies g links)).take (p.basisSize - g.basicCount)

/-- A repair that promotes the cells of `promoted`: as many as are missing from the basis, or all
that there are, each in preference to every vacant cell of the chain that is left out. Apart from
being basic they stay what they were, and so do all other cells. -/
structure Repaired (p : Problem) (g : Grid) (chain : Chain) (promoted : List Link)
    (g' : Grid) : Prop where
  fits : g'.Fits p
  regular : g'.Regular
  length_eq : promoted.length =
    min (p.basisSize - g.basicCount) (vacancies g chain.links).length
  vacant : ∀ l ∈ promoted, l ∈ vacancies g chain.links
  nodup : (promoted.map Link.place).Nodup
  preferred : ∀ l ∈ promoted, ∀ m ∈ vacancies g chain.links, m ∉ promoted →
    Precedes chain.links l m
  sorted : promoted.Pairwise (Precedes chain.links)
  cell_eq : ∀ i j, i < p.rows → j < p.cols →
    g'.cell i j = if (i, j) ∈ promoted.map Link.place then .basic 0 else g.cell i j
  basic_eq : ∀ i j, i < p.rows → j < p.cols → (g.cell i j).isBasic = true →
    g'.cell i j = g.cell i j
  amount_eq : ∀ i j, i < p.rows → j < p.cols → g'.amount i j = g.amount i j
  shippedFrom_eq : ∀ i, g'.shippedFrom i = g.shippedFrom i
  shippedTo_eq : ∀ j, g'.shippedTo j = g.shippedTo j
  totalCost_eq : g'.totalCost p = g.totalCost p

section Repair

variable {p : Problem} {g : Grid} {links : List Link} {l : Link}

theorem kept_eq_promotions : kept p g links = (promotions p g links).map Link.place := rfl

theorem length_promotions (p : Problem) (g : Grid) (links : List Link) :
    (promotions p g links).length =
      min (p.basisSize - g.basicCount) (vacancies g links).length := by
  rw [promotions, List.length_take, length_byFallingCost]

theorem mem_vacancies_of_promotions (hl : l ∈ promotions p g links) : l ∈ vacancies g links :=
  (byFallingCost_perm _).subset (List.mem_of_mem_take hl)

theorem pairwise_vacancies (g : Grid) (links : List Link) :
    (byFallingCost (vacancies g links)).Pairwise (Precedes links) :=
  (pairwise_byFallingCost _).imp fun h => h.mono List.filter_sublist

theorem nodup_promotions (h : (links.map Link.place).Nodup) :
    ((promotions p g links).map Link.place).Nodup := by
  have hvacant : ((vacancies g links).map Link.place).Nodup :=
    h.sublist (List.filter_sublist.map Link.place)
  have hsorted := ((byFallingCost_perm (vacancies g links)).map Link.place).nodup_iff.mpr hvacant
  exact hsorted.sublist ((List.take_sublist _ _).map Link.place)

/-- What is left out comes after all that is promoted. -/
theorem precedes_of_not_promoted (hl : l ∈ promotions p g links) {m : Link}
    (hm : m ∈ vacancies g links) (hout : m ∉ promotions p g links) : Precedes links l m := by
  have hsplit := pairwise_vacancies g links
  rw [← List.take_append_drop (p.basisSize - g.basicCount) (byFallingCost _)] at hsplit
  have hmem := (byFallingCost_perm (vacancies g links)).mem_iff.mpr hm
  rw [← List.take_append_drop (p.basisSize - g.basicCount) (byFallingCost _)] at hmem
  exact (List.pairwise_append.mp hsplit).2.2 l hl m ((List.mem_append.mp hmem).resolve_left hout)

section Fill

variable (hreg : g.Regular) (hplaced : Placed g links)

include hplaced

theorem promotions_within {c : Nat × Nat} (hc : c ∈ kept p g links) :
    c.1 < g.rows ∧ c.2 < g.cols := by
  obtain ⟨l, hl, rfl, -⟩ := mem_kept hc
  exact hplaced.within l hl

include hreg

theorem cell_repaired {i j : Nat} (hj : j < g.cols) :
    (fill g (kept p g links)).cell i j =
      if (i, j) ∈ kept p g links then .basic 0 else g.cell i j :=
  cell_fill hreg (fun _ => promotions_within hplaced) hj

theorem amount_repaired {i j : Nat} (hj : j < g.cols) :
    (fill g (kept p g links)).amount i j = g.amount i j := by
  rw [Grid.amount, cell_repaired hreg hplaced hj]
  split
  · next hmem =>
      obtain ⟨l, -, hplace, hvacant⟩ := mem_kept hmem
      obtain ⟨rfl, rfl⟩ := Prod.mk.inj hplace
      exact (Grid.amount_eq_zero_of_vacant hvacant).symm
  · rfl

theorem basicCount_repaired : (fill g (kept p g links)).basicCount =
    g.basicCount + (promotions p g links).length := by
  have hdisjoint : Disjoint g.basis (kept p g links).toFinset := by
    rw [Finset.disjoint_right]
    intro c hc
    obtain ⟨l, -, rfl, hvacant⟩ := mem_kept (List.mem_toFinset.mp hc)
    exact fun hbasic => Bool.false_ne_true (hvacant.symm.trans (Grid.mem_basis.mp hbasic).2.2)
  rw [← (regular_fill hreg _).card_basis, basis_fill hreg fun _ => promotions_within hplaced,
    Finset.card_union_of_disjoint hdisjoint, hreg.card_basis, kept_eq_promotions,
    List.toFinset_card_of_nodup (nodup_promotions hplaced.nodup), List.length_map]

theorem promotions_repaired : promotions p (fill g (kept p g links)) links = [] := by
  have hlength := length_promotions p g links
  rcases le_total (p.basisSize - g.basicCount) (vacancies g links).length with hle | hge
  · rw [min_eq_left hle] at hlength
    have hfull : p.basisSize - (fill g (kept p g links)).basicCount = 0 := by
      rw [basicCount_repaired hreg hplaced]
      omega
    rw [promotions, hfull, List.take_zero]
  · have hall : vacancies (fill g (kept p g links)) links = [] := by
      refine List.filter_eq_nil_iff.mpr fun l hl => ?_
      rw [cell_repaired hreg hplaced (hplaced.within l hl).2]
      split
      · simp [Cell.isBasic]
      · next hout =>
          intro hvacant
          refine hout (List.mem_map_of_mem (f := Link.place) ?_)
          rw [List.take_of_length_le (by rwa [length_byFallingCost])]
          exact (byFallingCost_perm _).mem_iff.mpr (List.mem_filter.mpr ⟨hl, hvacant⟩)
    rw [promotions, hall]
    exact List.take_nil

end Fill

/-- On any grid and along any chain of different cells, a repair promotes as many vacant cells of
the chain as it can use, by falling cost, and changes nothing else. A second one finds nothing to
do. -/
theorem repair_promotes {costs : List (List Int)} {supply demand : List Int}
    (hp : Problem.ofTable costs supply demand = .ok p) (hfit : g.Fits p) (hreg : g.Regular)
    {chain : Chain} (hplaced : Placed g chain.links) :
    ∃ promoted g', repair p g chain = .ok (g', promoted.map Link.place) ∧
      Repaired p g chain promoted g' ∧ repair p g' chain = .ok (g', []) := by
  obtain ⟨links⟩ := chain
  have hsound := Problem.sound_of_ofTable hp
  set g' := fill g (kept p g links) with hg'
  have hreg' : g'.Regular := regular_fill hreg _
  have hrows : g'.rows = g.rows := rows_fill _
  have hcols : g'.cols = g.cols := cols_fill _
  have hfit' : g'.Fits p := ⟨hrows.trans hfit.1, hcols.trans hfit.2⟩
  have hamounts : g'.amounts = g.amounts :=
    hreg.amounts_eq hreg' hrows hcols fun i j _ hj => amount_repaired hreg hplaced hj
  have hcell (i j : Nat) (hj : j < p.cols) := cell_repaired (p := p) hreg hplaced (i := i)
    (hfit.2.symm ▸ hj)
  refine ⟨promotions p g links, g', repair_eq_ok hreg hplaced.within, ?_, ?_⟩
  · exact {
      fits := hfit'
      regular := hreg'
      length_eq := length_promotions p g links
      vacant := fun l hl => mem_vacancies_of_promotions hl
      nodup := nodup_promotions hplaced.nodup
      preferred := fun l hl m hm hout => precedes_of_not_promoted hl hm hout
      sorted := (pairwise_vacancies g links).sublist (List.take_sublist _ _)
      cell_eq := fun i j _ hj => hcell i j hj
      basic_eq := by
        intro i j _ hj hbasic
        refine (hcell i j hj).trans (if_neg fun hmem => ?_)
        obtain ⟨l, -, hplace, hvacant⟩ := mem_kept hmem
        obtain ⟨rfl, rfl⟩ := Prod.mk.inj hplace
        simp [hvacant] at hbasic
      amount_eq := fun i j _ hj => amount_repaired hreg hplaced (hfit.2.symm ▸ hj)
      shippedFrom_eq := Grid.shippedFrom_eq_of_amounts hcols hamounts
      shippedTo_eq := Grid.shippedTo_eq_of_amounts hrows hcols hamounts
      totalCost_eq := Grid.totalCost_eq_of_amounts hsound hfit hreg hfit' hreg' hamounts }
  · have hwithin : ∀ l ∈ links, l.row < g'.rows ∧ l.col < g'.cols := by
      rw [hrows, hcols]
      exact hplaced.within
    rw [repair_eq_ok hreg' hwithin, kept_eq_promotions, promotions_repaired hreg hplaced]
    rfl

/-- One basic cell, which ships four times what its sink needs. -/
def lone : Grid := ⟨2, 2, [.basic 4, .vacant, .vacant, .vacant], 1⟩

/-- A chain of another problem, with costs of its own. -/
def foreign : Chain :=
  ⟨[⟨0, 1, 7, 0, .plus⟩, ⟨0, 0, 9, 1, .minus⟩, ⟨1, 0, 3, 0, .plus⟩, ⟨1, 1, 7, 1, .minus⟩]⟩

theorem repair_promotes_foreign : ∃ g',
    repair crossed lone foreign = .ok (g', [(0, 1), (1, 1)]) ∧
    (∃ promoted, promoted.map Link.place = [(0, 1), (1, 1)] ∧
      Repaired crossed lone foreign promoted g') ∧
    g'.totalCost crossed = .ok 4 ∧ repair crossed g' foreign = .ok (g', []) := by
  have hplaced : Placed lone foreign.links := ⟨by decide, by decide⟩
  obtain ⟨promoted, g', hrepair, h, hagain⟩ :=
    repair_promotes ofTable_crossed (g := lone) (by decide) ⟨rfl, rfl⟩ hplaced
  have hrun : (repair crossed lone foreign).map Prod.snd = .ok [(0, 1), (1, 1)] := by
    decide +kernel
  rw [hrepair] at hrun
  have hpromoted : promoted.map Link.place = [(0, 1), (1, 1)] := Except.ok.inj hrun
  rw [hpromoted] at hrepair
  exact ⟨g', hrepair, ⟨promoted, hpromoted, h⟩, h.totalCost_eq.trans (by decide), hagain⟩

end Repair

end Pivot

end Transportation
