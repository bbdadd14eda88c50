import Mathlib.Data.List.Perm.Basic
import Transportation.Pivot.InBlocks
import Transportation.Proofs.Shifts
/-!
# Pivots by rows

Cut into blocks, the rows of a table come out whole and in order. So the reports of the tasks add up
to the grid that the move along the chain gives cell after cell, with the same cells leaving.
-/
namespace Transportation

namespace WorkSplit

theorem flatMap_range_drop_take {α : Type} (xs : List α) (size n : Nat) :
    ((List.range n).flatMap fun k => (xs.drop (k * size)).take size) = xs.take (n * size) := by
  induction n with
  | zero => simp
  | succ n ih =>
      rw [List.range_succ, List.flatMap_append, ih, List.flatMap_singleton, Nat.add_one_mul,
        List.take_add]

theorem flatMap_blocks {α : Type} (xs : List α) {size : Nat} (hsize : 0 < size) :
    ((blocks xs.length size).flatMap fun (start, count) => (xs.drop start).take count) = xs := by
  have hcover : xs.length ≤ ceilDiv xs.length size * size := by
    rw [ceilDiv]
    have hdiv := Nat.div_add_mod (xs.length + size - 1) size
    have hmod := Nat.mod_lt (xs.length + size - 1) hsize
    rw [Nat.mul_comm]
    omega
  have htake (k : Nat) : (xs.drop (k * size)).take (min size (xs.length - k * size)) =
      (xs.drop (k * size)).take size := by
    rw [← List.length_drop, List.take_eq_take_iff]
    omega
  rw [blocks, List.flatMap_map]
  simp only [htake, flatMap_range_drop_take, List.take_of_length_le hcover]

end WorkSplit

namespace Pivot

namespace Report

def join (reports : List Report) : Report := reports.foldl append none

private theorem foldl_append (reports : List Report) (r : Report) :
    reports.foldl append r = ⟨r.cells ++ reports.flatMap cells,
      r.change + (reports.map change).sum, r.leaving ++ reports.flatMap leaving⟩ := by
  induction reports generalizing r with
  | nil => simp
  | cons s reports ih =>
      rw [List.foldl_cons, ih, append]
      simp [List.append_assoc, add_assoc]

private theorem join_eq (reports : List Report) : join reports =
    ⟨reports.flatMap cells, (reports.map change).sum, reports.flatMap leaving⟩ := by
  rw [join, foldl_append]
  simp [none]

theorem join_cons (r : Report) (reports : List Report) :
    join (r :: reports) = append r (join reports) := by
  simp [join_eq, append]

private theorem join_append (reports reports' : List Report) :
    join (reports ++ reports') = append (join reports) (join reports') := by
  simp [join_eq, append]

theorem join_map_join {α : Type} (xs : List α) (f : α → List Report) :
    join (xs.map fun x => join (f x)) = join (xs.flatMap f) := by
  induction xs with
  | nil => rfl
  | cons x xs ih =>
      rw [List.map_cons, List.flatMap_cons, join_append, ← ih, ← List.singleton_append, join_append]
      congr 1
      simp [join_eq]

end Report

section Rows

variable {theta : Int} {g : Grid} {l : Link} {links : List Link} {i : Nat}

def changesIn (links : List Link) (i : Nat) : List (Nat × Sign) :=
  (links.filter fun l => l.row == i).map fun l => (l.col, l.sign)

def rowCells (g : Grid) (i : Nat) : List Cell := (List.range g.cols).map (g.cell i)

def leavingFrom (theta : Int) (g : Grid) (links : List Link) (i : Nat) : List (Nat × Nat) :=
  ((links.filter (leaves theta g)).filter fun l => l.row == i).map Link.place

def rowReport (theta : Int) (g : Grid) (links : List Link) (i : Nat) : Report :=
  ⟨rowCells (shift theta g links) i,
    (rowCells (shift theta g links) i).countP Cell.isBasic - (rowCells g i).countP Cell.isBasic,
    leavingFrom theta g links i⟩

private theorem rowCells_put_of_ne (hreg : g.Regular) (hl : l.row < g.rows ∧ l.col < g.cols)
    (hne : i ≠ l.row) (cell : Cell) : rowCells (g.put l.row l.col cell) i = rowCells g i := by
  apply List.map_congr_left
  intro j hj
  rw [hreg.cell_put hl.1 hl.2 (List.mem_range.mp hj), if_neg fun heq => hne heq.1]

private theorem rowCells_put_self (hreg : g.Regular) (hl : l.row < g.rows ∧ l.col < g.cols)
    (cell : Cell) :
    rowCells (g.put l.row l.col cell) l.row = (rowCells g l.row).set l.col cell := by
  apply List.ext_getElem
  · simp [rowCells]
  · intro j hj hj'
    have hcol : j < g.cols := by simpa [rowCells] using hj
    simp only [rowCells, List.getElem_map, List.getElem_range, List.getElem_set]
    rw [hreg.cell_put hl.1 hl.2 hcol]
    by_cases heq : l.col = j
    · rw [if_pos heq, if_pos ⟨rfl, heq.symm⟩]
    · rw [if_neg heq, if_neg fun h => heq h.2.symm]

theorem basicChange_eq {cells : List Cell} {k : Nat} (hk : k < cells.length)
    (cell : Cell) : basicChange cells[k] cell =
      (cells.set k cell).countP Cell.isBasic - cells.countP Cell.isBasic := by
  have hset := List.countP_set (p := Cell.isBasic) (a := cell) hk
  have hpos : cells[k].isBasic = true → 0 < cells.countP Cell.isBasic := fun hb =>
    List.countP_pos_iff.mpr ⟨cells[k], List.getElem_mem hk, hb⟩
  rw [hset, basicChange]
  cases hbefore : cells[k].isBasic <;> cases hafter : cell.isBasic <;>
    simp only [Bool.false_eq_true, if_true, if_false]
  · omega
  · omega
  · have := hpos hbefore
    omega
  · have := hpos hbefore
    omega

private theorem shiftInRow_eq_ok (hreg : g.Regular) (hl : l.row < g.rows ∧ l.col < g.cols)
    (hrange : Amount.InRange (g.amount l.row l.col + l.sign.factor * theta)) {r : Report}
    (hr : r.cells = rowCells g l.row) : shiftInRow theta l.row r (l.col, l.sign) =
      .ok ⟨rowCells (g.put l.row l.col (after theta l.sign (g.cell l.row l.col))) l.row,
        r.change + ((rowCells (g.put l.row l.col (after theta l.sign (g.cell l.row l.col)))
          l.row).countP Cell.isBasic - (rowCells g l.row).countP Cell.isBasic),
        r.leaving ++ ([l].filter (leaves theta g)).map Link.place⟩ := by
  have hlt : l.col < (rowCells g l.row).length := by simpa [rowCells] using hl.2
  have hget : (rowCells g l.row)[l.col] = g.cell l.row l.col := by simp [rowCells]
  have hentry : entry r.cells l.col = .ok (g.cell l.row l.col) := by
    rw [hr, entry_of_lt hlt, hget]
  have hchange := basicChange_eq hlt (after theta l.sign (g.cell l.row l.col))
  rw [hget] at hchange
  rw [shiftInRow, hentry, ok_bind, moved_eq_ok hrange, ok_bind, pure_eq_ok,
    rowCells_put_self hreg hl, ← hchange, hr]
  congr 2
  cases hleaves : leaves theta g l with
  | true =>
      rw [leaves] at hleaves
      simp [hleaves, leaves, Link.place]
  | false =>
      rw [leaves] at hleaves
      simp [hleaves, leaves]

private theorem foldlM_shiftInRow_eq_ok (hreg : g.Regular) (h : Placed g links)
    (hrange : Movable theta g links) (r : Report) (hr : r.cells = rowCells g i) :
    (changesIn links i).foldlM (shiftInRow theta i) r =
      .ok ⟨rowCells (shift theta g links) i,
        r.change + ((rowCells (shift theta g links) i).countP Cell.isBasic -
          (rowCells g i).countP Cell.isBasic),
        r.leaving ++ leavingFrom theta g links i⟩ := by
  induction links generalizing g r with
  | nil => simp [changesIn, shift, leavingFrom, ← hr]
  | cons l links ih =>
      have hl := h.within l List.mem_cons_self
      have hrest := ih (hreg.put l.row l.col (after theta l.sign (g.cell l.row l.col))) (h.tail _)
        (h.movable_put hreg hrange _)
      by_cases hrow : l.row = i
      · subst hrow
        have hstep := shiftInRow_eq_ok hreg hl (hrange l List.mem_cons_self) hr
        have hchanges : changesIn (l :: links) l.row =
            (l.col, l.sign) :: changesIn links l.row := by
          simp [changesIn]
        rw [hchanges, List.foldlM_cons, hstep, ok_bind, hrest _ rfl, shift]
        congr 2
        · dsimp only
          omega
        · rw [leavingFrom, leavingFrom, h.filter_leaves_put hreg, List.append_assoc]
          cases hleaves : leaves theta g l <;> simp [hleaves]
      · have hchanges : changesIn (l :: links) i = changesIn links i := by
          simp [changesIn, hrow]
        have hcells := rowCells_put_of_ne hreg hl (Ne.symm hrow)
          (after theta l.sign (g.cell l.row l.col))
        rw [hchanges, hrest r (hr.trans hcells.symm), hcells, shift]
        congr 3
        rw [leavingFrom, leavingFrom, h.filter_leaves_put hreg]
        cases hleaves : leaves theta g l <;> simp [hleaves, hrow]

private theorem shiftRow_eq_ok (hreg : g.Regular) (h : Placed g links)
    (hrange : Movable theta g links) (hroom : g.rows ≤ Count.greatest) (hi : i < g.rows) :
    shiftRow theta g ⟨i, changesIn links i⟩ = .ok (rowReport theta g links i) := by
  rw [shiftRow, hreg.row_eq_ok hi hroom, ok_bind]
  refine (foldlM_shiftInRow_eq_ok hreg h hrange ⟨rowCells g i, 0, []⟩ rfl).trans ?_
  rw [rowReport, zero_add, List.nil_append]

private theorem shiftBlock_eq_ok (hreg : g.Regular) (h : Placed g links)
    (hrange : Movable theta g links) (hroom : g.rows ≤ Count.greatest) (rows : List Nat)
    (hrows : ∀ i ∈ rows, i < g.rows) :
    shiftBlock theta g (rows.map fun i => ⟨i, changesIn links i⟩) =
      .ok (Report.join (rows.map (rowReport theta g links))) := by
  have hmap : (rows.map fun i => (⟨i, changesIn links i⟩ : RowUpdate)).mapM (shiftRow theta g) =
      .ok (rows.map (rowReport theta g links)) := by
    rw [mapM_eq_ok_map _ (fun u => rowReport theta g links u.row), List.map_map]
    · rfl
    · intro u hu
      obtain ⟨i, hi, rfl⟩ := List.mem_map.mp hu
      exact shiftRow_eq_ok hreg h hrange hroom (hrows i hi)
  rw [shiftBlock, hmap]
  rfl

private theorem cells_eq_flatMap (hreg : g.Regular) :
    g.cells = (List.range g.rows).flatMap (rowCells g) := by
  have hlength : ∀ m, ((List.range m).flatMap (rowCells g)).length = m * g.cols := by
    intro m
    induction m with
    | zero => simp
    | succ m ih =>
        rw [List.range_succ, List.flatMap_append, List.length_append, ih, List.flatMap_singleton,
          rowCells, List.length_map, List.length_range, Nat.add_one_mul]
  have hget : ∀ m i j, i < m → j < g.cols →
      ((List.range m).flatMap (rowCells g))[i * g.cols + j]? = some (g.cell i j) := by
    intro m i j hi hj
    induction m with
    | zero => omega
    | succ m ih =>
        rw [List.range_succ, List.flatMap_append, List.flatMap_singleton]
        rcases Nat.lt_succ_iff_lt_or_eq.mp hi with hlt | rfl
        · rw [List.getElem?_append_left, ih hlt]
          rw [hlength]
          exact position_lt hlt hj
        · rw [List.getElem?_append_right (by rw [hlength]; omega), hlength, Nat.add_sub_cancel_left]
          simp [rowCells, hj]
  apply List.ext_getElem
  · rw [hlength, hreg.length_cells]
  · intro k hk hk'
    obtain ⟨hi, hj, hposition⟩ := place_of_position (hreg.length_cells ▸ hk)
    have hentry := hget g.rows (k / g.cols) (k % g.cols) hi hj
    rw [hposition, ← (hreg.getElem_cells hk).2.2] at hentry
    exact (List.getElem_eq_iff hk').mpr hentry |>.symm

def leavingByRow (theta : Int) (g : Grid) (links : List Link) : List (Nat × Nat) :=
  (List.range g.rows).flatMap (leavingFrom theta g links)

private theorem flatMap_filter_perm (xs : List Link) (n : Nat) :
    ((List.range n).flatMap fun i => xs.filter fun l => l.row == i).Perm
      (xs.filter fun l => decide (l.row < n)) := by
  induction n with
  | zero => simp
  | succ n ih =>
      rw [List.range_succ, List.flatMap_append, List.flatMap_singleton]
      refine (ih.append_right _).trans ?_
      have hsplit := List.filter_append_perm (fun l : Link => decide (l.row < n))
        (xs.filter fun l => decide (l.row < n + 1))
      rw [List.filter_filter, List.filter_filter] at hsplit
      have hless : xs.filter (fun l => decide (l.row < n) && decide (l.row < n + 1)) =
          xs.filter fun l => decide (l.row < n) :=
        List.filter_congr fun l _ => by
          by_cases hl : l.row < n
          · simp [hl, Nat.lt_succ_of_lt hl]
          · simp [hl]
      have hequal : xs.filter (fun l => !decide (l.row < n) && decide (l.row < n + 1)) =
          xs.filter fun l => l.row == n :=
        List.filter_congr fun l _ => by
          rw [Bool.eq_iff_iff]
          simp
          omega
      rwa [hless, hequal] at hsplit

/-- Row by row, the same cells leave as in the order of the chain. -/
theorem leavingByRow_perm (h : Placed g links) :
    (leavingByRow theta g links).Perm ((links.filter (leaves theta g)).map Link.place) := by
  have hperm := (flatMap_filter_perm (links.filter (leaves theta g)) g.rows).map Link.place
  rw [List.map_flatMap] at hperm
  refine hperm.trans (List.Perm.of_eq ?_)
  congr 1
  rw [List.filter_eq_self]
  intro l hl
  exact decide_eq_true (h.within l (List.mem_filter.mp hl).1).1

private theorem join_rowReports (hreg : g.Regular) :
    Report.join ((List.range g.rows).map (rowReport theta g links)) =
      ⟨(shift theta g links).cells, (shift theta g links).basicCount - g.basicCount,
        leavingByRow theta g links⟩ := by
  have hcells : (shift theta g links).cells = _ := cells_eq_flatMap (regular_shift hreg links)
  have hcount : ∀ m, (((List.range m).map fun i =>
      ((rowCells (shift theta g links) i).countP Cell.isBasic : Int) -
        (rowCells g i).countP Cell.isBasic)).sum =
      ((List.range m).flatMap (rowCells (shift theta g links))).countP Cell.isBasic -
        ((List.range m).flatMap (rowCells g)).countP Cell.isBasic := by
    intro m
    induction m with
    | zero => simp
    | succ m ih =>
        simp only [List.range_succ, List.map_append, List.sum_append, ih, List.flatMap_append,
          List.countP_append, List.flatMap_singleton, List.map_singleton, List.sum_singleton]
        push_cast
        omega
  rw [rows_shift] at hcells
  rw [Report.join_eq, (regular_shift hreg links).basicCount_eq, hreg.basicCount_eq,
    hcells, List.flatMap_map, List.map_map, List.flatMap_map]
  conv_rhs => rw [cells_eq_flatMap hreg]
  rw [← hcount g.rows]
  rfl

private theorem eq_shift {theta : Int} {links : List Link}
    (hcount : (shift theta g links).basicCount ≤ Count.greatest) :
    ({ g with
      cells := (shift theta g links).cells
      basicCount := Count.shift g.basicCount
        ((shift theta g links).basicCount - g.basicCount) } : Grid) = shift theta g links := by
  have hshift : Count.shift g.basicCount ((shift theta g links).basicCount - g.basicCount) =
      (shift theta g links).basicCount := by
    rw [Count.shift]
    omega
  have hrows : (shift theta g links).rows = g.rows := rows_shift links
  have hcols : (shift theta g links).cols = g.cols := cols_shift links
  rw [hshift, ← hrows, ← hcols]

/-- Block by block, the move along a chain gives the same grid as cell after cell. -/
theorem applyInBlocks_eq {p : Problem} (hp : p.Sound) (hfit : g.Fits p) (hreg : g.Regular)
    (h : Placed g links) (hrange : Movable (Chain.mk links).theta g links)
    (hcount : (shift (Chain.mk links).theta g links).basicCount ≤ Count.greatest)
    (split : WorkSplit) (hsize : split.rowsPerBlock p.rows * p.cols ≤ Count.greatest) :
    applyInBlocks split p g ⟨links⟩ =
      settle p ⟨links⟩ (shift (Chain.mk links).theta g links)
        (leavingByRow (Chain.mk links).theta g links) := by
  have hroom : g.rows ≤ Count.greatest := hfit.1 ▸ hp.rows_le
  have hinside : links.all (fun l => decide (l.row < p.rows)) = true := by
    rw [List.all_eq_true]
    intro l hl
    exact decide_eq_true (hfit.1 ▸ (h.within l hl).1)
  have hupdates : rowUpdates p.rows ⟨links⟩ =
      .ok ((List.range p.rows).map fun i => ⟨i, changesIn links i⟩) := by
    rw [rowUpdates, if_pos hinside]
    rfl
  have hblocks := mapM_eq_ok_map
    (fun (block : Nat × Nat) => shiftBlock (Chain.mk links).theta g
      ((((List.range p.rows).map fun i => (⟨i, changesIn links i⟩ : RowUpdate)).drop
        block.1).take block.2))
    (fun block => Report.join ((((List.range p.rows).drop block.1).take block.2).map
      (rowReport (Chain.mk links).theta g links)))
    (WorkSplit.blocks p.rows (split.rowsPerBlock p.rows)) (by
      intro block _
      rw [← List.map_drop, ← List.map_take]
      refine shiftBlock_eq_ok hreg h hrange hroom _ fun i hi => ?_
      exact hfit.1.symm ▸ List.mem_range.mp (List.mem_of_mem_drop (List.mem_of_mem_take hi)))
  have hcover := WorkSplit.flatMap_blocks (List.range p.rows) (split.rowsPerBlock_pos p.rows)
  rw [List.length_range] at hcover
  have htotal : Report.join ((WorkSplit.blocks p.rows (split.rowsPerBlock p.rows)).map fun block =>
      Report.join ((((List.range p.rows).drop block.1).take block.2).map
        (rowReport (Chain.mk links).theta g links))) =
      ⟨(shift (Chain.mk links).theta g links).cells,
        (shift (Chain.mk links).theta g links).basicCount - g.basicCount,
        leavingByRow (Chain.mk links).theta g links⟩ := by
    rw [Report.join_map_join, ← List.map_flatMap, hcover, ← hfit.1, join_rowReports hreg]
  rw [applyInBlocks, Grid.requireFit_eq_ok_iff.mpr hfit, ok_bind, hupdates, ok_bind,
    WorkSplit.cellsPerBlock, Count.ofNat, if_pos hsize, ok_bind, hblocks, onWorkers_ok, ok_bind]
  change settle p ⟨links⟩ { g with
    cells := (Report.join _).cells
    basicCount := Count.shift g.basicCount (Report.join _).change } (Report.join _).leaving = _
  rw [htotal, eq_shift hcount]

end Rows

end Pivot

end Transportation
