import Mathlib.Algebra.Order.BigOperators.Group.Finset
import Mathlib.Algebra.BigOperators.Ring.Finset
import Mathlib.Data.List.GetD
import Transportation.Proofs.Checked
import Transportation.Grid
/-!
# Cells by row and column

A regular grid has a cell for each row and column and an exact count of its basic cells. It is
determined by its cells at the places of the table, and replacing a cell changes one place.
-/
namespace Transportation

theorem position_lt {m n i j : Nat} (hi : i < m) (hj : j < n) : i * n + j < m * n := by
  calc i * n + j < i * n + n := by omega
    _ = (i + 1) * n := by rw [Nat.add_one_mul]
    _ ≤ m * n := Nat.mul_le_mul_right n hi

theorem position_div {n j : Nat} (i : Nat) (hj : j < n) : (i * n + j) / n = i := by
  rw [Nat.mul_comm, Nat.mul_add_div (by omega), Nat.div_eq_of_lt hj, Nat.add_zero]

theorem position_mod {n j : Nat} (i : Nat) (hj : j < n) : (i * n + j) % n = j := by
  rw [Nat.mul_comm, Nat.mul_add_mod, Nat.mod_eq_of_lt hj]

theorem place_of_position {m n k : Nat} (hk : k < m * n) :
    k / n < m ∧ k % n < n ∧ k / n * n + k % n = k := by
  have hpos : 0 < n := Nat.pos_of_mul_pos_left (Nat.zero_lt_of_lt hk)
  refine ⟨Nat.div_lt_of_lt_mul (by rwa [Nat.mul_comm] at hk), Nat.mod_lt k hpos, ?_⟩
  rw [Nat.mul_comm]
  exact Nat.div_add_mod k n

theorem position_inj {n i i' j j' : Nat} (hj : j < n) (hj' : j' < n) :
    i * n + j = i' * n + j' ↔ i = i' ∧ j = j' := by
  constructor
  · intro h
    have hrow := position_div i hj
    have hcol := position_mod i hj
    rw [h] at hrow hcol
    exact ⟨(hrow.symm.trans (position_div i' hj')), (hcol.symm.trans (position_mod i' hj'))⟩
  · rintro ⟨rfl, rfl⟩
    rfl

theorem sum_positions {M : Type} [AddCommMonoid M] (m n : Nat) (f : Nat → M) :
    ∑ k ∈ Finset.range (m * n), f k =
      ∑ i ∈ Finset.range m, ∑ j ∈ Finset.range n, f (i * n + j) := by
  induction m with
  | zero => simp
  | succ m ih => rw [Nat.add_one_mul, Finset.sum_range_add, ih, Finset.sum_range_succ]

theorem sum_map_range (n : Nat) (f : Nat → Int) :
    ((List.range n).map f).sum = ∑ i ∈ Finset.range n, f i := rfl

theorem sum_map_eq_sum_range {α : Type} (xs : List α) (d : α) (f : α → Int) :
    (xs.map f).sum = ∑ k ∈ Finset.range xs.length, f (xs.getD k d) := by
  induction xs with
  | nil => simp
  | cons x xs ih =>
      rw [List.map_cons, List.sum_cons, ih, List.length_cons, Finset.sum_range_succ']
      simp [add_comm]

theorem map_getD_range {α : Type} (xs : List α) (d : α) :
    (List.range xs.length).map (fun k => xs.getD k d) = xs := by
  apply List.ext_getElem
  · simp
  · intro k hk hk'
    simp [hk']

theorem entry_getD {α : Type} {xs : List α} {k : Nat} (d : α) (h : k < xs.length) :
    entry xs k = .ok (xs.getD k d) := by
  rw [entry_of_lt h, List.getD_eq_getElem _ _ h]

namespace Grid

def cell (g : Grid) (row col : Nat) : Cell := g.cells.getD (row * g.cols + col) .vacant

def amount (g : Grid) (row col : Nat) : Int := (g.cell row col).amount

/-- A grid with a cell for each row and column and an exact count of its basic cells. -/
structure Regular (g : Grid) : Prop where
  length_cells : g.cells.length = g.rows * g.cols
  basicCount_eq : g.basicCount = g.cells.countP Cell.isBasic

/-- The places of the basic cells. -/
def basis (g : Grid) : Finset (Nat × Nat) :=
  (Finset.range g.rows ×ˢ Finset.range g.cols).filter fun c => (g.cell c.1 c.2).isBasic

def put (g : Grid) (row col : Nat) (cell : Cell) : Grid :=
  let cells := g.cells.set (row * g.cols + col) cell
  { g with cells, basicCount := cells.countP Cell.isBasic }

@[simp] theorem rows_put (g : Grid) (i j : Nat) (c : Cell) : (g.put i j c).rows = g.rows := rfl

@[simp] theorem cols_put (g : Grid) (i j : Nat) (c : Cell) : (g.put i j c).cols = g.cols := rfl

theorem mem_basis {g : Grid} {c : Nat × Nat} :
    c ∈ g.basis ↔ c.1 < g.rows ∧ c.2 < g.cols ∧ (g.cell c.1 c.2).isBasic = true := by
  simp [basis, and_assoc]

theorem regular_vacant (rows cols : Nat) : (vacant rows cols).Regular where
  length_cells := length_cells_vacant rows cols
  basicCount_eq := by simp [vacant, List.countP_replicate, Cell.isBasic]

@[simp] theorem cell_vacant (rows cols i j : Nat) : (vacant rows cols).cell i j = .vacant := by
  simp [cell, vacant, List.getD_eq_getElem?_getD, List.getElem?_replicate]
  split <;> rfl

section Regular

variable {g : Grid} {i j : Nat}

theorem Regular.position_lt (h : g.Regular) (hi : i < g.rows) (hj : j < g.cols) :
    i * g.cols + j < g.cells.length := by
  rw [h.length_cells]
  exact Transportation.position_lt hi hj

theorem Regular.basicCount_le (h : g.Regular) : g.basicCount ≤ g.cells.length := by
  rw [h.basicCount_eq]
  exact List.countP_le_length

theorem Regular.getElem_cells (h : g.Regular) {k : Nat} (hk : k < g.cells.length) :
    k / g.cols < g.rows ∧ k % g.cols < g.cols ∧ g.cells[k] = g.cell (k / g.cols) (k % g.cols) := by
  obtain ⟨hi, hj, hposition⟩ := place_of_position (h.length_cells ▸ hk)
  refine ⟨hi, hj, ?_⟩
  rw [cell, hposition, List.getD_eq_getElem _ _ hk]

theorem Regular.get_eq_ok (h : g.Regular) (hi : i < g.rows) (hj : j < g.cols) :
    g.get i j = .ok (g.cell i j) :=
  entry_getD _ (h.position_lt hi hj)

theorem Regular.isBasic_eq_ok (h : g.Regular) (hi : i < g.rows) (hj : j < g.cols) :
    g.isBasic i j = .ok (g.cell i j).isBasic := by
  rw [isBasic, h.get_eq_ok hi hj]
  rfl

theorem Regular.put (h : g.Regular) (i j : Nat) (c : Cell) : (g.put i j c).Regular where
  length_cells := by simpa [Grid.put] using h.length_cells
  basicCount_eq := rfl

theorem Regular.cell_put (h : g.Regular) (hi : i < g.rows) (hj : j < g.cols) {i' j' : Nat}
    (hj' : j' < g.cols) (c : Cell) :
    (g.put i j c).cell i' j' = if i' = i ∧ j' = j then c else g.cell i' j' := by
  have hlt := h.position_lt hi hj
  simp only [cell, Grid.put, List.getD_eq_getElem?_getD, List.getElem?_set,
    position_inj hj hj', hlt]
  by_cases heq : i = i' ∧ j = j'
  · obtain ⟨rfl, rfl⟩ := heq
    simp
  · rw [if_neg heq, if_neg (fun h => heq ⟨h.1.symm, h.2.symm⟩)]

private theorem recount_eq_ok {count : Nat} {cells : List Cell} {k : Nat} (hk : k < cells.length)
    (hcount : count = cells.countP Cell.isBasic) (c : Cell) :
    recount count (cells.getD k .vacant) c = .ok ((cells.set k c).countP Cell.isBasic) := by
  have hset := List.countP_set (p := Cell.isBasic) (a := c) hk
  have hget : cells.getD k .vacant = cells[k] := List.getD_eq_getElem _ _ hk
  have hpos : cells[k].isBasic = true → 0 < cells.countP Cell.isBasic := fun hb =>
    List.countP_pos_iff.mpr ⟨cells[k], List.getElem_mem hk, hb⟩
  rw [hget, hset, hcount]
  cases hbefore : cells[k].isBasic <;> cases hafter : c.isBasic
  · simp [recount, hbefore, hafter]
  · simp [recount, hbefore, hafter]
  · obtain ⟨n, hn⟩ := Nat.exists_eq_succ_of_ne_zero (hpos hbefore).ne'
    simp [recount, hbefore, hafter, hn, Count.pred]
  · have := hpos hbefore
    simp only [recount, hbefore, hafter, if_true]
    congr 1
    omega

/-- Replacing a cell fails only beyond the cells, never because of the count. -/
theorem Regular.set_eq (h : g.Regular) (row col : Nat) (c : Cell) : g.set row col c =
    if row * g.cols + col < g.cells.length then .ok (g.put row col c)
    else .error (.breach .outOfRange) := by
  rw [set, get]
  by_cases hk : row * g.cols + col < g.cells.length
  · rw [if_pos hk, entry_getD .vacant hk, ok_bind, recount_eq_ok hk h.basicCount_eq]
    rfl
  · rw [if_neg hk, entry_of_length_le (not_lt.mp hk)]
    rfl

theorem Regular.set_eq_ok (h : g.Regular) (hi : i < g.rows) (hj : j < g.cols) (c : Cell) :
    g.set i j c = .ok (g.put i j c) := by
  rw [h.set_eq, if_pos (h.position_lt hi hj)]

theorem Regular.row_eq_ok (h : g.Regular) (hi : i < g.rows) (hroom : g.rows ≤ Count.greatest) :
    g.row i = .ok ((List.range g.cols).map (g.cell i)) := by
  have hend : (i + 1) * g.cols ≤ g.cells.length := by
    rw [h.length_cells]
    exact Nat.mul_le_mul_right _ hi
  have hcount : Count.ofNat (i + 1) = .ok (i + 1) := if_pos (by omega)
  rw [row, hcount, ok_bind, if_pos hend, pure_eq_ok]
  congr 1
  apply List.ext_getElem
  · rw [Nat.add_one_mul] at hend
    simp
    omega
  · intro k hk hk'
    have hcol : k < g.cols := by simpa using hk'
    have hlt := h.position_lt hi hcol
    have hget : g.cell i k = g.cells[i * g.cols + k] := List.getD_eq_getElem _ _ hlt
    simp [hget]

theorem Regular.ext {g g' : Grid} (h : g.Regular) (h' : g'.Regular) (hrows : g.rows = g'.rows)
    (hcols : g.cols = g'.cols)
    (hcell : ∀ i j, i < g.rows → j < g.cols → g.cell i j = g'.cell i j) : g = g' := by
  have hlen : g.cells.length = g'.cells.length := by
    rw [h.length_cells, h'.length_cells, hrows, hcols]
  have hcells : g.cells = g'.cells := by
    apply List.ext_getElem hlen
    intro k hk hk'
    obtain ⟨hi, hj, hget⟩ := h.getElem_cells hk
    obtain ⟨-, -, hget'⟩ := h'.getElem_cells hk'
    rw [hget, hget', ← hcols]
    exact hcell _ _ hi hj
  have hcount : g.basicCount = g'.basicCount := by
    rw [h.basicCount_eq, h'.basicCount_eq, hcells]
  cases g
  cases g'
  simp_all

theorem Regular.card_basis (h : g.Regular) : g.basis.card = g.basicCount := by
  have hsum : ∀ cells : List Cell, (cells.countP Cell.isBasic : Int) =
      (cells.map fun c => if c.isBasic = true then (1 : Int) else 0).sum := by
    intro cells
    induction cells with
    | nil => rfl
    | cons c cells ih =>
        rw [List.countP_cons, List.map_cons, List.sum_cons, ← ih]
        split <;> simp [add_comm]
  have hcard : (g.basis.card : Int) = g.basicCount := by
    rw [h.basicCount_eq, hsum, sum_map_eq_sum_range _ .vacant, h.length_cells, sum_positions,
      basis, Finset.card_filter, Finset.sum_product]
    push_cast
    rfl
  exact_mod_cast hcard

end Regular

theorem Regular.mem_shipments {g : Grid} (h : g.Regular) {s : Shipment} :
    s ∈ g.shipments ↔
      s.row < g.rows ∧ s.col < g.cols ∧ g.cell s.row s.col = .basic s.amount := by
  have hopt : ∀ (c : Cell) (x : Int), c.toOption = some x ↔ c = .basic x := by
    intro c x
    cases c <;> simp [Cell.toOption]
  simp only [shipments, List.mem_filterMap, Option.map_eq_some_iff, Prod.exists,
    List.mem_zipIdx_iff_getElem?]
  constructor
  · rintro ⟨c, k, hk, x, hx, rfl⟩
    obtain ⟨hlt, hget⟩ := List.getElem?_eq_some_iff.mp hk
    obtain ⟨hi, hj, hcell⟩ := h.getElem_cells hlt
    refine ⟨hi, hj, ?_⟩
    rw [← hcell, hget]
    exact (hopt c x).mp hx
  · rintro ⟨hi, hj, hcell⟩
    have hlt := h.position_lt hi hj
    refine ⟨.basic s.amount, s.row * g.cols + s.col, ?_, s.amount, rfl, ?_⟩
    · rw [← hcell, cell, List.getD_eq_getElem _ _ hlt]
      exact List.getElem?_eq_getElem hlt
    · rw [position_div _ hj, position_mod _ hj]

end Grid

end Transportation
