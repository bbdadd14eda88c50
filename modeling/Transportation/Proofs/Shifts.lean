import Transportation.Pivot
import Transportation.Proofs.Trails
/-!
# Moving an amount along a chain

A pivot changes the amount of every cell of its chain by the same number, with the sign of the cell,
and so every weighted sum of the amounts by a signed sum of weights. A minus cell that is emptied
leaves the basis.
-/
namespace Transportation

namespace Pivot

/-- The cell after a move, whatever the size of its amount. -/
def after (theta : Int) (sign : Sign) (cell : Cell) : Cell :=
  match sign with
  | .plus => .basic (cell.amount + theta)
  | .minus => if cell.amount - theta = 0 then .vacant else .basic (cell.amount - theta)

def shift (theta : Int) : Grid → List Link → Grid
  | g, [] => g
  | g, l :: links =>
    shift theta (g.put l.row l.col (after theta l.sign (g.cell l.row l.col))) links

structure Placed (g : Grid) (links : List Link) : Prop where
  within : ∀ l ∈ links, l.row < g.rows ∧ l.col < g.cols
  nodup : (links.map Link.place).Nodup

def Movable (theta : Int) (g : Grid) (links : List Link) : Prop :=
  ∀ l ∈ links, Amount.InRange (g.amount l.row l.col + l.sign.factor * theta)

instance (theta : Int) (g : Grid) (links : List Link) : Decidable (Movable theta g links) :=
  inferInstanceAs (Decidable (∀ l ∈ links, _))

def leaves (theta : Int) (g : Grid) (l : Link) : Bool :=
  (g.cell l.row l.col).isBasic && !(after theta l.sign (g.cell l.row l.col)).isBasic

section Shift

variable {theta : Int} {g : Grid} {l : Link} {links : List Link}

theorem amount_after (sign : Sign) (cell : Cell) :
    (after theta sign cell).amount = cell.amount + sign.factor * theta := by
  cases sign with
  | plus => simp [after, Sign.factor, Cell.amount]
  | minus =>
      rw [after, Sign.factor]
      split
      · rw [show Cell.vacant.amount = 0 from rfl]
        omega
      · rw [show ∀ x, (Cell.basic x).amount = x from fun _ => rfl]
        omega

theorem moved_eq_ok {sign : Sign} {cell : Cell}
    (h : Amount.InRange (cell.amount + sign.factor * theta)) :
    cell.moved sign theta = .ok (after theta sign cell) := by
  cases sign with
  | plus =>
      rw [Sign.factor, one_mul] at h
      rw [Cell.moved]
      simp only [Amount.ofInt_of_inRange h, ok_bind]
      rfl
  | minus =>
      rw [Sign.factor, neg_one_mul, ← sub_eq_add_neg] at h
      rw [Cell.moved]
      simp only [Amount.ofInt_of_inRange h, ok_bind]
      rfl

@[simp] theorem rows_shift (links : List Link) : (shift theta g links).rows = g.rows := by
  induction links generalizing g with
  | nil => rfl
  | cons l links ih => rw [shift, ih, Grid.rows_put]

@[simp] theorem cols_shift (links : List Link) : (shift theta g links).cols = g.cols := by
  induction links generalizing g with
  | nil => rfl
  | cons l links ih => rw [shift, ih, Grid.cols_put]

theorem regular_shift (hreg : g.Regular) (links : List Link) : (shift theta g links).Regular := by
  induction links generalizing g with
  | nil => exact hreg
  | cons l links ih => exact ih (hreg.put _ _ _)

theorem fits_shift {p : Problem} (hfit : g.Fits p) (links : List Link) :
    (shift theta g links).Fits p :=
  ⟨(rows_shift links).trans hfit.1, (cols_shift links).trans hfit.2⟩

/-- A weighted sum of the amounts changes by the signed sum of the weights on the chain. -/
theorem weigh_shift (hreg : g.Regular) (hlinks : ∀ l ∈ links, l.row < g.rows ∧ l.col < g.cols)
    (w : Nat → Nat → Int) : (shift theta g links).weigh w =
      g.weigh w + theta * (links.map fun l => l.sign.factor * w l.row l.col).sum := by
  induction links generalizing g with
  | nil => simp [shift]
  | cons l links ih =>
      obtain ⟨hi, hj⟩ := hlinks l List.mem_cons_self
      rw [shift, ih (hreg.put _ _ _) fun m hm => hlinks m (List.mem_cons_of_mem l hm),
        hreg.weigh_put hi hj, amount_after, List.map_cons, List.sum_cons, Grid.amount]
      ring

theorem Placed.tail (h : Placed g (l :: links)) (cell : Cell) :
    Placed (g.put l.row l.col cell) links where
  within m hm := h.within m (List.mem_cons_of_mem l hm)
  nodup := (List.nodup_cons.mp h.nodup).2

theorem Placed.cell_put_of_mem (h : Placed g (l :: links)) (hreg : g.Regular)
    {m : Link} (hm : m ∈ links) (cell : Cell) :
    (g.put l.row l.col cell).cell m.row m.col = g.cell m.row m.col := by
  obtain ⟨hi, hj⟩ := h.within l List.mem_cons_self
  rw [hreg.cell_put hi hj (h.within m (List.mem_cons_of_mem l hm)).2, if_neg]
  rintro ⟨hrow, hcol⟩
  refine (List.nodup_cons.mp h.nodup).1 (List.mem_map.mpr ⟨m, hm, ?_⟩)
  exact Prod.ext hrow hcol

theorem Placed.movable_put (h : Placed g (l :: links)) (hreg : g.Regular)
    (hrange : Movable theta g (l :: links)) (cell : Cell) :
    Movable theta (g.put l.row l.col cell) links := by
  intro m hm
  rw [Grid.amount, h.cell_put_of_mem hreg hm]
  exact hrange m (List.mem_cons_of_mem l hm)

theorem Placed.filter_leaves_put (h : Placed g (l :: links)) (hreg : g.Regular) (cell : Cell) :
    links.filter (leaves theta (g.put l.row l.col cell)) = links.filter (leaves theta g) := by
  apply List.filter_congr
  intro m hm
  rw [leaves, h.cell_put_of_mem hreg hm, leaves]

theorem cell_shift_of_not_mem (hreg : g.Regular)
    (hlinks : ∀ l ∈ links, l.row < g.rows ∧ l.col < g.cols) {i j : Nat} (hj : j < g.cols)
    (hmem : (i, j) ∉ links.map Link.place) : (shift theta g links).cell i j = g.cell i j := by
  induction links generalizing g with
  | nil => rfl
  | cons l links ih =>
      obtain ⟨hrow, hcol⟩ := hlinks l List.mem_cons_self
      rw [List.map_cons, List.mem_cons, not_or] at hmem
      rw [shift, ih (hreg.put _ _ _) (fun m hm => hlinks m (List.mem_cons_of_mem l hm)) hj hmem.2,
        hreg.cell_put hrow hcol hj, if_neg]
      rintro ⟨rfl, rfl⟩
      exact hmem.1 rfl

theorem cell_shift_of_mem (hreg : g.Regular) (h : Placed g links) (hl : l ∈ links) :
    (shift theta g links).cell l.row l.col = after theta l.sign (g.cell l.row l.col) := by
  induction links generalizing g with
  | nil => simp at hl
  | cons m links ih =>
      rw [shift]
      rcases List.mem_cons.mp hl with rfl | hl
      · have hmem := (List.nodup_cons.mp h.nodup).1
        obtain ⟨hi, hj⟩ := h.within l List.mem_cons_self
        rw [cell_shift_of_not_mem (hreg.put _ _ _) (h.tail _).within hj hmem,
          hreg.cell_put hi hj hj, if_pos ⟨rfl, rfl⟩]
      · rw [ih (hreg.put _ _ _) (h.tail _) hl, h.cell_put_of_mem hreg hl]

theorem amount_shift_of_mem (hreg : g.Regular) (h : Placed g links) (hl : l ∈ links) :
    (shift theta g links).amount l.row l.col =
      g.amount l.row l.col + l.sign.factor * theta := by
  rw [Grid.amount, cell_shift_of_mem hreg h hl, amount_after, Grid.amount]

theorem amount_shift_of_not_mem (hreg : g.Regular)
    (hlinks : ∀ l ∈ links, l.row < g.rows ∧ l.col < g.cols) {i j : Nat} (hj : j < g.cols)
    (hmem : (i, j) ∉ links.map Link.place) :
    (shift theta g links).amount i j = g.amount i j := by
  rw [Grid.amount, cell_shift_of_not_mem hreg hlinks hj hmem, Grid.amount]

private theorem shiftLink_eq_ok (hreg : g.Regular) (hl : l.row < g.rows ∧ l.col < g.cols)
    (hrange : Amount.InRange (g.amount l.row l.col + l.sign.factor * theta))
    (out : List (Nat × Nat)) : shiftLink theta (g, out) l =
      .ok (g.put l.row l.col (after theta l.sign (g.cell l.row l.col)),
        out ++ ([l].filter (leaves theta g)).map Link.place) := by
  rw [shiftLink, hreg.get_eq_ok hl.1 hl.2, ok_bind, moved_eq_ok hrange, ok_bind,
    hreg.set_eq_ok hl.1 hl.2, ok_bind, pure_eq_ok]
  congr 2
  cases hleaves : leaves theta g l with
  | true =>
      rw [leaves] at hleaves
      simp [hleaves, leaves]
  | false =>
      rw [leaves] at hleaves
      simp [hleaves, leaves]

theorem foldlM_shiftLink_eq_ok (hreg : g.Regular) (h : Placed g links)
    (hrange : Movable theta g links) (out : List (Nat × Nat)) :
    links.foldlM (shiftLink theta) (g, out) =
      .ok (shift theta g links, out ++ (links.filter (leaves theta g)).map Link.place) := by
  induction links generalizing g out with
  | nil => simp [shift]
  | cons l links ih =>
      rw [List.foldlM_cons, shiftLink_eq_ok hreg (h.within l List.mem_cons_self)
        (hrange l List.mem_cons_self), ok_bind,
        ih (hreg.put _ _ _) (h.tail _) (h.movable_put hreg hrange _), shift,
        h.filter_leaves_put hreg, List.append_assoc, ← List.map_append, ← List.filter_append]
      rfl

end Shift

end Pivot

end Transportation
