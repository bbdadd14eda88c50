import Transportation.Proofs.PivotBlocks
import Transportation.FirstBasis
import Transportation.Grid.Stored
/-!
# Counted cells

However a grid comes about, it has a cell for each place of its shape and the right count of its
basic cells. Chains may come from other grids, so their links may lie in other rows than they name
or hit a cell twice. The count is kept by four means: cell by cell, by a count of all cells, by a
change added up over tasks, and in the repair of the basis. None of them comes to a number that is
no count.
-/
namespace Transportation

/-- Work that does not fail by a number outside its range, and whose result has a property. -/
structure Yields {α : Type} (P : α → Prop) (work : Except Failure α) : Prop where
  ne_overflow : work ≠ .error (.breach .overflow)
  of_ok : ∀ a, work = .ok a → P a

section Yields

variable {α β : Type} {P : α → Prop} {Q : β → Prop} {work : Except Failure α}

theorem yields_ok {a : α} (h : P a) : Yields P (.ok a) where
  ne_overflow := by simp
  of_ok := by
    rintro _ ⟨⟩
    exact h

theorem yields_error {failure : Failure} (h : failure ≠ .breach .overflow) :
    Yields P (.error failure) where
  ne_overflow herror := h (Except.error.inj herror)
  of_ok := by simp

theorem Yields.bind {f : α → Except Failure β} (h : Yields P work)
    (hf : ∀ a, P a → Yields Q (f a)) : Yields Q (work >>= f) := by
  cases work with
  | error failure => exact yields_error fun heq => h.ne_overflow (congrArg _ heq)
  | ok a => exact hf a (h.of_ok a rfl)

theorem yields_entry (xs : List α) (k : Nat) : Yields (fun _ => True) (entry xs k) := by
  rw [entry]
  cases xs[k]? with
  | none => exact yields_error (by simp)
  | some x => exact yields_ok trivial

theorem Yields.foldlM {f : β → α → Except Failure β} (h : ∀ b a, Q b → Yields Q (f b a))
    (xs : List α) {b : β} (hb : Q b) : Yields Q (xs.foldlM f b) := by
  induction xs generalizing b with
  | nil => exact yields_ok hb
  | cons x xs ih => exact (h b x hb).bind fun b' hb' => ih hb'

theorem Yields.mapM {f : α → Except Failure β} (h : ∀ a, Yields (fun _ => True) (f a))
    (xs : List α) : Yields (fun _ => True) (xs.mapM f) := by
  induction xs with
  | nil => exact yields_ok trivial
  | cons x xs ih =>
      rw [List.mapM_cons]
      exact (h x).bind fun _ _ => ih.bind fun _ _ => yields_ok trivial

theorem Yields.filterM {f : α → Except Failure Bool} (h : ∀ a, Yields (fun _ => True) (f a))
    (xs : List α) : Yields (fun _ => True) (xs.filterM f) := by
  have hacc : ∀ acc, Yields (fun _ => True) (xs.filterAuxM f acc) := by
    induction xs with
    | nil => exact fun acc => yields_ok trivial
    | cons x xs ih => exact fun acc => (h x).bind fun _ _ => ih _
  exact (hacc []).bind fun _ _ => yields_ok trivial

end Yields

namespace Grid

/-- A regular grid with `n` cells. -/
structure Full (n : Nat) (g : Grid) : Prop extends g.Regular where
  length_eq : g.cells.length = n

theorem length_shipments (g : Grid) : g.shipments.length = g.cells.countP Cell.isBasic := by
  have hsome : (fun e : Cell × Nat => ((e.1.toOption.map fun x : Int =>
      (⟨e.2 / g.cols, e.2 % g.cols, x⟩ : Shipment)).isSome)) = Cell.isBasic ∘ Prod.fst := by
    funext ⟨cell, k⟩
    cases cell <;> rfl
  rw [shipments, List.length_filterMap_eq_countP, hsome, ← List.countP_map, List.zipIdx_map_fst]

theorem full_vacant (rows cols : Nat) : (vacant rows cols).Full (rows * cols) where
  toRegular := regular_vacant rows cols
  length_eq := length_cells_vacant rows cols

theorem yields_isBasic (g : Grid) (row col : Nat) : Yields (fun _ => True) (g.isBasic row col) :=
  (yields_entry _ _).bind fun _ _ => yields_ok trivial

theorem Full.set {n : Nat} {g : Grid} (h : g.Full n) (row col : Nat) (cell : Cell) :
    Yields (Full n) (g.set row col cell) := by
  rw [h.set_eq]
  split
  · exact yields_ok ⟨h.put _ _ _, by simpa [put] using h.length_eq⟩
  · exact yields_error (by simp)

end Grid

namespace Corner

variable {n : Nat} {g : Grid}

private theorem yields_shipFrom (row : Nat) (sinks : List Party) (supply : Int) (h : g.Full n) :
    Yields (fun r => r.1.Full n) (shipFrom row supply sinks g) := by
  induction sinks generalizing supply g with
  | nil => exact yields_ok h
  | cons sink sinks ih =>
      rw [shipFrom]
      refine (h.set row sink.index _).bind fun g' hg' => ?_
      split
      · exact yields_ok hg'
      · exact ih _ hg'

private theorem yields_shipAll (sources sinks : List Party) (h : g.Full n) :
    Yields (Grid.Full n) (shipAll sources sinks g) := by
  induction sources generalizing sinks g with
  | nil => exact yields_ok h
  | cons source sources ih =>
      rw [shipAll]
      exact (yields_shipFrom source.index sinks source.left h).bind fun r hr => ih r.2 hr

theorem yields_firstBasis (corner : Corner) (p : Problem) :
    Yields (Grid.Full (p.rows * p.cols)) (corner.firstBasis p) := by
  have hparties (order : List Nat) (amounts : List Int) :
      Yields (fun _ => True) (parties order amounts) :=
    Yields.mapM (fun k => (yields_entry amounts k).bind fun _ _ => yields_ok trivial) order
  exact (hparties _ _).bind fun sources _ => (hparties _ _).bind fun sinks _ =>
    yields_shipAll sources sinks (Grid.full_vacant p.rows p.cols)

end Corner

namespace Pivot

section Chain

variable {n : Nat} {g : Grid} {p : Problem}

theorem yields_repair (h : g.Full n) (p : Problem) (chain : Chain) :
    Yields (fun r => r.1.Full n) (repair p g chain) := by
  rw [repair]
  dsimp only
  split
  · exact yields_ok h
  · refine (Yields.filterM (fun l => ?_) _).bind fun candidates _ => ?_
    · exact (Grid.yields_isBasic g l.row l.col).bind fun _ _ => yields_ok trivial
    · refine (Yields.foldlM (Q := Grid.Full n) (fun g' place hg' => ?_) _ h).bind fun g' hg' => ?_
      · exact hg'.set place.1 place.2 (.basic 0)
      · exact yields_ok hg'

theorem yields_settle (h : g.Full n) (p : Problem) (chain : Chain)
    (leaving : List (Nat × Nat)) : Yields (fun r => r.1.Full n) (settle p chain g leaving) :=
  (yields_repair h p chain).bind fun _ hr => yields_ok hr

variable {theta : Int} {l : Link} {state state' : Grid × List (Nat × Nat)}

private theorem full_shiftLink (h : state.1.Full n)
    (hshift : shiftLink theta state l = .ok state') :
    state'.1.Full n := by
  obtain ⟨before, -, hshift⟩ := bind_eq_ok_iff.mp hshift
  obtain ⟨after, -, hshift⟩ := bind_eq_ok_iff.mp hshift
  obtain ⟨g', hset, hshift⟩ := bind_eq_ok_iff.mp hshift
  cases hshift
  exact (h.set l.row l.col after).of_ok g' hset

private theorem not_inRange_of_shiftLink (h : state.1.Full n)
    (hshift : shiftLink theta state l = .error (.breach .overflow)) :
    ¬ Amount.InRange (state.1.amount l.row l.col + l.sign.factor * theta) := by
  intro hrange
  refine absurd hshift (Yields.ne_overflow (P := fun _ => True) ?_)
  have hget : Yields (· = state.1.cell l.row l.col) (state.1.get l.row l.col) := by
    refine ⟨(yields_entry _ _).ne_overflow, fun before hbefore => ?_⟩
    rw [Grid.cell, List.getD_eq_getElem?_getD, entry_eq_ok_iff.mp hbefore]
    rfl
  refine hget.bind fun before hbefore => ?_
  rw [hbefore, moved_eq_ok hrange, ok_bind]
  exact (h.set l.row l.col _).bind fun _ _ => yields_ok trivial

theorem full_apply (h : g.Full n) {chain : Chain} {g' : Grid} {result : PivotResult}
    (happly : apply p g chain = .ok (g', result)) : g'.Full n := by
  obtain ⟨-, -, happly⟩ := bind_eq_ok_iff.mp happly
  obtain ⟨state, hfold, hsettle⟩ := bind_eq_ok_iff.mp happly
  have hstate : state.1.Full n :=
    of_foldlM_eq_ok (fun state => state.1.Full n) h
      (fun _ _ _ hs hstep => full_shiftLink hs hstep) hfold
  exact (yields_settle hstate p chain state.2).of_ok _ hsettle

theorem exists_step_of_overflow (h : g.Full n) {chain : Chain}
    (happly : apply p g chain = .error (.breach .overflow)) :
    ∃ step ∈ foldSteps (shiftLink chain.theta) (g, []) chain.links, ¬ Amount.InRange
      (step.1.1.amount step.2.row step.2.col + step.2.sign.factor * chain.theta) := by
  have hfit : Yields (fun _ => True) (g.requireFit p) := by
    rw [Grid.requireFit]
    split
    · exact yields_ok trivial
    · exact yields_error (by simp)
  have hsteps : ∀ step ∈ foldSteps (shiftLink chain.theta) (g, []) chain.links,
      step.1.1.Full n ∧ step.2 ∈ chain.links :=
    forall_foldSteps_of_ok (fun state => state.1.Full n) h
      fun _ _ _ hs _ hstep => full_shiftLink hs hstep
  rcases bind_eq_error_iff.mp happly with herror | ⟨-, -, happly⟩
  · exact absurd herror hfit.ne_overflow
  rcases bind_eq_error_iff.mp happly with herror | ⟨state, hfold, herror⟩
  · obtain ⟨step, hmem, hstep⟩ := exists_error_of_foldlM herror
    exact ⟨step, hmem, not_inRange_of_shiftLink (hsteps step hmem).1 hstep⟩
  · have hstate : state.1.Full n :=
      of_foldlM_eq_ok (fun state => state.1.Full n) h
        (fun _ _ _ hs hstep => full_shiftLink hs hstep) hfold
    exact absurd herror (yields_settle hstate p chain state.2).ne_overflow

end Chain

/-- A report on cells: there are as many as before, and the change says how many more are basic. -/
structure Report.Rewrites (cells : List Cell) (r : Report) : Prop where
  length_eq : r.cells.length = cells.length
  change_eq : r.change = (r.cells.countP Cell.isBasic : Int) - cells.countP Cell.isBasic

section Blocks

variable {n : Nat} {g : Grid} {p : Problem} {theta : Int} {cells cells' : List Cell}
  {r r' total : Report}

theorem Report.Rewrites.append (h : r.Rewrites cells) (h' : r'.Rewrites cells') :
    (r.append r').Rewrites (cells ++ cells') where
  length_eq := by simp [Report.append, h.length_eq, h'.length_eq]
  change_eq := by
    simp only [Report.append, h.change_eq, h'.change_eq, List.countP_append]
    omega

private theorem rewrites_shiftInRow {row : Nat} {change : Nat × Sign} (h : r.Rewrites cells)
    (hshift : shiftInRow theta row r change = .ok r') : r'.Rewrites cells := by
  obtain ⟨before, hbefore, hshift⟩ := bind_eq_ok_iff.mp hshift
  obtain ⟨after, -, hshift⟩ := bind_eq_ok_iff.mp hshift
  obtain ⟨hlt, rfl⟩ := List.getElem?_eq_some_iff.mp (entry_eq_ok_iff.mp hbefore)
  cases hshift
  refine ⟨by simpa using h.length_eq, ?_⟩
  dsimp only
  rw [h.change_eq, basicChange_eq hlt]
  omega

private theorem rewrites_shiftRow {update : RowUpdate} (hshift : shiftRow theta g update = .ok r) :
    r.Rewrites ((g.cells.drop (update.row * g.cols)).take g.cols) := by
  obtain ⟨cells, hrow, hfold⟩ := bind_eq_ok_iff.mp hshift
  have hcells : cells = (g.cells.drop (update.row * g.cols)).take g.cols := by
    obtain ⟨next, -, hrow⟩ := bind_eq_ok_iff.mp hrow
    split at hrow
    · cases hrow
      rfl
    · cases hrow
  rw [← hcells]
  exact of_foldlM_eq_ok (Report.Rewrites cells) ⟨rfl, by simp⟩
    (fun _ _ _ hr hstep => rewrites_shiftInRow hr hstep) hfold

private theorem rewrites_join {α : Type} {f : α → Except Failure Report} {old : α → List Cell}
    (h : ∀ x r, f x = .ok r → r.Rewrites (old x)) {xs : List α} {reports : List Report}
    (hmap : xs.mapM f = .ok reports) : (Report.join reports).Rewrites (xs.flatMap old) := by
  induction xs generalizing reports with
  | nil =>
      cases hmap
      exact ⟨rfl, rfl⟩
  | cons x xs ih =>
      rw [List.mapM_cons] at hmap
      obtain ⟨r, hr, hmap⟩ := bind_eq_ok_iff.mp hmap
      obtain ⟨reports', hreports, hmap⟩ := bind_eq_ok_iff.mp hmap
      cases hmap
      rw [Report.join_cons, List.flatMap_cons]
      exact (h x r hr).append (ih hreports)

def workInBlocks (split : WorkSplit) (p : Problem) (g : Grid) (chain : Chain) :
    Except Failure Report := do
  let updates ← rowUpdates p.rows chain
  let reports ← onWorkers do
    let _ ← split.cellsPerBlock p.rows p.cols
    (WorkSplit.blocks p.rows (split.rowsPerBlock p.rows)).mapM fun block =>
      shiftBlock chain.theta g ((updates.drop block.1).take block.2)
  return Report.join reports

theorem applyInBlocks_eq_work (split : WorkSplit) (p : Problem) (g : Grid) (chain : Chain) :
    applyInBlocks split p g chain = (do
      g.requireFit p
      let total ← workInBlocks split p g chain
      settle p chain
        { g with cells := total.cells, basicCount := Count.shift g.basicCount total.change }
        total.leaving) := by
  rw [applyInBlocks, workInBlocks]
  cases rowUpdates p.rows chain with
  | error failure => rfl
  | ok updates => simp only [ok_bind, bind_assoc]; rfl

/-- The tasks cover all cells of the grid, each once. -/
theorem rewrites_workInBlocks (h : g.Full n) (hfit : g.Fits p) {split : WorkSplit} {chain : Chain}
    (hwork : workInBlocks split p g chain = .ok total) : total.Rewrites g.cells := by
  obtain ⟨updates, hupdates, hwork⟩ := bind_eq_ok_iff.mp hwork
  obtain ⟨reports, hreports, hwork⟩ := bind_eq_ok_iff.mp hwork
  obtain ⟨-, -, hreports⟩ := bind_eq_ok_iff.mp (onWorkers_eq_ok_iff.mp hreports)
  cases hwork
  let rowOf (update : RowUpdate) : List Cell := (g.cells.drop (update.row * g.cols)).take g.cols
  have hblock (updates : List RowUpdate) (r : Report)
      (hshift : shiftBlock chain.theta g updates = .ok r) :
      r.Rewrites (updates.flatMap rowOf) := by
    obtain ⟨rows, hrows, hshift⟩ := bind_eq_ok_iff.mp hshift
    cases hshift
    exact rewrites_join (fun _ _ => rewrites_shiftRow) hrows
  have htotal := rewrites_join
    (fun (block : Nat × Nat) => hblock ((updates.drop block.1).take block.2)) hreports
  have hrows : updates.length = p.rows ∧ updates.flatMap rowOf = g.cells := by
    rw [rowUpdates] at hupdates
    split at hupdates
    · cases hupdates
      refine ⟨by simp, ?_⟩
      rw [List.flatMap_map, ← hfit.1]
      exact (WorkSplit.flatMap_range_drop_take g.cells g.cols g.rows).trans
        (List.take_of_length_le h.length_cells.le)
    · cases hupdates
  have hcover := WorkSplit.flatMap_blocks updates (split.rowsPerBlock_pos p.rows)
  rw [hrows.1] at hcover
  rwa [← List.flatMap_assoc, hcover, hrows.2] at htotal

theorem shift_eq_of_work (h : g.Full n) (hn : n ≤ Count.greatest) (hfit : g.Fits p)
    {split : WorkSplit} {chain : Chain} (hwork : workInBlocks split p g chain = .ok total) :
    (Count.shift g.basicCount total.change : Int) = g.basicCount + total.change ∧
      Grid.Full n { g with
        cells := total.cells
        basicCount := Count.shift g.basicCount total.change } := by
  have hrewrites := rewrites_workInBlocks h hfit hwork
  have hlength : total.cells.length = n := hrewrites.length_eq.trans h.length_eq
  have hle : total.cells.countP Cell.isBasic ≤ n := hlength ▸ List.countP_le_length
  have hend : (g.basicCount : Int) + total.change = total.cells.countP Cell.isBasic := by
    rw [hrewrites.change_eq, h.basicCount_eq]
    omega
  have hshift : Count.shift g.basicCount total.change = total.cells.countP Cell.isBasic := by
    rw [Count.shift, hend, Int.toNat_natCast]
    exact min_eq_left (hle.trans hn)
  refine ⟨by rw [hshift, hend], ⟨?_, hshift⟩, hlength⟩
  exact hrewrites.length_eq.trans h.length_cells

theorem yields_applyInBlocks (h : g.Full n) (hn : n ≤ Count.greatest) (split : WorkSplit)
    (p : Problem) (chain : Chain) :
    Yields (fun r => r.1.Full n) (applyInBlocks split p g chain) := by
  rw [applyInBlocks_eq_work, Grid.requireFit]
  split
  · next hfit =>
      have hwork : Yields (fun total => workInBlocks split p g chain = .ok total)
          (workInBlocks split p g chain) := by
        refine ⟨fun herror => ?_, fun _ heq => heq⟩
        rcases bind_eq_error_iff.mp herror with herror | ⟨updates, -, herror⟩
        · rw [rowUpdates] at herror
          split at herror <;> simp at herror
        · rcases bind_eq_error_iff.mp herror with herror | ⟨reports, -, herror⟩
          · exact onWorkers_ne_breach _ _ herror
          · cases herror
      exact hwork.bind fun total htotal =>
        yields_settle (shift_eq_of_work h hn hfit htotal).2 p chain total.leaving
  · exact yields_error (by simp)

end Blocks

end Pivot

namespace Grid

/-- The grids that the operations lead to. Problems, chains and cells are arbitrary, also those made
for other grids, as long as the operation returns. -/
inductive Obtainable : Grid → Prop where
  | ofShape {rows cols : Nat} {g : Grid} (h : ofShape rows cols = .ok g) : Obtainable g
  | stored {s : StoredGrid} {g : Grid} (h : s.toGrid = .ok g) : Obtainable g
  | firstBasis {corner : Corner} {p : Problem} {g : Grid}
      (hroom : requireRoom p.rows p.cols = .ok ()) (h : corner.firstBasis p = .ok g) : Obtainable g
  | set {g g' : Grid} {row col : Nat} {cell : Cell} (hg : Obtainable g)
      (h : g.set row col cell = .ok g') : Obtainable g'
  | apply {g g' : Grid} {p : Problem} {chain : Chain} {result : PivotResult} (hg : Obtainable g)
      (h : Pivot.apply p g chain = .ok (g', result)) : Obtainable g'
  | applyInBlocks {g g' : Grid} {split : WorkSplit} {p : Problem} {chain : Chain}
      {result : PivotResult} (hg : Obtainable g)
      (h : Pivot.applyInBlocks split p g chain = .ok (g', result)) : Obtainable g'
  | repair {g g' : Grid} {p : Problem} {chain : Chain} {promoted : List (Nat × Nat)}
      (hg : Obtainable g) (h : Pivot.repair p g chain = .ok (g', promoted)) : Obtainable g'

private theorem le_greatest_of_requireRoom {rows cols : Nat}
    (h : requireRoom rows cols = .ok ()) : rows * cols ≤ Count.greatest := by
  rw [requireRoom] at h
  split at h
  · next hfits =>
      rw [FitsMemory] at hfits
      rw [Count.greatest]
      omega
  · cases h

theorem Obtainable.full {g : Grid} (h : g.Obtainable) : ∃ n ≤ Count.greatest, g.Full n := by
  induction h with
  | @ofShape rows cols g h =>
      obtain ⟨_, hroom, hg⟩ := bind_eq_ok_iff.mp h
      cases hg
      exact ⟨rows * cols, le_greatest_of_requireRoom hroom, full_vacant rows cols⟩
  | @stored s g h =>
      obtain ⟨hdefect, rfl⟩ := StoredGrid.toGrid_eq_ok_iff.mp h
      obtain ⟨hsize, hlength, -⟩ := StoredGrid.defect?_eq_none_iff.mp hdefect
      exact ⟨s.rows * s.cols, hsize, ⟨hlength, rfl⟩, hlength⟩
  | firstBasis hroom h =>
      exact ⟨_, le_greatest_of_requireRoom hroom, (Corner.yields_firstBasis _ _).of_ok _ h⟩
  | set _ h ih =>
      obtain ⟨n, hn, hfull⟩ := ih
      exact ⟨n, hn, (hfull.set _ _ _).of_ok _ h⟩
  | apply _ h ih =>
      obtain ⟨n, hn, hfull⟩ := ih
      exact ⟨n, hn, Pivot.full_apply hfull h⟩
  | applyInBlocks _ h ih =>
      obtain ⟨n, hn, hfull⟩ := ih
      exact ⟨n, hn, (Pivot.yields_applyInBlocks hfull hn _ _ _).of_ok _ h⟩
  | repair _ h ih =>
      obtain ⟨n, hn, hfull⟩ := ih
      exact ⟨n, hn, (Pivot.yields_repair hfull _ _).of_ok _ h⟩

/-- However a grid is obtained, its shape and its counts agree. A cell is replaced unless it lies
beyond the cells, a pivot cell by cell overflows only by the amount of a cell that it reaches, and
the count that the tasks of a pivot by rows report is reached without being held at an end. -/
theorem obtainable_counted {g : Grid} (h : g.Obtainable) :
    (g.cells.length = g.rows * g.cols ∧ g.basicCount = g.cells.countP Cell.isBasic ∧
      g.shipments.length = g.basicCount) ∧
    (∀ row col cell, (∃ g', g.set row col cell = .ok g') ↔
      row * g.cols + col < g.cells.length) ∧
    (∀ corner p, Corner.firstBasis corner p ≠ .error (.breach .overflow)) ∧
    (∀ p chain, Pivot.repair p g chain ≠ .error (.breach .overflow)) ∧
    (∀ p chain, Pivot.apply p g chain = .error (.breach .overflow) →
      ∃ step ∈ foldSteps (Pivot.shiftLink chain.theta) (g, []) chain.links, ¬ Amount.InRange
        (step.1.1.amount step.2.row step.2.col + step.2.sign.factor * chain.theta)) ∧
    (∀ split p chain, Pivot.applyInBlocks split p g chain ≠ .error (.breach .overflow)) ∧
    ∀ split p chain total, g.Fits p → Pivot.workInBlocks split p g chain = .ok total →
      (Count.shift g.basicCount total.change : Int) = g.basicCount + total.change := by
  obtain ⟨n, hn, hfull⟩ := h.full
  refine ⟨⟨hfull.length_cells, hfull.basicCount_eq, ?_⟩, fun row col cell => ?_,
    fun corner p => (Corner.yields_firstBasis corner p).ne_overflow,
    fun p chain => (Pivot.yields_repair hfull p chain).ne_overflow,
    fun p chain => Pivot.exists_step_of_overflow hfull,
    fun split p chain => (Pivot.yields_applyInBlocks hfull hn split p chain).ne_overflow,
    fun split p chain total hfit hwork => (Pivot.shift_eq_of_work hfull hn hfit hwork).1⟩
  · rw [length_shipments, hfull.basicCount_eq]
  · rw [hfull.set_eq]
    split <;> simp [*]

/-- A grid that is read and then pivoted along a chain of another shape: the chain names a third
column, which is the first one of the next row, and names it twice. -/
def wrapped : Grid := ⟨2, 2, [.vacant, .basic 0, .basic 2, .basic 1], 3⟩

theorem obtainable_counted_wrapped :
    (∃ g result, StoredGrid.toGrid ⟨2, 2, [.basic 1, .basic 0, .vacant, .basic 1]⟩ = .ok g ∧
      Pivot.apply ⟨2, 2, [1, 0, 0, 1], [1, 1], [1, 1], 2⟩ g
        ⟨[⟨0, 2, 0, 0, .plus⟩, ⟨0, 0, 1, 1, .minus⟩, ⟨0, 2, 0, 0, .plus⟩]⟩ =
          .ok (wrapped, result)) ∧
    wrapped.cells.length = 2 * 2 ∧ wrapped.basicCount = wrapped.cells.countP Cell.isBasic ∧
    wrapped.shipments.length = 3 ∧ ∃ g', wrapped.set 0 3 .vacant = .ok g' := by
  have hread : StoredGrid.toGrid ⟨2, 2, [.basic 1, .basic 0, .vacant, .basic 1]⟩ =
      .ok ⟨2, 2, [.basic 1, .basic 0, .vacant, .basic 1], 3⟩ := by decide
  have hpivot : Pivot.apply ⟨2, 2, [1, 0, 0, 1], [1, 1], [1, 1], 2⟩
      ⟨2, 2, [.basic 1, .basic 0, .vacant, .basic 1], 3⟩
      ⟨[⟨0, 2, 0, 0, .plus⟩, ⟨0, 0, 1, 1, .minus⟩, ⟨0, 2, 0, 0, .plus⟩]⟩ =
        .ok (wrapped, ⟨1, [(0, 0)], []⟩) := by decide +kernel
  obtain ⟨⟨hlength, hcount, hshipments⟩, hset, -⟩ :=
    obtainable_counted (.apply (.stored hread) hpivot)
  exact ⟨⟨_, _, hread, hpivot⟩, hlength, hcount, hshipments, (hset 0 3 .vacant).mpr (by decide)⟩

end Grid

end Transportation
