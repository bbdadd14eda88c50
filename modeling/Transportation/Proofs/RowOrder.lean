import Transportation.Proofs.Exchanges
import Transportation.Proofs.PivotBlocks
import Transportation.Proofs.Reachable
import Transportation.Proofs.SearchPaths
/-!
# The row order of a pivot

A pivot by rows needs no basic plan and no chain of its own grid, only different cells inside the
table and amounts in range. It leaves the grid that the pivot along the chain leaves, and lists the
cells that leave in the order of their rows, those of one row in the order of the chain.
-/
namespace Transportation

namespace Pivot

def byRow (places : List (Nat × Nat)) : List (Nat × Nat) :=
  places.mergeSort fun a b => decide (a.1 ≤ b.1)

section Order

variable {places : List (Nat × Nat)}

theorem byRow_perm (places : List (Nat × Nat)) : (byRow places).Perm places :=
  List.mergeSort_perm _ _

private theorem row_le_trans (a b c : Nat × Nat) (hab : decide (a.1 ≤ b.1) = true)
    (hbc : decide (b.1 ≤ c.1) = true) : decide (a.1 ≤ c.1) = true :=
  decide_eq_true ((of_decide_eq_true hab).trans (of_decide_eq_true hbc))

private theorem row_le_total (a b : Nat × Nat) :
    (decide (a.1 ≤ b.1) || decide (b.1 ≤ a.1)) = true := by
  rw [Bool.or_eq_true, decide_eq_true_iff, decide_eq_true_iff]
  exact Nat.le_total a.1 b.1

theorem pairwise_byRow (places : List (Nat × Nat)) :
    (byRow places).Pairwise fun a b => a.1 ≤ b.1 :=
  (List.pairwise_mergeSort row_le_trans row_le_total places).imp of_decide_eq_true

/-- The places of one row keep their order. -/
theorem filter_byRow (places : List (Nat × Nat)) (i : Nat) :
    (byRow places).filter (fun c => c.1 == i) = places.filter fun c => c.1 == i := by
  have hpairwise : (places.filter fun c => c.1 == i).Pairwise
      fun a b => decide (a.1 ≤ b.1) = true := by
    refine List.pairwise_of_forall_mem_list fun a ha b hb => decide_eq_true ?_
    have hai := (List.mem_filter.mp ha).2
    have hbi := (List.mem_filter.mp hb).2
    rw [beq_iff_eq] at hai hbi
    rw [hai, hbi]
  have hsub : (places.filter fun c => c.1 == i).Sublist (byRow places) :=
    List.sublist_mergeSort row_le_trans row_le_total hpairwise List.filter_sublist
  have hrow := hsub.filter fun c => c.1 == i
  rw [List.filter_filter] at hrow
  simp only [Bool.and_self] at hrow
  exact (hrow.eq_of_length ((byRow_perm places).filter _).length_eq.symm).symm

private theorem filter_lt_append (h : places.Pairwise fun a b => a.1 ≤ b.1) (n : Nat) :
    places.filter (fun c => decide (c.1 < n)) ++ places.filter (fun c => c.1 == n) =
      places.filter fun c => decide (c.1 < n + 1) := by
  induction places with
  | nil => rfl
  | cons c places ih =>
      obtain ⟨hc, hrest⟩ := List.pairwise_cons.mp h
      have hih := ih hrest
      rcases Nat.lt_trichotomy c.1 n with hlt | heq | hgt
      · rw [List.filter_cons_of_pos (by simpa using hlt),
          List.filter_cons_of_neg (by simpa using hlt.ne),
          List.filter_cons_of_pos (by simpa using hlt.le), List.cons_append, hih]
      · have hbefore : places.filter (fun c => decide (c.1 < n)) = [] :=
          List.filter_eq_nil_iff.mpr fun d hd => by
            have hle := hc d hd
            simp only [decide_eq_true_eq]
            omega
        rw [hbefore, List.nil_append] at hih
        rw [List.filter_cons_of_neg (by simpa using heq.ge),
          List.filter_cons_of_pos (by simpa using heq),
          List.filter_cons_of_pos (by simpa using heq.le), hbefore, List.nil_append, hih]
      · rw [List.filter_cons_of_neg (by simpa using hgt.le),
          List.filter_cons_of_neg (by simpa using hgt.ne'),
          List.filter_cons_of_neg (by simpa using hgt), hih]

private theorem flatMap_rows (h : places.Pairwise fun a b => a.1 ≤ b.1) (n : Nat) :
    ((List.range n).flatMap fun i => places.filter fun c => c.1 == i) =
      places.filter fun c => decide (c.1 < n) := by
  induction n with
  | zero => simp
  | succ n ih =>
      rw [List.range_succ, List.flatMap_append, List.flatMap_singleton, ih, filter_lt_append h]

theorem byRow_eq_flatMap {n : Nat} (h : ∀ c ∈ places, c.1 < n) :
    byRow places = (List.range n).flatMap fun i => places.filter fun c => c.1 == i := by
  have hall : (byRow places).filter (fun c => decide (c.1 < n)) = byRow places :=
    List.filter_eq_self.mpr fun c hc => decide_eq_true (h c ((byRow_perm places).mem_iff.mp hc))
  rw [← hall, ← flatMap_rows (pairwise_byRow places)]
  simp only [filter_byRow]

theorem byRow_filter (places : List (Nat × Nat)) (test : Nat × Nat → Bool) :
    (byRow places).filter test = byRow (places.filter test) := by
  obtain ⟨n, hn⟩ : ∃ n, ∀ c ∈ places, c.1 < n :=
    ⟨(places.map Prod.fst).sum + 1, fun c hc =>
      Nat.lt_succ_of_le (List.le_sum_of_mem (List.mem_map_of_mem hc))⟩
  rw [byRow_eq_flatMap hn, byRow_eq_flatMap fun c hc => hn c (List.mem_of_mem_filter hc),
    List.filter_flatMap]
  simp only [List.filter_filter, Bool.and_comm]

end Order

section Rows

variable {p : Problem} {g : Grid} {links : List Link}

theorem leavingByRow_eq {theta : Int} (h : Placed g links) :
    leavingByRow theta g links = byRow ((links.filter (leaves theta g)).map Link.place) := by
  have hrows : ∀ c ∈ (links.filter (leaves theta g)).map Link.place, c.1 < g.rows := by
    intro c hc
    obtain ⟨l, hl, rfl⟩ := List.mem_map.mp hc
    exact (h.within l (List.mem_of_mem_filter hl)).1
  rw [byRow_eq_flatMap hrows, leavingByRow]
  congr 1
  funext i
  rw [leavingFrom, List.filter_map]
  rfl

/-- Along the chain or by rows, a pivot moves the same amount to the same grid and keeps the same
cells. By rows it lists the cells that leave in the order of their rows. The chain may come from
another grid or another problem. -/
theorem applyInBlocks_agrees {costs : List (List Int)} {supply demand : List Int}
    (hp : Problem.ofTable costs supply demand = .ok p) (hfit : g.Fits p) (hreg : g.Regular)
    (hroom : g.cells.length ≤ Count.greatest) {p' : Problem} {g' : Grid} {row col : Nat}
    {chain : Chain} (hchain : Chain.cycle p' g' row col = .ok chain)
    (hinside : ∀ l ∈ chain.links, l.row < p.rows ∧ l.col < p.cols)
    (hrange : Movable chain.theta g chain.links) (split : WorkSplit)
    (hsize : split.rowsPerBlock p.rows * p.cols ≤ Count.greatest) :
    ∃ g₁ leaving promoted,
      apply p g chain = .ok (g₁, ⟨chain.theta, leaving, promoted⟩) ∧
      applyInBlocks split p g chain = .ok (g₁, ⟨chain.theta, byRow leaving, promoted⟩) := by
  obtain ⟨links⟩ := chain
  have hplaced : Placed g links :=
    ⟨fun l hl => hfit.1.symm ▸ hfit.2.symm ▸ hinside l hl, Chain.nodup_of_cycle hchain⟩
  set moved := shift (Chain.mk links).theta g links with hmoved
  have hmreg : moved.Regular := regular_shift hreg links
  have hrows : moved.rows = g.rows := rows_shift links
  have hcols : moved.cols = g.cols := cols_shift links
  have hlinks : ∀ l ∈ links, l.row < moved.rows ∧ l.col < moved.cols := by
    rw [hrows, hcols]
    exact hplaced.within
  have hcount : moved.basicCount ≤ Count.greatest :=
    calc moved.basicCount
      _ ≤ moved.cells.length := hmreg.basicCount_le
      _ = g.cells.length := by rw [hmreg.length_cells, hreg.length_cells, hrows, hcols]
      _ ≤ Count.greatest := hroom
  refine ⟨fill moved (kept p moved links),
    ((links.filter (leaves (Chain.mk links).theta g)).map Link.place).filter fun c =>
      !(kept p moved links).contains c, kept p moved links, ?_, ?_⟩
  · rw [apply, Grid.requireFit_eq_ok_iff.mpr hfit, ok_bind,
      foldlM_shiftLink_eq_ok hreg hplaced hrange, ok_bind, List.nil_append]
    exact settle_eq_ok hmreg hlinks _
  · rw [applyInBlocks_eq (Problem.sound_of_ofTable hp) hfit hreg hplaced hrange hcount split hsize,
      settle_eq_ok hmreg hlinks, leavingByRow_eq hplaced, byRow_filter]

def wide : Problem := ⟨2, 3, [1, 0, 2, 0, 1, 2], [2, 1], [1, 1, 1], 3⟩

/-- A grid of nothing but basic cells, one of them below zero. -/
def wideFull : Grid :=
  ⟨2, 3, [.basic 1, .basic 4, .basic 7, .basic (-2), .basic 1, .basic 0], 6⟩

def turned : Chain :=
  ⟨[⟨1, 0, 0, 0, .plus⟩, ⟨1, 1, 1, 1, .minus⟩, ⟨0, 1, 0, 0, .plus⟩, ⟨0, 0, 1, 1, .minus⟩]⟩

theorem applyInBlocks_agrees_wide :
    Chain.cycle crossed ⟨2, 2, [.basic 1, .basic 0, .vacant, .basic 1], 3⟩ 1 0 = .ok turned ∧
    ∃ g₁, apply wide wideFull turned = .ok (g₁, ⟨1, [(1, 1), (0, 0)], []⟩) ∧
      applyInBlocks ⟨2, 1⟩ wide wideFull turned = .ok (g₁, ⟨1, [(0, 0), (1, 1)], []⟩) := by
  have hp : Problem.ofTable [[1, 0, 2], [0, 1, 2]] [2, 1] [1, 1, 1] = .ok wide := rfl
  have hchain : Chain.cycle crossed ⟨2, 2, [.basic 1, .basic 0, .vacant, .basic 1], 3⟩ 1 0 =
      .ok turned := by decide +kernel
  obtain ⟨g₁, leaving, promoted, happly, hblocks⟩ := applyInBlocks_agrees hp (g := wideFull)
    (by decide) ⟨rfl, rfl⟩ (by decide) hchain (by decide) (by decide) ⟨2, 1⟩ (by decide)
  have hresult : apply wide wideFull turned =
      .ok (⟨2, 3, [.vacant, .basic 5, .basic 7, .basic (-1), .vacant, .basic 0], 4⟩,
        ⟨1, [(1, 1), (0, 0)], []⟩) := by decide +kernel
  cases happly.symm.trans hresult
  have horder : byRow [(1, 1), (0, 0)] = [(0, 0), (1, 1)] :=
    (byRow_eq_flatMap (n := 2) (by decide)).trans rfl
  rw [horder] at hblocks
  exact ⟨hchain, _, hresult, hblocks⟩

end Rows

end Pivot

end Transportation
