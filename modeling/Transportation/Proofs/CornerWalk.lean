import Transportation.Proofs.Plans
import Transportation.FirstBasis
/-!
# The corner walk

The walk from a corner is a list of shipments. Each step uses up a source or passes a sink, so the
walk has one step fewer than there are parties, ships everything, and connects all parties.
-/
namespace Transportation

namespace Grid

variable {g : Grid}

def Holds (g : Grid) (s : Shipment) : Prop := s.row < g.rows ∧ s.col < g.cols

def lay (g : Grid) (steps : List Shipment) : Grid :=
  steps.foldl (fun g s => g.put s.row s.col (.basic s.amount)) g

@[simp] theorem rows_lay (g : Grid) (steps : List Shipment) : (g.lay steps).rows = g.rows := by
  induction steps generalizing g with
  | nil => rfl
  | cons s steps ih => exact ih _

@[simp] theorem cols_lay (g : Grid) (steps : List Shipment) : (g.lay steps).cols = g.cols := by
  induction steps generalizing g with
  | nil => rfl
  | cons s steps ih => exact ih _

theorem Regular.lay (h : g.Regular) (steps : List Shipment) : (g.lay steps).Regular := by
  induction steps generalizing g with
  | nil => exact h
  | cons s steps ih => exact ih (h.put _ _ _)

theorem Regular.basis_lay (h : g.Regular) (steps : List Shipment)
    (hin : ∀ s ∈ steps, g.Holds s) :
    (g.lay steps).basis = (steps.map fun s => (s.row, s.col)).toFinset ∪ g.basis := by
  induction steps generalizing g with
  | nil => simp [Grid.lay]
  | cons s steps ih =>
      obtain ⟨hi, hj⟩ := hin s List.mem_cons_self
      change ((g.put s.row s.col (.basic s.amount)).lay steps).basis = _
      rw [ih (h.put _ _ _) fun t ht => hin t (List.mem_cons_of_mem s ht),
        h.basis_put_basic hi hj]
      simp

theorem Regular.nonneg_lay (h : g.Regular) (steps : List Shipment)
    (hin : ∀ s ∈ steps, g.Holds s) (hpos : ∀ s ∈ steps, 0 ≤ s.amount)
    (hg : ∀ i j, j < g.cols → 0 ≤ g.amount i j) :
    ∀ i j, j < g.cols → 0 ≤ (g.lay steps).amount i j := by
  induction steps generalizing g with
  | nil => exact hg
  | cons s steps ih =>
      obtain ⟨hi, hj⟩ := hin s List.mem_cons_self
      refine ih (h.put _ _ _) (fun t ht => hin t (List.mem_cons_of_mem s ht))
        (fun t ht => hpos t (List.mem_cons_of_mem s ht)) ?_
      intro i j hj'
      rw [h.amount_put hi hj hj']
      split
      · exact hpos s List.mem_cons_self
      · exact hg i j hj'

/-- Shipments entered at vacant places of their own add up in every weighted sum. -/
theorem Regular.weigh_lay (h : g.Regular) (steps : List Shipment)
    (hin : ∀ s ∈ steps, g.Holds s) (hnodup : (steps.map fun s => (s.row, s.col)).Nodup)
    (hvacant : ∀ s ∈ steps, (s.row, s.col) ∉ g.basis) (w : Nat → Nat → Int) :
    (g.lay steps).weigh w = g.weigh w + (steps.map fun s => s.amount * w s.row s.col).sum := by
  induction steps generalizing g with
  | nil => simp [Grid.lay]
  | cons s steps ih =>
      obtain ⟨hi, hj⟩ := hin s List.mem_cons_self
      obtain ⟨hs, hnd⟩ := List.nodup_cons.mp hnodup
      have hzero := amount_eq_zero_of_not_mem_basis hi hj (hvacant s List.mem_cons_self)
      have hrest := ih (h.put s.row s.col (.basic s.amount))
        (fun t ht => hin t (List.mem_cons_of_mem s ht)) hnd (fun t ht hmem => by
          rw [h.basis_put_basic hi hj, Finset.mem_insert] at hmem
          rcases hmem with heq | hmem
          · exact hs (List.mem_map.mpr ⟨t, ht, heq⟩)
          · exact hvacant t (List.mem_cons_of_mem s ht) hmem)
      change ((g.put s.row s.col (.basic s.amount)).lay steps).weigh w = _
      rw [hrest, h.weigh_put hi hj, hzero, List.map_cons, List.sum_cons, sub_zero, add_assoc]
      rfl

end Grid

namespace Corner

open Grid (Shipment)

/-- The shipments of a walk: each step uses up the source or moves on to the next sink. -/
def walk : List Party → List Party → List Shipment
  | [], _ => []
  | _ :: _, [] => []
  | source :: sources, sink :: sinks =>
    let amount := min source.left sink.left
    if source.left - amount = 0 then
      ⟨source.index, sink.index, amount⟩ ::
        walk sources ({ sink with left := sink.left - amount } :: sinks)
    else
      ⟨source.index, sink.index, amount⟩ ::
        walk ({ source with left := source.left - amount } :: sources) sinks
termination_by sources sinks => sources.length + sinks.length

private theorem shipAll_cons_cons (source sink : Party) (sources sinks : List Party) (g : Grid) :
    shipAll (source :: sources) (sink :: sinks) g = (do
      let amount := min source.left sink.left
      let g ← g.set source.index sink.index (.basic amount)
      if source.left - amount = 0 then
        shipAll sources ({ sink with left := sink.left - amount } :: sinks) g
      else
        shipAll ({ source with left := source.left - amount } :: sources) sinks g) := by
  simp only [shipAll, shipFrom]
  cases g.set source.index sink.index (.basic (min source.left sink.left)) with
  | error failure => rfl
  | ok g =>
      simp only [ok_bind]
      split <;> rfl

private theorem shipAll_nil (sources : List Party) (g : Grid) : shipAll sources [] g = .ok g := by
  induction sources with
  | nil => rfl
  | cons source sources ih => exact ih

theorem shipAll_eq_ok_lay (sources sinks : List Party) (g : Grid) (hg : g.Regular)
    (hrows : ∀ s ∈ sources, s.index < g.rows) (hcols : ∀ t ∈ sinks, t.index < g.cols) :
    shipAll sources sinks g = .ok (g.lay (walk sources sinks)) := by
  fun_induction walk sources sinks generalizing g with
  | case1 sinks => rfl
  | case2 source sources => exact shipAll_nil (source :: sources) g
  | case3 source sources sink sinks amount hused ih =>
      have hi := hrows source List.mem_cons_self
      have hj := hcols sink List.mem_cons_self
      rw [shipAll_cons_cons]
      dsimp only
      rw [hg.set_eq_ok hi hj, ok_bind, if_pos hused]
      refine ih _ (hg.put _ _ _) (fun s hs => hrows s (List.mem_cons_of_mem source hs)) ?_
      intro t ht
      rcases List.mem_cons.mp ht with rfl | ht
      · exact hj
      · exact hcols t (List.mem_cons_of_mem sink ht)
  | case4 source sources sink sinks amount hleft ih =>
      have hi := hrows source List.mem_cons_self
      have hj := hcols sink List.mem_cons_self
      rw [shipAll_cons_cons]
      dsimp only
      rw [hg.set_eq_ok hi hj, ok_bind, if_neg hleft]
      refine ih _ (hg.put _ _ _) ?_ fun t ht => hcols t (List.mem_cons_of_mem sink ht)
      intro s hs
      rcases List.mem_cons.mp hs with rfl | hs
      · exact hi
      · exact hrows s (List.mem_cons_of_mem source hs)

/-- Sources that are not used up and sinks of which only the first may be filled, with one total. -/
structure Balanced (sources sinks : List Party) : Prop where
  total : (sources.map Party.left).sum = (sinks.map Party.left).sum
  source_pos : ∀ s ∈ sources, 0 < s.left
  sink_nonneg : ∀ t ∈ sinks, 0 ≤ t.left
  sink_pos : ∀ t ∈ sinks.tail, 0 < t.left

private theorem sum_left_pos {parties : List Party} (hne : parties ≠ [])
    (hpos : ∀ s ∈ parties, 0 < s.left) : 0 < (parties.map Party.left).sum := by
  cases parties with
  | nil => contradiction
  | cons s parties =>
      have hs := hpos s List.mem_cons_self
      have hrest : 0 ≤ (parties.map Party.left).sum := by
        apply List.sum_nonneg
        rw [List.forall_mem_map]
        exact fun t ht => (hpos t (List.mem_cons_of_mem s ht)).le
      rw [List.map_cons, List.sum_cons]
      omega

section Balanced

variable {source sink : Party} {sources sinks : List Party}

theorem Balanced.sinks_eq_nil (h : Balanced [] (sink :: sinks)) :
    sink.left = 0 ∧ sinks = [] := by
  have htotal := h.total
  have hsink := h.sink_nonneg sink List.mem_cons_self
  rw [List.map_nil, List.sum_nil, List.map_cons, List.sum_cons] at htotal
  by_cases hne : sinks = []
  · subst hne
    exact ⟨by simpa using htotal.symm, rfl⟩
  · have := sum_left_pos hne h.sink_pos
    omega

theorem Balanced.sinks_ne_nil (h : Balanced (source :: sources) sinks) : sinks ≠ [] := by
  rintro rfl
  have := sum_left_pos (List.cons_ne_nil source sources) h.source_pos
  rw [h.total] at this
  exact absurd this (by simp)

theorem Balanced.next_source (h : Balanced (source :: sources) (sink :: sinks))
    (hused : source.left - min source.left sink.left = 0) :
    Balanced sources ({ sink with left := sink.left - min source.left sink.left } :: sinks) where
  total := by
    have := h.total
    simp only [List.map_cons, List.sum_cons] at this ⊢
    omega
  source_pos s hs := h.source_pos s (List.mem_cons_of_mem source hs)
  sink_nonneg t ht := by
    rcases List.mem_cons.mp ht with rfl | ht
    · exact sub_nonneg.mpr (min_le_right _ _)
    · exact h.sink_nonneg t (List.mem_cons_of_mem sink ht)
  sink_pos := h.sink_pos

theorem Balanced.next_sink (h : Balanced (source :: sources) (sink :: sinks))
    (hleft : ¬ source.left - min source.left sink.left = 0) :
    Balanced ({ source with left := source.left - min source.left sink.left } :: sources)
      sinks where
  total := by
    have := h.total
    simp only [List.map_cons, List.sum_cons] at this ⊢
    omega
  source_pos s hs := by
    rcases List.mem_cons.mp hs with rfl | hs
    · dsimp only
      omega
    · exact h.source_pos s (List.mem_cons_of_mem source hs)
  sink_nonneg t ht := h.sink_nonneg t (List.mem_cons_of_mem sink ht)
  sink_pos t ht := h.sink_pos t (List.mem_of_mem_tail ht)

end Balanced

theorem mem_walk {sources sinks : List Party} (hs : ∀ s ∈ sources, 0 ≤ s.left)
    (ht : ∀ t ∈ sinks, 0 ≤ t.left) {step : Shipment} (hstep : step ∈ walk sources sinks) :
    step.row ∈ sources.map Party.index ∧ step.col ∈ sinks.map Party.index ∧ 0 ≤ step.amount := by
  fun_induction walk sources sinks with
  | case1 | case2 => simp at hstep
  | case3 source sources sink sinks amount hused ih =>
      have hsource := hs source List.mem_cons_self
      have hsink := ht sink List.mem_cons_self
      rcases List.mem_cons.mp hstep with rfl | hstep
      · exact ⟨by simp, by simp, le_min hsource hsink⟩
      · obtain ⟨hrow, hcol, hpos⟩ := ih (fun s h => hs s (List.mem_cons_of_mem source h)) (by
          intro t h
          rcases List.mem_cons.mp h with rfl | h
          · exact sub_nonneg.mpr (min_le_right _ _)
          · exact ht t (List.mem_cons_of_mem sink h)) hstep
        exact ⟨List.mem_cons_of_mem _ hrow, hcol, hpos⟩
  | case4 source sources sink sinks amount hleft ih =>
      have hsource := hs source List.mem_cons_self
      have hsink := ht sink List.mem_cons_self
      rcases List.mem_cons.mp hstep with rfl | hstep
      · exact ⟨by simp, by simp, le_min hsource hsink⟩
      · obtain ⟨hrow, hcol, hpos⟩ := ih (by
          intro s h
          rcases List.mem_cons.mp h with rfl | h
          · exact sub_nonneg.mpr (min_le_left _ _)
          · exact hs s (List.mem_cons_of_mem source h))
            (fun t h => ht t (List.mem_cons_of_mem sink h)) hstep
        exact ⟨hrow, List.mem_cons_of_mem _ hcol, hpos⟩

/-- A walk has one step fewer than there are sources and sinks. -/
theorem length_walk {sources sinks : List Party} (h : Balanced sources sinks)
    (hne : sources ≠ []) : (walk sources sinks).length + 1 = sources.length + sinks.length := by
  fun_induction walk sources sinks with
  | case1 => contradiction
  | case2 source sources => exact absurd rfl h.sinks_ne_nil
  | case3 source sources sink sinks amount hused ih =>
      have hnext := h.next_source hused
      cases sources with
      | nil =>
          obtain ⟨-, rfl⟩ := hnext.sinks_eq_nil
          simp [walk]
      | cons next sources =>
          have := ih hnext (List.cons_ne_nil _ _)
          simp only [List.length_cons] at this ⊢
          omega
  | case4 source sources sink sinks amount hleft ih =>
      have := ih (h.next_sink hleft) (List.cons_ne_nil _ _)
      simp only [List.length_cons] at this ⊢
      omega

theorem sum_inRow_walk {sources sinks : List Party} (h : Balanced sources sinks) (i : Nat) :
    ((walk sources sinks).map fun s => s.amount * Grid.inRow i s.row s.col).sum =
      (sources.map fun s => if s.index = i then s.left else 0).sum := by
  fun_induction walk sources sinks with
  | case1 => rfl
  | case2 source sources => exact absurd rfl h.sinks_ne_nil
  | case3 source sources sink sinks amount hused ih =>
      rw [List.map_cons, List.sum_cons, List.map_cons, List.sum_cons, ih (h.next_source hused),
        Grid.inRow, mul_ite, mul_one, mul_zero, sub_eq_zero.mp hused]
  | case4 source sources sink sinks amount hleft ih =>
      rw [List.map_cons, List.sum_cons, List.map_cons, List.sum_cons, ih (h.next_sink hleft),
        List.map_cons, List.sum_cons, Grid.inRow]
      split <;> dsimp only <;> omega

theorem sum_inCol_walk {sources sinks : List Party} (h : Balanced sources sinks) (j : Nat) :
    ((walk sources sinks).map fun s => s.amount * Grid.inCol j s.row s.col).sum =
      (sinks.map fun t => if t.index = j then t.left else 0).sum := by
  fun_induction walk sources sinks with
  | case1 sinks =>
      cases sinks with
      | nil => rfl
      | cons sink sinks =>
          obtain ⟨hzero, rfl⟩ := h.sinks_eq_nil
          simp [hzero]
  | case2 source sources => exact absurd rfl h.sinks_ne_nil
  | case3 source sources sink sinks amount hused ih =>
      rw [List.map_cons, List.sum_cons, List.map_cons, List.sum_cons, ih (h.next_source hused),
        List.map_cons, List.sum_cons, Grid.inCol]
      split <;> dsimp only <;> omega
  | case4 source sources sink sinks amount hleft ih =>
      have hfilled : amount = sink.left := by
        rcases min_choice source.left sink.left with hmin | hmin
        · exact absurd (sub_eq_zero.mpr hmin.symm) hleft
        · exact hmin
      rw [List.map_cons, List.sum_cons, List.map_cons, List.sum_cons, ih (h.next_sink hleft),
        Grid.inCol, mul_ite, mul_one, mul_zero, hfilled]

theorem nodup_walk {sources sinks : List Party} (hs : ∀ s ∈ sources, 0 ≤ s.left)
    (ht : ∀ t ∈ sinks, 0 ≤ t.left) (hsources : (sources.map Party.index).Nodup)
    (hsinks : (sinks.map Party.index).Nodup) :
    ((walk sources sinks).map fun s => (s.row, s.col)).Nodup := by
  fun_induction walk sources sinks with
  | case1 | case2 => exact List.nodup_nil
  | case3 source sources sink sinks amount hused ih =>
      obtain ⟨hnew, hnodup⟩ := List.nodup_cons.mp hsources
      have hs' := fun s h => hs s (List.mem_cons_of_mem source h)
      have ht' : ∀ t ∈ { sink with left := sink.left - amount } :: sinks, 0 ≤ t.left := by
        intro t h
        rcases List.mem_cons.mp h with rfl | h
        · exact sub_nonneg.mpr (min_le_right _ _)
        · exact ht t (List.mem_cons_of_mem sink h)
      refine List.nodup_cons.mpr ⟨fun hmem => ?_, ih hs' ht' hnodup hsinks⟩
      obtain ⟨step, hstep, heq⟩ := List.mem_map.mp hmem
      have hrow := (mem_walk hs' ht' hstep).1
      rw [(Prod.mk.inj heq).1] at hrow
      exact hnew hrow
  | case4 source sources sink sinks amount hleft ih =>
      obtain ⟨hnew, hnodup⟩ := List.nodup_cons.mp hsinks
      have ht' := fun t h => ht t (List.mem_cons_of_mem sink h)
      have hs' : ∀ s ∈ { source with left := source.left - amount } :: sources, 0 ≤ s.left := by
        intro s h
        rcases List.mem_cons.mp h with rfl | h
        · exact sub_nonneg.mpr (min_le_left _ _)
        · exact hs s (List.mem_cons_of_mem source h)
      refine List.nodup_cons.mpr ⟨fun hmem => ?_, ih hs' ht' hsources hnodup⟩
      obtain ⟨step, hstep, heq⟩ := List.mem_map.mp hmem
      have hcol := (mem_walk hs' ht' hstep).2.1
      rw [(Prod.mk.inj heq).2] at hcol
      exact hnew hcol

/-- A walk connects all its sources and sinks. -/
theorem walk_connects {sources sinks : List Party} (h : Balanced sources sinks) {S : Node → Prop}
    (hS : ∀ s ∈ walk sources sinks, S (.source s.row) ↔ S (.sink s.col)) :
    ∀ s ∈ sources, ∀ t ∈ sinks, S (.source s.index) ↔ S (.sink t.index) := by
  fun_induction walk sources sinks with
  | case1 => simp
  | case2 => simp
  | case3 source sources sink sinks amount hused ih =>
      have hnext := h.next_source hused
      have hhead := hS _ List.mem_cons_self
      have hrest := ih hnext fun s hs => hS s (List.mem_cons_of_mem _ hs)
      simp only [List.forall_mem_cons] at hhead hrest ⊢
      cases sources with
      | nil =>
          obtain ⟨-, rfl⟩ := hnext.sinks_eq_nil
          simpa using hhead
      | cons next sources =>
          have hnext' := hrest next List.mem_cons_self
          refine ⟨⟨hhead, fun t ht => ?_⟩, hrest⟩
          exact hhead.trans (hnext'.1.symm.trans (hnext'.2 t ht))
  | case4 source sources sink sinks amount hleft ih =>
      have hnext := h.next_sink hleft
      have hhead := hS _ List.mem_cons_self
      have hrest := ih hnext fun s hs => hS s (List.mem_cons_of_mem _ hs)
      obtain ⟨next, hmem⟩ := List.exists_mem_of_ne_nil sinks hnext.sinks_ne_nil
      simp only [List.forall_mem_cons] at hhead hrest ⊢
      refine ⟨⟨hhead, hrest.1⟩, fun s hs => ⟨?_, hrest.2 s hs⟩⟩
      exact (hrest.2 s hs next hmem).trans ((hrest.1 next hmem).symm.trans hhead)

def sources (corner : Corner) (p : Problem) : List Party :=
  (corner.rowOrder p.rows).map fun k => ⟨k, p.supplyAt k⟩

def sinks (corner : Corner) (p : Problem) : List Party :=
  (corner.colOrder p.cols).map fun k => ⟨k, p.demandAt k⟩

def steps (corner : Corner) (p : Problem) : List Shipment :=
  walk (corner.sources p) (corner.sinks p)

theorem rowOrder_perm (corner : Corner) (rows : Nat) :
    (corner.rowOrder rows).Perm (List.range rows) := by
  unfold rowOrder
  split
  · exact List.reverse_perm _
  · exact List.Perm.refl _

theorem colOrder_perm (corner : Corner) (cols : Nat) :
    (corner.colOrder cols).Perm (List.range cols) := by
  unfold colOrder
  split
  · exact List.reverse_perm _
  · exact List.Perm.refl _

private theorem sum_map_perm_range {order : List Nat} {n : Nat} (h : order.Perm (List.range n))
    (f : Nat → Int) : (order.map f).sum = ∑ k ∈ Finset.range n, f k := by
  rw [(h.map f).sum_eq, sum_map_range]

theorem parties_eq_ok {order : List Nat} {amounts : List Int}
    (h : order.Perm (List.range amounts.length)) :
    parties order amounts = .ok (order.map fun k => ⟨k, amounts.getD k 0⟩) := by
  apply mapM_eq_ok_map
  intro k hk
  rw [entry_getD 0 (List.mem_range.mp (h.mem_iff.mp hk))]
  rfl

theorem index_sources (corner : Corner) (p : Problem) :
    (corner.sources p).map Party.index = corner.rowOrder p.rows := by
  rw [sources, List.map_map]
  exact List.map_id _

theorem index_sinks (corner : Corner) (p : Problem) :
    (corner.sinks p).map Party.index = corner.colOrder p.cols := by
  rw [sinks, List.map_map]
  exact List.map_id _

private theorem sum_index_eq {order : List Nat} {n k : Nat} (h : order.Perm (List.range n))
    (hk : k < n) (f : Nat → Int) :
    ((order.map fun l => (⟨l, f l⟩ : Party)).map fun s => if s.index = k then s.left else 0).sum =
      f k := by
  rw [List.map_map]
  change (order.map fun l => if l = k then f l else 0).sum = f k
  rw [sum_map_perm_range h, Finset.sum_ite_eq' (Finset.range n) k, if_pos (Finset.mem_range.mpr hk)]

section Sound

variable {p : Problem} (hp : p.Sound) (corner : Corner)

include hp

theorem balanced_parties : Balanced (corner.sources p) (corner.sinks p) where
  total := by
    simp only [sources, sinks, List.map_map]
    rw [sum_map_perm_range (corner.rowOrder_perm p.rows),
      sum_map_perm_range (corner.colOrder_perm p.cols)]
    exact hp.sum_supplyAt.trans hp.sum_demandAt.symm
  source_pos := by
    simp only [sources, List.forall_mem_map]
    exact fun k hk => hp.supplyAt_pos (List.mem_range.mp ((corner.rowOrder_perm _).mem_iff.mp hk))
  sink_nonneg := by
    simp only [sinks, List.forall_mem_map]
    exact fun k hk =>
      (hp.demandAt_pos (List.mem_range.mp ((corner.colOrder_perm _).mem_iff.mp hk))).le
  sink_pos := by
    intro t ht
    obtain ⟨k, hk, rfl⟩ := List.mem_map.mp (List.mem_of_mem_tail ht)
    exact hp.demandAt_pos (List.mem_range.mp ((corner.colOrder_perm _).mem_iff.mp hk))

theorem mem_steps {s : Shipment} (hs : s ∈ corner.steps p) :
    s.row < p.rows ∧ s.col < p.cols ∧ 0 ≤ s.amount := by
  have hbalanced := balanced_parties hp corner
  obtain ⟨hrow, hcol, hpos⟩ :=
    mem_walk (fun s hs => (hbalanced.source_pos s hs).le) hbalanced.sink_nonneg hs
  rw [index_sources, (corner.rowOrder_perm _).mem_iff, List.mem_range] at hrow
  rw [index_sinks, (corner.colOrder_perm _).mem_iff, List.mem_range] at hcol
  exact ⟨hrow, hcol, hpos⟩

theorem nodup_steps : ((corner.steps p).map fun s => (s.row, s.col)).Nodup := by
  have hbalanced := balanced_parties hp corner
  apply nodup_walk (fun s hs => (hbalanced.source_pos s hs).le) hbalanced.sink_nonneg
  · rw [index_sources]
    exact (corner.rowOrder_perm _).nodup_iff.mpr List.nodup_range
  · rw [index_sinks]
    exact (corner.colOrder_perm _).nodup_iff.mpr List.nodup_range

theorem length_steps : (corner.steps p).length + 1 = p.rows + p.cols := by
  have hne : corner.sources p ≠ [] := by
    intro hnil
    have hlen := congrArg List.length hnil
    rw [sources, List.length_map, corner.length_rowOrder] at hlen
    exact hp.rows_pos.ne' hlen
  rw [steps, length_walk (balanced_parties hp corner) hne, sources, sinks, List.length_map,
    List.length_map, corner.length_rowOrder, corner.length_colOrder]

/-- A set of nodes that no step leaves holds all sources with all sinks, or none of them. -/
theorem spans_steps :
    Spans p.rows p.cols ((corner.steps p).map fun s => (s.row, s.col)).toFinset := by
  intro S hS a b ha hb hSa
  have hsteps : ∀ s ∈ corner.steps p, S (.source s.row) ↔ S (.sink s.col) := fun s hs =>
    hS (s.row, s.col) (List.mem_toFinset.mpr (List.mem_map.mpr ⟨s, hs, rfl⟩))
  have hjoin : ∀ i j, i < p.rows → j < p.cols → (S (.source i) ↔ S (.sink j)) := by
    intro i j hi hj
    refine walk_connects (balanced_parties hp corner) hsteps
      ⟨i, p.supplyAt i⟩ ?_ ⟨j, p.demandAt j⟩ ?_
    · exact List.mem_map.mpr
        ⟨i, (corner.rowOrder_perm _).mem_iff.mpr (List.mem_range.mpr hi), rfl⟩
    · exact List.mem_map.mpr
        ⟨j, (corner.colOrder_perm _).mem_iff.mpr (List.mem_range.mpr hj), rfl⟩
  have hone : ∀ c : Node, c.Within p.rows p.cols → (S c ↔ S (.source 0)) := by
    intro c hc
    cases c with
    | source i => exact (hjoin i 0 hc hp.cols_pos).trans (hjoin 0 0 hp.rows_pos hp.cols_pos).symm
    | sink j => exact (hjoin 0 j hp.rows_pos hc).symm
  exact (hone b hb).mpr ((hone a ha).mp hSa)

theorem firstBasis_eq_shipAll : corner.firstBasis p =
    shipAll (corner.sources p) (corner.sinks p) (.vacant p.rows p.cols) := by
  have hrows : parties (corner.rowOrder p.rows) p.supply = .ok (corner.sources p) :=
    parties_eq_ok (hp.length_supply ▸ corner.rowOrder_perm _)
  have hcols : parties (corner.colOrder p.cols) p.demand = .ok (corner.sinks p) :=
    parties_eq_ok (hp.length_demand ▸ corner.colOrder_perm _)
  rw [firstBasis, hrows, ok_bind, hcols, ok_bind]

omit hp in
theorem index_lt_of_mem_sources {s : Party} (hs : s ∈ corner.sources p) : s.index < p.rows := by
  obtain ⟨k, hk, rfl⟩ := List.mem_map.mp hs
  exact List.mem_range.mp ((corner.rowOrder_perm _).mem_iff.mp hk)

omit hp in
theorem index_lt_of_mem_sinks {t : Party} (ht : t ∈ corner.sinks p) : t.index < p.cols := by
  obtain ⟨k, hk, rfl⟩ := List.mem_map.mp ht
  exact List.mem_range.mp ((corner.colOrder_perm _).mem_iff.mp hk)

theorem firstBasis_eq_ok_lay :
    corner.firstBasis p = .ok ((Grid.vacant p.rows p.cols).lay (corner.steps p)) := by
  rw [firstBasis_eq_shipAll hp]
  exact shipAll_eq_ok_lay _ _ _ (Grid.regular_vacant _ _) (fun s => index_lt_of_mem_sources corner)
    fun t => index_lt_of_mem_sinks corner

theorem basicPlan_firstBasis : ∃ g, corner.firstBasis p = .ok g ∧ g.BasicPlan p := by
  have hbalanced := balanced_parties hp corner
  have hregular := Grid.regular_vacant p.rows p.cols
  have hin : ∀ s ∈ corner.steps p, (Grid.vacant p.rows p.cols).Holds s := fun s hs =>
    ⟨(mem_steps hp corner hs).1, (mem_steps hp corner hs).2.1⟩
  have hempty : (Grid.vacant p.rows p.cols).basis = ∅ := by
    ext c
    simp [Grid.mem_basis, Cell.isBasic]
  have hweigh : ∀ w, ((Grid.vacant p.rows p.cols).lay (corner.steps p)).weigh w =
      ((corner.steps p).map fun s => s.amount * w s.row s.col).sum := by
    intro w
    rw [hregular.weigh_lay _ hin (nodup_steps hp corner) (by simp [hempty])]
    simp [Grid.weigh, Grid.amount, Cell.amount]
  have hbasis := hregular.basis_lay _ hin
  rw [hempty, Finset.union_empty] at hbasis
  have hfit : ((Grid.vacant p.rows p.cols).lay (corner.steps p)).Fits p := by
    simp [Grid.Fits, Grid.vacant]
  refine ⟨_, firstBasis_eq_ok_lay hp corner, Grid.basicPlan_of_spans hp hfit (hregular.lay _)
    (Grid.feasible_of_weigh hfit ?_ ?_ ?_) ?_ ?_⟩
  · intro i j _ hj
    refine hregular.nonneg_lay _ hin (fun s hs => (mem_steps hp corner hs).2.2) ?_ i j hj
    intro i j _
    simp [Grid.amount, Cell.amount]
  · intro i hi
    rw [hweigh, steps, sum_inRow_walk hbalanced]
    exact sum_index_eq (corner.rowOrder_perm _) hi p.supplyAt
  · intro j hj
    rw [hweigh, steps, sum_inCol_walk hbalanced]
    exact sum_index_eq (corner.colOrder_perm _) hj p.demandAt
  · rw [hbasis]
    exact spans_steps hp corner
  · rw [hbasis, List.toFinset_card_of_nodup (nodup_steps hp corner), List.length_map]
    exact length_steps hp corner

end Sound

end Corner

end Transportation
