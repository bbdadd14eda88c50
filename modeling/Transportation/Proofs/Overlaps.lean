import Transportation.Proofs.Reachable
/-!
# The closed form of the corner walk

Lay the supplies end to end in the order of the walk, and the demands beside them. A source and a
sink meet in a basic cell where their pieces overlap or the source begins just where the sink ends,
and the cell ships as much as the pieces have in common. The walk stays among the sinks and leaves
nothing to ship.
-/
namespace Transportation

namespace Grid

variable {g : Grid}

/-- Shipments at places of their own are the cells that are not as before. -/
theorem Regular.cell_lay_iff (h : g.Regular) (steps : List Shipment)
    (hin : ∀ s ∈ steps, g.Holds s) (hnodup : (steps.map fun s => (s.row, s.col)).Nodup) {i j : Nat}
    (hj : j < g.cols) (x : Int) : (g.lay steps).cell i j = .basic x ↔
      ⟨i, j, x⟩ ∈ steps ∨
        (i, j) ∉ steps.map (fun s => (s.row, s.col)) ∧ g.cell i j = .basic x := by
  induction steps generalizing g with
  | nil => simp [Grid.lay]
  | cons s steps ih =>
      obtain ⟨hrow, hcol⟩ := hin s List.mem_cons_self
      obtain ⟨hnew, hnodup'⟩ := List.nodup_cons.mp hnodup
      obtain ⟨row, col, amount⟩ := s
      change ((g.put row col (.basic amount)).lay steps).cell i j = .basic x ↔ _
      rw [ih (h.put _ _ _) (fun t ht => hin t (List.mem_cons_of_mem _ ht)) hnodup' hj,
        h.cell_put hrow hcol hj, List.mem_cons, List.map_cons, List.mem_cons]
      by_cases hplace : i = row ∧ j = col
      · obtain ⟨rfl, rfl⟩ := hplace
        have hrest : (⟨i, j, x⟩ : Shipment) ∉ steps := fun hmem =>
          hnew (List.mem_map.mpr ⟨_, hmem, rfl⟩)
        simp [hrest, hnew, eq_comm]
      · simp only [Shipment.mk.injEq, Prod.mk.injEq, hplace, if_false, false_or, ← and_assoc,
          false_and]

end Grid

namespace Corner

open Grid (Shipment)

/-- What the first `k` parties have or need together. -/
def upTo (parties : List Party) (k : Nat) : Int := ((parties.take k).map Party.left).sum

/-- The cell of a source whose piece is from `s` to `s'` and a sink whose piece is from `d` to `d'`:
it ships what the pieces have in common. -/
def overlap (s s' d d' : Int) : Cell :=
  if s ≤ d' ∧ d < s' then .basic (min s' d' - max s d) else .vacant

section Overlap

variable {s s' d d' e : Int}

theorem overlap_add (k : Int) : overlap (k + s) (k + s') (k + d) (k + d') = overlap s s' d d' := by
  simp only [overlap, add_le_add_iff_left, add_lt_add_iff_left, min_add_add_left, max_add_add_left,
    add_sub_add_left_eq_sub]

theorem overlap_head (hs : 0 < s') (hd : 0 ≤ d') : overlap 0 s' 0 d' = .basic (min s' d') := by
  rw [overlap, if_pos ⟨hd, hs⟩, max_self, sub_zero]

theorem overlap_of_le (h : s' ≤ d) : overlap s s' d d' = .vacant := by
  rw [overlap, if_neg]
  omega

theorem overlap_of_lt (h : d' < s) : overlap s s' d d' = .vacant := by
  rw [overlap, if_neg]
  omega

theorem overlap_congr_sink (hd : d ≤ s) (he : e ≤ s) (hs : s < s') :
    overlap s s' d d' = overlap s s' e d' := by
  simp only [overlap, max_eq_left hd, max_eq_left he, hd.trans_lt hs, he.trans_lt hs]

theorem overlap_congr_source (hs : s ≤ d) (he : e ≤ d) (hd : d ≤ d') :
    overlap s s' d d' = overlap e s' d d' := by
  simp only [overlap, max_eq_right hs, max_eq_right he, hs.trans hd, he.trans hd]

end Overlap

section UpTo

variable {parties : List Party} {party : Party} {k : Nat}

@[simp] theorem upTo_zero (parties : List Party) : upTo parties 0 = 0 := rfl

@[simp] theorem upTo_cons_succ (party : Party) (parties : List Party) (k : Nat) :
    upTo (party :: parties) (k + 1) = party.left + upTo parties k := by
  simp [upTo]

theorem upTo_succ (h : parties[k]? = some party) :
    upTo parties (k + 1) = upTo parties k + party.left := by
  simp [upTo, List.take_add_one, h]

theorem upTo_nonneg (h : ∀ s ∈ parties, 0 ≤ s.left) (k : Nat) : 0 ≤ upTo parties k := by
  apply List.sum_nonneg
  rw [List.forall_mem_map]
  exact fun s hs => h s (List.mem_of_mem_take hs)

theorem upTo_cons_sub (amount : Int) (party : Party) (parties : List Party) (k : Nat) :
    upTo (party :: parties) (k + 1) =
      amount + upTo ({ party with left := party.left - amount } :: parties) (k + 1) := by
  rw [upTo_cons_succ, upTo_cons_succ]
  dsimp only
  omega

theorem getElem?_cons_sub (amount : Int) {party₀ : Party}
    (h : (party₀ :: parties)[k]? = some party) :
    ∃ party', ({ party₀ with left := party₀.left - amount } :: parties)[k]? = some party' ∧
      party'.index = party.index := by
  cases k with
  | zero =>
      obtain rfl : party₀ = party := by simpa using h
      exact ⟨_, rfl, rfl⟩
  | succ k => exact ⟨party, h, rfl⟩

end UpTo

section Next

variable {sources sinks : List Party} {source sink s t : Party} {amount : Int} {a b : Nat}

/-- Once the first source is used up, the others overlap what remains of the sinks as before. -/
theorem overlap_next_source (hsource : 0 ≤ amount) (hused : amount = source.left)
    (hs : ∀ s ∈ sources, 0 < s.left) (ha : sources[a]? = some s) :
    overlap (upTo (source :: sources) (a + 1)) (upTo (source :: sources) (a + 1 + 1))
        (upTo (sink :: sinks) b) (upTo (sink :: sinks) (b + 1)) =
      overlap (upTo sources a) (upTo sources (a + 1))
        (upTo ({ sink with left := sink.left - amount } :: sinks) b)
        (upTo ({ sink with left := sink.left - amount } :: sinks) (b + 1)) := by
  have hbefore := upTo_nonneg (fun s h => (hs s h).le) a
  have hpiece := upTo_succ ha
  have hpos := hs s (List.mem_of_getElem? ha)
  rw [upTo_cons_succ source, upTo_cons_succ source, ← hused, upTo_cons_sub amount sink sinks b]
  cases b with
  | zero => rw [upTo_zero, upTo_zero, overlap_congr_sink (e := amount + 0), overlap_add] <;> omega
  | succ b => rw [upTo_cons_sub amount sink sinks b, overlap_add]

theorem overlap_next_sink (hsink : 0 ≤ amount) (hserved : amount = sink.left)
    (ht : ∀ t ∈ sinks, 0 ≤ t.left) (hb : sinks[b]? = some t) :
    overlap (upTo (source :: sources) a) (upTo (source :: sources) (a + 1))
        (upTo (sink :: sinks) (b + 1)) (upTo (sink :: sinks) (b + 1 + 1)) =
      overlap (upTo ({ source with left := source.left - amount } :: sources) a)
        (upTo ({ source with left := source.left - amount } :: sources) (a + 1))
        (upTo sinks b) (upTo sinks (b + 1)) := by
  have hbefore := upTo_nonneg ht b
  have hpiece := upTo_succ hb
  have hpos := ht t (List.mem_of_getElem? hb)
  rw [upTo_cons_succ sink, upTo_cons_succ sink, ← hserved, upTo_cons_sub amount source sources a]
  cases a with
  | zero => rw [upTo_zero, upTo_zero, overlap_congr_source (e := amount + 0), overlap_add] <;> omega
  | succ a => rw [upTo_cons_sub amount source sources a, overlap_add]

end Next

private theorem index_ne_of_getElem? {party s : Party} {parties : List Party} {k : Nat}
    (hnew : party.index ∉ parties.map Party.index) (h : parties[k]? = some s) :
    s.index ≠ party.index :=
  fun heq => hnew (List.mem_map.mpr ⟨s, List.mem_of_getElem? h, heq⟩)

theorem mem_walk_iff {sources sinks : List Party} (hs : ∀ s ∈ sources, 0 < s.left)
    (ht : ∀ t ∈ sinks, 0 ≤ t.left) (hsources : (sources.map Party.index).Nodup)
    (hsinks : (sinks.map Party.index).Nodup) {a b : Nat} {s t : Party}
    (ha : sources[a]? = some s) (hb : sinks[b]? = some t) (x : Int) :
    ⟨s.index, t.index, x⟩ ∈ walk sources sinks ↔
      overlap (upTo sources a) (upTo sources (a + 1)) (upTo sinks b) (upTo sinks (b + 1)) =
        .basic x := by
  fun_induction walk sources sinks generalizing a b s t with
  | case1 => simp at ha
  | case2 => simp at hb
  | case3 source sources sink sinks amount hused ih =>
      have hamount : amount = min source.left sink.left := rfl
      obtain ⟨hnew, hnodup⟩ := List.nodup_cons.mp hsources
      obtain ⟨hsource, hs'⟩ := List.forall_mem_cons.mp hs
      obtain ⟨hsink, htail⟩ := List.forall_mem_cons.mp ht
      have ht' : ∀ t ∈ { sink with left := sink.left - amount } :: sinks, 0 ≤ t.left :=
        List.forall_mem_cons.mpr ⟨by dsimp only; omega, htail⟩
      rw [List.mem_cons]
      cases a with
      | zero =>
          obtain rfl : source = s := by simpa using ha
          have hrest : (⟨source.index, t.index, x⟩ : Shipment) ∉
              walk sources ({ sink with left := sink.left - amount } :: sinks) := fun hmem =>
            hnew (mem_walk (fun s h => (hs' s h).le) ht' hmem).1
          cases b with
          | zero =>
              obtain rfl : sink = t := by simpa using hb
              simp only [hrest, upTo_zero, upTo_cons_succ, add_zero, overlap_head hsource hsink,
                ← hamount]
              simp [eq_comm]
          | succ b =>
              have hbefore := upTo_nonneg htail b
              rw [overlap_of_le (by simp only [upTo_zero, upTo_cons_succ]; omega)]
              simp [hrest, index_ne_of_getElem? (List.nodup_cons.mp hsinks).1 hb]
      | succ a =>
          obtain ⟨t', hb', hindex⟩ := getElem?_cons_sub amount hb
          have hall : amount = source.left := by omega
          rw [overlap_next_source (hall ▸ hsource.le) hall hs' ha,
            ← ih hs' ht' hnodup hsinks ha hb', hindex]
          simp [index_ne_of_getElem? hnew ha]
  | case4 source sources sink sinks amount hleft ih =>
      have hamount : amount = min source.left sink.left := rfl
      obtain ⟨hnew, hnodup⟩ := List.nodup_cons.mp hsinks
      obtain ⟨hsource, htail⟩ := List.forall_mem_cons.mp hs
      obtain ⟨hsink, ht'⟩ := List.forall_mem_cons.mp ht
      have hs' : ∀ s ∈ { source with left := source.left - amount } :: sources, 0 < s.left :=
        List.forall_mem_cons.mpr ⟨by dsimp only; omega, htail⟩
      rw [List.mem_cons]
      cases b with
      | zero =>
          obtain rfl : sink = t := by simpa using hb
          have hrest : (⟨s.index, sink.index, x⟩ : Shipment) ∉
              walk ({ source with left := source.left - amount } :: sources) sinks := fun hmem =>
            hnew (mem_walk (fun s h => (hs' s h).le) ht' hmem).2.1
          cases a with
          | zero =>
              obtain rfl : source = s := by simpa using ha
              simp only [hrest, upTo_zero, upTo_cons_succ, add_zero, overlap_head hsource hsink,
                ← hamount]
              simp [eq_comm]
          | succ a =>
              have hbefore := upTo_nonneg (fun s h => (htail s h).le) a
              rw [overlap_of_lt (by simp only [upTo_zero, upTo_cons_succ]; omega)]
              simp [hrest, index_ne_of_getElem? (List.nodup_cons.mp hsources).1 ha]
      | succ b =>
          obtain ⟨s', ha', hindex⟩ := getElem?_cons_sub amount ha
          have hall : amount = sink.left := by omega
          rw [overlap_next_sink (hall ▸ hsink) hall ht' hb,
            ← ih hs' ht' hsources hnodup ha' hb, hindex]
          simp [index_ne_of_getElem? hnew hb]

/-- The walk through the given sources, with the sinks that remain. -/
def shipThrough : List Party → List Party → Grid → Except Failure (Grid × List Party)
  | [], sinks, g => .ok (g, sinks)
  | source :: sources, sinks, g => do
    let (g, sinks) ← shipFrom source.index source.left sinks g
    shipThrough sources sinks g

theorem shipAll_eq_shipThrough (sources sinks : List Party) (g : Grid) :
    shipAll sources sinks g = (shipThrough sources sinks g).map Prod.fst := by
  induction sources generalizing sinks g with
  | nil => rfl
  | cons source sources ih =>
      rw [shipAll, shipThrough]
      cases shipFrom source.index source.left sinks g with
      | error failure => rfl
      | ok state => exact ih state.2 state.1

private theorem shipFrom_eq_ok {source : Party} {sources sinks : List Party} {g : Grid}
    (h : Balanced (source :: sources) sinks) (hg : g.Regular) (hrow : source.index < g.rows)
    (hcols : ∀ t ∈ sinks, t.index < g.cols) :
    ∃ g' sinks', shipFrom source.index source.left sinks g = .ok (g', sinks') ∧
      Balanced sources sinks' ∧ sinks' ≠ [] ∧ g'.Regular ∧ g'.rows = g.rows ∧
      g'.cols = g.cols ∧ ∀ t ∈ sinks', t.index < g.cols := by
  induction sinks generalizing source g with
  | nil => exact absurd rfl h.sinks_ne_nil
  | cons sink sinks ih =>
      obtain ⟨hcol, hrest⟩ := List.forall_mem_cons.mp hcols
      rw [shipFrom, hg.set_eq_ok hrow hcol, ok_bind]
      split
      · next hused =>
          exact ⟨_, _, rfl, h.next_source hused, List.cons_ne_nil _ _, hg.put _ _ _, rfl, rfl,
            List.forall_mem_cons.mpr ⟨hcol, hrest⟩⟩
      · next hleft => exact ih (h.next_sink hleft) (hg.put _ _ _) hrow hrest

private theorem shipThrough_eq_ok (sources : List Party) {rest sinks : List Party} {g : Grid}
    (h : Balanced (sources ++ rest) sinks) (hne : sinks ≠ []) (hg : g.Regular)
    (hrows : ∀ s ∈ sources, s.index < g.rows) (hcols : ∀ t ∈ sinks, t.index < g.cols) :
    ∃ g' sinks', shipThrough sources sinks g = .ok (g', sinks') ∧ Balanced rest sinks' ∧
      sinks' ≠ [] := by
  induction sources generalizing sinks g with
  | nil => exact ⟨g, sinks, rfl, h, hne⟩
  | cons source sources ih =>
      obtain ⟨hrow, hrest⟩ := List.forall_mem_cons.mp hrows
      obtain ⟨g₁, sinks₁, hship, h₁, hne₁, hg₁, hrows₁, hcols₁, hin₁⟩ :=
        shipFrom_eq_ok h hg hrow hcols
      rw [shipThrough, hship, ok_bind]
      exact ih h₁ hne₁ hg₁ (hrows₁ ▸ hrest) (hcols₁ ▸ hin₁)

def supplied (corner : Corner) (p : Problem) (k : Nat) : Int := upTo (corner.sources p) k

def demanded (corner : Corner) (p : Problem) (k : Nat) : Int := upTo (corner.sinks p) k

section Sound

variable {p : Problem} {corner : Corner} {a b i j : Nat}

theorem getElem?_sources (ha : (corner.rowOrder p.rows)[a]? = some i) :
    (corner.sources p)[a]? = some ⟨i, p.supplyAt i⟩ := by
  rw [sources, List.getElem?_map, ha]
  rfl

theorem getElem?_sinks (hb : (corner.colOrder p.cols)[b]? = some j) :
    (corner.sinks p)[b]? = some ⟨j, p.demandAt j⟩ := by
  rw [sinks, List.getElem?_map, hb]
  rfl

theorem supplied_lt_succ (hp : p.Sound) (ha : (corner.rowOrder p.rows)[a]? = some i) :
    corner.supplied p a < corner.supplied p (a + 1) := by
  have hpos := (balanced_parties hp corner).source_pos _
    (List.mem_of_getElem? (getElem?_sources ha))
  rw [supplied, supplied, upTo_succ (getElem?_sources ha)]
  omega

theorem demanded_le_succ (hp : p.Sound) (hb : (corner.colOrder p.cols)[b]? = some j) :
    corner.demanded p b ≤ corner.demanded p (b + 1) := by
  have hpos := (balanced_parties hp corner).sink_nonneg _
    (List.mem_of_getElem? (getElem?_sinks hb))
  rw [demanded, demanded, upTo_succ (getElem?_sinks hb)]
  omega

theorem cell_steps (hp : p.Sound) (ha : (corner.rowOrder p.rows)[a]? = some i)
    (hb : (corner.colOrder p.cols)[b]? = some j) :
    ((Grid.vacant p.rows p.cols).lay (corner.steps p)).cell i j =
      overlap (corner.supplied p a) (corner.supplied p (a + 1)) (corner.demanded p b)
        (corner.demanded p (b + 1)) := by
  have hbalanced := balanced_parties hp corner
  have hsources : ((corner.sources p).map Party.index).Nodup := by
    rw [index_sources]
    exact (corner.rowOrder_perm _).nodup_iff.mpr List.nodup_range
  have hsinks : ((corner.sinks p).map Party.index).Nodup := by
    rw [index_sinks]
    exact (corner.colOrder_perm _).nodup_iff.mpr List.nodup_range
  have hj := index_lt_of_mem_sinks corner (List.mem_of_getElem? (getElem?_sinks hb))
  have hbasic : ∀ x, ((Grid.vacant p.rows p.cols).lay (corner.steps p)).cell i j = .basic x ↔
      overlap (corner.supplied p a) (corner.supplied p (a + 1)) (corner.demanded p b)
        (corner.demanded p (b + 1)) = .basic x := by
    intro x
    rw [(Grid.regular_vacant p.rows p.cols).cell_lay_iff _
      (fun s hs => ⟨(mem_steps hp corner hs).1, (mem_steps hp corner hs).2.1⟩)
      (nodup_steps hp corner) hj]
    simp only [Grid.cell_vacant, reduceCtorEq, and_false, or_false]
    exact mem_walk_iff hbalanced.source_pos hbalanced.sink_nonneg hsources hsinks
      (getElem?_sources ha) (getElem?_sinks hb) x
  cases hcell : overlap (corner.supplied p a) (corner.supplied p (a + 1)) (corner.demanded p b)
    (corner.demanded p (b + 1)) with
  | basic x => exact (hbasic x).mpr hcell
  | vacant =>
      cases hlay : ((Grid.vacant p.rows p.cols).lay (corner.steps p)).cell i j with
      | vacant => rfl
      | basic x => simp [(hbasic x).mp hlay] at hcell

/-- The first basis is the table of overlaps, and the walk to it ends at its last sink. -/
theorem firstBasis_overlaps {costs : List (List Int)} {supply demand : List Int}
    (hp : Problem.ofTable costs supply demand = .ok p) (corner : Corner) :
    ∃ g, corner.firstBasis p = .ok g ∧ g.rows = p.rows ∧ g.cols = p.cols ∧
      (∀ a b i j, (corner.rowOrder p.rows)[a]? = some i → (corner.colOrder p.cols)[b]? = some j →
        ∃ cell, g.get i j = .ok cell ∧
          (cell.isBasic = true ↔ corner.supplied p a ≤ corner.demanded p (b + 1) ∧
            corner.demanded p b < corner.supplied p (a + 1)) ∧
          (cell.isBasic = true → 0 ≤ cell.amount ∧
            cell.amount = min (corner.supplied p (a + 1)) (corner.demanded p (b + 1)) -
              max (corner.supplied p a) (corner.demanded p b))) ∧
      g.cells.countP Cell.isBasic = p.rows + p.cols - 1 ∧
      g.basicCount = p.rows + p.cols - 1 ∧
      (∀ i, i < p.rows → g.shippedFrom i = .ok (p.supplyAt i)) ∧
      (∀ j, j < p.cols → g.shippedTo j = .ok (p.demandAt j)) ∧
      (∀ k, ∃ g' sinks, shipThrough ((corner.sources p).take k) (corner.sinks p)
        (.vacant p.rows p.cols) = .ok (g', sinks) ∧ sinks ≠ []) ∧
      ∃ sink, shipThrough (corner.sources p) (corner.sinks p) (.vacant p.rows p.cols) =
        .ok (g, [sink]) ∧ sink.left = 0 := by
  have hsound := Problem.sound_of_ofTable hp
  have hbalanced := balanced_parties hsound corner
  obtain ⟨g, hg, hplan⟩ := basicPlan_firstBasis hsound corner
  have hcount := hplan.basicCount_eq hsound
  have hthrough : ∀ k, ∃ g' sinks, shipThrough ((corner.sources p).take k) (corner.sinks p)
      (.vacant p.rows p.cols) = .ok (g', sinks) ∧ Balanced ((corner.sources p).drop k) sinks ∧
        sinks ≠ [] := by
    intro k
    have hne : corner.sinks p ≠ [] := by
      rw [← List.length_pos_iff, sinks, List.length_map, corner.length_colOrder]
      exact hsound.cols_pos
    refine shipThrough_eq_ok _ ?_ hne (Grid.regular_vacant _ _)
      (fun s hs => index_lt_of_mem_sources corner (List.mem_of_mem_take hs))
      fun t => index_lt_of_mem_sinks corner
    rwa [List.take_append_drop]
  refine ⟨g, hg, hplan.fits.1, hplan.fits.2, fun a b i j ha hb => ?_,
    hplan.regular.basicCount_eq.symm.trans hcount, hcount,
    fun i hi => hplan.feasible.shippedFrom_eq_ok hsound hplan.fits hplan.regular hi,
    fun j hj => hplan.feasible.shippedTo_eq_ok hsound hplan.fits hplan.regular hj,
    fun k => ?_, ?_⟩
  · have hi := index_lt_of_mem_sources corner (List.mem_of_getElem? (getElem?_sources ha))
    have hj := index_lt_of_mem_sinks corner (List.mem_of_getElem? (getElem?_sinks hb))
    refine ⟨g.cell i j, hplan.regular.get_eq_ok (hplan.fits.1 ▸ hi) (hplan.fits.2 ▸ hj), ?_⟩
    cases hg.symm.trans (firstBasis_eq_ok_lay hsound corner)
    have hsupplied := supplied_lt_succ hsound ha
    have hdemanded := demanded_le_succ hsound hb
    rw [cell_steps hsound ha hb, overlap]
    split
    · next hmeet =>
        refine ⟨by simpa [Cell.isBasic] using hmeet, fun _ => ⟨?_, rfl⟩⟩
        simp only [Cell.amount]
        omega
    · next hapart =>
        refine ⟨by simpa [Cell.isBasic] using hapart, fun hbasic => ?_⟩
        simp [Cell.isBasic] at hbasic
  · obtain ⟨g', sinks, hship, -, hne⟩ := hthrough k
    exact ⟨g', sinks, hship, hne⟩
  · obtain ⟨g', sinks, hship, hrest, hne⟩ := hthrough (corner.sources p).length
    rw [List.take_length] at hship
    rw [List.drop_length] at hrest
    have hall := firstBasis_eq_shipAll hsound corner
    rw [hg, shipAll_eq_shipThrough, hship] at hall
    cases hall
    obtain ⟨sink, rest, rfl⟩ := List.exists_cons_of_ne_nil hne
    obtain ⟨hzero, rfl⟩ := hrest.sinks_eq_nil
    exact ⟨sink, hship, hzero⟩

/-- Source and sink run out together at the first step, and the next cell ships nothing. -/
theorem firstBasis_overlaps_crossed : ∃ g, Corner.southEast.firstBasis crossed = .ok g ∧
    g.basicCount = 3 ∧ g.shippedFrom 0 = .ok 1 ∧
    (∃ cell, g.get 0 1 = .ok cell ∧ cell.isBasic = true ∧ cell.amount = 0) ∧
    ∃ cell, g.get 1 0 = .ok cell ∧ cell.isBasic = false := by
  obtain ⟨g, hg, -, -, hcells, -, hcount, hsources, -⟩ :=
    firstBasis_overlaps ofTable_crossed .southEast
  obtain ⟨cell, hcell, hiff, hamount⟩ := hcells 1 0 0 1 rfl rfl
  obtain ⟨other, hother, hiff', -⟩ := hcells 0 1 1 0 rfl rfl
  have hbasic : cell.isBasic = true := hiff.mpr (by decide)
  refine ⟨g, hg, hcount, hsources 0 (by decide), ⟨cell, hcell, hbasic, (hamount hbasic).2⟩,
    other, hother, ?_⟩
  rw [Bool.eq_false_iff, Ne, hiff']
  decide

end Sound

end Corner

end Transportation
