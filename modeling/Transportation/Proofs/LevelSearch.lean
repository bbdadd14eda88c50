import Transportation.Proofs.FoundValues
import Transportation.Potentials.BreadthFirst
import Transportation.Potentials.Levelwise
/-!
# The searches by levels

A level holds the nodes whose cells are not followed yet. Following them finds the next level, and
the number of missing values falls by its size. The search breadth first stores each value at once,
the search by whole levels stores the values of a level together; both end with an empty level.
-/
namespace Transportation

namespace PartialPotentials

open Grid (Shipment)

/-- The values of `s` stay as they are in `s'`. -/
def Extends (s s' : PartialPotentials) : Prop := ∀ n x, s.look n = some x → s'.look n = some x

/-- The levels that begin with `level` at `s` end at `t`, when a level is empty. -/
inductive SpreadsTo (p : Problem) (g : Grid) :
    PartialPotentials → List Node → PartialPotentials → Prop
  | done {s : PartialPotentials} : SpreadsTo p g s [] s
  | again {s s' t : PartialPotentials} {level next : List Node} (hne : level ≠ [])
      (h : level.foldlM (visit p g) (s, []) = .ok (s', next)) (hrest : SpreadsTo p g s' next t) :
      SpreadsTo p g s level t

private def Followed (g : Grid) (s : PartialPotentials) (n : Node) : Prop :=
  ∀ c ∈ g.basis, ∀ far, Joins c n far → s.look far ≠ none

/-- The values found while a level is followed, with the nodes that got them. -/
structure Level (p : Problem) (g : Grid) (before s : PartialPotentials)
    (next : List Node) : Prop where
  found : s.Found p g
  keeps : before.Extends s
  known : ∀ n ∈ next, s.look n ≠ none
  fresh : ∀ n, s.look n ≠ none → before.look n ≠ none ∨ n ∈ next
  count : s.unknowns + next.length = before.unknowns

/-- The nodes with values are the ones of the present level and those that are followed. -/
private structure Frontier (p : Problem) (g : Grid) (s : PartialPotentials)
    (level : List Node) : Prop where
  found : s.Found p g
  known : ∀ n ∈ level, s.look n ≠ none
  followed : ∀ n, s.look n ≠ none → n ∈ level ∨ Followed g s n

theorem Extends.ne_none {s s' : PartialPotentials} (h : s.Extends s') {n : Node}
    (hn : s.look n ≠ none) : s'.look n ≠ none := by
  obtain ⟨x, hx⟩ := Option.ne_none_iff_exists'.mp hn
  simp [h n x hx]

private theorem Followed.mono {g : Grid} {s s' : PartialPotentials} {n : Node}
    (h : Followed g s n) (hext : s.Extends s') : Followed g s' n :=
  fun c hc far hjoin => hext.ne_none (h c hc far hjoin)

theorem within_of_look {p : Problem} {s : PartialPotentials} (h : s.Sized p) {n : Node}
    (hn : s.look n ≠ none) : n.Within p.rows p.cols := by
  cases n with
  | source i =>
      by_contra hge
      exact hn (List.getD_eq_default _ _ (by rw [h.length_u]; exact not_lt.mp hge))
  | sink j =>
      by_contra hge
      exact hn (List.getD_eq_default _ _ (by rw [h.length_v]; exact not_lt.mp hge))

private theorem joins_of_touches {s : Shipment} {n : Node} (h : s.touches n = true) :
    Joins (s.row, s.col) n (s.opposite n) := by
  cases n with
  | source i => exact .inl ⟨by rw [← beq_iff_eq.mp h], rfl⟩
  | sink j => exact .inr ⟨by rw [← beq_iff_eq.mp h], rfl⟩

section Level

variable {p : Problem} {g : Grid} {before s : PartialPotentials} {next : List Node}

private theorem extends_assign (h : s.Found p g) {n : Node} (hn : n.Within p.rows p.cols)
    (hnone : s.look n = none) (x : Int) : s.Extends (s.assign n x) := by
  intro m y hy
  rw [h.sized.look_assign hn]
  split
  · next heq =>
      rw [heq, hnone] at hy
      contradiction
  · exact hy

theorem level_refl (h : s.Found p g) : Level p g s s [] where
  found := h
  keeps _ _ hx := hx
  known := by simp
  fresh _ hn := .inl hn
  count := by simp

theorem Level.assign (h : Level p g before s next) (hp : p.Sound) (hfit : g.Fits p)
    {c : Nat × Nat} (hc : c ∈ g.basis) {a b : Node} (hab : Joins c a b)
    (hb : b.Within p.rows p.cols) {x : Int} (ha : s.look a = some x) (hnone : s.look b = none) :
    Level p g before (s.assign b (p.costAt c.1 c.2 - x)) (next ++ [b]) ∧
      s.Extends (s.assign b (p.costAt c.1 c.2 - x)) := by
  have hlook := h.found.sized.look_assign hb (p.costAt c.1 c.2 - x)
  have hext := extends_assign h.found hb hnone (p.costAt c.1 c.2 - x)
  have hcount := h.found.sized.unknowns_assign hb hnone (p.costAt c.1 c.2 - x)
  refine ⟨?_, hext⟩
  exact {
    found := h.found.assign hp hfit hc hab ha hnone
    keeps := fun n y hy => hext n y (h.keeps n y hy)
    known := by
      intro n hn
      rcases List.mem_append.mp hn with hn | hn
      · exact hext.ne_none (h.known n hn)
      · rw [List.mem_singleton.mp hn, hlook, if_pos rfl]
        simp
    fresh := by
      intro n hn
      rw [hlook] at hn
      split at hn
      · next heq => exact .inr (by simp [heq])
      · exact (h.fresh n hn).imp id fun hmem => List.mem_append_left _ hmem
    count := by
      have := h.count
      rw [List.length_append, List.length_singleton]
      omega }

private theorem Frontier.next_level {level : List Node} (h : Frontier p g before level)
    (hlevel : Level p g before s next) (hfollowed : ∀ n ∈ level, Followed g s n) :
    Frontier p g s next where
  found := hlevel.found
  known := hlevel.known
  followed := by
    intro n hn
    rcases hlevel.fresh n hn with hbefore | hmem
    · rcases h.followed n hbefore with hin | hdone
      · exact .inr (hfollowed n hin)
      · exact .inr (hdone.mono hlevel.keeps)
    · exact .inl hmem

private theorem Frontier.closed (h : Frontier p g s []) :
    Respects g.basis fun n => s.look n ≠ none := by
  intro c hc
  constructor
  · intro hsource
    rcases h.followed _ hsource with hmem | hdone
    · simp at hmem
    · exact hdone c hc _ (.inl ⟨rfl, rfl⟩)
  · intro hsink
    rcases h.followed _ hsink with hmem | hdone
    · simp at hmem
    · exact hdone c hc _ (.inr ⟨rfl, rfl⟩)

private theorem frontier_seed (hp : p.Sound) (g : Grid) : Frontier p g (seed p) [.source 0] where
  found := found_seed hp g
  known := by
    intro n hn
    rw [List.mem_singleton.mp hn, (found_seed hp g).first]
    simp
  followed := by
    intro n hn
    rw [look_seed hp] at hn
    split at hn
    · next heq => exact .inl (List.mem_singleton.mpr heq)
    · contradiction

end Level

section Search

variable {p : Problem} {g : Grid} {before s : PartialPotentials} {next : List Node}
  (hp : p.Sound) (hfit : g.Fits p) (hreg : g.Regular)

include hfit in
theorem incident_eq_ok {n : Node} (hn : n.Within p.rows p.cols) :
    g.incident n = .ok (g.shipments.filter fun s => s.touches n) := by
  have hnode : g.hasNode n = true := by
    cases n with
    | source i => exact decide_eq_true (hfit.1.symm ▸ hn)
    | sink j => exact decide_eq_true (hfit.2.symm ▸ hn)
  rw [Grid.incident, if_pos hnode]

include hreg

theorem joins_of_mem_incident {n : Node} {s : Shipment}
    (hs : s ∈ g.shipments.filter fun s => s.touches n) :
    (s.row, s.col) ∈ g.basis ∧ Joins (s.row, s.col) n (s.opposite n) := by
  obtain ⟨hmem, htouches⟩ := List.mem_filter.mp hs
  obtain ⟨hi, hj, hcell⟩ := hreg.mem_shipments.mp hmem
  exact ⟨Grid.mem_basis.mpr ⟨hi, hj, by rw [hcell]; rfl⟩, joins_of_touches htouches⟩

private theorem exists_mem_incident {c : Nat × Nat} (hc : c ∈ g.basis) {n far : Node}
    (hjoin : Joins c n far) :
    ∃ s ∈ g.shipments.filter fun s => s.touches n, s.opposite n = far := by
  obtain ⟨hi, hj, hbasic⟩ := Grid.mem_basis.mp hc
  have hcell : g.cell c.1 c.2 = .basic (g.amount c.1 c.2) := Grid.cell_eq_basic hbasic
  refine ⟨⟨c.1, c.2, g.amount c.1 c.2⟩, List.mem_filter.mpr
    ⟨hreg.mem_shipments.mpr ⟨hi, hj, hcell⟩, ?_⟩, ?_⟩
  · rcases hjoin with ⟨rfl, -⟩ | ⟨rfl, -⟩ <;> simp [Shipment.touches]
  · rcases hjoin with ⟨rfl, rfl⟩ | ⟨rfl, rfl⟩ <;> rfl

omit hreg

include hfit in
theorem joins_within {c : Nat × Nat} (hc : c ∈ g.basis) {a b : Node} (h : Joins c a b) :
    (c.1 < p.rows ∧ c.2 < p.cols) ∧ b.Within p.rows p.cols := by
  obtain ⟨hi, hj, -⟩ := Grid.mem_basis.mp hc
  rw [hfit.1] at hi
  rw [hfit.2] at hj
  refine ⟨⟨hi, hj⟩, ?_⟩
  rcases h with ⟨-, rfl⟩ | ⟨-, rfl⟩
  · exact hj
  · exact hi

include hp hfit

omit hfit in
theorem reach_eq (hs : s.Sized p) {cell : Shipment} (hplace : cell.row < p.rows ∧ cell.col < p.cols)
    {n : Node} (hfar : (cell.opposite n).Within p.rows p.cols) (x : Int) (next : List Node) :
    reach p n x (s, next) cell = (offer p s ⟨n, x⟩ cell).toList.foldlM
      (fun state v => do return (← state.1.store v, state.2 ++ [v.node])) (s, next) := by
  rw [reach, hs.value_eq_ok hfar, ok_bind, offer]
  cases s.look (cell.opposite n) with
  | some y => rfl
  | none =>
      dsimp only
      rw [hp.cost_eq_ok hplace.1 hplace.2, ok_bind, Option.toList_some, List.foldlM_cons, store]
      cases Amount.ofInt (p.costAt cell.row cell.col - x) <;> rfl

theorem reach_eq_ok (h : Level p g before s next) {n : Node} {x : Int}
    (hx : s.look n = some x) {cell : Shipment} (hcell : (cell.row, cell.col) ∈ g.basis)
    (hjoin : Joins (cell.row, cell.col) n (cell.opposite n)) :
    ∃ s' next', reach p n x (s, next) cell = .ok (s', next') ∧ Level p g before s' next' ∧
      s.Extends s' ∧ s'.look (cell.opposite n) ≠ none := by
  obtain ⟨hplace, hfar⟩ := joins_within hfit hcell hjoin
  rw [reach_eq hp h.found.sized hplace hfar, offer]
  cases hlook : s.look (cell.opposite n) with
  | some y => exact ⟨s, next, rfl, h, fun _ _ h => h, by simp [hlook]⟩
  | none =>
      have hrange := (h.found.inRange hp (c := (cell.row, cell.col)) hplace hx).2
      obtain ⟨hlevel, hext⟩ := h.assign hp hfit hcell hjoin hfar hx hlook
      refine ⟨_, _, ?_, hlevel, hext, ?_⟩
      · rw [Option.toList_some, List.foldlM_cons, store, Amount.ofInt_of_inRange hrange]
        rfl
      · rw [h.found.sized.look_assign hfar, if_pos rfl]
        simp

private theorem foldlM_reach_eq_ok (cells : List Shipment) (h : Level p g before s next) {n : Node}
    {x : Int} (hx : s.look n = some x)
    (hcells : ∀ c ∈ cells, (c.row, c.col) ∈ g.basis ∧ Joins (c.row, c.col) n (c.opposite n)) :
    ∃ s' next', cells.foldlM (reach p n x) (s, next) = .ok (s', next') ∧
      Level p g before s' next' ∧ s.Extends s' ∧
        ∀ c ∈ cells, s'.look (c.opposite n) ≠ none := by
  induction cells generalizing s next with
  | nil => exact ⟨s, next, rfl, h, fun _ _ h => h, by simp⟩
  | cons c cells ih =>
      obtain ⟨hcell, hjoin⟩ := hcells c List.mem_cons_self
      obtain ⟨s₁, next₁, hs₁, h₁, hext₁, hfar⟩ := reach_eq_ok hp hfit h hx hcell hjoin
      obtain ⟨s', next', hs', h', hext', hrest⟩ :=
        ih h₁ (hext₁ n x hx) fun d hd => hcells d (List.mem_cons_of_mem c hd)
      refine ⟨s', next', by rw [List.foldlM_cons, hs₁]; exact hs', h',
        fun m y hy => hext' m y (hext₁ m y hy), ?_⟩
      exact List.forall_mem_cons.mpr ⟨hext'.ne_none hfar, hrest⟩

include hreg

theorem visit_eq_ok (h : Level p g before s next) {n : Node} (hn : s.look n ≠ none) :
    ∃ s' next', visit p g (s, next) n = .ok (s', next') ∧ Level p g before s' next' ∧
      s.Extends s' ∧ Followed g s' n := by
  have hwithin := within_of_look h.found.sized hn
  obtain ⟨x, hx⟩ := Option.ne_none_iff_exists'.mp hn
  obtain ⟨s', next', hs', h', hext, hfar⟩ :=
    foldlM_reach_eq_ok hp hfit _ h hx fun c hc => joins_of_mem_incident hreg hc
  refine ⟨s', next', ?_, h', hext, fun c hc far hj => ?_⟩
  · rw [visit, h.found.sized.value_eq_ok hwithin, ok_bind, hx]
    dsimp only
    rw [incident_eq_ok hfit hwithin, ok_bind]
    exact hs'
  · obtain ⟨d, hd, rfl⟩ := exists_mem_incident hreg hc hj
    exact hfar d hd

theorem foldlM_visit_eq_ok (level : List Node) (h : Level p g before s next)
    (hknown : ∀ n ∈ level, s.look n ≠ none) :
    ∃ s' next', level.foldlM (visit p g) (s, next) = .ok (s', next') ∧
      Level p g before s' next' ∧ s.Extends s' ∧ ∀ n ∈ level, Followed g s' n := by
  induction level generalizing s next with
  | nil => exact ⟨s, next, rfl, h, fun _ _ h => h, by simp⟩
  | cons n level ih =>
      obtain ⟨s₁, next₁, hs₁, h₁, hext₁, hn⟩ :=
        visit_eq_ok hp hfit hreg h (hknown n List.mem_cons_self)
      obtain ⟨s', next', hs', h', hext', hrest⟩ :=
        ih h₁ fun m hm => hext₁.ne_none (hknown m (List.mem_cons_of_mem n hm))
      refine ⟨s', next', by rw [List.foldlM_cons, hs₁]; exact hs', h',
        fun m y hy => hext' m y (hext₁ m y hy), ?_⟩
      exact List.forall_mem_cons.mpr ⟨hn.mono hext', hrest⟩

private theorem spread_eq_ok (fuel : Nat) {level : List Node} (h : Frontier p g s level)
    (hfuel : s.unknowns + 2 ≤ fuel ∨ level = [] ∧ 0 < fuel) :
    ∃ s', spread p g fuel s level = .ok s' ∧ SpreadsTo p g s level s' ∧ Frontier p g s' [] := by
  induction fuel generalizing s level with
  | zero => omega
  | succ fuel ih =>
      cases level with
      | nil => exact ⟨s, rfl, .done, h⟩
      | cons n level =>
          obtain ⟨s', next, hs', hlevel, -, hfollowed⟩ :=
            foldlM_visit_eq_ok hp hfit hreg (n :: level) (level_refl h.found) h.known
          have hcount := hlevel.count
          obtain ⟨s'', hs'', hspreads, hdone⟩ := ih (h.next_level hlevel hfollowed) (by
            cases next with
            | nil => exact .inr ⟨rfl, by simp at hfuel; omega⟩
            | cons m next =>
                rw [List.length_cons] at hcount
                exact .inl (by simp at hfuel; omega))
          refine ⟨s'', ?_, .again (List.cons_ne_nil n level) hs' hspreads, hdone⟩
          rw [spread, hs', ok_bind]
          · exact hs''
          · simp

end Search

/-- All that a node offers along its basic cells, against the values from before its level. -/
def offers (p : Problem) (g : Grid) (before : PartialPotentials) (start : Valued) :
    List Valued :=
  (g.shipments.filter fun s => s.touches start.node).filterMap (offer p before start)

def Offered (p : Problem) (g : Grid) (before : PartialPotentials) (v : Valued) : Prop :=
  ∃ c ∈ g.basis, ∃ a x, Joins c a v.node ∧ before.look a = some x ∧
    v.value = p.costAt c.1 c.2 - x

def Stored (s : PartialPotentials) (level : List Valued) : Prop :=
  ∀ v ∈ level, s.look v.node = some v.value

section Levelwise

variable {p : Problem} {g : Grid} {before s : PartialPotentials} {next : List Valued}
  (hp : p.Sound) (hfit : g.Fits p) (hreg : g.Regular)

theorem Stored.assign (hstored : s.Stored next) (h : s.Found p g) {v : Valued}
    (hwithin : v.node.Within p.rows p.cols) (hnone : s.look v.node = none) :
    (s.assign v.node v.value).Stored (next ++ [v]) := by
  intro w hw
  rcases List.mem_append.mp hw with hw | hw
  · exact extends_assign h hwithin hnone v.value _ _ (hstored w hw)
  · rw [List.mem_singleton.mp hw, h.sized.look_assign hwithin, if_pos rfl]

include hreg

theorem Stored.offered {level : List Valued} (hlevel : before.Stored level) :
    ∀ v ∈ level.flatMap (offers p g before), Offered p g before v := by
  intro v hv
  obtain ⟨start, hstart, hv⟩ := List.mem_flatMap.mp hv
  obtain ⟨cell, hcell, hoffer⟩ := List.mem_filterMap.mp hv
  obtain ⟨hmem, hjoin⟩ := joins_of_mem_incident hreg hcell
  rw [offer] at hoffer
  split at hoffer
  · contradiction
  · cases hoffer
    exact ⟨_, hmem, start.node, start.value, hjoin, hlevel start hstart, rfl⟩

private theorem exists_mem_offers {start : Valued} {c : Nat × Nat} (hc : c ∈ g.basis) {far : Node}
    (hjoin : Joins c start.node far) (hnone : before.look far = none) :
    ∃ v ∈ offers p g before start, v.node = far := by
  obtain ⟨cell, hcell, rfl⟩ := exists_mem_incident hreg hc hjoin
  refine ⟨⟨cell.opposite start.node, p.costAt cell.row cell.col - start.value⟩,
    List.mem_filterMap.mpr ⟨cell, hcell, ?_⟩, rfl⟩
  rw [offer, hnone]

include hp hfit

private theorem proposal_eq_ok (h : before.Found p g) {start : Valued}
    (hstart : before.look start.node = some start.value) {cell : Shipment}
    (hcell : cell ∈ g.shipments.filter fun s => s.touches start.node) :
    proposal p before start cell = .ok (offer p before start cell) := by
  obtain ⟨hmem, hjoin⟩ := joins_of_mem_incident hreg hcell
  obtain ⟨hplace, hfar⟩ := joins_within hfit hmem hjoin
  rw [proposal, h.sized.value_eq_ok hfar, ok_bind, offer]
  cases before.look (cell.opposite start.node) with
  | some y => rfl
  | none =>
      have hrange := (h.inRange hp (c := (cell.row, cell.col)) hplace hstart).2
      dsimp only
      rw [hp.cost_eq_ok hplace.1 hplace.2, ok_bind, Amount.ofInt_of_inRange hrange, ok_bind]
      rfl

theorem proposals_eq_ok (h : before.Found p g) {start : Valued}
    (hstart : before.look start.node = some start.value) :
    proposals p g before start = .ok (offers p g before start) := by
  have hwithin := within_of_look h.sized (n := start.node) (by simp [hstart])
  rw [proposals, incident_eq_ok hfit hwithin, ok_bind,
    mapM_eq_ok_map _ (offer p before start) _ fun cell hcell =>
      proposal_eq_ok hp hfit hreg h hstart hcell, ok_bind, List.filterMap_map]
  rfl

omit hreg

private theorem accept_eq_ok (h : Level p g before s (next.map Valued.node))
    (hstored : s.Stored next) {v : Valued} (hv : Offered p g before v) :
    ∃ s' next', accept (s, next) v = .ok (s', next') ∧
      Level p g before s' (next'.map Valued.node) ∧ s'.Stored next' ∧ s.Extends s' ∧
      s'.look v.node ≠ none := by
  obtain ⟨c, hc, a, x, hjoin, ha, hvalue⟩ := hv
  obtain ⟨-, hwithin⟩ := joins_within hfit hc hjoin
  rw [accept, h.found.sized.value_eq_ok hwithin, ok_bind]
  cases hlook : s.look v.node with
  | some y => exact ⟨s, next, rfl, h, hstored, fun _ _ h => h, by simp [hlook]⟩
  | none =>
      obtain ⟨hlevel, hext⟩ := h.assign hp hfit hc hjoin hwithin (h.keeps a x ha) hlook
      rw [← hvalue] at hlevel hext
      refine ⟨s.assign v.node v.value, next ++ [v], rfl, ?_,
        hstored.assign h.found hwithin hlook, hext, ?_⟩
      · rw [List.map_append]
        exact hlevel
      · rw [h.found.sized.look_assign hwithin, if_pos rfl]
        simp

theorem foldlM_accept_eq_ok (next : List Valued) (offered : List Valued)
    (h : Level p g before s (next.map Valued.node)) (hstored : s.Stored next)
    (hoffered : ∀ v ∈ offered, Offered p g before v) :
    ∃ s' next', offered.foldlM accept (s, next) = .ok (s', next') ∧
      Level p g before s' (next'.map Valued.node) ∧ s'.Stored next' ∧ s.Extends s' ∧
      ∀ v ∈ offered, s'.look v.node ≠ none := by
  induction offered generalizing s next with
  | nil => exact ⟨s, next, rfl, h, hstored, fun _ _ h => h, by simp⟩
  | cons v offered ih =>
      obtain ⟨s₁, next₁, hs₁, h₁, hstored₁, hext₁, hv⟩ :=
        accept_eq_ok hp hfit h hstored (hoffered v List.mem_cons_self)
      obtain ⟨s', next', hs', h', hstored', hext', hrest⟩ :=
        ih next₁ h₁ hstored₁ fun w hw => hoffered w (List.mem_cons_of_mem v hw)
      refine ⟨s', next', by rw [List.foldlM_cons, hs₁]; exact hs', h', hstored',
        fun m y hy => hext' m y (hext₁ m y hy), ?_⟩
      exact List.forall_mem_cons.mpr ⟨hext'.ne_none hv, hrest⟩

include hreg

omit hp hfit in
private theorem followed_of_offers {level : List Valued} (hkeeps : before.Extends s)
    (hall : ∀ v ∈ level.flatMap (offers p g before), s.look v.node ≠ none) {n : Node}
    (hn : n ∈ level.map Valued.node) : Followed g s n := by
  obtain ⟨start, hstart, rfl⟩ := List.mem_map.mp hn
  intro c hc far hjoin
  by_cases hnone : before.look far = none
  · obtain ⟨v, hv, rfl⟩ := exists_mem_offers (p := p) hreg hc hjoin hnone
    exact hall v (List.mem_flatMap.mpr ⟨start, hstart, hv⟩)
  · exact hkeeps.ne_none hnone

private theorem spreadLevelwise_eq_ok (fuel : Nat) (level : List Valued)
    (h : Frontier p g s (level.map Valued.node)) (hstored : s.Stored level)
    (hfuel : s.unknowns + 2 ≤ fuel ∨ level = [] ∧ 0 < fuel) :
    ∃ s', spreadLevelwise p g fuel s level = .ok s' ∧ Frontier p g s' [] := by
  induction fuel generalizing s level with
  | zero => omega
  | succ fuel ih =>
      cases level with
      | nil => exact ⟨s, rfl, h⟩
      | cons v level =>
          obtain ⟨s', next, hs', hlevel, hstored', hext, hall⟩ :=
            foldlM_accept_eq_ok hp hfit [] _ (level_refl h.found) (by simp [Stored])
              (hstored.offered hreg)
          have hcount := hlevel.count
          obtain ⟨s'', hs'', hdone⟩ := ih next
            (h.next_level hlevel fun n hn => followed_of_offers hreg hlevel.keeps hall hn) hstored'
            (by
              cases next with
              | nil => exact .inr ⟨rfl, by simp at hfuel; omega⟩
              | cons w next =>
                  rw [List.length_map, List.length_cons] at hcount
                  exact .inl (by simp at hfuel; omega))
          refine ⟨s'', ?_, hdone⟩
          rw [spreadLevelwise, mapM_eq_ok_map _ (offers p g s) _ fun start hstart =>
            proposals_eq_ok hp hfit hreg h.found (hstored start hstart), ok_bind,
            ← List.flatMap_def, hs', ok_bind]
          · exact hs''
          · simp

end Levelwise

end PartialPotentials

namespace Potentials

/-- The levels end by themselves, within their supply, and the search exhausts the basis. -/
theorem breadthFirst_ends {p : Problem} {g : Grid} (hp : p.Sound) (hfit : g.Fits p)
    (hreg : g.Regular) :
    ∃ s, PartialPotentials.SpreadsTo p g (.seed p) [.source 0] s ∧
      breadthFirst p g = s.complete ∧ s.Found p g ∧ Respects g.basis fun n => s.look n ≠ none := by
  obtain ⟨s, hs, hspreads, hdone⟩ := PartialPotentials.spread_eq_ok hp hfit hreg
    ((PartialPotentials.seed p).unknowns + 2) (PartialPotentials.frontier_seed hp g) (.inl le_rfl)
  refine ⟨s, hspreads, ?_, hdone.found, hdone.closed⟩
  rw [breadthFirst, hs, ok_bind]

theorem exhausts_breadthFirst {p : Problem} {g : Grid} (hp : p.Sound) (hfit : g.Fits p)
    (hreg : g.Regular) : Exhausts p g (breadthFirst p g) := by
  obtain ⟨s, -, hdone⟩ := breadthFirst_ends hp hfit hreg
  exact ⟨s, hdone⟩

theorem levelwise_ends {p : Problem} {g : Grid} (hp : p.Sound) (hfit : g.Fits p)
    (hreg : g.Regular) :
    ∃ s, PartialPotentials.spreadLevelwise p g ((PartialPotentials.seed p).unknowns + 2) (.seed p)
        [⟨.source 0, 0⟩] = .ok s ∧
      s.Found p g ∧ Respects g.basis fun n => s.look n ≠ none := by
  have hseed := PartialPotentials.found_seed hp g
  obtain ⟨s, hs, hdone⟩ := PartialPotentials.spreadLevelwise_eq_ok hp hfit hreg
    ((PartialPotentials.seed p).unknowns + 2) [⟨.source 0, 0⟩]
    (PartialPotentials.frontier_seed hp g)
    (fun v hv => by rw [List.mem_singleton.mp hv, hseed.first]) (.inl le_rfl)
  exact ⟨s, hs, hdone.found, hdone.closed⟩

theorem exhausts_levelwise {p : Problem} {g : Grid} (hp : p.Sound) (hfit : g.Fits p)
    (hreg : g.Regular) : Exhausts p g (levelwise p g) := by
  obtain ⟨s, hs, hdone⟩ := levelwise_ends hp hfit hreg
  refine ⟨s, ?_, hdone⟩
  rw [levelwise, hs, onWorkers_ok, ok_bind]

end Potentials

end Transportation
