import Transportation.Proofs.ExactPotentials
/-!
# Levels shared by workers

The search by whole levels proposes values against the values from before the level, the search
breadth first stores each one at once. Where several nodes of a level reach the same node, both keep
the value from the first of them, so on any basis they find the same potentials. However the workers
share a level among them, the proposals come back in the order of the level.
-/
namespace Transportation

/-- How the workers of a split share a level: in parts of consecutive nodes, one task each. No part
is smaller than the split's minimum, unless it is the whole level. -/
structure WorkSplit.Sharing (split : WorkSplit) where
  parts : List Valued → List (List Valued)
  flatten_parts : ∀ level, (parts level).flatten = level
  minRows_le : ∀ level, ∀ part ∈ parts level, part = level ∨ split.minRows ≤ part.length

namespace PartialPotentials

open Grid (Shipment)

/-- Stores level after level like `spreadLevelwise`, with a task for each part of a level. -/
def spreadShared {split : WorkSplit} (sharing : split.Sharing) (p : Problem) (g : Grid) :
    Nat → PartialPotentials → List Valued → Except Failure PartialPotentials
  | 0, s, _ => .ok s
  | _ + 1, s, [] => .ok s
  | n + 1, s, level => do
    let results ← (sharing.parts level).mapM fun part => part.mapM (proposals p g s)
    let (s, next) ← results.flatten.flatten.foldlM accept (s, [])
    spreadShared sharing p g n s next

private theorem mapM_flatten {α β ε : Type} (f : α → Except ε β) (parts : List (List α)) :
    parts.flatten.mapM f = (do return (← parts.mapM fun part => part.mapM f).flatten) := by
  induction parts with
  | nil => rfl
  | cons part parts ih =>
      rw [List.flatten_cons, List.mapM_append, ih, List.mapM_cons]
      cases part.mapM f with
      | error e => rfl
      | ok results =>
          rw [ok_bind, ok_bind]
          cases parts.mapM fun part => part.mapM f with
          | error e => rfl
          | ok rest => rfl

theorem spreadShared_eq {split : WorkSplit} (sharing : split.Sharing) (p : Problem) (g : Grid)
    (n : Nat) (s : PartialPotentials) (level : List Valued) :
    spreadShared sharing p g n s level = spreadLevelwise p g n s level := by
  induction n generalizing s level with
  | zero => rfl
  | succ n ih =>
      cases level with
      | nil => rfl
      | cons v level =>
          have hmap := mapM_flatten (proposals p g s) (sharing.parts (v :: level))
          rw [sharing.flatten_parts] at hmap
          rw [spreadShared, spreadLevelwise, hmap]
          · cases (sharing.parts (v :: level)).mapM fun part => part.mapM (proposals p g s) with
            | error e => rfl
            | ok results =>
                rw [ok_bind, ok_bind, pure_eq_ok, ok_bind]
                exact bind_congr fun state => ih state.1 state.2
          · simp
          · simp

private def Together (p : Problem) (g : Grid) (before : PartialPotentials)
    (direct : Except Failure (PartialPotentials × List Node))
    (deferred : Except Failure (PartialPotentials × List Valued)) : Prop :=
  ∃ s next, direct = .ok (s, next.map Valued.node) ∧ deferred = .ok (s, next) ∧
    Level p g before s (next.map Valued.node) ∧ s.Stored next

section Together

variable {p : Problem} {g : Grid} {before s : PartialPotentials} {next : List Valued}
  (hp : p.Sound) (hfit : g.Fits p) (hreg : g.Regular)

include hp hfit

private theorem reach_together (h : Level p g before s (next.map Valued.node))
    (hstored : s.Stored next) {start : Valued}
    (hstart : before.look start.node = some start.value) {cell : Shipment}
    (hcell : (cell.row, cell.col) ∈ g.basis)
    (hjoin : Joins (cell.row, cell.col) start.node (cell.opposite start.node)) :
    Together p g before (reach p start.node start.value (s, next.map Valued.node) cell)
      ((offer p before start cell).toList.foldlM accept (s, next)) := by
  obtain ⟨hplace, hfar⟩ := joins_within hfit hcell hjoin
  rw [reach_eq hp h.found.sized hplace hfar]
  cases hlook : s.look (cell.opposite start.node) with
  | some y =>
      refine ⟨s, next, by rw [offer, hlook]; rfl, ?_, h, hstored⟩
      rw [offer]
      cases before.look (cell.opposite start.node) with
      | some z => rfl
      | none =>
          rw [Option.toList_some, List.foldlM_cons, accept, h.found.sized.value_eq_ok hfar, ok_bind,
            hlook]
          rfl
  | none =>
      have hnone : before.look (cell.opposite start.node) = none := by
        cases hbefore : before.look (cell.opposite start.node) with
        | none => rfl
        | some z => rw [h.keeps _ z hbefore] at hlook; contradiction
      have hkept := h.keeps _ _ hstart
      have hrange := (h.found.inRange hp (c := (cell.row, cell.col)) hplace hkept).2
      obtain ⟨hlevel, -⟩ := h.assign hp hfit hcell hjoin hfar hkept hlook
      refine ⟨s.assign (cell.opposite start.node) (p.costAt cell.row cell.col - start.value),
        next ++ [⟨cell.opposite start.node, p.costAt cell.row cell.col - start.value⟩], ?_, ?_, ?_,
        hstored.assign h.found hfar hlook⟩
      · rw [offer, hlook, List.map_append]
        dsimp only
        rw [Option.toList_some, List.foldlM_cons, store, Amount.ofInt_of_inRange hrange]
        rfl
      · rw [offer, hnone]
        dsimp only
        rw [Option.toList_some, List.foldlM_cons, accept, h.found.sized.value_eq_ok hfar, ok_bind,
          hlook]
        rfl
      · rw [List.map_append]
        exact hlevel

private theorem foldlM_reach_together (cells : List Shipment)
    (h : Level p g before s (next.map Valued.node)) (hstored : s.Stored next) {start : Valued}
    (hstart : before.look start.node = some start.value)
    (hcells : ∀ c ∈ cells, (c.row, c.col) ∈ g.basis ∧
      Joins (c.row, c.col) start.node (c.opposite start.node)) :
    Together p g before
      (cells.foldlM (reach p start.node start.value) (s, next.map Valued.node))
      ((cells.filterMap (offer p before start)).foldlM accept (s, next)) := by
  induction cells generalizing s next with
  | nil => exact ⟨s, next, rfl, rfl, h, hstored⟩
  | cons c cells ih =>
      obtain ⟨hcell, hjoin⟩ := hcells c List.mem_cons_self
      obtain ⟨s₁, next₁, hreach, haccept, h₁, hstored₁⟩ :=
        reach_together hp hfit h hstored hstart hcell hjoin
      have hrest := ih h₁ hstored₁ fun d hd => hcells d (List.mem_cons_of_mem c hd)
      have hsplit : (c :: cells).filterMap (offer p before start) =
          (offer p before start c).toList ++ cells.filterMap (offer p before start) := by
        cases hoffer : offer p before start c <;> simp [hoffer]
      rw [List.foldlM_cons, hreach, ok_bind, hsplit, List.foldlM_append, haccept, ok_bind]
      exact hrest

include hreg

private theorem visit_together (h : Level p g before s (next.map Valued.node))
    (hstored : s.Stored next) {start : Valued}
    (hstart : before.look start.node = some start.value) :
    Together p g before (visit p g (s, next.map Valued.node) start.node)
      ((offers p g before start).foldlM accept (s, next)) := by
  have hkept := h.keeps _ _ hstart
  have hwithin := within_of_look h.found.sized (n := start.node) (by simp [hkept])
  rw [visit, h.found.sized.value_eq_ok hwithin, ok_bind, hkept]
  dsimp only
  rw [incident_eq_ok hfit hwithin, ok_bind, offers]
  exact foldlM_reach_together hp hfit _ h hstored hstart fun c hc => joins_of_mem_incident hreg hc

private theorem foldlM_visit_together (level : List Valued) (hlevel : before.Stored level)
    (h : Level p g before s (next.map Valued.node)) (hstored : s.Stored next) :
    Together p g before ((level.map Valued.node).foldlM (visit p g) (s, next.map Valued.node))
      ((level.flatMap (offers p g before)).foldlM accept (s, next)) := by
  induction level generalizing s next with
  | nil => exact ⟨s, next, rfl, rfl, h, hstored⟩
  | cons start level ih =>
      obtain ⟨s₁, next₁, hvisit, haccept, h₁, hstored₁⟩ :=
        visit_together hp hfit hreg h hstored (hlevel start List.mem_cons_self)
      rw [List.map_cons, List.foldlM_cons, hvisit, ok_bind, List.flatMap_cons, List.foldlM_append,
        haccept, ok_bind]
      exact ih (fun v hv => hlevel v (List.mem_cons_of_mem start hv)) h₁ hstored₁

theorem spread_eq_spreadLevelwise (n : Nat) (level : List Valued) (h : s.Found p g)
    (hlevel : s.Stored level) :
    spread p g n s (level.map Valued.node) = spreadLevelwise p g n s level := by
  induction n generalizing s level with
  | zero => rfl
  | succ n ih =>
      cases level with
      | nil => rfl
      | cons v level =>
          have hempty : s.Stored [] := fun v hv => absurd hv List.not_mem_nil
          have htogether := foldlM_visit_together hp hfit hreg (v :: level) hlevel (level_refl h)
            hempty
          rw [List.map_nil] at htogether
          obtain ⟨s', next, hdirect, hdeferred, hfound, hstored⟩ := htogether
          have hproposals := mapM_eq_ok_map _ (offers p g s) (v :: level) fun start hstart =>
            proposals_eq_ok hp hfit hreg h (hlevel start hstart)
          rw [spreadLevelwise, hproposals, ok_bind, ← List.flatMap_def, hdeferred, ok_bind, spread,
            hdirect, ok_bind]
          · exact ih next hfound.found hstored
          · simp
          · simp

end Together

end PartialPotentials

namespace Potentials

def levelwiseShared {split : WorkSplit} (sharing : split.Sharing) (p : Problem) (g : Grid) :
    Except Failure Potentials := do
  let start := PartialPotentials.seed p
  let found ← onWorkers
    (PartialPotentials.spreadShared sharing p g (start.unknowns + 2) start [⟨.source 0, 0⟩])
  found.complete

theorem levelwiseShared_eq {split : WorkSplit} (sharing : split.Sharing) (p : Problem)
    (g : Grid) : levelwiseShared sharing p g = levelwise p g := by
  rw [levelwiseShared, PartialPotentials.spreadShared_eq, levelwise]

theorem levelwise_eq_breadthFirst {p : Problem} {g : Grid} (hp : p.Sound) (hfit : g.Fits p)
    (hreg : g.Regular) : levelwise p g = breadthFirst p g := by
  have hseed := PartialPotentials.found_seed hp g
  have hspread := PartialPotentials.spread_eq_spreadLevelwise hp hfit hreg
    ((PartialPotentials.seed p).unknowns + 2) [⟨.source 0, 0⟩] hseed
    fun v hv => by rw [List.mem_singleton.mp hv, hseed.first]
  obtain ⟨s, hs, -⟩ := levelwise_ends hp hfit hreg
  rw [hs] at hspread
  rw [levelwise, hs, onWorkers_ok, ok_bind, breadthFirst]
  exact (congrArg (· >>= PartialPotentials.complete) hspread).symm

/-- On any basis the workers of a split, however they share the levels, come to the same end as the
search breadth first: to its potentials on a connected basis, and to the same failure on another. -/
theorem shared_levels_agree {costs : List (List Int)} {supply demand : List Int} {p : Problem}
    {g : Grid} (hp : Problem.ofTable costs supply demand = .ok p) (hfit : g.Fits p)
    (hreg : g.Regular) (split : WorkSplit) (sharing : split.Sharing) :
    levelwiseShared sharing p g = breadthFirst p g ∧ levelwise p g = breadthFirst p g ∧
    (g.graph.Connected → ∃ values, levelwiseShared sharing p g = .ok values ∧
      breadthFirst p g = .ok values) ∧
    (¬ g.graph.Connected → levelwiseShared sharing p g = .error .disconnectedBasis ∧
      breadthFirst p g = .error .disconnectedBasis) := by
  have hsound := Problem.sound_of_ofTable hp
  have hlevels := levelwise_eq_breadthFirst hsound hfit hreg
  have hshared := (levelwiseShared_eq sharing p g).trans hlevels
  have hexhausts := exhausts_breadthFirst hsound hfit hreg
  rw [Grid.connected_graph_iff hsound hfit, hshared]
  refine ⟨rfl, hlevels, fun hspans => ?_, fun hapart => ?_⟩
  · obtain ⟨values, hvalues⟩ := hexhausts.exists_eq_ok hsound hspans
    exact ⟨values, hvalues, hvalues⟩
  · have herror := (hexhausts.eq_error_iff hsound).mpr hapart
    exact ⟨herror, herror⟩

def nodeByNode : WorkSplit.Sharing ⟨2, 1⟩ where
  parts level := level.map fun start => [start]
  flatten_parts level := by rw [← List.flatMap_def, List.flatMap_singleton']
  minRows_le level part hpart := by
    obtain ⟨start, -, rfl⟩ := List.mem_map.mp hpart
    exact .inr le_rfl

/-- On a ring of four basic cells the sinks reach the second source with the values -1 and 1, and
the first one counts. Without the cells of the second diagonal it is not reached. -/
theorem shared_levels_agree_ring :
    levelwiseShared nodeByNode crossed ⟨2, 2, [.basic 1, .basic 0, .basic 0, .basic 1], 4⟩ =
      .ok ⟨[0, -1], [1, 0]⟩ ∧
    (Grid.mk 2 2 [.basic 1, .basic 0, .basic 0, .basic 1] 4).graph.Connected ∧
    levelwiseShared nodeByNode crossed ⟨2, 2, [.basic 1, .vacant, .vacant, .basic 1], 2⟩ =
      .error .disconnectedBasis ∧
    ¬ (Grid.mk 2 2 [.basic 1, .vacant, .vacant, .basic 1] 2).graph.Connected := by
  obtain ⟨hring, -, -, hringApart⟩ := shared_levels_agree ofTable_crossed
    (g := ⟨2, 2, [.basic 1, .basic 0, .basic 0, .basic 1], 4⟩) ⟨rfl, rfl⟩ ⟨rfl, rfl⟩ ⟨2, 1⟩
    nodeByNode
  obtain ⟨hpair, -, hpairConnected, -⟩ := shared_levels_agree ofTable_crossed
    (g := ⟨2, 2, [.basic 1, .vacant, .vacant, .basic 1], 2⟩) ⟨rfl, rfl⟩ ⟨rfl, rfl⟩ ⟨2, 1⟩
    nodeByNode
  have hringValues : breadthFirst crossed ⟨2, 2, [.basic 1, .basic 0, .basic 0, .basic 1], 4⟩ =
      .ok ⟨[0, -1], [1, 0]⟩ := by decide +kernel
  have hpairFails : breadthFirst crossed ⟨2, 2, [.basic 1, .vacant, .vacant, .basic 1], 2⟩ =
      .error .disconnectedBasis := by decide +kernel
  refine ⟨hring.trans hringValues, ?_, hpair.trans hpairFails, ?_⟩
  · by_contra hapart
    have hfails := (hringApart hapart).2
    rw [hringValues] at hfails
    cases hfails
  · intro hconnected
    obtain ⟨values, -, hvalues⟩ := hpairConnected hconnected
    rw [hpairFails] at hvalues
    cases hvalues

end Potentials

end Transportation
