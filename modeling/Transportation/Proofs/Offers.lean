import Transportation.Proofs.ScanSearch
import Transportation.Proofs.LevelSearch
/-!
# The values a search computes

A search computes a value for each offer that a basic cell makes to an end without a value. The
lists here follow the searches and name all their offers in turn; in the search by whole levels
several nodes may make offers to the same node, and those that are not accepted are listed as well.
A step computes just the offers listed for it (`across_eq`, `reach_eq`, `proposals_eq_ok`). No offer
exceeds the largest cost times the number of sources and sinks.
-/
namespace Transportation

theorem forall_foldSteps {σ α ε : Type} (f : σ → α → Except ε σ) (items : List α) (Inv : σ → Prop)
    {s : σ} (h : Inv s) (hstep : ∀ s, ∀ a ∈ items, Inv s → ∃ s', f s a = .ok s' ∧ Inv s') :
    ∀ step ∈ foldSteps f s items, Inv step.1 ∧ step.2 ∈ items :=
  forall_foldSteps_of_ok _ h fun t a ha ht t' ht' => by
    obtain ⟨u, hu, hinv⟩ := hstep t a ha ht
    cases hu.symm.trans ht'
    exact hinv

def following {α β ε : Type} (result : Except ε α) (rest : α → List β) : List β :=
  match result with
  | .ok a => rest a
  | .error _ => []

namespace PartialPotentials

open Grid (Shipment)

def offersInScans (p : Problem) (cells : List Shipment) : Nat → PartialPotentials → List Valued
  | 0, _ => []
  | n + 1, s =>
    (foldSteps (across p) s cells).flatMap (fun step => offersAcross p step.1 step.2) ++
      following (cells.foldlM (across p) s) fun next =>
        if next.unknowns < s.unknowns then offersInScans p cells n next else []

/-- All that is offered from one node, cell by cell with the values found by then. -/
def offersFrom (p : Problem) (g : Grid) (state : PartialPotentials × List Node) (node : Node) :
    List Valued :=
  (state.1.look node).toList.flatMap fun x =>
    (foldSteps (reach p node x) state (g.shipments.filter fun c => c.touches node)).flatMap
      fun step => (offer p step.1.1 ⟨node, x⟩ step.2).toList

/-- All that is offered in level after level, each offer stored at once. -/
def offersInSpread (p : Problem) (g : Grid) : Nat → PartialPotentials → List Node → List Valued
  | 0, _, _ => []
  | _ + 1, _, [] => []
  | n + 1, s, level =>
    (foldSteps (visit p g) (s, []) level).flatMap (fun step => offersFrom p g step.1 step.2) ++
      following (level.foldlM (visit p g) (s, [])) fun result =>
        offersInSpread p g n result.1 result.2

/-- All that is offered in level after level with the values from before each level. -/
def offersInLevels (p : Problem) (g : Grid) : Nat → PartialPotentials → List Valued → List Valued
  | 0, _, _ => []
  | _ + 1, _, [] => []
  | n + 1, s, level =>
    level.flatMap (offers p g s) ++
      following ((level.flatMap (offers p g s)).foldlM accept (s, [])) fun result =>
        offersInLevels p g n result.1 result.2

def InSpan (p : Problem) (v : Valued) : Prop :=
  |v.value| ≤ ((p.rows : Int) + p.cols) * p.greatestCost ∧ Amount.InRange v.value

section Bounds

variable {p : Problem} {g : Grid} {s : PartialPotentials} (hp : p.Sound) (hfit : g.Fits p)
  (hreg : g.Regular)

include hp hfit hreg

private theorem inSpan_across (h : s.Found p g) {cell : Shipment} (hcell : cell ∈ g.shipments) :
    ∀ v ∈ offersAcross p s cell, InSpan p v := by
  obtain ⟨hi, hj, -⟩ := hreg.mem_shipments.mp hcell
  intro v hv
  obtain ⟨n, -, hoffer⟩ := List.mem_filterMap.mp hv
  obtain ⟨x, hx, hoffer⟩ := Option.bind_eq_some_iff.mp hoffer
  exact h.abs_offer_le hp ⟨hfit.1 ▸ hi, hfit.2 ▸ hj⟩ ⟨n, x⟩ hx hoffer

theorem inSpan_scans (n : Nat) (h : s.Found p g) :
    ∀ v ∈ offersInScans p g.shipments n s, InSpan p v := by
  induction n generalizing s with
  | zero => simp [offersInScans]
  | succ n ih =>
      obtain ⟨next, hnext, hfound⟩ := h.exists_scan hp hfit hreg
      have hsteps := forall_foldSteps (across p) g.shipments (fun s => s.Found p g) h
        fun s cell hcell h => h.exists_across hp hfit hreg hcell
      intro v hv
      rw [offersInScans, hnext, following] at hv
      rcases List.mem_append.mp hv with hv | hv
      · obtain ⟨step, hstep, hv⟩ := List.mem_flatMap.mp hv
        obtain ⟨hinv, hcell⟩ := hsteps step hstep
        exact inSpan_across hp hfit hreg hinv hcell v hv
      · split at hv
        · exact ih hfound v hv
        · contradiction

private theorem inSpan_from {state : PartialPotentials × List Node}
    (h : Level p g s state.1 state.2) {node : Node} (hnode : state.1.look node ≠ none) :
    ∀ v ∈ offersFrom p g state node, InSpan p v := by
  obtain ⟨x, hx⟩ := Option.ne_none_iff_exists'.mp hnode
  have hsteps := forall_foldSteps (reach p node x) (g.shipments.filter fun c => c.touches node)
    (fun t => Level p g s t.1 t.2 ∧ t.1.look node = some x) ⟨h, hx⟩ fun t cell hcell ht => by
      obtain ⟨hmem, hjoin⟩ := joins_of_mem_incident hreg hcell
      obtain ⟨t', next', ht', hlevel, hext, -⟩ := reach_eq_ok hp hfit ht.1 ht.2 hmem hjoin
      exact ⟨(t', next'), ht', hlevel, hext node x ht.2⟩
  intro v hv
  rw [offersFrom, hx, Option.toList_some, List.flatMap_singleton] at hv
  obtain ⟨step, hstep, hv⟩ := List.mem_flatMap.mp hv
  obtain ⟨⟨hlevel, hlook⟩, hcell⟩ := hsteps step hstep
  obtain ⟨hmem, hjoin⟩ := joins_of_mem_incident hreg hcell
  exact hlevel.found.abs_offer_le hp (joins_within hfit hmem hjoin).1 ⟨node, x⟩ hlook
    (Option.mem_toList.mp hv)

theorem inSpan_spread (n : Nat) (level : List Node) (h : s.Found p g)
    (hlevel : ∀ m ∈ level, s.look m ≠ none) : ∀ v ∈ offersInSpread p g n s level, InSpan p v := by
  induction n generalizing s level with
  | zero => simp [offersInSpread]
  | succ n ih =>
      cases level with
      | nil => simp [offersInSpread]
      | cons m level =>
          obtain ⟨s', next, hs', hnext, -⟩ :=
            foldlM_visit_eq_ok hp hfit hreg (m :: level) (level_refl h) hlevel
          have hsteps := forall_foldSteps (visit p g) (m :: level) (fun t => Level p g s t.1 t.2)
            (s := (s, [])) (level_refl h) fun t node hnode ht => by
              obtain ⟨t', next', ht', hlevel', -⟩ :=
                visit_eq_ok hp hfit hreg ht (Extends.ne_none ht.keeps (hlevel node hnode))
              exact ⟨(t', next'), ht', hlevel'⟩
          intro v hv
          rw [offersInSpread, hs', following] at hv
          · rcases List.mem_append.mp hv with hv | hv
            · obtain ⟨step, hstep, hv⟩ := List.mem_flatMap.mp hv
              obtain ⟨hinv, hnode⟩ := hsteps step hstep
              exact inSpan_from hp hfit hreg hinv (Extends.ne_none hinv.keeps (hlevel _ hnode)) v hv
            · exact ih next hnext.found hnext.known v hv
          · simp

theorem inSpan_levels (n : Nat) (level : List Valued) (h : s.Found p g)
    (hlevel : s.Stored level) : ∀ v ∈ offersInLevels p g n s level, InSpan p v := by
  induction n generalizing s level with
  | zero => simp [offersInLevels]
  | succ n ih =>
      cases level with
      | nil => simp [offersInLevels]
      | cons start level =>
          obtain ⟨s', next, hs', hnext, hstored, -⟩ := foldlM_accept_eq_ok hp hfit [] _
            (level_refl h) (by simp [Stored]) (hlevel.offered hreg)
          intro v hv
          rw [offersInLevels, hs', following] at hv
          · rcases List.mem_append.mp hv with hv | hv
            · obtain ⟨near, hnear, hv⟩ := List.mem_flatMap.mp hv
              obtain ⟨cell, hcell, hoffer⟩ := List.mem_filterMap.mp hv
              obtain ⟨hmem, hjoin⟩ := joins_of_mem_incident hreg hcell
              have hplace := (joins_within hfit hmem hjoin).1
              exact h.abs_offer_le hp hplace near (hlevel near hnear) hoffer
            · exact ih next hnext.found hstored v hv
          · simp

end Bounds

end PartialPotentials

end Transportation
