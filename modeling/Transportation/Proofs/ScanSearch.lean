import Transportation.Proofs.FoundValues
import Transportation.Potentials.Scan
/-!
# The search by scans

A scan that finds nothing has left no basic cell between a found and a missing value, and every
other scan finds a value. So the scans end within their supply with all values of a connected basis.
-/
namespace Transportation

namespace PartialPotentials

open Grid (Shipment)

/-- The values that a basic cell offers to its ends, each from the other one. -/
def offersAcross (p : Problem) (s : PartialPotentials) (cell : Shipment) : List Valued :=
  [Node.source cell.row, Node.sink cell.col].filterMap fun n =>
    (s.look n).bind fun x => offer p s ⟨n, x⟩ cell

private def Open (s : PartialPotentials) (cell : Shipment) : Prop :=
  ¬ (s.look (.source cell.row) ≠ none ↔ s.look (.sink cell.col) ≠ none)

/-- The scans that begin at `s` end at `t`: the last scan finds nothing, and each one before it
finds a value. -/
inductive ScansTo (p : Problem) (cells : List Shipment) :
    PartialPotentials → PartialPotentials → Prop
  | done {s : PartialPotentials} (h : cells.foldlM (across p) s = .ok s) : ScansTo p cells s s
  | again {s next t : PartialPotentials} (h : cells.foldlM (across p) s = .ok next)
      (hne : next ≠ s) (hrest : ScansTo p cells next t) : ScansTo p cells s t

section Scan

variable {p : Problem} {g : Grid} {s : PartialPotentials} (hp : p.Sound) (hfit : g.Fits p)
  (hreg : g.Regular)

omit hreg in
include hp in
theorem across_eq (hs : s.Sized p) {cell : Shipment} (hi : cell.row < p.rows)
    (hj : cell.col < p.cols) : across p s cell = (offersAcross p s cell).foldlM store s := by
  have hsource : (Node.source cell.row).Within p.rows p.cols := hi
  have hsink : (Node.sink cell.col).Within p.rows p.cols := hj
  rw [across, hp.cost_eq_ok hi hj, ok_bind, hs.value_eq_ok hsource, ok_bind,
    hs.value_eq_ok hsink, ok_bind]
  cases hu : s.look (.source cell.row) <;> cases hv : s.look (.sink cell.col) <;>
    simp [offersAcross, offer, Shipment.opposite, hu, hv, store]

include hp hfit hreg

private theorem across_eq_ok (h : s.Found p g) {cell : Shipment} (hcell : cell ∈ g.shipments) :
    ∃ s', across p s cell = .ok s' ∧ s'.Found p g ∧
      (¬ s.Open cell ∧ s' = s ∨ s.Open cell ∧ s'.unknowns + 1 = s.unknowns) := by
  obtain ⟨hi, hj, hbasic⟩ := hreg.mem_shipments.mp hcell
  have hmem : (cell.row, cell.col) ∈ g.basis :=
    Grid.mem_basis.mpr ⟨hi, hj, by rw [hbasic]; rfl⟩
  rw [hfit.1] at hi
  rw [hfit.2] at hj
  have hsource : (Node.source cell.row).Within p.rows p.cols := hi
  have hsink : (Node.sink cell.col).Within p.rows p.cols := hj
  rw [across_eq hp h.sized hi hj]
  cases hu : s.look (.source cell.row) with
  | some u =>
      cases hv : s.look (.sink cell.col) with
      | some v =>
          have hnone : offersAcross p s cell = [] := by
            simp [offersAcross, offer, Shipment.opposite, hu, hv]
          exact ⟨s, by rw [hnone]; rfl, h, .inl ⟨by simp [Open, hu, hv], rfl⟩⟩
      | none =>
          have hone : offersAcross p s cell =
              [⟨.sink cell.col, p.costAt cell.row cell.col - u⟩] := by
            simp [offersAcross, offer, Shipment.opposite, hu, hv]
          have hrange := (h.inRange hp (c := (cell.row, cell.col)) ⟨hi, hj⟩ hu).2
          refine ⟨_, ?_, h.assign hp hfit hmem (.inl ⟨rfl, rfl⟩) hu hv,
            .inr ⟨by simp [Open, hu, hv], h.sized.unknowns_assign hsink hv _⟩⟩
          rw [hone, List.foldlM_cons, store, Amount.ofInt_of_inRange hrange]
          rfl
  | none =>
      cases hv : s.look (.sink cell.col) with
      | some v =>
          have hone : offersAcross p s cell =
              [⟨.source cell.row, p.costAt cell.row cell.col - v⟩] := by
            simp [offersAcross, offer, Shipment.opposite, hu, hv]
          have hrange := (h.inRange hp (c := (cell.row, cell.col)) ⟨hi, hj⟩ hv).2
          refine ⟨_, ?_, h.assign hp hfit hmem (.inr ⟨rfl, rfl⟩) hv hu,
            .inr ⟨by simp [Open, hu, hv], h.sized.unknowns_assign hsource hu _⟩⟩
          rw [hone, List.foldlM_cons, store, Amount.ofInt_of_inRange hrange]
          rfl
      | none =>
          have hnone : offersAcross p s cell = [] := by simp [offersAcross, hu, hv]
          exact ⟨s, by rw [hnone]; rfl, h, .inl ⟨by simp [Open, hu, hv], rfl⟩⟩

private theorem scan_eq_ok (cells : List Shipment) (h : s.Found p g)
    (hcells : ∀ c ∈ cells, c ∈ g.shipments) :
    ∃ s', cells.foldlM (across p) s = .ok s' ∧ s'.Found p g ∧
      (s'.unknowns < s.unknowns ∨ s' = s ∧ ∀ c ∈ cells, ¬ s.Open c) := by
  induction cells generalizing s with
  | nil => exact ⟨s, rfl, h, .inr ⟨rfl, by simp⟩⟩
  | cons c cells ih =>
      obtain ⟨s₁, hs₁, h₁, hcase⟩ := across_eq_ok hp hfit hreg h (hcells c List.mem_cons_self)
      obtain ⟨s', hs', h', hrest⟩ := ih h₁ fun d hd => hcells d (List.mem_cons_of_mem c hd)
      refine ⟨s', by rw [List.foldlM_cons, hs₁]; exact hs', h', ?_⟩
      rcases hcase with ⟨hclosed, rfl⟩ | ⟨-, hfewer⟩
      · rcases hrest with hless | ⟨rfl, hrest⟩
        · exact .inl hless
        · exact .inr ⟨rfl, List.forall_mem_cons.mpr ⟨hclosed, hrest⟩⟩
      · rcases hrest with hless | ⟨rfl, -⟩
        · exact .inl (by omega)
        · exact .inl (by omega)

theorem Found.exists_across (h : s.Found p g) {cell : Shipment} (hcell : cell ∈ g.shipments) :
    ∃ s', across p s cell = .ok s' ∧ s'.Found p g := by
  obtain ⟨s', hs', hfound, -⟩ := across_eq_ok hp hfit hreg h hcell
  exact ⟨s', hs', hfound⟩

theorem Found.exists_scan (h : s.Found p g) :
    ∃ s', g.shipments.foldlM (across p) s = .ok s' ∧ s'.Found p g := by
  obtain ⟨s', hs', hfound, -⟩ := scan_eq_ok hp hfit hreg g.shipments h fun c hc => hc
  exact ⟨s', hs', hfound⟩

private theorem scans_eq_ok (n : Nat) (h : s.Found p g) (hn : s.unknowns < n) :
    ∃ s', scans p g.shipments n s = .ok s' ∧ ScansTo p g.shipments s s' ∧ s'.Found p g ∧
      Respects g.basis fun a => s'.look a ≠ none := by
  induction n generalizing s with
  | zero => omega
  | succ n ih =>
      obtain ⟨s₁, hs₁, h₁, hcase⟩ := scan_eq_ok hp hfit hreg g.shipments h fun c hc => hc
      rw [scans, hs₁, ok_bind]
      rcases hcase with hless | ⟨rfl, hclosed⟩
      · obtain ⟨s', hs', hscans, hdone⟩ := ih h₁ (by omega)
        rw [if_pos hless]
        refine ⟨s', hs', .again hs₁ ?_ hscans, hdone⟩
        rintro rfl
        exact absurd hless (lt_irrefl _)
      · rw [if_neg (by omega)]
        refine ⟨s₁, rfl, .done hs₁, h₁, ?_⟩
        rintro ⟨i, j⟩ hc
        obtain ⟨hi, hj, hbasic⟩ := Grid.mem_basis.mp hc
        have hcell := Grid.cell_eq_basic hbasic
        exact not_not.mp (hclosed ⟨i, j, g.amount i j⟩ (hreg.mem_shipments.mpr ⟨hi, hj, hcell⟩))

end Scan

end PartialPotentials

namespace Potentials

/-- The scans end by themselves, within their supply, and the search exhausts the basis. -/
theorem scan_ends {p : Problem} {g : Grid} (hp : p.Sound) (hfit : g.Fits p) (hreg : g.Regular) :
    ∃ s, PartialPotentials.ScansTo p g.shipments (.seed p) s ∧ scan p g = s.complete ∧
      s.Found p g ∧ Respects g.basis fun n => s.look n ≠ none := by
  obtain ⟨s, hs, hscans, hdone⟩ := PartialPotentials.scans_eq_ok hp hfit hreg
    ((PartialPotentials.seed p).unknowns + 1) (PartialPotentials.found_seed hp g) (by omega)
  refine ⟨s, hscans, ?_, hdone⟩
  rw [scan, hs, ok_bind]

theorem exhausts_scan {p : Problem} {g : Grid} (hp : p.Sound) (hfit : g.Fits p)
    (hreg : g.Regular) : Exhausts p g (scan p g) := by
  obtain ⟨s, -, hdone⟩ := scan_ends hp hfit hreg
  exact ⟨s, hdone⟩

end Potentials

end Transportation
