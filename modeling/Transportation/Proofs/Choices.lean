import Mathlib.Data.List.Pairwise
import Transportation.Opportunity
import Transportation.Proofs.Table
/-!
# The choice of the entering cell

The entering cell is the first of all candidates in the order of cost, row and column, if its cost
is negative. This determines the choice, and choices from parts of the candidates combine to it.
-/
namespace Transportation

namespace Entering

/-- The choice from some candidates: the first of them all, if its cost is negative. -/
def Chosen (candidates : List Entering) : Option Entering → Prop
  | none => ∀ c ∈ candidates, 0 ≤ c.delta
  | some e => e ∈ candidates ∧ e.delta < 0 ∧ ∀ c ∈ candidates, c = e ∨ e.before c = true

/-- The place of one candidate comes before that of another, row by row. -/
def Earlier (a b : Entering) : Prop := a.row < b.row ∨ a.row = b.row ∧ a.col < b.col

theorem before_iff {a b : Entering} :
    a.before b = true ↔ a.delta < b.delta ∨ a.delta = b.delta ∧ a.Earlier b := by
  simp [before, Earlier]

theorem before_trans {a b c : Entering} (hab : a.before b = true) (hbc : b.before c = true) :
    a.before c = true := by
  rw [before_iff, Earlier] at *
  omega

theorem before_asymm {a b : Entering} (hab : a.before b = true) : ¬ b.before a = true := by
  rw [before_iff, Earlier] at *
  omega

theorem before_total (a b : Entering) : a = b ∨ a.before b = true ∨ b.before a = true := by
  obtain ⟨row, col, delta⟩ := a
  obtain ⟨row', col', delta'⟩ := b
  simp only [before_iff, Earlier, Entering.mk.injEq]
  omega

private theorem before_of_nonneg {a b : Entering} (ha : a.delta < 0) (hb : 0 ≤ b.delta) :
    a.before b = true :=
  before_iff.mpr (.inl (lt_of_lt_of_le ha hb))

theorem Chosen.unique {candidates : List Entering} {a b : Option Entering}
    (ha : Chosen candidates a) (hb : Chosen candidates b) : a = b := by
  cases a with
  | none =>
      cases b with
      | none => rfl
      | some b => exact absurd (ha b hb.1) (not_le.mpr hb.2.1)
  | some a =>
      cases b with
      | none => exact absurd (hb a ha.1) (not_le.mpr ha.2.1)
      | some b =>
          rcases ha.2.2 b hb.1 with rfl | hab
          · rfl
          · rcases hb.2.2 a ha.1 with rfl | hba
            · rfl
            · exact absurd hba (before_asymm hab)

theorem Chosen.pick {xs ys : List Entering} {a b : Option Entering} (ha : Chosen xs a)
    (hb : Chosen ys b) : Chosen (xs ++ ys) (pick a b) := by
  cases a with
  | none =>
      cases b with
      | none =>
          intro c hc
          exact (List.mem_append.mp hc).elim (ha c) (hb c)
      | some b =>
          refine ⟨List.mem_append_right xs hb.1, hb.2.1, fun c hc => ?_⟩
          rcases List.mem_append.mp hc with hc | hc
          · exact .inr (before_of_nonneg hb.2.1 (ha c hc))
          · exact hb.2.2 c hc
  | some a =>
      cases b with
      | none =>
          refine ⟨List.mem_append_left ys ha.1, ha.2.1, fun c hc => ?_⟩
          rcases List.mem_append.mp hc with hc | hc
          · exact ha.2.2 c hc
          · exact .inr (before_of_nonneg ha.2.1 (hb c hc))
      | some b =>
          rw [Entering.pick]
          split
          · next hba =>
              refine ⟨List.mem_append_right xs hb.1, hb.2.1, fun c hc => ?_⟩
              rcases List.mem_append.mp hc with hc | hc
              · rcases ha.2.2 c hc with rfl | hac
                · exact .inr hba
                · exact .inr (before_trans hba hac)
              · exact hb.2.2 c hc
          · next hba =>
              have hab : b = a ∨ a.before b = true := by
                rcases before_total a b with rfl | h | h
                · exact .inl rfl
                · exact .inr h
                · exact absurd h hba
              refine ⟨List.mem_append_left ys ha.1, ha.2.1, fun c hc => ?_⟩
              rcases List.mem_append.mp hc with hc | hc
              · exact ha.2.2 c hc
              · rcases hab with rfl | hab
                · exact hb.2.2 c hc
                · rcases hb.2.2 c hc with rfl | hbc
                  · exact .inr hab
                  · exact .inr (before_trans hab hbc)

private theorem Chosen.foldl_pick {α : Type} (xs : List α) (candidates : α → List Entering)
    (choice : α → Option Entering) (h : ∀ x ∈ xs, Chosen (candidates x) (choice x))
    {ys : List Entering} {best : Option Entering} (hbest : Chosen ys best) :
    Chosen (ys ++ xs.flatMap candidates) ((xs.map choice).foldl Entering.pick best) := by
  induction xs generalizing ys best with
  | nil => simpa using hbest
  | cons x xs ih =>
      have hrest := ih (fun y hy => h y (List.mem_cons_of_mem x hy))
        (hbest.pick (h x List.mem_cons_self))
      rw [List.append_assoc] at hrest
      exact hrest

/-- The best of several choices is the choice from all their candidates. -/
theorem chosen_foldl_pick {α : Type} (xs : List α) (candidates : α → List Entering)
    (choice : α → Option Entering) (h : ∀ x ∈ xs, Chosen (candidates x) (choice x)) :
    Chosen (xs.flatMap candidates) ((xs.map choice).foldl Entering.pick none) :=
  Chosen.foldl_pick xs candidates choice h (by simp [Chosen] : Chosen [] none)

private theorem Chosen.consider {candidates : List Entering} {best : Option Entering}
    (h : Chosen candidates best) {e : Entering} (hlast : ∀ c ∈ candidates, c.Earlier e) :
    Chosen (candidates ++ [e]) (consider best e) := by
  rw [Entering.consider]
  split
  · next hnew =>
      refine ⟨by simp, hnew.1, fun c hc => ?_⟩
      rcases List.mem_append.mp hc with hc | hc
      · right
        cases best with
        | none => exact before_of_nonneg hnew.1 (h c hc)
        | some b =>
            have hlt : e.delta < b.delta := by simpa using hnew.2
            rcases h.2.2 c hc with rfl | hbc
            · exact before_iff.mpr (.inl hlt)
            · exact before_trans (before_iff.mpr (.inl hlt)) hbc
      · exact .inl (List.mem_singleton.mp hc)
  · next hold =>
      cases best with
      | none =>
          intro c hc
          rcases List.mem_append.mp hc with hc | hc
          · exact h c hc
          · rw [List.mem_singleton.mp hc]
            simpa using hold
      | some b =>
          refine ⟨List.mem_append_left _ h.1, h.2.1, fun c hc => ?_⟩
          rcases List.mem_append.mp hc with hc | hc
          · exact h.2.2 c hc
          · rw [List.mem_singleton.mp hc]
            have hearlier := hlast b h.1
            have hneg := h.2.1
            have hle : b.delta ≤ e.delta := by
              by_contra hlt
              exact hold ⟨by omega, by simpa using hlt⟩
            rcases hle.lt_or_eq with hlt | heq
            · exact .inr (before_iff.mpr (.inl hlt))
            · exact .inr (before_iff.mpr (.inr ⟨heq, hearlier⟩))

theorem chosen_foldl_consider (candidates : List Entering)
    (hsorted : candidates.Pairwise Earlier) :
    Chosen candidates (candidates.foldl consider none) := by
  induction candidates using List.reverseRecOn with
  | nil => simp [Chosen]
  | append_singleton candidates e ih =>
      rw [List.pairwise_append] at hsorted
      rw [List.foldl_append]
      exact (ih hsorted.1).consider fun c hc => hsorted.2.2 c hc e (List.mem_singleton.mpr rfl)

def candidate (cols : Nat) (cost : Nat → Option Int) (k : Nat) : Option Entering :=
  (cost k).map fun delta => ⟨k / cols, k % cols, delta⟩

private theorem earlier_of_lt {cols k l : Nat} (hlt : k < l) {a b : Int} :
    Earlier ⟨k / cols, k % cols, a⟩ ⟨l / cols, l % cols, b⟩ := by
  have hle : k / cols ≤ l / cols := Nat.div_le_div_right hlt.le
  rcases Nat.lt_or_eq_of_le hle with hrow | hrow
  · exact .inl hrow
  · refine .inr ⟨hrow, ?_⟩
    have hk := Nat.div_add_mod k cols
    have hl := Nat.div_add_mod l cols
    rw [hrow] at hk
    dsimp only
    omega

private theorem foldl_filterMap_range (n : Nat) (f : Nat → Option Entering)
    (step : Option Entering → Nat → Option Entering)
    (hstep : ∀ best k, step best k = match f k with
      | some e => consider best e
      | none => best) :
    (List.range n).foldl step none = ((List.range n).filterMap f).foldl consider none := by
  rw [List.foldl_filterMap]
  congr 1
  funext best k
  rw [hstep]
  cases f k <;> rfl

private theorem choose_eq {cols : Nat} (hcols : 0 < cols) (cost : Nat → Option Int)
    (firstRow n : Nat) :
    choose cols firstRow ((List.range n).map fun k => cost (firstRow * cols + k)) =
      ((List.range n).filterMap fun k => candidate cols cost (firstRow * cols + k)).foldl
        consider none := by
  have hzip : ((List.range n).map fun k => cost (firstRow * cols + k)).zipIdx =
      (List.range n).map fun k => (cost (firstRow * cols + k), k) := by
    apply List.ext_getElem
    · simp
    · intro k hk hk'
      simp
  rw [choose, hzip, List.foldl_map]
  apply foldl_filterMap_range
  intro best k
  have hrow : (firstRow * cols + k) / cols = firstRow + k / cols := by
    rw [Nat.mul_comm, Nat.mul_add_div hcols]
  have hcol : (firstRow * cols + k) % cols = k % cols := by
    rw [Nat.mul_comm, Nat.mul_add_mod]
  rw [candidate, hrow, hcol]
  cases cost (firstRow * cols + k) <;> rfl

theorem chosen_choose {cols : Nat} (hcols : 0 < cols) (cost : Nat → Option Int)
    (firstRow n : Nat) :
    Chosen ((List.range n).filterMap fun k => candidate cols cost (firstRow * cols + k))
      (choose cols firstRow ((List.range n).map fun k => cost (firstRow * cols + k))) := by
  have hsorted : ((List.range n).filterMap fun k =>
      candidate cols cost (firstRow * cols + k)).Pairwise Earlier := by
    refine List.Pairwise.filterMap _ ?_ List.pairwise_lt_range
    intro k l hlt a ha b hb
    obtain ⟨x, -, rfl⟩ := Option.map_eq_some_iff.mp ha
    obtain ⟨y, -, rfl⟩ := Option.map_eq_some_iff.mp hb
    exact earlier_of_lt (by omega)
  rw [choose_eq hcols]
  exact chosen_foldl_consider _ hsorted

end Entering

end Transportation
