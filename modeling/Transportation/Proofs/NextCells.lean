import Transportation.Chain.Search
import Transportation.Proofs.Table
import Transportation.Proofs.Trees
/-!
# The next cell of a search

A search looks along the row or the column of the last cell of its path for the closest basic cell
that it has not left. So it goes on to such a cell, and it goes back only if there is none.
-/
namespace Transportation

namespace CycleSearch

def position (p : Problem) (c : Nat × Nat) : Nat := c.1 * p.cols + c.2

section Next

variable {p : Problem} {g : Grid} {s : CycleSearch}

private def closer (origin : Nat) (best : Option Nat) (k : Nat) : Option Nat :=
  match best with
  | none => some k
  | some b => if distance k origin < distance b origin then some k else some b

private theorem foldl_closer_eq_some (origin : Nat) (candidates : List Nat) (b : Nat) :
    ∃ k ∈ b :: candidates, candidates.foldl (closer origin) (some b) = some k := by
  induction candidates generalizing b with
  | nil => exact ⟨b, List.mem_singleton_self b, rfl⟩
  | cons x candidates ih =>
      rw [List.foldl_cons, closer]
      split
      · obtain ⟨k, hk, hfold⟩ := ih x
        exact ⟨k, List.mem_cons_of_mem b hk, hfold⟩
      · obtain ⟨k, hk, hfold⟩ := ih b
        exact ⟨k, (List.cons_sublist_cons.mpr (List.sublist_cons_self x _)).subset hk, hfold⟩

theorem closest_cases (origin : Nat) (candidates : List Nat) :
    candidates = [] ∧ closest origin candidates = none ∨
      ∃ k ∈ candidates, closest origin candidates = some k := by
  cases candidates with
  | nil => exact .inl ⟨rfl, rfl⟩
  | cons x candidates => exact .inr (foldl_closer_eq_some origin candidates x)

theorem mem_of_closest {origin k : Nat} {candidates : List Nat}
    (h : closest origin candidates = some k) : k ∈ candidates := by
  rcases closest_cases origin candidates with ⟨-, hnone⟩ | ⟨l, hl, hsome⟩
  · cases h.symm.trans hnone
  · cases h.symm.trans hsome
    exact hl

private theorem eq_nil_of_closest {origin : Nat} {candidates : List Nat}
    (h : closest origin candidates = none) : candidates = [] := by
  rcases closest_cases origin candidates with ⟨hnil, -⟩ | ⟨l, -, hsome⟩
  · exact hnil
  · cases h.symm.trans hsome

private theorem enterable_eq_ok (hfit : g.Fits p) (hreg : g.Regular) {i j : Nat}
    (hi : i < p.rows) (hj : j < p.cols) :
    enterable g s (i * p.cols + j) i j =
      .ok (decide (position p (i, j) ∉ s.left ∧ (i, j) ∈ g.basis)) := by
  have hi' : i < g.rows := hfit.1.symm ▸ hi
  have hj' : j < g.cols := hfit.2.symm ▸ hj
  rw [enterable]
  split
  · next hleft => simp [position, hleft]
  · next hleft =>
      rw [hreg.isBasic_eq_ok hi' hj']
      simp [position, hleft, Grid.mem_basis, hi', hj']

private theorem candidates_eq_ok (hfit : g.Fits p) (hreg : g.Regular) (n self : Nat)
    (place : Nat → Nat × Nat) (hplace : ∀ k, k < n → (place k).1 < p.rows ∧ (place k).2 < p.cols)
    (hself : position p (place self) ∈ s.left) :
    ∃ ks, ((List.range n).filter (· != self)).filterM (fun k =>
        enterable g s ((place k).1 * p.cols + (place k).2) (place k).1 (place k).2) = .ok ks ∧
      (closest self ks = none → ∀ k, k < n → place k ∈ g.basis → position p (place k) ∈ s.left) ∧
      ∀ k, closest self ks = some k → place k ∈ g.basis ∧ position p (place k) ∉ s.left := by
  refine ⟨_, filterM_eq_ok_filter _
    (fun k => decide (position p (place k) ∉ s.left ∧ place k ∈ g.basis)) _ ?_, ?_, ?_⟩
  · intro k hk
    obtain ⟨hi, hj⟩ := hplace k (List.mem_range.mp (List.mem_filter.mp hk).1)
    exact enterable_eq_ok hfit hreg hi hj
  · intro hnone k hk hbasic
    have hnil := eq_nil_of_closest hnone
    by_contra hleft
    have hne : k ≠ self := by
      rintro rfl
      exact hleft hself
    have hmem : k ∈ ((List.range n).filter (· != self)).filter fun k =>
        decide (position p (place k) ∉ s.left ∧ place k ∈ g.basis) := by
      simp [List.mem_filter, hk, hne, hleft, hbasic]
    rw [hnil] at hmem
    simp at hmem
  · intro k hk
    obtain ⟨hleft, hbasic⟩ := of_decide_eq_true (List.mem_filter.mp (mem_of_closest hk)).2
    exact ⟨hbasic, hleft⟩

/-- The next cell is a basic cell at the node ahead that is not left yet, and there is none only if
all of them are. -/
theorem next?_eq_ok (hfit : g.Fits p) (hreg : g.Regular) {row col : Nat}
    (hrow : row < p.rows) (hcol : col < p.cols) (hself : position p (row, col) ∈ s.left)
    {n : Node} (hn : n = if s.alongColumn then .sink col else .source row) :
    ∃ r, s.next? p g row col = .ok r ∧
      (r = none → ∀ c ∈ g.basis, ∀ far, Joins c n far → position p c ∈ s.left) ∧
      ∀ c, r = some c → c ∈ g.basis ∧ position p c ∉ s.left ∧ ∃ far, Joins c n far := by
  cases halong : s.alongColumn with
  | true =>
      rw [if_pos halong] at hn
      obtain ⟨rows, hrows, hnone, hsome⟩ := candidates_eq_ok hfit hreg p.rows row
        (fun i => (i, col)) (fun i hi => ⟨hi, hcol⟩) hself
      refine ⟨_, by rw [next?, if_pos halong, hrows, ok_bind]; rfl, ?_, ?_⟩
      · intro hmap c hc far hjoin
        obtain ⟨hi, -, -⟩ := Grid.mem_basis.mp hc
        have hcolumn : c = (c.1, col) := by
          rcases hjoin with ⟨h, -⟩ | ⟨h, -⟩ <;> rw [hn] at h <;> cases h
          rfl
        rw [hcolumn] at hc ⊢
        exact hnone (Option.map_eq_none_iff.mp hmap) c.1 (hfit.1 ▸ hi) hc
      · intro c hc
        obtain ⟨i, hi, rfl⟩ := Option.map_eq_some_iff.mp hc
        obtain ⟨hbasic, hleft⟩ := hsome i hi
        exact ⟨hbasic, hleft, .source i, .inr ⟨hn, rfl⟩⟩
  | false =>
      have hfalse : ¬ s.alongColumn = true := by simp [halong]
      rw [if_neg hfalse] at hn
      obtain ⟨cols, hcols, hnone, hsome⟩ := candidates_eq_ok hfit hreg p.cols col
        (fun j => (row, j)) (fun j hj => ⟨hrow, hj⟩) hself
      refine ⟨_, by rw [next?, if_neg hfalse, hcols, ok_bind]; rfl, ?_, ?_⟩
      · intro hmap c hc far hjoin
        obtain ⟨-, hj, -⟩ := Grid.mem_basis.mp hc
        have hline : c = (row, c.2) := by
          rcases hjoin with ⟨h, -⟩ | ⟨h, -⟩ <;> rw [hn] at h <;> cases h
          rfl
        rw [hline] at hc ⊢
        exact hnone (Option.map_eq_none_iff.mp hmap) c.2 (hfit.2 ▸ hj) hc
      · intro c hc
        obtain ⟨j, hj, rfl⟩ := Option.map_eq_some_iff.mp hc
        obtain ⟨hbasic, hleft⟩ := hsome j hj
        exact ⟨hbasic, hleft, .sink j, .inl ⟨hn, rfl⟩⟩

end Next

end CycleSearch

end Transportation
