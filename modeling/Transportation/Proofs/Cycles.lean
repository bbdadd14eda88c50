import Transportation.Proofs.Reachable
/-!
# Cycles on forests

On a basis without cycles the search for a cycle succeeds exactly for a vacant cell whose row and
column the basis connects. What it returns is the only cycle through that cell: its places
alternately share a row and a column, its signs alternate, and each row or column that it meets has
one plus cell and one minus cell.
-/
namespace Transportation

def Link.touches (l : Link) : Node → Bool
  | .source row => l.row == row
  | .sink col => l.col == col

/-- A cycle that a cell closes with basic cells: from that cell on each place shares by turns its
row or its column with the next, and the last one with the first. -/
structure Grid.CycleAt (g : Grid) (e : Nat × Nat) (places : List (Nat × Nat)) : Prop where
  start : places[0]? = some e
  four_le : 4 ≤ places.length
  even : places.length % 2 = 0
  nodup : places.Nodup
  basic : ∀ c ∈ places.tail, c ∈ g.basis
  shared_row : ∀ k c d, k % 2 = 0 → places[k]? = some c →
    places[(k + 1) % places.length]? = some d → c.1 = d.1
  shared_col : ∀ k c d, k % 2 = 1 → places[k]? = some c →
    places[(k + 1) % places.length]? = some d → c.2 = d.2

/-- A chain that follows the only cycle of a cell, with the costs and amounts of its places and
with alternating signs. -/
structure Chain.IsCycle (chain : Chain) (p : Problem) (g : Grid) (e : Nat × Nat) : Prop where
  cycle : g.CycleAt e (chain.links.map Link.place)
  unique : ∀ places, g.CycleAt e places → places = chain.links.map Link.place
  recorded : ∀ l ∈ chain.links, l.cost = p.costAt l.row l.col ∧ l.amount = g.amount l.row l.col
  sign : ∀ k l, chain.links[k]? = some l → (l.sign = .plus ↔ k % 2 = 0)
  balanced : ∀ n, (∃ l ∈ chain.links, l.touches n = true) → ∀ sign,
    chain.links.countP (fun l => l.touches n && l.sign == sign) = 1

namespace Grid

section CycleAt

variable {g : Grid} {e : Nat × Nat} {cs places : List (Nat × Nat)}

theorem Circuit.cycleAt (h : g.Circuit e cs) : g.CycleAt e (e :: cs) := by
  obtain ⟨f, hstart, hend, hjoin⟩ := trail_iff_exists_nodes.mp h.closed
  have hsign : ∀ k, k ≤ (e :: cs).length → (f k).sign = if k % 2 = 0 then .plus else .minus := by
    intro k hk
    have hkind := sign_of_joins hjoin hk
    rwa [hstart] at hkind
  have hround : ∀ k c d, (e :: cs)[k]? = some c →
      (e :: cs)[(k + 1) % (e :: cs).length]? = some d →
      Joins c (f k) (f (k + 1)) ∧ ∃ far, Joins d (f (k + 1)) far := by
    intro k c d hc hd
    refine ⟨hjoin k c hc, ?_⟩
    have hk := (List.getElem?_eq_some_iff.mp hc).1
    have hnext : f ((k + 1) % (e :: cs).length) = f (k + 1) := by
      rcases Nat.lt_or_ge (k + 1) (e :: cs).length with hlt | hge
      · rw [Nat.mod_eq_of_lt hlt]
      · rw [show k + 1 = (e :: cs).length by omega, Nat.mod_self, hstart, hend]
    exact hnext ▸ ⟨_, hjoin _ d hd⟩
  exact {
    start := rfl
    four_le := by
      have hthree := CycleSearch.three_le_length h.trail (List.nodup_cons.mp h.nodup).1
      rw [List.length_cons]
      omega
    even := by
      have hkind := hsign _ le_rfl
      rw [hend] at hkind
      by_contra hodd
      rw [if_neg hodd] at hkind
      contradiction
    nodup := h.nodup
    basic := h.basic
    shared_row := by
      intro k c d hk hc hd
      obtain ⟨hjoins, far, hnext⟩ := hround k c d hc hd
      have hkind := hsign k (List.getElem?_eq_some_iff.mp hc).1.le
      rw [if_pos hk] at hkind
      have hnode := (hjoins.of_plus hkind).2
      have hnode' := (hnext.of_minus (by rw [hnode]; rfl)).1
      exact Node.source.inj (hnode.symm.trans hnode')
    shared_col := by
      intro k c d hk hc hd
      obtain ⟨hjoins, far, hnext⟩ := hround k c d hc hd
      have hkind := hsign k (List.getElem?_eq_some_iff.mp hc).1.le
      rw [if_neg (by omega)] at hkind
      have hnode := (hjoins.of_minus hkind).2
      have hnode' := (hnext.of_plus (by rw [hnode]; rfl)).1
      exact Node.sink.inj (hnode.symm.trans hnode') }

def nodeBefore (places : List (Nat × Nat)) (k : Nat) : Node :=
  if k % 2 = 0 then .sink (places.getD (k % places.length) (0, 0)).2
  else .source (places.getD (k % places.length) (0, 0)).1

theorem CycleAt.joins (h : g.CycleAt e places) {c : Nat × Nat} {k : Nat}
    (hc : places[k]? = some c) : Joins c (nodeBefore places k) (nodeBefore places (k + 1)) := by
  have hk := (List.getElem?_eq_some_iff.mp hc).1
  have hget : places.getD (k % places.length) (0, 0) = c := by
    rw [Nat.mod_eq_of_lt hk, List.getD_eq_getElem?_getD, hc]
    rfl
  obtain ⟨d, hd⟩ : ∃ d, places[(k + 1) % places.length]? = some d :=
    ⟨_, List.getElem?_eq_getElem (Nat.mod_lt _ (by omega))⟩
  have hnext : places.getD ((k + 1) % places.length) (0, 0) = d := by
    rw [List.getD_eq_getElem?_getD, hd]
    rfl
  rw [nodeBefore, nodeBefore, hget, hnext]
  rcases Nat.mod_two_eq_zero_or_one k with heven | hodd
  · rw [if_pos heven, if_neg (by omega), ← h.shared_row k c d heven hc hd]
    exact .inr ⟨rfl, rfl⟩
  · rw [if_neg (by omega), if_pos (by omega), ← h.shared_col k c d hodd hc hd]
    exact .inl ⟨rfl, rfl⟩

theorem CycleAt.exists_circuit (h : g.CycleAt e places) :
    ∃ cs, places = e :: cs ∧ g.Circuit e cs := by
  obtain ⟨cs, rfl⟩ : ∃ cs, places = e :: cs := by
    have hstart := h.start
    cases places with
    | nil => simp at hstart
    | cons c cs => exact ⟨cs, by simpa using hstart⟩
  have hclosed : Trail (.sink e.2) (e :: cs) (.sink e.2) := by
    refine trail_iff_exists_nodes.mpr ⟨nodeBefore (e :: cs), rfl, ?_, fun k c hc => h.joins hc⟩
    rw [nodeBefore, if_pos h.even, Nat.mod_self]
    rfl
  obtain ⟨m, hm, hrest⟩ := hclosed
  obtain rfl := hm.unique (.inr ⟨rfl, rfl⟩)
  exact ⟨cs, rfl, hrest, h.nodup, h.basic⟩

/-- A forest has room for one cycle of a cell. -/
theorem Circuit.unique {cs' : List (Nat × Nat)} (h : g.Circuit e cs) (h' : g.Circuit e cs')
    (hforest : Forest g.basis) : cs = cs' :=
  hforest.trail_unique h.trail h'.trail h.nodup_cells h'.nodup_cells h.basic h'.basic

theorem Circuit.not_mem_basis (h : g.Circuit e cs) (hforest : Forest g.basis) : e ∉ g.basis :=
  fun hbasic => hforest.trail_ne h.closed h.nodup
    (List.forall_mem_cons.mpr ⟨hbasic, h.basic⟩) rfl

end CycleAt

section Lines

variable {p : Problem} {g : Grid} {e : Nat × Nat} {cs : List (Nat × Nat)}

theorem pairwise_chainOf (path : List (Nat × Nat)) :
    (CycleSearch.chainOf p g path).links.Pairwise fun a b =>
      a.sign = .plus → b.sign = .plus → a.row ≠ b.row ∧ a.col ≠ b.col := by
  induction path using List.reverseRecOn with
  | nil => exact .nil
  | append_singleton path c ih =>
      rw [CycleSearch.chainOf_concat, Chain.push]
      refine List.pairwise_append.mpr ⟨ih, List.pairwise_singleton _ _, fun a ha b hb => ?_⟩
      obtain rfl := List.mem_singleton.mp hb
      intro hplus hfree
      by_contra hshared
      dsimp only at hfree
      rw [Chain.signFor, if_pos] at hfree
      · contradiction
      · refine List.any_eq_true.mpr ⟨a, ha, ?_⟩
        rw [hplus]
        simp only [beq_self_eq_true, Bool.true_and, Bool.or_eq_true, beq_iff_eq]
        tauto

private theorem countP_le_one {α : Type} {q : α → Bool} {xs : List α}
    (h : xs.Pairwise fun a b => ¬ (q a = true ∧ q b = true)) : xs.countP q ≤ 1 := by
  induction xs with
  | nil => simp
  | cons x xs ih =>
      obtain ⟨hx, hrest⟩ := List.pairwise_cons.mp h
      rw [List.countP_cons]
      by_cases hq : q x = true
      · have hnone : xs.countP q = 0 :=
          List.countP_eq_zero.mpr fun y hy hqy => hx y hy ⟨hq, hqy⟩
        rw [hnone, if_pos hq]
      · rw [if_neg hq]
        exact ih hrest

private theorem sum_factor (links : List Link) (q : Link → Bool) :
    (links.map fun l => l.sign.factor * if q l = true then 1 else 0).sum =
      (links.countP (fun l => q l && l.sign == .plus) : Int) -
        links.countP (fun l => q l && l.sign == .minus) := by
  induction links with
  | nil => rfl
  | cons l links ih =>
      rw [List.map_cons, List.sum_cons, ih, List.countP_cons, List.countP_cons]
      cases hsign : l.sign <;> cases hq : q l <;> simp [Sign.factor] <;> omega

private def lineValue (n : Node) : Node → Int := fun x => if x = n then 1 else 0

private theorem lineValue_add (l : Link) (n : Node) :
    lineValue n (.source l.row) + lineValue n (.sink l.col) =
      if l.touches n = true then 1 else 0 := by
  cases n <;> simp [lineValue, Link.touches]

theorem Circuit.countP_eq_one (h : g.Circuit e cs) (hforest : Forest g.basis) (n : Node)
    (hmeets : ∃ l ∈ (g.around p e cs).links, l.touches n = true) (sign : Sign) :
    (g.around p e cs).links.countP (fun l => l.touches n && l.sign == sign) = 1 := by
  have hsum := h.sum_around (p := p) (lineValue n)
  simp only [lineValue_add] at hsum
  rw [sum_factor] at hsum
  have hplus : (g.around p e cs).links.countP (fun l => l.touches n && l.sign == .plus) ≤ 1 := by
    apply countP_le_one
    rw [Grid.around, ← h.links_chainOf hforest cs [] (by simp)]
    refine (pairwise_chainOf (e :: cs)).imp fun hapart htouch => ?_
    simp only [Bool.and_eq_true, beq_iff_eq] at htouch
    obtain ⟨⟨ha, haplus⟩, hb, hbplus⟩ := htouch
    obtain ⟨hrow, hcol⟩ := hapart haplus hbplus
    cases n with
    | source i => exact hrow ((beq_iff_eq.mp ha).trans (beq_iff_eq.mp hb).symm)
    | sink j => exact hcol ((beq_iff_eq.mp ha).trans (beq_iff_eq.mp hb).symm)
  obtain ⟨l, hl, htouches⟩ := hmeets
  have hpos : 0 < (g.around p e cs).links.countP (fun m => m.touches n && m.sign == l.sign) :=
    List.countP_pos_iff.mpr ⟨l, hl, by simp [htouches]⟩
  cases hsign : l.sign <;> cases sign <;> rw [hsign] at hpos <;> omega

end Lines

end Grid

namespace Chain

section Exact

variable {p : Problem} {g : Grid} {e : Nat × Nat} {cs : List (Nat × Nat)} {row col : Nat}

theorem isCycle_around (h : g.Circuit e cs) (hforest : Forest g.basis) :
    (g.around p e cs).IsCycle p g e where
  cycle := by
    rw [Grid.map_place_around]
    exact h.cycleAt
  unique places hplaces := by
    obtain ⟨cs', rfl, h'⟩ := hplaces.exists_circuit
    rw [Grid.map_place_around, h.unique h' hforest]
  recorded l hl := by
    obtain ⟨-, heq⟩ := mem_signed _ hl
    rw [heq]
    exact ⟨rfl, rfl⟩
  sign k l hl := by
    rw [sign_signed hl]
    split <;> simp_all [Sign.flip]
  balanced n := h.countP_eq_one hforest n

/-- On a basis without cycles the search finds the cycle of a vacant cell whose row and column are
connected, and reports for every other cell that there is none. -/
theorem cycle_exact {costs : List (List Int)} {supply demand : List Int}
    (hp : Problem.ofTable costs supply demand = .ok p) (hfit : g.Fits p) (hreg : g.Regular)
    (hacyclic : g.graph.IsAcyclic) (hrow : row < g.rows) (hcol : col < g.cols) :
    ((∃ chain, cycle p g row col = .ok chain) ↔ (g.cell row col).isBasic = false ∧
      g.graph.Reachable (.inl ⟨row, hrow⟩) (.inr ⟨col, hcol⟩)) ∧
    (¬ ((g.cell row col).isBasic = false ∧
      g.graph.Reachable (.inl ⟨row, hrow⟩) (.inr ⟨col, hcol⟩)) →
        cycle p g row col = .error (.cycleNotFound row col)) ∧
    ∀ chain, cycle p g row col = .ok chain → chain.IsCycle p g (row, col) := by
  have hforest : Forest g.basis := forest_of_isAcyclic g.basis_subset hacyclic
  have hreach := reachable_cellGraph_iff g.basis_subset
    (x := .inl ⟨row, hrow⟩) (y := .inr ⟨col, hcol⟩)
  have hvacant : (g.cell row col).isBasic = false ↔ (row, col) ∉ g.basis := by
    simp [Grid.mem_basis, hrow, hcol]
  rcases cycle_cases (e := (row, col)) (Problem.sound_of_ofTable hp) hfit hreg hforest
    ⟨hfit.1 ▸ hrow, hfit.2 ▸ hcol⟩ with ⟨cs, hcircuit, hcycle⟩ | ⟨hcycle, S, hS, hsource, hsink⟩
  · have hconnected := hreach.mpr fun S hS =>
      (hS.iff_of_trail hcircuit.trail hcircuit.basic).mp
    have hcloses := And.intro (hvacant.mpr (hcircuit.not_mem_basis hforest)) hconnected
    rw [hcycle]
    refine ⟨⟨fun _ => hcloses, fun _ => ⟨_, rfl⟩⟩, fun hnot => absurd hcloses hnot, ?_⟩
    rintro chain ⟨⟩
    exact isCycle_around hcircuit hforest
  · have hapart : ¬ ((g.cell row col).isBasic = false ∧
        g.graph.Reachable (.inl ⟨row, hrow⟩) (.inr ⟨col, hcol⟩)) := by
      intro ⟨hbasic, hconnected⟩
      rw [Finset.erase_eq_of_notMem (hvacant.mp hbasic)] at hS
      exact hsink (hreach.mp hconnected S hS hsource)
    rw [hcycle]
    exact ⟨⟨by simp, fun h => absurd h hapart⟩, fun _ => rfl, by simp⟩

theorem cycle_exact_crossed : crossedStart.grid.graph.IsAcyclic ∧
    ∃ chain, cycle crossed crossedStart.grid 0 1 = .ok chain ∧
      chain.links.map Link.place = [(0, 1), (0, 0), (1, 0), (1, 1)] ∧
      chain.IsCycle crossed crossedStart.grid (0, 1) := by
  have hrow : 0 < crossedStart.grid.rows := by decide
  have hcol : 1 < crossedStart.grid.cols := by decide
  have hexact := cycle_exact ofTable_crossed ⟨rfl, rfl⟩ ⟨rfl, rfl⟩
    basicPlan_crossed.tree.isAcyclic hrow hcol
  exact ⟨basicPlan_crossed.tree.isAcyclic, _, rfl, rfl, hexact.2.2 _ rfl⟩

end Exact

end Chain

end Transportation
