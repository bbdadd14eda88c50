import Transportation.Proofs.CycleSearch
/-!
# The circuit of a cell

On a forest a closed chain is the cycle that the entering cell closes, and the signs alternate along
it. So a search finds the cycle of a vacant cell if the basis connects its row and its column.
-/
namespace Transportation

/-- The basic cells that close a cycle with a cell, from its row on. -/
structure Grid.Circuit (g : Grid) (e : Nat × Nat) (cs : List (Nat × Nat)) : Prop where
  trail : Trail (.source e.1) cs (.sink e.2)
  nodup : (e :: cs).Nodup
  basic : ∀ c ∈ cs, c ∈ g.basis

/-- The chain around the circuit of a cell. -/
def Grid.around (p : Problem) (g : Grid) (e : Nat × Nat) (cs : List (Nat × Nat)) : Chain :=
  ⟨g.signed p .plus (e :: cs)⟩

namespace CycleSearch

section Forest

variable {p : Problem} {g : Grid} {e : Nat × Nat} {s : CycleSearch} {cs done : List (Nat × Nat)}
  {tip : Node}

private theorem ne_of_sublist (hforest : Forest g.basis) (hnodup : cs.Nodup)
    (hbasic : ∀ c ∈ cs, c ∈ g.basis) {xs : List (Nat × Nat)} (hsub : xs.Sublist cs)
    (hne : xs ≠ []) {a b : Node} (h : Trail a xs b) : a ≠ b := by
  obtain ⟨x, xs, rfl⟩ := List.exists_cons_of_ne_nil hne
  exact hforest.trail_ne h (hnodup.sublist hsub) fun c hc => hbasic c (hsub.subset hc)

private theorem Reached.target_of_isClosed (h : Reached p g e s cs done tip)
    (hforest : Forest g.basis) (hclosed : s.chain.isClosed = true) : tip = .sink e.2 := by
  have hnodup := (List.nodup_append.mp (List.nodup_cons.mp h.nodup).2).1
  have hbasic : ∀ c ∈ cs, c ∈ g.basis := fun c hc => h.basic c (List.mem_append_left _ hc)
  obtain ⟨c, hlast, heq⟩ := h.exists_isClosed_eq
  obtain ⟨⟨hlength, hends⟩, -⟩ : (3 ≤ cs.length ∧ (e.1 = c.1 ∨ e.2 = c.2)) ∧ _ := by
    simpa [hclosed] using heq.symm.trans hclosed
  obtain ⟨init, d, rfl⟩ := (List.eq_nil_or_concat cs).resolve_left (by
    rintro rfl
    simp at hlength)
  rw [List.concat_eq_append] at *
  obtain rfl : c = d := by
    rw [← List.cons_append, List.getLast?_concat] at hlast
    exact (Option.some.inj hlast).symm
  have hinit : init ≠ [] := by
    rintro rfl
    simp at hlength
  obtain ⟨m, htrail, hjoin⟩ := trail_concat.mp h.trail
  rcases hends with hrow | hcol
  · exfalso
    rcases hjoin with ⟨rfl, -⟩ | ⟨-, rfl⟩
    · exact ne_of_sublist hforest hnodup hbasic (List.sublist_append_left _ _) hinit htrail
        (by rw [hrow])
    · exact ne_of_sublist hforest hnodup hbasic (List.Sublist.refl _) (by simp) h.trail
        (by rw [hrow])
  · exact h.target c (by simp) (.source c.1) (.inr ⟨by rw [hcol], rfl⟩)

end Forest

end CycleSearch

namespace Grid

section Circuit

variable {p : Problem} {g : Grid} {e : Nat × Nat} {cs : List (Nat × Nat)}

theorem Circuit.nodup_cells (h : g.Circuit e cs) : cs.Nodup := (List.nodup_cons.mp h.nodup).2

theorem Circuit.closed (h : g.Circuit e cs) : Trail (.sink e.2) (e :: cs) (.sink e.2) :=
  ⟨.source e.1, .inr ⟨rfl, rfl⟩, h.trail⟩

private theorem exists_plus_of_source {xs : List (Nat × Nat)} {i : Nat}
    (h : Trail (.sink e.2) (e :: xs) (.source i)) :
    ∃ l ∈ g.signed p .plus (e :: xs), l.sign = .plus ∧ l.row = i := by
  obtain ⟨init, d, hinit⟩ := (List.eq_nil_or_concat (e :: xs)).resolve_left (by simp)
  rw [List.concat_eq_append] at hinit
  rw [hinit] at h ⊢
  obtain ⟨m, htrail, hjoin⟩ := trail_concat.mp h
  have hconcat := signed_concat (p := p) (g := g) (c := d) htrail
  rcases hjoin with ⟨-, hd⟩ | ⟨rfl, hd⟩
  · contradiction
  · refine ⟨g.link p .plus d, ?_, rfl, (Node.source.inj hd).symm⟩
    change _ ∈ g.signed p (Node.sink e.2).sign (init ++ [d])
    rw [hconcat]
    exact List.mem_append_right _ (List.mem_singleton.mpr rfl)

private theorem Circuit.not_plus_of_sink (h : g.Circuit e cs) (hforest : Forest g.basis)
    {xs ys : List (Nat × Nat)} {c : Nat × Nat} (hcs : cs = xs ++ c :: ys)
    (htrail : Trail (.source e.1) xs (.sink c.2)) {l : Link}
    (hl : l ∈ g.signed p .plus (e :: xs)) (hplus : l.sign = .plus) : l.row ≠ c.1 ∧ l.col ≠ c.2 := by
  have hne : ∀ {zs : List (Nat × Nat)} {a b : Node}, zs.Sublist cs → zs ≠ [] → Trail a zs b →
      a ≠ b := fun hsub hnil htr =>
    CycleSearch.ne_of_sublist hforest h.nodup_cells h.basic hsub hnil htr
  have hwhole : Trail (.sink e.2) (e :: xs) (.sink c.2) := ⟨.source e.1, .inr ⟨rfl, rfl⟩, htrail⟩
  obtain ⟨before, after, hsplit, hbefore, hafter⟩ := hwhole.split_plus hl hplus
  have htail : after.Sublist xs := by
    cases before with
    | nil =>
        rw [(List.cons.inj hsplit).2]
    | cons b before =>
        rw [(List.cons.inj hsplit).2]
        exact (List.sublist_cons_self _ _).trans (List.sublist_append_right _ _)
  constructor
  · intro hrow
    have hround : Trail (.source l.row) (after ++ [c]) (.source c.1) :=
      trail_concat.mpr ⟨.sink c.2, hafter, .inr ⟨rfl, rfl⟩⟩
    refine hne ?_ (by simp) hround (by rw [hrow])
    rw [hcs]
    exact htail.append (List.cons_sublist_cons.mpr (List.nil_sublist ys))
  · intro hcol
    cases before with
    | nil =>
        have hcolumn : Node.sink e.2 = .sink c.2 := by rw [← hcol]; exact hbefore
        have hend := h.trail
        rw [hcs] at hend
        obtain ⟨m, hm, hrest⟩ := trail_append.mp hend
        obtain rfl := htrail.unique hm
        exact hne (by rw [hcs]; exact List.sublist_append_right _ _) (by simp) hrest
          hcolumn.symm
    | cons b before =>
        have hround : Trail (.sink l.col) (l.place :: after) (.sink c.2) :=
          ⟨.source l.row, .inr ⟨rfl, rfl⟩, hafter⟩
        refine hne ?_ (by simp) hround (by rw [hcol])
        rw [hcs, (List.cons.inj hsplit).2]
        exact (List.sublist_append_right _ _).trans (List.sublist_append_left _ _)

/-- On a forest the signs along a circuit alternate. -/
theorem Circuit.links_chainOf (h : g.Circuit e cs) (hforest : Forest g.basis)
    (xs ys : List (Nat × Nat)) (hcs : cs = xs ++ ys) :
    (CycleSearch.chainOf p g (e :: xs)).links = g.signed p .plus (e :: xs) := by
  induction xs using List.reverseRecOn generalizing ys with
  | nil => rfl
  | append_singleton xs c ih =>
      have hcs' : cs = xs ++ c :: ys := by simpa using hcs
      have hlinks := ih (c :: ys) hcs'
      have hend := h.trail
      rw [hcs'] at hend
      obtain ⟨m, hm, k, hjoin, -⟩ := trail_append.mp hend
      have hwhole : Trail (.sink e.2) (e :: xs) m := ⟨.source e.1, .inr ⟨rfl, rfl⟩, hm⟩
      have hsigned := signed_concat (p := p) (g := g) (c := c) hwhole
      have hsign : (CycleSearch.chainOf p g (e :: xs)).signFor c.1 c.2 = m.sign := by
        rw [Chain.signFor, hlinks]
        rcases hjoin with ⟨rfl, -⟩ | ⟨rfl, -⟩
        · obtain ⟨l, hl, hplus, hrow⟩ := exists_plus_of_source (p := p) (g := g) hwhole
          rw [if_pos (List.any_eq_true.mpr ⟨l, hl, by simp [hplus, hrow]⟩)]
          rfl
        · rw [if_neg]
          · rfl
          · rw [List.any_eq_true]
            rintro ⟨l, hl, hany⟩
            simp only [Bool.and_eq_true, beq_iff_eq, Bool.or_eq_true] at hany
            obtain ⟨hrow, hcol⟩ := h.not_plus_of_sink hforest hcs' hm hl hany.1
            exact hany.2.elim hrow hcol
      rw [← List.cons_append, CycleSearch.chainOf_concat, Chain.push, hsign, hlinks]
      exact hsigned.symm

end Circuit

end Grid

namespace Chain

section Cycle

variable {p : Problem} {g : Grid} {e : Nat × Nat}

/-- On a forest the search finds the circuit of a vacant cell, or its row and its column are not
connected. -/
theorem cycle_cases (hp : p.Sound) (hfit : g.Fits p) (hreg : g.Regular) (hforest : Forest g.basis)
    (he : e.1 < p.rows ∧ e.2 < p.cols) :
    (∃ cs, g.Circuit e cs ∧ cycle p g e.1 e.2 = .ok (g.around p e cs)) ∨
    (cycle p g e.1 e.2 = .error (.cycleNotFound e.1 e.2) ∧
      ∃ S, Respects (g.basis.erase e) S ∧ S (.source e.1) ∧ ¬ S (.sink e.2)) := by
  rw [cycle, Grid.requireFit_eq_ok_iff.mpr hfit, ok_bind,
    CycleSearch.start_eq_ok hp hfit hreg he, ok_bind]
  rcases (CycleSearch.reached_start (p := p) (g := g) e).run_eq hp hfit hreg he
    (.cycleNotFound e.1 e.2) (CycleSearch.budget g) (by simp [CycleSearch.budget]) with
    ⟨s, cs, done, tip, hs, h, hclosed⟩ | hcut
  · obtain rfl := h.target_of_isClosed hforest hclosed
    have hcircuit : g.Circuit e cs := {
      trail := h.trail
      nodup := by
        have hnodup := h.nodup
        rw [← List.cons_append] at hnodup
        exact (List.nodup_append.mp hnodup).1
      basic := fun c hc => h.basic c (List.mem_append_left _ hc) }
    refine .inl ⟨cs, hcircuit, ?_⟩
    rw [hs, h.chain, Grid.around, ← hcircuit.links_chainOf hforest cs [] (by simp)]
  · exact .inr hcut

theorem cycle_eq_ok (hp : p.Sound) (hg : g.BasicPlan p) (he : e.1 < p.rows ∧ e.2 < p.cols)
    (hvacant : e ∉ g.basis) :
    ∃ cs, g.Circuit e cs ∧ cycle p g e.1 e.2 = .ok (g.around p e cs) := by
  rcases cycle_cases hp hg.fits hg.regular hg.forest he with hfound | ⟨-, S, hS, hrow, hcol⟩
  · exact hfound
  · rw [Finset.erase_eq_of_notMem hvacant] at hS
    exact absurd (hg.spans hp S hS (.source e.1) (.sink e.2) he.1 he.2 hrow) hcol

end Cycle

end Chain

end Transportation
