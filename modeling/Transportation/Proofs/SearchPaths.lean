import Transportation.Proofs.CycleSearch
/-!
# The paths of a search

On any grid, a tree or not, the path of a search never meets a cell twice: the search goes to cells
it has not left, and has left all cells of its path but the last. So all cells of a chain are
different, whatever grid the chain was built for.
-/
namespace Transportation

namespace CycleSearch

section Paths

variable {p : Problem} {g : Grid} {s s' : CycleSearch} {chain chain' : Chain} {row col : Nat}
  {c : Nat × Nat}

theorem places_of_extend (h : extend p g chain row col = .ok chain') :
    chain'.links.map Link.place = chain.links.map Link.place ++ [(row, col)] := by
  obtain ⟨cost, -, h⟩ := bind_eq_ok_iff.mp h
  obtain ⟨cell, -, h⟩ := bind_eq_ok_iff.mp h
  cases h
  rw [Chain.push, List.map_append]
  rfl

private theorem not_mem_of_enterable {k : Nat} (h : enterable g s k row col = .ok true) :
    k ∉ s.left := by
  intro hleft
  rw [enterable, if_pos hleft] at h
  contradiction

theorem not_mem_of_next? (h : s.next? p g row col = .ok (some c)) : position p c ∉ s.left := by
  rw [next?] at h
  split at h
  · obtain ⟨rows, hrows, h⟩ := bind_eq_ok_iff.mp h
    obtain ⟨i, hi, rfl⟩ := Option.map_eq_some_iff.mp (Except.ok.inj h)
    exact not_mem_of_enterable (of_mem_filterM hrows (mem_of_closest hi))
  · obtain ⟨cols, hcols, h⟩ := bind_eq_ok_iff.mp h
    obtain ⟨j, hj, rfl⟩ := Option.map_eq_some_iff.mp (Except.ok.inj h)
    exact not_mem_of_enterable (of_mem_filterM hcols (mem_of_closest hj))

/-- A search whose path has no cell twice and is listed by its chain. -/
structure Simple (p : Problem) (s : CycleSearch) : Prop where
  places : s.chain.links.map Link.place = s.path
  nodup : (s.path.map (position p)).Nodup
  left_of_mem : ∀ c ∈ s.path.dropLast, position p c ∈ s.left

theorem simple_of_start (h : start p g row col = .ok s) : s.Simple p := by
  obtain ⟨chain, hchain, h⟩ := bind_eq_ok_iff.mp h
  cases h
  exact ⟨places_of_extend hchain, List.nodup_singleton _, by simp⟩

private theorem Simple.forward (h : s.Simple p) {left : List Nat} {along : Bool}
    (hleft : ∀ d ∈ s.path, position p d ∈ left) (hnew : position p c ∉ left)
    (hchain : extend p g s.chain c.1 c.2 = .ok chain) :
    Simple p ⟨s.path ++ [c], chain, left, along⟩ where
  places := by rw [places_of_extend hchain, h.places]
  nodup := by
    rw [List.map_append, List.map_singleton, List.nodup_append_comm, List.singleton_append]
    refine List.nodup_cons.mpr ⟨fun hmem => ?_, h.nodup⟩
    obtain ⟨d, hd, heq⟩ := List.mem_map.mp hmem
    exact hnew (heq ▸ hleft d hd)
  left_of_mem d hd := by
    rw [List.dropLast_concat] at hd
    exact hleft d hd

private theorem Simple.back (h : s.Simple p) {left : List Nat} {along : Bool}
    (hleft : ∀ d ∈ s.path, position p d ∈ left) :
    Simple p ⟨s.path.dropLast, s.chain.pop, left, along⟩ where
  places := by rw [Chain.pop, List.map_dropLast, h.places]
  nodup := h.nodup.sublist (s.path.dropLast_sublist.map _)
  left_of_mem d hd := hleft d (List.mem_of_mem_dropLast (List.mem_of_mem_dropLast hd))

theorem Simple.advance (h : s.Simple p) (hs : s.advance p g = .ok (some s')) : s'.Simple p := by
  rw [CycleSearch.advance] at hs
  cases hlast : s.path.getLast? with
  | none => simp [hlast] at hs
  | some c =>
      obtain ⟨init, hinit⟩ := List.getLast?_eq_some_iff.mp hlast
      have hleft : ∀ d ∈ s.path, position p d ∈ position p c :: s.left := by
        intro d hd
        rw [hinit] at hd
        rcases List.mem_append.mp hd with hd | hd
        · exact List.mem_cons_of_mem _ (h.left_of_mem d (by rwa [hinit, List.dropLast_concat]))
        · rw [List.mem_singleton.mp hd]
          exact List.mem_cons_self
      rw [hlast] at hs
      obtain ⟨next, hnext, hs⟩ := bind_eq_ok_iff.mp hs
      cases next with
      | some d =>
          obtain ⟨chain, hchain, hs⟩ := bind_eq_ok_iff.mp hs
          cases hs
          exact h.forward hleft (not_mem_of_next? hnext) hchain
      | none =>
          dsimp only at hs
          split at hs
          · cases hs
          · cases hs
            exact h.back hleft

theorem Simple.nodup_of_run (h : s.Simple p) {notFound : Failure} {n : Nat}
    (hrun : run p g notFound n s = .ok chain) : (chain.links.map Link.place).Nodup := by
  have hclosed : ∀ {s : CycleSearch}, s.Simple p → s.chain = chain →
      (chain.links.map Link.place).Nodup := by
    rintro s h rfl
    rw [h.places]
    exact h.nodup.of_map _
  induction n generalizing s with
  | zero =>
      rw [run] at hrun
      split at hrun
      · exact hclosed h (Except.ok.inj hrun)
      · cases hrun
  | succ n ih =>
      rw [run] at hrun
      split at hrun
      · exact hclosed h (Except.ok.inj hrun)
      · obtain ⟨next, hnext, hrun⟩ := bind_eq_ok_iff.mp hrun
        cases next with
        | none => cases hrun
        | some s' => exact ih (h.advance hnext) hrun

end Paths

end CycleSearch

/-- The cells of a chain are different, on whatever grid it was searched. -/
theorem Chain.nodup_of_cycle {p : Problem} {g : Grid} {row col : Nat} {chain : Chain}
    (h : cycle p g row col = .ok chain) : (chain.links.map Link.place).Nodup := by
  obtain ⟨-, -, h⟩ := bind_eq_ok_iff.mp h
  obtain ⟨s, hstart, hrun⟩ := bind_eq_ok_iff.mp h
  exact (CycleSearch.simple_of_start hstart).nodup_of_run hrun

end Transportation
