import Mathlib.Algebra.Ring.Parity
import Transportation.Proofs.CycleSearch
/-!
# The steps of a search

On any grid, connected or not and with cycles or without, a search enters every basic cell at most
once. So it takes at most two steps for each of them and ends before the steps granted are used up,
and more steps would not change what it finds. It goes along a row from every path of odd length,
and along a column from the others.
-/
namespace Transportation

namespace CycleSearch

/-- A step of a search: on to a cell in the row of the last one if the path has odd length, in its
column if not, or back to the cell before. -/
inductive Move (s s' : CycleSearch) : Prop where
  | forward (c d : Nat × Nat) (hlast : s.path.getLast? = some c) (hpath : s'.path = s.path ++ [d])
      (hentered : s.entered s' = [d]) (hrow : d.1 = c.1 ↔ Odd s.path.length)
      (hcol : d.2 = c.2 ↔ Even s.path.length)
  | back (hpath : s'.path = s.path.dropLast) (hentered : s.entered s' = [])

/-- A search for the cell `e` after `n` steps that entered `cells`. Every step turns, so it is along
the row of the last cell if the one before was along a column. -/
structure Orderly (p : Problem) (g : Grid) (e : Nat × Nat) (n : Nat) (cells : List (Nat × Nat))
    (s : CycleSearch) : Prop where
  granted : n + 1 < budget g
  nodup : cells.Nodup
  not_again : e ∉ cells
  basic : ∀ c ∈ cells, c ∈ g.basis
  places : s.chain.links.map Link.place = s.path
  turns : ∀ s', s.advance p g = .ok (some s') → s'.alongColumn = !s.alongColumn
  along_row : s.alongColumn = true ↔ Odd s.path.length
  move : ∀ s', s.chain.isClosed = false → s.advance p g = .ok (some s') → Move s s'

section Steps

variable {p : Problem} {g : Grid} {e : Nat × Nat} {s s' : CycleSearch} {cs done : List (Nat × Nat)}
  {tip : Node}

theorem alongColumn_of_advance (hs : s.advance p g = .ok (some s')) :
    s'.alongColumn = !s.alongColumn := by
  rw [advance] at hs
  cases hlast : s.path.getLast? with
  | none => simp [hlast] at hs
  | some c =>
      rw [hlast] at hs
      obtain ⟨next, -, hs⟩ := bind_eq_ok_iff.mp hs
      cases next with
      | some d =>
          obtain ⟨chain, -, hs⟩ := bind_eq_ok_iff.mp hs
          cases hs
          rfl
      | none =>
          dsimp only at hs
          split at hs
          · cases hs
          · cases hs
            rfl

theorem Reached.along_iff_odd (h : Reached p g e s cs done tip) :
    s.alongColumn = true ↔ Odd s.path.length := by
  obtain ⟨f, hstart, hend, hjoin⟩ := trail_iff_exists_nodes.mp h.trail
  have hsign := sign_of_joins hjoin le_rfl
  rw [hend, hstart] at hsign
  rw [h.along, h.path, List.length_cons, hsign, Nat.odd_iff]
  rcases Nat.mod_two_eq_zero_or_one cs.length with heven | hodd
  · rw [if_pos heven]
    exact iff_of_true rfl (by omega)
  · rw [if_neg (by omega)]
    exact iff_of_false (by simp [Node.sign, Sign.flip]) (by omega)

/-- A cell that the search goes on to shares with the last one just the line that the turn asks
for. -/
private theorem Reached.shares (h : Reached p g e s cs done tip) {c d : Nat × Nat}
    (hlast : s.path.getLast? = some c) {far : Node} (hjoin : Joins d tip far) (hne : d ≠ c) :
    (d.1 = c.1 ↔ Odd s.path.length) ∧ (d.2 = c.2 ↔ Even s.path.length) := by
  obtain ⟨c', -, hlast', -, htip⟩ := h.exists_last
  obtain rfl : c' = c := Option.some.inj (hlast'.symm.trans hlast)
  have hdiffer : ¬ (d.1 = c'.1 ∧ d.2 = c'.2) := fun ⟨hrow, hcol⟩ => hne (Prod.ext hrow hcol)
  cases halong : s.alongColumn with
  | true =>
      have hodd := h.along_iff_odd.mp halong
      rw [halong] at htip
      have hrow : d.1 = c'.1 := by
        rcases hjoin with ⟨hfrom, -⟩ | ⟨hfrom, -⟩
        · exact Node.source.inj (hfrom.symm.trans htip)
        · cases hfrom.symm.trans htip
      exact ⟨iff_of_true hrow hodd,
        iff_of_false (fun hcol => hdiffer ⟨hrow, hcol⟩) (Nat.not_even_iff_odd.mpr hodd)⟩
  | false =>
      have hodd : ¬ Odd s.path.length := fun hodd => by
        simp [h.along_iff_odd.mpr hodd] at halong
      rw [halong] at htip
      have hcol : d.2 = c'.2 := by
        rcases hjoin with ⟨hfrom, -⟩ | ⟨hfrom, -⟩
        · cases hfrom.symm.trans htip
        · exact Node.sink.inj (hfrom.symm.trans htip)
      exact ⟨iff_of_false (fun hrow => hdiffer ⟨hrow, hcol⟩) hodd,
        iff_of_true hcol (Nat.not_odd_iff_even.mp hodd)⟩

section Search

variable {n : Nat} {cells : List (Nat × Nat)} {t : CycleSearch} (hp : p.Sound) (hfit : g.Fits p)
  (hreg : g.Regular) (he : e.1 < p.rows ∧ e.2 < p.cols)

include hp hfit hreg he

private theorem Reached.move (h : Reached p g e s cs done tip) (hopen : s.chain.isClosed = false)
    (hs : s.advance p g = .ok (some s')) : Move s s' := by
  rcases h.advance_cases hp hfit hreg he (h.ne_target hopen) with
    ⟨_, d, far, hs', hjoin, h'⟩ | ⟨_, init, c, m, hs', rfl, h'⟩ | ⟨hs', -⟩
  · cases hs.symm.trans hs'
    have hpath := h.path_concat h'
    obtain ⟨c, hc, hlast, -⟩ := h.exists_last
    have hne : d ≠ c := by
      rintro rfl
      have hnodup := h'.nodup
      rw [← List.cons_append, ← List.cons_append] at hnodup
      exact (List.nodup_append.mp (List.nodup_append.mp hnodup).1).2.2 d hc d
        List.mem_cons_self rfl
    obtain ⟨hrow, hcol⟩ := h.shares hlast hjoin hne
    exact .forward c d hlast hpath (entered_of_concat hpath) hrow hcol
  · cases hs.symm.trans hs'
    have hpath := h.path_dropLast h'
    exact .back hpath (entered_of_dropLast hpath)
  · cases hs.symm.trans hs'

theorem Passes.orderly (hpass : Passes p g ⟨[e], chainOf p g [e], [], true⟩ n cells t) :
    Orderly p g e n cells t := by
  obtain ⟨cs, done, tip, h, -, hperm⟩ := hpass.reached hp hfit hreg he (reached_start e)
  have hle := hpass.le hp hfit hreg he (reached_start e)
  rw [List.nil_append, List.nil_append] at hperm
  obtain ⟨hnew, hnodup⟩ := List.nodup_cons.mp h.nodup
  exact {
    granted := by
      simp only [List.length_nil] at hle
      rw [budget]
      omega
    nodup := hperm.nodup_iff.mp hnodup
    not_again := fun hmem => hnew (hperm.mem_iff.mpr hmem)
    basic := fun c hc => h.basic c (hperm.mem_iff.mpr hc)
    places := by rw [h.chain, map_place_chainOf, h.path]
    turns := fun _ hs => alongColumn_of_advance hs
    along_row := h.along_iff_odd
    move := fun _ hopen hs => h.move hp hfit hreg he hopen hs }

end Search

end Steps

end CycleSearch

namespace Chain

open CycleSearch

/-- The steps granted to the search for a cycle never decide what it finds. In every state it has
entered no basic cell twice, and the entering cell not again. It ends before the last step granted,
with a closed chain, or with an emptied path if the other basic cells do not connect the row and the
column of the cell. More steps would come to the same. -/
theorem cycle_within_budget {costs : List (List Int)} {supply demand : List Int} {p : Problem}
    (hp : Problem.ofTable costs supply demand = .ok p) {g : Grid} (hfit : g.Fits p)
    (hreg : g.Regular) {row col : Nat} (he : row < p.rows ∧ col < p.cols) :
    ∃ s, start p g row col = .ok s ∧
      (∀ n cells t, Passes p g s n cells t → Orderly p g (row, col) n cells t) ∧
      (∃ n cells t, Passes p g s n cells t ∧ n + 1 < budget g ∧
        (t.chain.isClosed = true ∧ cycle p g row col = .ok t.chain ∨
          t.chain.isClosed = false ∧ t.path = [(row, col)] ∧ t.advance p g = .ok none ∧
            cycle p g row col = .error (.cycleNotFound row col) ∧
            ∃ S, Respects (g.basis.erase (row, col)) S ∧ S (.source row) ∧ ¬ S (.sink col))) ∧
      ∀ n, budget g ≤ n → run p g (.cycleNotFound row col) n s = cycle p g row col := by
  have hsound := Problem.sound_of_ofTable hp
  have hstart := start_eq_ok (e := (row, col)) hsound hfit hreg he
  have hcycle : cycle p g row col = run p g (.cycleNotFound row col) (budget g)
      ⟨[(row, col)], chainOf p g [(row, col)], [], true⟩ := by
    rw [cycle, Grid.requireFit_eq_ok_iff.mpr hfit, ok_bind, hstart, ok_bind]
  have horderly : ∀ n cells t,
      Passes p g ⟨[(row, col)], chainOf p g [(row, col)], [], true⟩ n cells t →
        Orderly p g (row, col) n cells t := fun _ _ _ hpass => hpass.orderly hsound hfit hreg he
  obtain ⟨n, cells, t, hpass, hend⟩ := (reached_start (row, col)).ends hsound hfit hreg he
  have hgranted := (horderly n cells t hpass).granted
  have henough : ∀ m, n ≤ m → run p g (.cycleNotFound row col) m
      ⟨[(row, col)], chainOf p g [(row, col)], [], true⟩ =
        run p g (.cycleNotFound row col) 0 t := by
    intro m hm
    obtain ⟨k, rfl⟩ := Nat.exists_eq_add_of_le hm
    rw [hpass.run_eq, hend.run_eq]
  have hfound : cycle p g row col = run p g (.cycleNotFound row col) 0 t :=
    hcycle.trans (henough _ (by omega))
  refine ⟨_, hstart, horderly, ⟨n, cells, t, hpass, hgranted, ?_⟩,
    fun m hm => (henough m (by omega)).trans hfound.symm⟩
  rw [hfound, run]
  cases hend with
  | closed hclosed => exact .inl ⟨hclosed, if_pos hclosed⟩
  | emptied hopen hpath hs hcut =>
      exact .inr ⟨hopen, hpath, hs, if_neg (by simp [hopen]), hcut⟩

def free : Problem := ⟨2, 3, [0, 0, 0, 0, 0, 0], [2, 4], [2, 2, 2], 6⟩

/-- A grid in which the basic cell closest to the entering one leads nowhere. -/
def detour : Grid := ⟨2, 3, [.vacant, .basic 0, .basic 2, .basic 2, .vacant, .basic 0], 4⟩

theorem cycle_within_budget_detour : ∃ s, start free detour 0 0 = .ok s ∧
    (∃ n cells t, Passes free detour s n cells t ∧ Orderly free detour (0, 0) n cells t ∧
      n + 1 < 10 ∧ t.chain.isClosed = true ∧ cycle free detour 0 0 = .ok t.chain) ∧
    ∀ n, 10 ≤ n → (run free detour (.cycleNotFound 0 0) n s).map
      (fun chain => chain.links.map Link.place) = .ok [(0, 0), (0, 2), (1, 2), (1, 0)] := by
  have hp : Problem.ofTable [[0, 0, 0], [0, 0, 0]] [2, 4] [2, 2, 2] = .ok free := rfl
  have hcycle : (cycle free detour 0 0).map (fun chain => chain.links.map Link.place) =
      .ok [(0, 0), (0, 2), (1, 2), (1, 0)] := by decide +kernel
  have hplace : 0 < free.rows ∧ 0 < free.cols := by decide
  obtain ⟨s, hstart, horderly, ⟨n, cells, t, hpass, hn, hend⟩, hmore⟩ :=
    cycle_within_budget hp (g := detour) (by decide) ⟨rfl, rfl⟩ hplace
  refine ⟨s, hstart, ?_, fun n hn => ?_⟩
  · rcases hend with hclosed | ⟨-, -, -, hnone, -⟩
    · exact ⟨n, cells, t, hpass, horderly n cells t hpass, hn, hclosed⟩
    · rw [hnone] at hcycle
      cases hcycle
  · rw [hmore n hn]
    exact hcycle

end Chain

end Transportation
