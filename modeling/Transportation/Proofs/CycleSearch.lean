import Transportation.Proofs.NextCells
import Transportation.Proofs.Trails
/-!
# The search for a cycle

The path of a search is a trail through basic cells. No cell is entered twice, so the steps granted
are never used up: a search ends with a closed chain, or it has left every cell that the basis
connects to the row of the entering cell.
-/
namespace Transportation

namespace CycleSearch

def chainOf (p : Problem) (g : Grid) (path : List (Nat × Nat)) : Chain :=
  path.foldl (fun chain c => chain.push c.1 c.2 (p.costAt c.1 c.2) (g.amount c.1 c.2)) .empty

/-- The cell that a step goes on to, or none if it goes back. -/
def entered (s s' : CycleSearch) : List (Nat × Nat) := s'.path.drop s.path.length

/-- From its first to its last state a search takes `n` steps, and in these it goes on to `cells`,
one after the other. No step is taken with a closed chain. -/
inductive Passes (p : Problem) (g : Grid) :
    CycleSearch → Nat → List (Nat × Nat) → CycleSearch → Prop where
  | refl (s : CycleSearch) : Passes p g s 0 [] s
  | next {s s' t : CycleSearch} {n : Nat} {cells : List (Nat × Nat)}
      (hopen : s.chain.isClosed = false) (hs : s.advance p g = .ok (some s'))
      (hrest : Passes p g s' n cells t) : Passes p g s (n + 1) (s.entered s' ++ cells) t

def Exhausted (g : Grid) (e : Nat × Nat) (cells : List (Nat × Nat)) (n : Node) : Prop :=
  ∀ c ∈ g.basis, ∀ far, Joins c n far → c = e ∨ c ∈ cells

/-- The end of a search that began at `e`: a closed chain, or a step back from `e` itself, whose row
and column the other basic cells do not connect. -/
inductive Ended (p : Problem) (g : Grid) (e : Nat × Nat) (s : CycleSearch) : Prop where
  | closed (hclosed : s.chain.isClosed = true)
  | emptied (hopen : s.chain.isClosed = false) (hpath : s.path = [e])
      (hs : s.advance p g = .ok none)
      (hcut : ∃ S, Respects (g.basis.erase e) S ∧ S (.source e.1) ∧ ¬ S (.sink e.2))

def Meets (e : Nat × Nat) (cs : List (Nat × Nat)) (n : Node) : Prop :=
  n = .source e.1 ∨ ∃ c ∈ cs, ∃ far, Joins c n far

/-- A search that has come along `cs` to the node `tip`, and has given up the cells of `done`. -/
structure Reached (p : Problem) (g : Grid) (e : Nat × Nat) (s : CycleSearch)
    (cs done : List (Nat × Nat)) (tip : Node) : Prop where
  path : s.path = e :: cs
  chain : s.chain = chainOf p g (e :: cs)
  along : s.alongColumn = true ↔ tip.sign = .minus
  trail : Trail (.source e.1) cs tip
  nodup : (e :: (cs ++ done)).Nodup
  basic : ∀ c ∈ cs ++ done, c ∈ g.basis
  left_of_mem : ∀ k ∈ s.left, ∃ c ∈ e :: (cs ++ done), k = position p c
  mem_left : ∀ c ∈ (e :: cs).dropLast ++ done, position p c ∈ s.left
  given_up : ∀ c ∈ done, ∀ n far, Joins c n far → Meets e cs n ∨ Exhausted g e (cs ++ done) n
  target : ∀ c ∈ cs ++ done, ∀ far, Joins c (.sink e.2) far → tip = .sink e.2

section Chain

variable {p : Problem} {g : Grid} {a b : Node} {cs : List (Nat × Nat)}

theorem chainOf_concat (path : List (Nat × Nat)) (c : Nat × Nat) :
    chainOf p g (path ++ [c]) =
      (chainOf p g path).push c.1 c.2 (p.costAt c.1 c.2) (g.amount c.1 c.2) := by
  simp [chainOf]

theorem map_place_chainOf (path : List (Nat × Nat)) :
    (chainOf p g path).links.map Link.place = path := by
  induction path using List.reverseRecOn with
  | nil => rfl
  | append_singleton path c ih =>
      rw [chainOf_concat, Chain.push, List.map_append, ih]
      rfl

private theorem aligned_of_joins {x y : Link} {m : Node} (hx : Joins x.place a m)
    (hy : Joins y.place m b) : x.aligned y = true := by
  rcases hx with ⟨-, rfl⟩ | ⟨-, rfl⟩ <;> rcases hy with ⟨h, -⟩ | ⟨h, -⟩ <;>
    simp_all [Link.aligned, Link.place]

private theorem consecutive_of_trail (links : List Link)
    (h : Trail a (links.map Link.place) b) : Chain.consecutive links = true := by
  induction links generalizing a with
  | nil => rfl
  | cons x links ih =>
      obtain ⟨m, hm, hrest⟩ := h
      cases links with
      | nil => rfl
      | cons y links =>
          have hrest' := hrest
          obtain ⟨k, hk, -⟩ := hrest
          rw [Chain.consecutive, aligned_of_joins hm hk, ih hrest']
          rfl

theorem three_le_length {i j : Nat} (h : Trail (.source i) cs (.sink j))
    (hne : (i, j) ∉ cs) : 3 ≤ cs.length := by
  match cs, h with
  | [], h => cases h
  | [c], ⟨m, hm, hlast⟩ =>
      rcases hm with ⟨hi, rfl⟩ | ⟨hi, -⟩
      · cases hi
        cases hlast
        simp at hne
      · cases hi
  | [c, d], ⟨m, hm, k, hk, hlast⟩ =>
      obtain rfl : k = .sink j := hlast
      have hsign := hk.sign_eq
      rw [hm.sign_eq] at hsign
      cases hsign
  | _ :: _ :: _ :: _, _ => simp

private theorem isClosed_eq (links : List Link) {x y : Link} (hx : links.head? = some x)
    (hy : links.getLast? = some y) : (Chain.mk links).isClosed =
      (decide (4 ≤ links.length) && x.aligned y && Chain.consecutive links) := by
  simp only [Chain.isClosed, hx, hy]

end Chain

section Search

variable {p : Problem} {g : Grid} {e : Nat × Nat} {s : CycleSearch} {cs done : List (Nat × Nat)}
  {tip : Node}

theorem Reached.exists_isClosed_eq (h : Reached p g e s cs done tip) :
    ∃ c, (e :: cs).getLast? = some c ∧ s.chain.isClosed =
      (decide (3 ≤ cs.length) && (e.1 == c.1 || e.2 == c.2) &&
        Chain.consecutive s.chain.links) := by
  have hplaces : s.chain.links.map Link.place = e :: cs := by rw [h.chain, map_place_chainOf]
  have hlength : s.chain.links.length = cs.length + 1 := by
    rw [← List.length_map (f := Link.place), hplaces, List.length_cons]
  obtain ⟨x, links, hlinks⟩ := List.exists_cons_of_length_pos (l := s.chain.links) (by omega)
  obtain ⟨start, y, hy⟩ := List.eq_nil_or_concat s.chain.links |>.resolve_left (by simp [hlinks])
  rw [List.concat_eq_append] at hy
  have hlast : (e :: cs).getLast? = some y.place := by
    rw [← hplaces, hy, List.map_append, List.map_singleton, List.getLast?_concat]
  have hx : x.place = e := by
    rw [hlinks] at hplaces
    exact (List.cons.inj hplaces).1
  refine ⟨y.place, hlast, ?_⟩
  have hclosed := isClosed_eq s.chain.links (x := x) (y := y) (by rw [hlinks]; rfl)
    (by rw [hy, List.getLast?_concat])
  rw [hlength] at hclosed
  have hfour : 4 ≤ cs.length + 1 ↔ 3 ≤ cs.length := by omega
  rw [hclosed, ← hx, decide_eq_decide.mpr hfour]
  rfl

private theorem Reached.isClosed_of_target (h : Reached p g e s cs done (.sink e.2)) :
    s.chain.isClosed = true := by
  have hplaces : s.chain.links.map Link.place = e :: cs := by rw [h.chain, map_place_chainOf]
  have hlength : 3 ≤ cs.length := by
    apply three_le_length h.trail
    intro hmem
    exact (List.nodup_cons.mp h.nodup).1 (List.mem_append_left _ hmem)
  have hround : Trail (.sink e.2) (e :: cs) (.sink e.2) :=
    ⟨.source e.1, .inr ⟨rfl, rfl⟩, h.trail⟩
  have hconsecutive := consecutive_of_trail s.chain.links (a := .sink e.2) (b := .sink e.2)
    (hplaces.symm ▸ hround)
  obtain ⟨c, hlast, hclosed⟩ := h.exists_isClosed_eq
  obtain ⟨init, hinit⟩ := List.getLast?_eq_some_iff.mp hlast
  rw [hinit] at hround
  obtain ⟨m, -, hjoin⟩ := trail_concat.mp hround
  have hcol : e.2 = c.2 := by
    rcases hjoin with ⟨-, hsink⟩ | ⟨-, hsource⟩
    · exact Node.sink.inj hsink
    · contradiction
  rw [hclosed, decide_eq_true hlength, hconsecutive, hcol]
  simp

theorem Reached.exists_last (h : Reached p g e s cs done tip) :
    ∃ c ∈ e :: cs, s.path.getLast? = some c ∧
      (∀ d ∈ e :: cs, d = c ∨ d ∈ (e :: cs).dropLast) ∧
      tip = if !s.alongColumn then .sink c.2 else .source c.1 := by
  have hmem : ∀ init (c : Nat × Nat), e :: cs = init ++ [c] →
      ∀ d ∈ e :: cs, d = c ∨ d ∈ (e :: cs).dropLast := by
    intro init c heq d hd
    rw [heq] at hd ⊢
    simpa [or_comm] using hd
  have hsign := h.along
  rcases List.eq_nil_or_concat cs with rfl | ⟨init, c, hinit⟩
  · obtain rfl : Node.source e.1 = tip := h.trail
    refine ⟨e, List.mem_cons_self, by rw [h.path]; rfl, hmem [] e rfl, ?_⟩
    rw [hsign.mpr rfl]
    rfl
  · rw [List.concat_eq_append] at hinit
    have htrail := h.trail
    rw [hinit] at htrail
    obtain ⟨m, -, hjoin⟩ := trail_concat.mp htrail
    refine ⟨c, by simp [hinit],
      by rw [h.path, hinit, ← List.cons_append, List.getLast?_concat],
      hmem (e :: init) c (by rw [hinit]; rfl), ?_⟩
    rcases hjoin with ⟨-, rfl⟩ | ⟨-, rfl⟩
    · cases halong : s.alongColumn with
      | true => simpa [Node.sign] using hsign.mp halong
      | false => rfl
    · rw [hsign.mpr rfl]
      rfl

private theorem meets_of_trail {n : Node} (h : Trail (.source e.1) cs n) : Meets e cs n := by
  rcases List.eq_nil_or_concat cs with rfl | ⟨init, c, hinit⟩
  · exact .inl h.symm
  · rw [List.concat_eq_append] at hinit
    subst hinit
    obtain ⟨m, -, hjoin⟩ := trail_concat.mp h
    exact .inr ⟨c, by simp, m, hjoin.symm⟩

private theorem Meets.mono {cs' : List (Nat × Nat)} {n : Node} (h : Meets e cs n)
    (hsub : ∀ c ∈ cs, c ∈ cs') : Meets e cs' n :=
  h.imp_right fun ⟨c, hc, hfar⟩ => ⟨c, hsub c hc, hfar⟩

private theorem Exhausted.mono {cells cells' : List (Nat × Nat)} {n : Node}
    (h : Exhausted g e cells n) (hsub : ∀ c ∈ cells, c ∈ cells') : Exhausted g e cells' n :=
  fun c hc far hjoin => (h c hc far hjoin).imp_right (hsub c)

private theorem along_flip {along : Bool} {a b : Node} {c : Nat × Nat}
    (h : along = true ↔ a.sign = .minus) (hjoin : Joins c a b) :
    (!along) = true ↔ b.sign = .minus := by
  rw [hjoin.sign_eq]
  cases along <;> cases ha : a.sign <;> simp [ha, Sign.flip] at h ⊢

private theorem Reached.forward (h : Reached p g e s cs done tip) (hopen : tip ≠ .sink e.2)
    {left : List Nat} (hleft : ∀ k ∈ left, ∃ c ∈ e :: (cs ++ done), k = position p c)
    (hmem : ∀ c ∈ e :: (cs ++ done), position p c ∈ left) {c : Nat × Nat} (hc : c ∈ g.basis)
    (hnew : position p c ∉ left) {far : Node} (hjoin : Joins c tip far) :
    Reached p g e ⟨s.path ++ [c],
      s.chain.push c.1 c.2 (p.costAt c.1 c.2) (g.amount c.1 c.2), left, !s.alongColumn⟩
      (cs ++ [c]) done far where
  path := by simp [h.path]
  chain := by
    rw [h.chain, ← List.cons_append, chainOf_concat]
  along := along_flip h.along hjoin
  trail := trail_concat.mpr ⟨tip, h.trail, hjoin⟩
  nodup := by
    have hnotin : c ∉ e :: (cs ++ done) := fun hin => hnew (hmem c hin)
    have heq : e :: (cs ++ [c] ++ done) = (e :: cs) ++ c :: done := by simp
    rw [heq, List.nodup_middle]
    exact List.nodup_cons.mpr ⟨hnotin, h.nodup⟩
  basic := by
    intro d hd
    simp only [List.mem_append, List.mem_singleton, or_assoc] at hd
    rcases hd with hd | rfl | hd
    · exact h.basic d (List.mem_append_left _ hd)
    · exact hc
    · exact h.basic d (List.mem_append_right _ hd)
  left_of_mem := by
    intro k hk
    obtain ⟨d, hd, rfl⟩ := hleft k hk
    refine ⟨d, ?_, rfl⟩
    simp only [List.mem_cons, List.mem_append] at hd ⊢
    tauto
  mem_left := by
    intro d hd
    rw [← List.cons_append, List.dropLast_concat] at hd
    exact hmem d hd
  given_up := by
    intro d hd n m hdn
    refine (h.given_up d hd n m hdn).imp (fun hm => hm.mono ?_) (fun hx => hx.mono ?_)
    · exact fun x hx => List.mem_append_left _ hx
    · intro x hx
      simp only [List.mem_append] at hx ⊢
      tauto
  target := by
    intro d hd m hdm
    simp only [List.mem_append, List.mem_singleton, or_assoc] at hd
    rcases hd with hd | rfl | hd
    · exact absurd (h.target d (List.mem_append_left _ hd) m hdm) hopen
    · rcases hdm with ⟨hdm, -⟩ | ⟨hdm, -⟩
      · contradiction
      · rcases hjoin with ⟨-, rfl⟩ | ⟨rfl, -⟩
        · exact hdm.symm
        · exact absurd hdm.symm hopen
    · exact absurd (h.target d (List.mem_append_right _ hd) m hdm) hopen

private theorem Reached.back {c : Nat × Nat} (h : Reached p g e s (cs ++ [c]) done tip)
    (hopen : tip ≠ .sink e.2) {left : List Nat}
    (hleft : ∀ k ∈ left, ∃ d ∈ e :: (cs ++ [c] ++ done), k = position p d)
    (hmem : ∀ d ∈ e :: (cs ++ [c] ++ done), position p d ∈ left)
    (hexhausted : Exhausted g e (cs ++ [c] ++ done) tip) {m : Node}
    (htrail : Trail (.source e.1) cs m) (hjoin : Joins c m tip) :
    Reached p g e ⟨e :: cs, chainOf p g (e :: cs), left, !s.alongColumn⟩ cs (c :: done) m := by
  have hcells : cs ++ c :: done = cs ++ [c] ++ done := by simp
  exact {
    path := rfl
    chain := rfl
    along := along_flip h.along hjoin.symm
    trail := htrail
    nodup := by
      rw [hcells]
      exact h.nodup
    basic := by
      rw [hcells]
      exact h.basic
    left_of_mem := by
      rw [hcells]
      exact hleft
    mem_left := by
      intro d hd
      refine hmem d ?_
      rcases List.mem_append.mp hd with hd | hd
      · have := List.mem_of_mem_dropLast hd
        simp only [List.mem_cons, List.mem_append] at this ⊢
        tauto
      · simp only [List.mem_cons, List.mem_append] at hd ⊢
        tauto
    given_up := by
      rw [hcells]
      have hends : ∀ n far, Joins c n far →
          Meets e cs n ∨ Exhausted g e (cs ++ [c] ++ done) n := by
        intro n far hn
        rcases hjoin with ⟨rfl, rfl⟩ | ⟨rfl, rfl⟩ <;> rcases hn with ⟨rfl, -⟩ | ⟨rfl, -⟩
        · exact .inl (meets_of_trail htrail)
        · exact .inr hexhausted
        · exact .inr hexhausted
        · exact .inl (meets_of_trail htrail)
      intro d hd n far hdn
      rcases List.mem_cons.mp hd with rfl | hd
      · exact hends n far hdn
      · rcases h.given_up d hd n far hdn with (hfirst | ⟨x, hx, y, hxy⟩) | hdone
        · exact .inl (.inl hfirst)
        · rcases List.mem_append.mp hx with hx | hx
          · exact .inl (.inr ⟨x, hx, y, hxy⟩)
          · rw [List.mem_singleton.mp hx] at hxy
            exact hends n y hxy
        · exact .inr hdone
    target := by
      rw [hcells]
      exact fun d hd far hdn => absurd (h.target d hd far hdn) hopen }

private theorem position_injective {c d : Nat × Nat} (hc : c.2 < p.cols) (hd : d.2 < p.cols)
    (h : position p c = position p d) : c = d :=
  Prod.ext_iff.mpr ((position_inj hc hd).mp h)

private theorem Reached.within (h : Reached p g e s cs done tip) (hfit : g.Fits p)
    (he : e.1 < p.rows ∧ e.2 < p.cols) {c : Nat × Nat} (hc : c ∈ e :: (cs ++ done)) :
    c.1 < p.rows ∧ c.2 < p.cols := by
  rcases List.mem_cons.mp hc with rfl | hc
  · exact he
  · obtain ⟨hi, hj, -⟩ := Grid.mem_basis.mp (h.basic c hc)
    exact ⟨hfit.1 ▸ hi, hfit.2 ▸ hj⟩

/-- A step goes forward, goes back, or ends the search with nothing more to enter. -/
theorem Reached.advance_cases (h : Reached p g e s cs done tip) (hp : p.Sound)
    (hfit : g.Fits p) (hreg : g.Regular) (he : e.1 < p.rows ∧ e.2 < p.cols)
    (hopen : tip ≠ .sink e.2) :
    (∃ s' c far, s.advance p g = .ok (some s') ∧ Joins c tip far ∧
      Reached p g e s' (cs ++ [c]) done far) ∨
    (∃ s' init c m, s.advance p g = .ok (some s') ∧ cs = init ++ [c] ∧
      Reached p g e s' init (c :: done) m) ∨
    (s.advance p g = .ok none ∧ cs = [] ∧ Exhausted g e done tip) := by
  obtain ⟨⟨row, col⟩, hlast, hget, hsplit, htip⟩ := h.exists_last
  have hplace := h.within hfit he (c := (row, col)) (by
    rw [← List.cons_append]
    exact List.mem_append_left _ hlast)
  let marked : CycleSearch := { s with
    left := position p (row, col) :: s.left
    alongColumn := !s.alongColumn }
  have hleft : ∀ k ∈ marked.left, ∃ c ∈ e :: (cs ++ done), k = position p c := by
    intro k hk
    rcases List.mem_cons.mp hk with rfl | hk
    · exact ⟨(row, col), by rw [← List.cons_append]; exact List.mem_append_left _ hlast, rfl⟩
    · exact h.left_of_mem k hk
  have hmem : ∀ c ∈ e :: (cs ++ done), position p c ∈ marked.left := by
    intro c hc
    rw [← List.cons_append] at hc
    rcases List.mem_append.mp hc with hc | hc
    · rcases hsplit c hc with rfl | hc
      · exact List.mem_cons_self
      · exact List.mem_cons_of_mem _ (h.mem_left c (List.mem_append_left _ hc))
    · exact List.mem_cons_of_mem _ (h.mem_left c (List.mem_append_right _ hc))
  obtain ⟨r, hr, hnone, hsome⟩ := next?_eq_ok (s := marked) hfit hreg hplace.1 hplace.2
    List.mem_cons_self htip
  cases r with
  | some c =>
      obtain ⟨hc, hnew, far, hjoin⟩ := hsome c rfl
      obtain ⟨hi, hj, -⟩ := Grid.mem_basis.mp hc
      refine .inl ⟨_, c, far, ?_, hjoin, h.forward hopen hleft hmem hc hnew hjoin⟩
      rw [advance, hget]
      change (next? p g marked row col >>= _) = _
      rw [hr, ok_bind]
      dsimp only
      rw [extend, hp.cost_eq_ok (hfit.1 ▸ hi) (hfit.2 ▸ hj), ok_bind, hreg.get_eq_ok hi hj]
      rfl
  | none =>
      have hexhausted : Exhausted g e (cs ++ done) tip := by
        intro c hc far hjoin
        obtain ⟨hi, hj, -⟩ := Grid.mem_basis.mp hc
        obtain ⟨d, hd, heq⟩ := hleft _ (hnone rfl c hc far hjoin)
        have hcd := position_injective (hfit.2 ▸ hj) (h.within hfit he hd).2 heq
        rw [hcd]
        exact List.mem_cons.mp hd
      have hadvance : s.advance p g = .ok (if s.path.dropLast.isEmpty then none else
          some { marked with path := s.path.dropLast, chain := s.chain.pop }) := by
        rw [advance, hget]
        change (next? p g marked row col >>= _) = _
        rw [hr]
        rfl
      rcases List.eq_nil_or_concat cs with rfl | ⟨init, c, rfl⟩
      · refine .inr (.inr ⟨?_, rfl, hexhausted⟩)
        rw [hadvance, h.path]
        rfl
      · rw [List.concat_eq_append] at *
        obtain ⟨m, htrail, hjoin⟩ := trail_concat.mp h.trail
        refine .inr (.inl ⟨_, init, c, m, ?_, rfl,
          h.back hopen hleft hmem hexhausted htrail hjoin⟩)
        have hpath : s.path.dropLast = e :: init := by
          rw [h.path, ← List.cons_append, List.dropLast_concat]
        have hchain : s.chain.pop = chainOf p g (e :: init) := by
          rw [h.chain, ← List.cons_append, chainOf_concat, Chain.pop_push]
        rw [hadvance, hpath, hchain]
        rfl

private theorem Reached.cut_off (h : Reached p g e s [] done tip) (hopen : tip ≠ .sink e.2)
    (hexhausted : Exhausted g e done tip) :
    ∃ S, Respects (g.basis.erase e) S ∧ S (.source e.1) ∧ ¬ S (.sink e.2) := by
  have htip : Node.source e.1 = tip := h.trail
  have hall : ∀ n, Meets e done n → Exhausted g e done n := by
    rintro n (rfl | ⟨c, hc, far, hjoin⟩)
    · exact htip ▸ hexhausted
    · rcases h.given_up c hc n far hjoin with (rfl | ⟨d, hd, -⟩) | hdone
      · exact htip ▸ hexhausted
      · simp at hd
      · exact hdone
  refine ⟨Meets e done, ?_, .inl rfl, ?_⟩
  · intro c hc
    obtain ⟨hne, hbasic⟩ := Finset.mem_erase.mp hc
    constructor
    · intro hsource
      have hmem := (hall _ hsource c hbasic _ (.inl ⟨rfl, rfl⟩)).resolve_left hne
      exact .inr ⟨c, hmem, .source c.1, .inr ⟨rfl, rfl⟩⟩
    · intro hsink
      have hmem := (hall _ hsink c hbasic _ (.inr ⟨rfl, rfl⟩)).resolve_left hne
      exact .inr ⟨c, hmem, .sink c.2, .inl ⟨rfl, rfl⟩⟩
  · rintro (hsource | ⟨c, hc, far, hjoin⟩)
    · contradiction
    · exact hopen (h.target c hc far hjoin)

private theorem Reached.steps_le (h : Reached p g e s cs done tip) (hreg : g.Regular) :
    cs.length + 2 * done.length ≤ 2 * g.basicCount := by
  have hsub : (cs ++ done).toFinset ⊆ g.basis := fun c hc => h.basic c (List.mem_toFinset.mp hc)
  have hcard := Finset.card_le_card hsub
  rw [List.toFinset_card_of_nodup (List.nodup_cons.mp h.nodup).2, hreg.card_basis,
    List.length_append] at hcard
  omega

theorem Reached.ne_target (h : Reached p g e s cs done tip) (hopen : s.chain.isClosed = false) :
    tip ≠ .sink e.2 := by
  rintro rfl
  simp [h.isClosed_of_target] at hopen

section Paths

variable {s' : CycleSearch} {done' : List (Nat × Nat)} {far : Node} {c : Nat × Nat}

theorem entered_of_concat (h : s'.path = s.path ++ [c]) : s.entered s' = [c] := by
  rw [entered, h, List.drop_left]

theorem entered_of_dropLast (h : s'.path = s.path.dropLast) : s.entered s' = [] := by
  rw [entered, h]
  exact List.drop_of_length_le (by simp)

theorem Reached.path_concat (h : Reached p g e s cs done tip)
    (h' : Reached p g e s' (cs ++ [c]) done' far) : s'.path = s.path ++ [c] := by
  rw [h'.path, h.path, List.cons_append]

theorem Reached.path_dropLast (h : Reached p g e s (cs ++ [c]) done tip)
    (h' : Reached p g e s' cs done' far) : s'.path = s.path.dropLast := by
  rw [h'.path, h.path, ← List.cons_append, List.dropLast_concat]

end Paths

section Steps

variable {s' t : CycleSearch} {n : Nat} {cells : List (Nat × Nat)} (hp : p.Sound)
  (hfit : g.Fits p) (hreg : g.Regular) (he : e.1 < p.rows ∧ e.2 < p.cols)

include hp hfit hreg he

/-- Every step enters one cell or gives one up. -/
private theorem Reached.next (h : Reached p g e s cs done tip) (hopen : s.chain.isClosed = false)
    (hs : s.advance p g = .ok (some s')) : ∃ cs' done' tip', Reached p g e s' cs' done' tip' ∧
      cs'.length + 2 * done'.length = cs.length + 2 * done.length + 1 ∧
      (cs' ++ done').Perm (cs ++ done ++ s.entered s') := by
  rcases h.advance_cases hp hfit hreg he (h.ne_target hopen) with
    ⟨_, c, far, hs', -, h'⟩ | ⟨_, init, c, m, hs', rfl, h'⟩ | ⟨hs', -⟩
  · cases hs.symm.trans hs'
    refine ⟨cs ++ [c], done, far, h', by simp; omega, ?_⟩
    rw [entered_of_concat (h.path_concat h'), List.append_assoc, List.append_assoc]
    exact List.perm_append_comm.append_left cs
  · cases hs.symm.trans hs'
    refine ⟨init, c :: done, m, h', by simp; omega, ?_⟩
    rw [entered_of_dropLast (h.path_dropLast h'), List.append_nil, List.append_assoc]
    exact .refl _
  · cases hs.symm.trans hs'

theorem Passes.reached (hpass : Passes p g s n cells t) (h : Reached p g e s cs done tip) :
    ∃ cs' done' tip', Reached p g e t cs' done' tip' ∧
      cs'.length + 2 * done'.length = cs.length + 2 * done.length + n ∧
      (cs' ++ done').Perm (cs ++ done ++ cells) := by
  induction hpass generalizing cs done tip with
  | refl s => exact ⟨cs, done, tip, h, rfl, by simp⟩
  | next hopen hs _ ih =>
      obtain ⟨cs₁, done₁, tip₁, h₁, hlength₁, hperm₁⟩ := h.next hp hfit hreg he hopen hs
      obtain ⟨cs₂, done₂, tip₂, h₂, hlength₂, hperm₂⟩ := ih h₁
      refine ⟨cs₂, done₂, tip₂, h₂, by omega, hperm₂.trans ?_⟩
      rw [← List.append_assoc]
      exact hperm₁.append_right _

/-- No search takes more steps than there are ways into and out of basic cells. -/
theorem Passes.le (hpass : Passes p g s n cells t) (h : Reached p g e s cs done tip) :
    cs.length + 2 * done.length + n ≤ 2 * g.basicCount := by
  obtain ⟨cs', done', tip', h', hlength, -⟩ := hpass.reached hp hfit hreg he h
  rw [← hlength]
  exact h'.steps_le hreg

/-- Every search comes to its end. -/
theorem Reached.ends (h : Reached p g e s cs done tip) :
    ∃ n cells t, Passes p g s n cells t ∧ Ended p g e t := by
  obtain ⟨k, hk⟩ : ∃ k, 2 * g.basicCount < k + cs.length + 2 * done.length :=
    ⟨2 * g.basicCount + 1, by omega⟩
  induction k generalizing s cs done tip with
  | zero =>
      have := h.steps_le hreg
      omega
  | succ k ih =>
      cases hclosed : s.chain.isClosed with
      | true => exact ⟨0, [], s, .refl s, .closed hclosed⟩
      | false =>
          have hopen := h.ne_target hclosed
          have hgoes : ∀ s', s.advance p g = .ok (some s') →
              ∃ n cells t, Passes p g s n cells t ∧ Ended p g e t := by
            intro s' hs
            obtain ⟨cs', done', tip', h', hlength, -⟩ := h.next hp hfit hreg he hclosed hs
            obtain ⟨n, cells, t, hpass, hend⟩ := ih h' (by omega)
            exact ⟨n + 1, _, t, .next hclosed hs hpass, hend⟩
          rcases h.advance_cases hp hfit hreg he hopen with
            ⟨s', -, -, hs, -⟩ | ⟨s', -, -, -, hs, -⟩ | ⟨hs, rfl, hexhausted⟩
          · exact hgoes s' hs
          · exact hgoes s' hs
          · exact ⟨0, [], s, .refl s,
              .emptied hclosed h.path hs (h.cut_off hopen hexhausted)⟩

end Steps

section Run

variable {t : CycleSearch} {n : Nat} {cells : List (Nat × Nat)}

theorem Passes.run_eq (hpass : Passes p g s n cells t) (notFound : Failure) (k : Nat) :
    run p g notFound (n + k) s = run p g notFound k t := by
  induction hpass with
  | refl s => rw [Nat.zero_add]
  | next hopen hs _ ih =>
      rw [Nat.add_right_comm, run, if_neg (by simp [hopen]), hs, ok_bind]
      exact ih

theorem Ended.run_eq (h : Ended p g e t) (notFound : Failure) (k : Nat) :
    run p g notFound k t = run p g notFound 0 t := by
  cases k with
  | zero => rfl
  | succ k =>
      cases h with
      | closed hclosed => rw [run, run, if_pos hclosed, if_pos hclosed]
      | emptied hopen _ hs _ =>
          have hfalse : ¬ t.chain.isClosed = true := by simp [hopen]
          rw [run, run, if_neg hfalse, if_neg hfalse, hs, ok_bind]
          rfl

end Run

/-- A search ends before its steps are used up, with a closed chain or cut off. -/
theorem Reached.run_eq (h : Reached p g e s cs done tip) (hp : p.Sound)
    (hfit : g.Fits p) (hreg : g.Regular) (he : e.1 < p.rows ∧ e.2 < p.cols) (notFound : Failure)
    (n : Nat) (hn : 2 * g.basicCount < n + cs.length + 2 * done.length) :
    (∃ s' cs' done' tip', run p g notFound n s = .ok s'.chain ∧
      Reached p g e s' cs' done' tip' ∧ s'.chain.isClosed = true) ∨
    (run p g notFound n s = .error notFound ∧
      ∃ S, Respects (g.basis.erase e) S ∧ S (.source e.1) ∧ ¬ S (.sink e.2)) := by
  obtain ⟨m, cells, t, hpass, hend⟩ := h.ends hp hfit hreg he
  obtain ⟨cs', done', tip', h', -⟩ := hpass.reached hp hfit hreg he h
  have hle := hpass.le hp hfit hreg he h
  obtain ⟨k, rfl⟩ : ∃ k, n = m + k := ⟨n - m, by omega⟩
  rw [hpass.run_eq, hend.run_eq, run]
  cases hend with
  | closed hclosed => exact .inl ⟨t, cs', done', tip', if_pos hclosed, h', hclosed⟩
  | emptied hopen _ _ hcut => exact .inr ⟨if_neg (by simp [hopen]), hcut⟩

theorem reached_start (e : Nat × Nat) :
    Reached p g e ⟨[e], chainOf p g [e], [], true⟩ [] [] (.source e.1) where
  path := rfl
  chain := rfl
  along := by simp [Node.sign]
  trail := rfl
  nodup := by simp
  basic := by simp
  left_of_mem := by simp
  mem_left := by simp
  given_up := by simp
  target := by simp

theorem start_eq_ok (hp : p.Sound) (hfit : g.Fits p) (hreg : g.Regular)
    (he : e.1 < p.rows ∧ e.2 < p.cols) :
    start p g e.1 e.2 = .ok ⟨[e], chainOf p g [e], [], true⟩ := by
  rw [start, extend, hp.cost_eq_ok he.1 he.2, ok_bind,
    hreg.get_eq_ok (hfit.1.symm ▸ he.1) (hfit.2.symm ▸ he.2)]
  rfl

end Search

end CycleSearch

end Transportation
