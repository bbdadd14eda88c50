import Transportation.Potentials.Levelwise
import Transportation.Proofs.Plans
/-!
# Values found along basic cells

Every search for potentials starts with the value zero at the first source and carries values across
basic cells, from an end that has a value to one that has none. However it goes on, the values stay
within bounds, they are the only ones that fit the basic cells, and they stay among the nodes that
the basis connects to the first source.
-/
namespace Transportation

/-- The values with which the ends of each basic cell add up to its cost. -/
structure Prices (p : Problem) (g : Grid) (f : Node → Int) : Prop where
  first : f (.source 0) = 0
  cell : ∀ c ∈ g.basis, f (.source c.1) + f (.sink c.2) = p.costAt c.1 c.2

def Potentials.ofValues (p : Problem) (f : Node → Int) : Potentials :=
  ⟨(List.range p.rows).map fun i => f (.source i), (List.range p.cols).map fun j => f (.sink j)⟩

theorem getD_ofValues {p : Problem} (f : Node → Int) {i j : Nat} (hi : i < p.rows)
    (hj : j < p.cols) : (Potentials.ofValues p f).u.getD i 0 = f (.source i) ∧
      (Potentials.ofValues p f).v.getD j 0 = f (.sink j) := by
  simp [Potentials.ofValues, hi, hj]

/-- Values moved against each other until that of the first source is zero. -/
def grounded (f : Node → Int) : Node → Int
  | .source i => f (.source i) - f (.source 0)
  | .sink j => f (.sink j) + f (.source 0)

theorem Forest.exists_prices {g : Grid} (h : Forest g.basis) (p : Problem) :
    ∃ f, Prices p g f := by
  obtain ⟨f, hf⟩ := h.exists_values fun c => p.costAt c.1 c.2
  refine ⟨grounded f, sub_self _, fun c hc => ?_⟩
  rw [← hf c hc, grounded, grounded]
  omega

theorem Grid.BasicPlan.exists_prices {p : Problem} {g : Grid} (h : g.BasicPlan p) :
    ∃ f, Prices p g f :=
  h.forest.exists_prices p

theorem Prices.joins {p : Problem} {g : Grid} {f : Node → Int} (h : Prices p g f)
    {c : Nat × Nat} (hc : c ∈ g.basis) {a b : Node} (hab : Joins c a b) :
    f b = p.costAt c.1 c.2 - f a := by
  have := h.cell c hc
  rcases hab with ⟨rfl, rfl⟩ | ⟨rfl, rfl⟩ <;> omega

namespace PartialPotentials

def look (s : PartialPotentials) : Node → Option Int
  | .source i => s.u.getD i none
  | .sink j => s.v.getD j none

def offer (p : Problem) (before : PartialPotentials) (start : Valued)
    (cell : Grid.Shipment) : Option Valued :=
  match before.look (cell.opposite start.node) with
  | some _ => none
  | none => some ⟨cell.opposite start.node, p.costAt cell.row cell.col - start.value⟩

def store (s : PartialPotentials) (v : Valued) : Except Failure PartialPotentials := do
  return s.assign v.node (← Amount.ofInt v.value)

structure Sized (s : PartialPotentials) (p : Problem) : Prop where
  length_u : s.u.length = p.rows
  length_v : s.v.length = p.cols

def known (s : PartialPotentials) (p : Problem) : Int :=
  (p.rows : Int) + p.cols - s.unknowns

section Sized

variable {p : Problem} {s : PartialPotentials} {n : Node}

theorem Sized.value_eq_ok (h : s.Sized p) (hn : n.Within p.rows p.cols) :
    s.value n = .ok (s.look n) := by
  cases n with
  | source i => exact entry_getD _ (h.length_u.symm ▸ hn)
  | sink j => exact entry_getD _ (h.length_v.symm ▸ hn)

theorem Sized.assign (h : s.Sized p) (n : Node) (x : Int) : (s.assign n x).Sized p := by
  cases n with
  | source i => exact ⟨by simpa [PartialPotentials.assign] using h.length_u, h.length_v⟩
  | sink j => exact ⟨h.length_u, by simpa [PartialPotentials.assign] using h.length_v⟩

private theorem getD_set (xs : List (Option Int)) {k : Nat} (hk : k < xs.length)
    (x : Option Int) (l : Nat) :
    (xs.set k x).getD l none = if l = k then x else xs.getD l none := by
  rw [List.getD_eq_getElem?_getD, List.getElem?_set]
  by_cases hl : l = k
  · subst hl
    simp [hk]
  · simp [hl, Ne.symm hl]

theorem Sized.look_assign (h : s.Sized p) (hn : n.Within p.rows p.cols) (x : Int) (m : Node) :
    (s.assign n x).look m = if m = n then some x else s.look m := by
  cases n with
  | source i =>
      cases m with
      | source k =>
          simpa [PartialPotentials.assign, look] using
            getD_set s.u (h.length_u.symm ▸ hn) (some x) k
      | sink j => simp [PartialPotentials.assign, look]
  | sink j =>
      cases m with
      | source k => simp [PartialPotentials.assign, look]
      | sink k =>
          simpa [PartialPotentials.assign, look] using
            getD_set s.v (h.length_v.symm ▸ hn) (some x) k

private theorem countP_isNone_set (xs : List (Option Int)) {k : Nat} (hk : k < xs.length)
    (hnone : xs.getD k none = none) (x : Int) :
    (xs.set k (some x)).countP Option.isNone + 1 = xs.countP Option.isNone := by
  have hget : xs[k] = none := by rwa [List.getD_eq_getElem _ _ hk] at hnone
  have hpos : 0 < xs.countP Option.isNone :=
    List.countP_pos_iff.mpr ⟨xs[k], List.getElem_mem hk, by simp [hget]⟩
  rw [List.countP_set hk, hget]
  simp
  omega

theorem Sized.unknowns_assign (h : s.Sized p) (hn : n.Within p.rows p.cols)
    (hnone : s.look n = none) (x : Int) : (s.assign n x).unknowns + 1 = s.unknowns := by
  cases n with
  | source i =>
      have := countP_isNone_set s.u (h.length_u.symm ▸ hn) hnone x
      simp only [unknowns, PartialPotentials.assign]
      omega
  | sink j =>
      have := countP_isNone_set s.v (h.length_v.symm ▸ hn) hnone x
      simp only [unknowns, PartialPotentials.assign]
      omega

private theorem countP_isNone_eq_zero {xs : List (Option Int)} :
    xs.countP Option.isNone = 0 ↔ ∀ k, k < xs.length → xs.getD k none ≠ none := by
  rw [List.countP_eq_zero]
  constructor
  · intro h k hk hnone
    rw [List.getD_eq_getElem _ _ hk] at hnone
    exact h _ (List.getElem_mem hk) (by simp [hnone])
  · intro h x hx hnone
    obtain ⟨k, hk, rfl⟩ := List.mem_iff_getElem.mp hx
    exact h k hk (by rw [List.getD_eq_getElem _ _ hk]; simpa using hnone)

theorem Sized.unknowns_eq_zero_iff (h : s.Sized p) :
    s.unknowns = 0 ↔ ∀ n : Node, n.Within p.rows p.cols → s.look n ≠ none := by
  rw [unknowns, Nat.add_eq_zero_iff, countP_isNone_eq_zero, countP_isNone_eq_zero, h.length_u,
    h.length_v]
  constructor
  · rintro ⟨hu, hv⟩ (i | j) hn
    · exact hu i hn
    · exact hv j hn
  · exact fun hall => ⟨fun i hi => hall (.source i) hi, fun j hj => hall (.sink j) hj⟩

end Sized

/-- Values carried from the first source across basic cells. -/
structure Found (s : PartialPotentials) (p : Problem) (g : Grid) : Prop where
  sized : s.Sized p
  first : s.look (.source 0) = some 0
  bounded : ∀ n x, s.look n = some x → |x| + p.greatestCost ≤ s.known p * p.greatestCost
  forced : ∀ f, Prices p g f → ∀ n x, s.look n = some x → f n = x
  reached : ∀ S, Respects g.basis S → S (.source 0) → ∀ n, s.look n ≠ none → S n

section Found

variable {p : Problem} {g : Grid} {s : PartialPotentials}

private theorem getD_replicate_none (k l : Nat) :
    (List.replicate k (none : Option Int)).getD l none = none := by
  rw [List.getD_eq_getElem?_getD, List.getElem?_replicate]
  split <;> rfl

theorem look_seed (hp : p.Sound) (n : Node) :
    (seed p).look n = if n = .source 0 then some 0 else none := by
  cases n with
  | source i =>
      have hget := getD_set (List.replicate p.rows none) (k := 0)
        (by simpa using hp.rows_pos) (some 0) i
      simpa [seed, look, getD_replicate_none] using hget
  | sink j => simp [seed, look]

theorem found_seed (hp : p.Sound) (g : Grid) : (seed p).Found p g where
  sized := ⟨by simp [seed], by simp [seed]⟩
  first := by simp [look_seed hp]
  bounded n x hx := by
    rw [look_seed hp] at hx
    split at hx
    · cases hx
      have hset := countP_isNone_set (List.replicate p.rows none) (k := 0)
        (by simpa using hp.rows_pos) (getD_replicate_none _ _) 0
      have hunknowns : (seed p).unknowns + 1 = p.rows + p.cols := by
        simp only [seed, unknowns]
        simp only [List.countP_replicate, Option.isNone_none, if_true] at hset ⊢
        omega
      have hknown : (seed p).known p = 1 := by
        rw [known]
        omega
      rw [hknown]
      simp
    · contradiction
  forced f hf n x hx := by
    rw [look_seed hp] at hx
    split at hx
    · next hn =>
        cases hx
        rw [hn, hf.first]
    · contradiction
  reached S _ hS n hn := by
    rw [look_seed hp] at hn
    split at hn
    · next heq => rwa [heq]
    · contradiction

theorem Found.known_le (h : s.Found p g) : s.known p ≤ (p.rows : Int) + p.cols := by
  have := h.sized
  rw [known]
  omega

theorem Found.inRange (h : s.Found p g) (hp : p.Sound) {c : Nat × Nat}
    (hc : c.1 < p.rows ∧ c.2 < p.cols) {n : Node} {x : Int} (hx : s.look n = some x) :
    |p.costAt c.1 c.2 - x| ≤ s.known p * p.greatestCost ∧
      Amount.InRange (p.costAt c.1 c.2 - x) := by
  have hcost := abs_le.mpr ⟨by linarith [hp.costAt_nonneg hc.1 hc.2, p.greatestCost_nonneg],
    hp.costAt_le hc.1 hc.2⟩
  have habs : |p.costAt c.1 c.2 - x| ≤ s.known p * p.greatestCost := by
    have := abs_sub (p.costAt c.1 c.2) x
    have := h.bounded n x hx
    linarith
  refine ⟨habs, Amount.inRange_of_abs_le habs ?_⟩
  have hmul := mul_le_mul_of_nonneg_right h.known_le p.greatestCost_nonneg
  have hroom := hp.potentials_le
  have hC := p.greatestCost_nonneg
  nlinarith

theorem Found.abs_offer_le (h : s.Found p g) (hp : p.Sound) {cell : Grid.Shipment}
    (hplace : cell.row < p.rows ∧ cell.col < p.cols) (start : Valued) {v : Valued}
    (hstart : s.look start.node = some start.value) (hoffer : offer p s start cell = some v) :
    |v.value| ≤ ((p.rows : Int) + p.cols) * p.greatestCost ∧ Amount.InRange v.value := by
  obtain ⟨habs, hrange⟩ := h.inRange hp (c := (cell.row, cell.col)) hplace hstart
  rw [offer] at hoffer
  split at hoffer
  · contradiction
  · cases hoffer
    exact ⟨habs.trans (mul_le_mul_of_nonneg_right h.known_le p.greatestCost_nonneg), hrange⟩

theorem Found.assign (h : s.Found p g) (hp : p.Sound) (hfit : g.Fits p) {c : Nat × Nat}
    (hc : c ∈ g.basis) {a b : Node} (hab : Joins c a b) {x : Int} (ha : s.look a = some x)
    (hb : s.look b = none) : (s.assign b (p.costAt c.1 c.2 - x)).Found p g := by
  obtain ⟨hi, hj, -⟩ := Grid.mem_basis.mp hc
  rw [hfit.1] at hi
  rw [hfit.2] at hj
  have hwithin : b.Within p.rows p.cols := by
    rcases hab with ⟨-, rfl⟩ | ⟨-, rfl⟩
    · exact hj
    · exact hi
  have hlook := h.sized.look_assign hwithin (p.costAt c.1 c.2 - x)
  have hunknowns := h.sized.unknowns_assign hwithin hb (p.costAt c.1 c.2 - x)
  have hknown : (s.assign b (p.costAt c.1 c.2 - x)).known p = s.known p + 1 := by
    rw [known, known]
    omega
  exact {
    sized := h.sized.assign _ _
    first := by
      rw [hlook]
      split
      · next heq =>
          rw [← heq, h.first] at hb
          contradiction
      · exact h.first
    bounded := by
      intro n y hy
      rw [hknown, add_mul, one_mul]
      rw [hlook] at hy
      split at hy
      · cases hy
        have := (h.inRange hp ⟨hi, hj⟩ ha).1
        omega
      · have := h.bounded n y hy
        have := p.greatestCost_nonneg
        omega
    forced := by
      intro f hf n y hy
      rw [hlook] at hy
      split at hy
      · next heq =>
          cases hy
          rw [heq, hf.joins hc hab, h.forced f hf a x ha]
      · exact h.forced f hf n y hy
    reached := by
      intro S hS hfirst n hn
      rw [hlook] at hn
      split at hn
      · next heq =>
          rw [heq]
          exact (hS.iff_of_joins hc hab).mp (h.reached S hS hfirst a (by simp [ha]))
      · exact h.reached S hS hfirst n hn }

/-- With no basic cell between a found and a missing value, a value is missing exactly if the basis
is not connected. -/
theorem Found.unknowns_eq_zero_iff (h : s.Found p g) (hp : p.Sound)
    (hclosed : Respects g.basis fun n => s.look n ≠ none) :
    s.unknowns = 0 ↔ Spans p.rows p.cols g.basis := by
  rw [h.sized.unknowns_eq_zero_iff]
  constructor
  · intro hall S hS a b ha hb hSa
    by_cases hfirst : S (.source 0)
    · exact h.reached S hS hfirst b (hall b hb)
    · exact absurd hSa (h.reached _ hS.not hfirst a (hall a ha))
  · intro hspans n hn
    have hfirst : s.look (.source 0) ≠ none := by simp [h.first]
    exact hspans _ hclosed (.source 0) n hp.rows_pos hn hfirst

theorem Found.look_eq_some (h : s.Found p g) (hp : p.Sound)
    (hspans : Spans p.rows p.cols g.basis) (hclosed : Respects g.basis fun n => s.look n ≠ none)
    {f : Node → Int} (hf : Prices p g f) {n : Node} (hn : n.Within p.rows p.cols) :
    s.look n = some (f n) := by
  have hzero := (h.unknowns_eq_zero_iff hp hclosed).mpr hspans
  have hsome := h.sized.unknowns_eq_zero_iff.mp hzero n hn
  obtain ⟨x, hx⟩ := Option.ne_none_iff_exists'.mp hsome
  rw [hx, h.forced f hf n x hx]

private theorem filterMap_id_eq_map {xs : List (Option Int)} {k : Nat} {value : Nat → Int}
    (hlen : xs.length = k) (hget : ∀ l, l < k → xs.getD l none = some (value l)) :
    xs.filterMap id = (List.range k).map value := by
  have hxs : xs = ((List.range k).map value).map some := by
    apply List.ext_getElem
    · simpa using hlen
    · intro l hl hl'
      have := hget l (hlen ▸ hl)
      rw [List.getD_eq_getElem _ _ hl] at this
      simpa using this
  rw [hxs, List.filterMap_map]
  exact List.filterMap_some

theorem Sized.complete_eq_ok (h : s.Sized p) {f : Node → Int}
    (hall : ∀ n : Node, n.Within p.rows p.cols → s.look n = some (f n)) :
    s.complete = .ok (.ofValues p f) := by
  have hzero : s.unknowns = 0 := h.unknowns_eq_zero_iff.mpr fun n hn => by simp [hall n hn]
  have hu := filterMap_id_eq_map h.length_u fun i hi => hall (.source i) hi
  have hv := filterMap_id_eq_map h.length_v fun j hj => hall (.sink j) hj
  rw [complete, if_pos hzero, hu, hv]
  rfl

theorem Found.complete_eq_ok (h : s.Found p g) (hp : p.Sound)
    (hspans : Spans p.rows p.cols g.basis) (hclosed : Respects g.basis fun n => s.look n ≠ none)
    {f : Node → Int} (hf : Prices p g f) : s.complete = .ok (.ofValues p f) :=
  h.sized.complete_eq_ok fun _ hn => h.look_eq_some hp hspans hclosed hf hn

theorem Found.exists_of_complete (h : s.Found p g) {values : Potentials}
    (hvalues : s.complete = .ok values) :
    ∃ f, values = .ofValues p f ∧ ∀ n : Node, n.Within p.rows p.cols →
      |f n| + p.greatestCost ≤ ((p.rows : Int) + p.cols) * p.greatestCost := by
  have hzero : s.unknowns = 0 := by
    by_contra hne
    rw [complete, if_neg hne] at hvalues
    cases hvalues
  have hall : ∀ n : Node, n.Within p.rows p.cols → s.look n = some ((s.look n).getD 0) := by
    intro n hn
    obtain ⟨x, hx⟩ := Option.ne_none_iff_exists'.mp (h.sized.unknowns_eq_zero_iff.mp hzero n hn)
    simp [hx]
  refine ⟨fun n => (s.look n).getD 0, ?_, fun n hn => ?_⟩
  · rw [h.sized.complete_eq_ok hall] at hvalues
    exact (Except.ok.inj hvalues).symm
  · exact (h.bounded n _ (hall n hn)).trans
      (mul_le_mul_of_nonneg_right h.known_le p.greatestCost_nonneg)

end Found

end PartialPotentials

namespace Potentials

/-- A search that ends with no basic cell between a found and a missing value. -/
def Exhausts (p : Problem) (g : Grid) (result : Except Failure Potentials) : Prop :=
  ∃ s : PartialPotentials, result = s.complete ∧ s.Found p g ∧
    Respects g.basis fun n => s.look n ≠ none

section Exhausts

variable {p : Problem} {g : Grid} {result : Except Failure Potentials} {f : Node → Int}

theorem Exhausts.eq_error_iff (h : Exhausts p g result) (hp : p.Sound) :
    result = .error .disconnectedBasis ↔ ¬ Spans p.rows p.cols g.basis := by
  obtain ⟨s, rfl, hfound, hclosed⟩ := h
  rw [← hfound.unknowns_eq_zero_iff hp hclosed, PartialPotentials.complete]
  split <;> simp_all

theorem Exhausts.eq_disconnected (h : Exhausts p g result) {failure : Failure}
    (hfailure : result = .error failure) : failure = .disconnectedBasis := by
  obtain ⟨s, rfl, -, -⟩ := h
  rw [PartialPotentials.complete] at hfailure
  split at hfailure
  · cases hfailure
  · exact (Except.error.inj hfailure).symm

theorem Exhausts.exists_of_eq_ok (h : Exhausts p g result) {values : Potentials}
    (hvalues : result = .ok values) :
    ∃ f, values = .ofValues p f ∧ ∀ n : Node, n.Within p.rows p.cols →
      |f n| + p.greatestCost ≤ ((p.rows : Int) + p.cols) * p.greatestCost := by
  obtain ⟨s, rfl, hfound, -⟩ := h
  exact hfound.exists_of_complete hvalues

theorem Exhausts.exists_eq_ok (h : Exhausts p g result) (hp : p.Sound)
    (hspans : Spans p.rows p.cols g.basis) : ∃ values, result = .ok values := by
  obtain ⟨s, rfl, hfound, hclosed⟩ := h
  have hzero := (hfound.unknowns_eq_zero_iff hp hclosed).mpr hspans
  exact ⟨_, if_pos hzero⟩

theorem Exhausts.eq_ok_of_spans (h : Exhausts p g result) (hp : p.Sound)
    (hspans : Spans p.rows p.cols g.basis) (hf : Prices p g f) :
    result = .ok (.ofValues p f) := by
  obtain ⟨s, rfl, hfound, hclosed⟩ := h
  exact hfound.complete_eq_ok hp hspans hclosed hf

theorem Exhausts.eq_ok (h : Exhausts p g result) (hp : p.Sound) (hg : g.BasicPlan p)
    (hf : Prices p g f) : result = .ok (.ofValues p f) :=
  h.eq_ok_of_spans hp (hg.spans hp) hf

theorem Exhausts.abs_le (h : Exhausts p g result) (hp : p.Sound) (hg : g.BasicPlan p)
    (hf : Prices p g f) {n : Node} (hn : n.Within p.rows p.cols) :
    |f n| + p.greatestCost ≤ ((p.rows : Int) + p.cols) * p.greatestCost := by
  obtain ⟨s, -, hfound, hclosed⟩ := h
  have hlook := hfound.look_eq_some hp (hg.spans hp) hclosed hf hn
  exact (hfound.bounded n _ hlook).trans
    (mul_le_mul_of_nonneg_right hfound.known_le p.greatestCost_nonneg)

end Exhausts

end Potentials

end Transportation
