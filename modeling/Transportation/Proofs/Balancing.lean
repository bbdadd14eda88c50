import Mathlib.Algebra.Order.BigOperators.Group.List
import Mathlib.Algebra.Order.Group.Int
import Transportation.Instance
import Transportation.Proofs.Rejections
/-!
# Balancing random instances

The loop that balances a random instance goes on while the supplies and the demands differ, one unit
a round. The side that has more gives as long as it has an entry above one, and only when it has
none the other side grows. So whichever entries the source of draws picks, the totals meet at the
total of the smaller side, or at the number of entries of the larger one if that is more.
-/
namespace Transportation

namespace Instance

variable {σ : Type} {source : DrawSource σ} {attempts : Nat}

section Draws

variable {greatest : Int} (hfair : source.Fair) (hpos : 1 ≤ greatest)

include hfair hpos

theorem drawUpTo_spec (state : σ) :
    1 ≤ (drawUpTo source greatest state).1 ∧ (drawUpTo source greatest state).1 ≤ greatest := by
  have hdraw := hfair .double greatest.toNat state (by omega)
  change 1 ≤ 1 + ((source.below .double greatest.toNat state).1 : Int) ∧
    1 + ((source.below .double greatest.toNat state).1 : Int) ≤ greatest
  omega

theorem drawList_spec (n : Nat) (state : σ) : (drawList source greatest n state).1.length = n ∧
    ∀ x ∈ (drawList source greatest n state).1, 1 ≤ x ∧ x ≤ greatest := by
  induction n generalizing state with
  | zero => simp [drawList]
  | succ n ih =>
      have hfirst := drawUpTo_spec hfair hpos state
      obtain ⟨hlength, hrest⟩ := ih (drawUpTo source greatest state).2
      simp only [drawList, List.length_cons, hlength, List.forall_mem_cons]
      exact ⟨trivial, hfirst, hrest⟩

theorem drawTable_spec (cols n : Nat) (state : σ) :
    (drawTable source greatest cols n state).1.length = n ∧
      ∀ row ∈ (drawTable source greatest cols n state).1,
        row.length = cols ∧ ∀ c ∈ row, 1 ≤ c ∧ c ≤ greatest := by
  induction n generalizing state with
  | zero => simp [drawTable]
  | succ n ih =>
      have hrow := drawList_spec hfair hpos cols state
      obtain ⟨hlength, hrest⟩ := ih (drawList source greatest cols state).2
      simp only [drawTable, List.length_cons, hlength, List.forall_mem_cons]
      exact ⟨trivial, hrow, hrest⟩

end Draws

section Entries

variable {xs : List Int} {k : Nat} {change : Int}

theorem bump_eq_ok (hk : k < xs.length) (hrange : Amount.InRange (xs[k] + change)) :
    bump xs k change = .ok (xs.set k (xs[k] + change)) := by
  rw [bump, entry_of_lt hk, ok_bind, Amount.ofInt_of_inRange hrange]
  rfl

theorem sum_set_add (hk : k < xs.length) : (xs.set k (xs[k] + change)).sum = xs.sum + change := by
  rw [List.sum_set', dif_pos hk]
  omega

theorem forall_mem_set {P : Int → Prop} (h : ∀ x ∈ xs, P x) {x : Int} (hx : P x) :
    ∀ y ∈ xs.set k x, P y := by
  intro y hy
  rcases List.mem_or_eq_of_mem_set hy with hy | rfl
  · exact h y hy
  · exact hx

theorem length_le_sum (h : ∀ x ∈ xs, 1 ≤ x) : (xs.length : Int) ≤ xs.sum := by
  simpa using List.card_nsmul_le_sum xs 1 h

theorem le_sum_of_mem (h : ∀ x ∈ xs, 1 ≤ x) {x : Int} (hx : x ∈ xs) : x ≤ xs.sum :=
  List.single_le_sum (fun y hy => le_trans zero_le_one (h y hy)) x hx

theorem of_drawAboveOne {state state' : σ}
    (h : drawAboveOne source xs attempts state = some (k, state')) :
    ∃ hk : k < xs.length, 1 < xs[k] := by
  induction attempts generalizing state with
  | zero => cases h
  | succ attempts ih =>
      rw [drawAboveOne] at h
      dsimp only at h
      split at h
      · next habove =>
          cases h
          by_cases hk : (source.below .single xs.length state).1 < xs.length
          · rw [List.getD_eq_getElem _ _ hk] at habove
            exact ⟨hk, habove⟩
          · rw [List.getD_eq_default _ _ (not_lt.mp hk)] at habove
            omega
      · exact ih h

end Entries

/-- The larger side has an entry to shrink, and no attempt finds one. -/
structure Misses (source : DrawSource σ) (attempts : Nat) (s : Sides σ) : Prop where
  above_one : ∃ x ∈ s.larger, 1 < x
  missed : drawAboveOne source s.larger attempts s.state = none

/-- Sides of `m` and `k` entries, `x` units apart, of which the smaller started at the total `base`.
It has grown only if the larger one is down to ones. -/
structure Sides.Closing (m k : Nat) (base : Int) (x : Nat) (s : Sides σ) : Prop where
  length_larger : s.larger.length = m
  length_smaller : s.smaller.length = k
  one_le_larger : ∀ y ∈ s.larger, 1 ≤ y
  one_le_smaller : ∀ y ∈ s.smaller, 1 ≤ y
  sum_le : s.larger.sum ≤ Amount.greatest
  sum_eq : s.larger.sum = s.smaller.sum + x
  base_le : base ≤ s.smaller.sum
  reached : s.smaller.sum = base ∨ s.larger.sum = m

namespace Sides.Closing

variable {m k x : Nat} {base : Int} {s : Sides σ}

theorem start (hlarger : ∀ y ∈ s.larger, 1 ≤ y) (hsmaller : ∀ y ∈ s.smaller, 1 ≤ y)
    (hle : s.larger.sum ≤ Amount.greatest) (hx : s.larger.sum = s.smaller.sum + x) :
    s.Closing s.larger.length s.smaller.length s.smaller.sum x where
  length_larger := rfl
  length_smaller := rfl
  one_le_larger := hlarger
  one_le_smaller := hsmaller
  sum_le := hle
  sum_eq := hx
  base_le := le_rfl
  reached := .inl rfl

/-- The total at which the sides meet does not depend on the draws. -/
theorem sums_eq (h : s.Closing m k base 0) :
    s.larger.sum = max base m ∧ s.smaller.sum = max base m := by
  have hlength := length_le_sum h.one_le_larger
  have hbase := h.base_le
  have hmeet := h.sum_eq
  rw [h.length_larger] at hlength
  rcases h.reached with hreached | hreached <;> omega

theorem le_greatest (h : s.Closing m k base x) :
    ∀ y ∈ s.larger ++ s.smaller, 1 ≤ y ∧ y ≤ Amount.greatest := by
  have hsum := h.sum_le
  have hless := h.sum_eq
  rw [List.forall_mem_append]
  constructor
  · intro y hy
    have hle := le_sum_of_mem h.one_le_larger hy
    exact ⟨h.one_le_larger y hy, by omega⟩
  · intro y hy
    have hle := le_sum_of_mem h.one_le_smaller hy
    exact ⟨h.one_le_smaller y hy, by omega⟩

theorem shrink {i : Nat} (h : s.Closing m k base (x + 1)) (hi : i < s.larger.length)
    (habove : 1 < s.larger[i]) (state : σ) :
    Sides.Closing m k base x { s with larger := s.larger.set i (s.larger[i] + -1), state } := by
  have hsum : (s.larger.set i (s.larger[i] + -1)).sum = s.larger.sum + -1 := sum_set_add hi
  have hone : ∀ y ∈ s.larger.set i (s.larger[i] + -1), 1 ≤ y :=
    forall_mem_set h.one_le_larger (by omega)
  have hlength := length_le_sum hone
  rw [List.length_set, h.length_larger, hsum] at hlength
  have hapart := h.sum_eq
  have hle := h.sum_le
  exact {
    length_larger := by rw [List.length_set, h.length_larger]
    length_smaller := h.length_smaller
    one_le_larger := hone
    one_le_smaller := h.one_le_smaller
    sum_le := by
      dsimp only
      omega
    sum_eq := by
      dsimp only
      omega
    base_le := h.base_le
    reached := .inl (h.reached.resolve_right (by omega)) }

theorem grow {i : Nat} (h : s.Closing m k base (x + 1)) (hi : i < s.smaller.length)
    (hones : ∀ y ∈ s.larger, y ≤ 1) (state : σ) :
    Sides.Closing m k base x { s with smaller := s.smaller.set i (s.smaller[i] + 1), state } := by
  have hsum : (s.smaller.set i (s.smaller[i] + 1)).sum = s.smaller.sum + 1 := sum_set_add hi
  have hentry := h.one_le_smaller _ (List.getElem_mem hi)
  have hdown : s.larger.sum = m := by
    rw [← h.length_larger, List.sum_eq_card_nsmul s.larger 1 fun y hy =>
      le_antisymm (hones y hy) (h.one_le_larger y hy)]
    simp
  have hapart := h.sum_eq
  have hbase := h.base_le
  exact {
    length_larger := h.length_larger
    length_smaller := by rw [List.length_set, h.length_smaller]
    one_le_larger := h.one_le_larger
    one_le_smaller := forall_mem_set h.one_le_smaller (by omega)
    sum_le := h.sum_le
    sum_eq := by
      dsimp only
      omega
    base_le := by
      dsimp only
      omega
    reached := .inr hdown }

/-- A round brings the sides one unit closer, unless the draws miss all entries above one. It never
fails. -/
theorem approach_cases (h : s.Closing m k base (x + 1)) (hfair : source.Fair) (hk : 0 < k)
    (attempts : Nat) :
    (∃ s', approach source attempts s = .ok (some s') ∧ s'.Closing m k base x) ∨
      approach source attempts s = .ok none ∧ Misses source attempts s := by
  rw [approach]
  by_cases habove : ∃ y ∈ s.larger, 1 < y
  · rw [if_pos (by simpa using habove)]
    cases hdraw : drawAboveOne source s.larger attempts s.state with
    | none => exact .inr ⟨rfl, habove, hdraw⟩
    | some drawn =>
        obtain ⟨i, state⟩ := drawn
        obtain ⟨hi, hentry⟩ := of_drawAboveOne hdraw
        have hle := (h.le_greatest _ (List.mem_append_left _ (List.getElem_mem hi))).2
        have hrange : Amount.InRange (s.larger[i] + -1) :=
          Amount.inRange_of_nonneg (by omega) (by omega)
        refine .inl ⟨_, ?_, h.shrink hi hentry state⟩
        simp only [bump_eq_ok hi hrange, ok_bind, pure_eq_ok]
  · rw [if_neg (by simpa using habove)]
    have hones : ∀ y ∈ s.larger, y ≤ 1 := by simpa using habove
    have hfirst := hfair .single s.smaller.length s.state (h.length_smaller ▸ hk)
    cases hdraw : source.below .single s.smaller.length s.state with
    | mk i state =>
        have hi : i < s.smaller.length := by rwa [hdraw] at hfirst
        have hle := le_sum_of_mem h.one_le_smaller (List.getElem_mem hi)
        have hone := h.one_le_smaller _ (List.getElem_mem hi)
        have hapart := h.sum_eq
        have hsum := h.sum_le
        have hrange : Amount.InRange (s.smaller[i] + 1) :=
          Amount.inRange_of_nonneg (by omega) (by omega)
        refine .inl ⟨_, ?_, h.grow hi hones state⟩
        simp only [bump_eq_ok hi hrange, ok_bind, pure_eq_ok]

end Sides.Closing

/-- The balancing between two rounds: how much the supplies exceed the demands, both lists, and the
state of the source. -/
structure Ledger (σ : Type) where
  excess : Int
  supply : List Int
  demand : List Int
  state : σ

namespace Ledger

def sides (l : Ledger σ) : Sides σ :=
  if 0 < l.excess then ⟨l.supply, l.demand, l.state⟩ else ⟨l.demand, l.supply, l.state⟩

def after (l : Ledger σ) (s : Sides σ) : Ledger σ :=
  if 0 < l.excess then ⟨l.excess - 1, s.larger, s.smaller, s.state⟩
  else ⟨l.excess + 1, s.smaller, s.larger, s.state⟩

def ofSides (surplus : Bool) (x : Nat) (s : Sides σ) : Ledger σ :=
  match surplus with
  | true => ⟨x, s.larger, s.smaller, s.state⟩
  | false => ⟨-x, s.smaller, s.larger, s.state⟩

variable {surplus : Bool} {x : Nat} {s s' : Sides σ}

@[simp] theorem sides_ofSides : (ofSides surplus (x + 1) s).sides = s := by
  cases surplus with
  | true => exact if_pos (by simp [ofSides])
  | false => exact if_neg (by simp [ofSides])

@[simp] theorem after_ofSides : (ofSides surplus (x + 1) s).after s' = ofSides surplus x s' := by
  cases surplus with
  | true =>
      rw [after, if_pos (by simp [ofSides])]
      simp [ofSides]
  | false =>
      rw [after, if_neg (by simp [ofSides])]
      simp [ofSides]

@[simp] theorem excess_ofSides_eq_zero_iff : (ofSides surplus x s).excess = 0 ↔ x = 0 := by
  cases surplus <;> simp [ofSides]

end Ledger

/-- A round of the loop. There is none at the end, and none where the attempts miss. -/
inductive Round (source : DrawSource σ) (attempts : Nat) : Ledger σ → Ledger σ → Prop where
  | closer {l : Ledger σ} {s : Sides σ} (hne : l.excess ≠ 0)
      (hs : approach source attempts l.sides = .ok (some s)) : Round source attempts l (l.after s)

inductive Rounds (source : DrawSource σ) (attempts : Nat) : Nat → Ledger σ → Ledger σ → Prop where
  | none {l : Ledger σ} : Rounds source attempts 0 l l
  | cons {n : Nat} {l l' l'' : Ledger σ} (h : Round source attempts l l')
      (hrest : Rounds source attempts n l' l'') : Rounds source attempts (n + 1) l l''

structure Ledger.Sound (source : DrawSource σ) (attempts rows cols : Nat) (l : Ledger σ) :
    Prop where
  length_supply : l.supply.length = rows
  length_demand : l.demand.length = cols
  entries : ∀ y ∈ l.supply ++ l.demand, 1 ≤ y ∧ y ≤ Amount.greatest
  sums_le : l.supply.sum ≤ Amount.greatest ∧ l.demand.sum ≤ Amount.greatest
  excess_eq : l.excess = l.supply.sum - l.demand.sum
  goes_on : l.excess ≠ 0 → (∃ l', Round source attempts l l') ∨ Misses source attempts l.sides

section Rounds

variable {m k x n : Nat} {base : Int} {surplus : Bool} {s : Sides σ} {l : Ledger σ}

theorem round_ofSides_succ_iff : Round source attempts (.ofSides surplus (x + 1) s) l ↔
    ∃ s', approach source attempts s = .ok (some s') ∧ l = .ofSides surplus x s' := by
  constructor
  · intro h
    cases h with
    | closer hne hs =>
        rw [Ledger.sides_ofSides] at hs
        exact ⟨_, hs, Ledger.after_ofSides⟩
  · rintro ⟨s', hs', rfl⟩
    have hne : (Ledger.ofSides surplus (x + 1) s).excess ≠ 0 := by simp
    simpa using Round.closer hne (s := s') (by simpa using hs')

theorem not_round_ofSides_zero : ¬ Round source attempts (.ofSides surplus 0 s) l := by
  intro h
  cases h with
  | closer hne hs => simp at hne

theorem Sides.Closing.sound (h : s.Closing m k base x) (hfair : source.Fair) (hk : 0 < k)
    (surplus : Bool) : (Ledger.ofSides surplus x s).Sound source attempts (cond surplus m k)
      (cond surplus k m) where
  length_supply := by
    cases surplus with
    | true => exact h.length_larger
    | false => exact h.length_smaller
  length_demand := by
    cases surplus with
    | true => exact h.length_smaller
    | false => exact h.length_larger
  entries := by
    have hentries := List.forall_mem_append.mp h.le_greatest
    cases surplus with
    | true => exact List.forall_mem_append.mpr hentries
    | false => exact List.forall_mem_append.mpr hentries.symm
  sums_le := by
    have hsum := h.sum_eq
    have hle := h.sum_le
    cases surplus <;> simp only [Ledger.ofSides] <;> omega
  excess_eq := by
    have hsum := h.sum_eq
    cases surplus <;> simp only [Ledger.ofSides] <;> omega
  goes_on := by
    intro hne
    cases x with
    | zero => simp at hne
    | succ x =>
        rcases h.approach_cases hfair hk attempts with ⟨s', hs', -⟩ | ⟨-, hmisses⟩
        · exact .inl ⟨_, round_ofSides_succ_iff.mpr ⟨s', hs', rfl⟩⟩
        · exact .inr (by simpa using hmisses)

theorem Rounds.closing (hrounds : Rounds source attempts n (.ofSides surplus x s) l)
    (h : s.Closing m k base x) (hfair : source.Fair) (hk : 0 < k) :
    ∃ y s', x = n + y ∧ l = .ofSides surplus y s' ∧ s'.Closing m k base y := by
  induction n generalizing x s with
  | zero =>
      cases hrounds
      exact ⟨x, s, by omega, rfl, h⟩
  | succ n ih =>
      cases hrounds with
      | cons hround hrest =>
          cases x with
          | zero => exact absurd hround not_round_ofSides_zero
          | succ x =>
              obtain ⟨s', hs', rfl⟩ := round_ofSides_succ_iff.mp hround
              have hnext : s'.Closing m k base x := by
                rcases h.approach_cases hfair hk attempts with ⟨s'', hs'', hclosing⟩ | ⟨hnone, -⟩
                · rw [hs'] at hs''
                  cases hs''
                  exact hclosing
                · rw [hs'] at hnone
                  cases hnone
              obtain ⟨y, t, hy, rfl, ht⟩ := ih hrest hnext
              exact ⟨y, t, by omega, rfl, ht⟩

theorem balance_cases (h : s.Closing m k base x) (hfair : source.Fair) (hk : 0 < k)
    (attempts : Nat) (surplus : Bool) :
    (∃ s', balance source attempts x s = .ok (some s') ∧
      Rounds source attempts x (.ofSides surplus x s) (.ofSides surplus 0 s')) ∨
    balance source attempts x s = .ok none ∧
      ∃ n l, Rounds source attempts n (.ofSides surplus x s) l ∧
        l.excess ≠ 0 ∧ Misses source attempts l.sides := by
  induction x generalizing s with
  | zero => exact .inl ⟨s, rfl, .none⟩
  | succ x ih =>
      rw [balance]
      rcases h.approach_cases hfair hk attempts with ⟨s', hs', hnext⟩ | ⟨hnone, hmisses⟩
      · have hround : Round source attempts (.ofSides surplus (x + 1) s) (.ofSides surplus x s') :=
          round_ofSides_succ_iff.mpr ⟨s', hs', rfl⟩
        rw [hs', ok_bind]
        rcases ih hnext with ⟨t, ht, hrounds⟩ | ⟨ht, n, l, hrounds, hmisses⟩
        · exact .inl ⟨t, ht, .cons hround hrounds⟩
        · exact .inr ⟨ht, n + 1, l, .cons hround hrounds, hmisses⟩
      · rw [hnone]
        exact .inr ⟨rfl, 0, _, .none, by simp, by simpa using hmisses⟩

end Rounds

/-- All that is drawn before the balancing. -/
structure Drawn (σ : Type) where
  costs : List (List Int)
  supply : List Int
  demand : List Int
  state : σ

/-- The costs are drawn first, then the supplies and then the demands. -/
def drawn (source : DrawSource σ) (settings : InstanceSettings) (state : σ) : Drawn σ :=
  let (costs, state) := drawTable source settings.maxCost settings.cols settings.rows state
  let (supply, state) := drawList source settings.maxSupply settings.rows state
  let (demand, state) := drawList source settings.maxDemand settings.cols state
  ⟨costs, supply, demand, state⟩

namespace Drawn

def ledger (D : Drawn σ) : Ledger σ := ⟨D.supply.sum - D.demand.sum, D.supply, D.demand, D.state⟩

def sides (D : Drawn σ) (surplus : Bool) : Sides σ :=
  match surplus with
  | true => ⟨D.supply, D.demand, D.state⟩
  | false => ⟨D.demand, D.supply, D.state⟩

def gap (D : Drawn σ) : Nat := (D.supply.sum - D.demand.sum).natAbs

def Summable (D : Drawn σ) : Prop :=
  D.supply.sum ≤ Amount.greatest ∧ D.demand.sum ≤ Amount.greatest

instance (D : Drawn σ) : Decidable D.Summable := inferInstanceAs (Decidable (_ ∧ _))

structure Within (settings : InstanceSettings) (D : Drawn σ) : Prop where
  rows_pos : 0 < settings.rows
  cols_pos : 0 < settings.cols
  length_costs : D.costs.length = settings.rows
  length_row : ∀ row ∈ D.costs, row.length = settings.cols
  costs_within : ∀ row ∈ D.costs, ∀ c ∈ row, 1 ≤ c ∧ c ≤ settings.maxCost
  length_supply : D.supply.length = settings.rows
  length_demand : D.demand.length = settings.cols
  one_le_supply : ∀ y ∈ D.supply, 1 ≤ y
  one_le_demand : ∀ y ∈ D.demand, 1 ≤ y

end Drawn

section Generate

variable {settings : InstanceSettings} {state : σ} {D : Drawn σ}

theorem drawn_within (hfair : source.Fair) (hvalid : settings.defect? = none) (state : σ) :
    (drawn source settings state).Within settings := by
  obtain ⟨⟨hrows, hcols⟩, hcost, hsupply, hdemand⟩ :=
    InstanceSettings.defect?_eq_none_iff.mp hvalid
  have hcosts := drawTable_spec hfair hcost settings.cols settings.rows state
  have hsupplies := drawList_spec hfair hsupply settings.rows
    (drawTable source settings.maxCost settings.cols settings.rows state).2
  have hdemands := drawList_spec hfair hdemand settings.cols (drawList source settings.maxSupply
    settings.rows (drawTable source settings.maxCost settings.cols settings.rows state).2).2
  exact {
    rows_pos := hrows
    cols_pos := hcols
    length_costs := hcosts.1
    length_row := fun row hrow => (hcosts.2 row hrow).1
    costs_within := fun row hrow => (hcosts.2 row hrow).2
    length_supply := hsupplies.1
    length_demand := hdemands.1
    one_le_supply := fun y hy => (hsupplies.2 y hy).1
    one_le_demand := fun y hy => (hdemands.2 y hy).1 }

namespace Drawn.Within

theorem excess_eq_ite (hD : D.Within settings) : excess D.supply D.demand =
    if D.Summable then .ok (D.supply.sum - D.demand.sum) else .error .tooLarge := by
  have hsupply := length_le_sum hD.one_le_supply
  have hdemand := length_le_sum hD.one_le_demand
  rw [excess, Amount.sum?_eq_ite fun y hy => le_trans zero_le_one (hD.one_le_supply y hy),
    Amount.sum?_eq_ite fun y hy => le_trans zero_le_one (hD.one_le_demand y hy)]
  by_cases hs : D.supply.sum ≤ Amount.greatest
  · by_cases hd : D.demand.sum ≤ Amount.greatest
    · have hrange : Amount.InRange (D.supply.sum - D.demand.sum) := by
        refine ⟨?_, by omega⟩
        simp only [Amount.least, Amount.greatest] at hd ⊢
        omega
      simp [hs, hd, hrange, Summable, Amount.orTooLarge, Amount.ofInt?]
    · simp [hs, hd, Summable, Amount.orTooLarge]
  · simp [hs, Summable, Amount.orTooLarge]

theorem smaller_pos (hD : D.Within settings) (surplus : Bool) :
    0 < cond surplus settings.cols settings.rows := by
  cases surplus with
  | true => exact hD.cols_pos
  | false => exact hD.rows_pos

theorem start (hD : D.Within settings) (hsum : D.Summable) (surplus : Bool)
    (hle : (D.sides surplus).smaller.sum ≤ (D.sides surplus).larger.sum) :
    D.ledger = .ofSides surplus D.gap (D.sides surplus) ∧
      (D.sides surplus).Closing (cond surplus settings.rows settings.cols)
        (cond surplus settings.cols settings.rows) (D.sides surplus).smaller.sum D.gap := by
  have hgap : (D.sides surplus).larger.sum = (D.sides surplus).smaller.sum + D.gap := by
    cases surplus <;> simp only [sides, gap] at hle ⊢ <;> omega
  constructor
  · cases surplus <;> simp only [sides, ledger, Ledger.ofSides] at hgap ⊢ <;> congr 1 <;> omega
  · cases surplus with
    | true =>
        have h := Sides.Closing.start hD.one_le_supply hD.one_le_demand hsum.1 hgap
        simpa only [sides, cond_true, cond_false, hD.length_supply, hD.length_demand] using h
    | false =>
        have h := Sides.Closing.start hD.one_le_demand hD.one_le_supply hsum.2 hgap
        simpa only [sides, cond_true, cond_false, hD.length_supply, hD.length_demand] using h

end Drawn.Within

/-- What holds of a ledger that `n` rounds reach from the drawn numbers. -/
structure Balances (source : DrawSource σ) (attempts : Nat) (settings : InstanceSettings)
    (D : Drawn σ) (n : Nat) (l : Ledger σ) : Prop where
  sound : l.Sound source attempts settings.rows settings.cols
  rounds_le : n ≤ D.gap
  ends_iff : l.excess = 0 ↔ n = D.gap
  totals_of_ge : l.excess = 0 → D.demand.sum ≤ D.supply.sum →
    l.supply.sum = max D.demand.sum settings.rows ∧ l.demand.sum = max D.demand.sum settings.rows
  totals_of_le : l.excess = 0 → D.supply.sum ≤ D.demand.sum →
    l.supply.sum = max D.supply.sum settings.cols ∧ l.demand.sum = max D.supply.sum settings.cols

section Balances

variable {n : Nat} {l : Ledger σ} (hD : D.Within settings) (hsum : D.Summable)
  (hfair : source.Fair) (hrounds : Rounds source attempts n D.ledger l)

include hD hsum hfair hrounds

theorem closing_of_rounds (surplus : Bool)
    (hle : (D.sides surplus).smaller.sum ≤ (D.sides surplus).larger.sum) :
    ∃ y s, D.gap = n + y ∧ l = .ofSides surplus y s ∧
      s.Closing (cond surplus settings.rows settings.cols)
        (cond surplus settings.cols settings.rows) (D.sides surplus).smaller.sum y := by
  obtain ⟨hledger, hstart⟩ := hD.start hsum surplus hle
  exact Rounds.closing (hledger ▸ hrounds) hstart hfair (hD.smaller_pos surplus)

theorem balances_of_rounds : Balances source attempts settings D n l := by
  have hrest : l.Sound source attempts settings.rows settings.cols ∧
      ∃ y, D.gap = n + y ∧ (l.excess = 0 ↔ y = 0) := by
    rcases le_total D.demand.sum D.supply.sum with hle | hle
    · obtain ⟨y, s, hy, rfl, hs⟩ := closing_of_rounds hD hsum hfair hrounds true hle
      exact ⟨hs.sound hfair hD.cols_pos true, y, hy, Ledger.excess_ofSides_eq_zero_iff⟩
    · obtain ⟨y, s, hy, rfl, hs⟩ := closing_of_rounds hD hsum hfair hrounds false hle
      exact ⟨hs.sound hfair hD.rows_pos false, y, hy, Ledger.excess_ofSides_eq_zero_iff⟩
  obtain ⟨hsound, y, hy, hzero⟩ := hrest
  exact {
    sound := hsound
    rounds_le := by omega
    ends_iff := by
      rw [hzero]
      omega
    totals_of_ge := by
      intro hend hle
      obtain ⟨y, s, -, rfl, hs⟩ := closing_of_rounds hD hsum hfair hrounds true hle
      obtain rfl := Ledger.excess_ofSides_eq_zero_iff.mp hend
      exact hs.sums_eq
    totals_of_le := by
      intro hend hle
      obtain ⟨y, s, -, rfl, hs⟩ := closing_of_rounds hD hsum hfair hrounds false hle
      obtain rfl := Ledger.excess_ofSides_eq_zero_iff.mp hend
      exact hs.sums_eq.symm }

end Balances

/-- What becomes of drawn numbers whose totals are amounts: the attempts miss in some round, or the
totals meet and the numbers make a problem unless they are too large for one. Costs too many for any
memory end in a breach. -/
inductive Outcome (source : DrawSource σ) (attempts : Nat) (settings : InstanceSettings)
    (D : Drawn σ) : Except Failure (Option Problem) → Prop where
  | missed {n : Nat} {l : Ledger σ} (hrounds : Rounds source attempts n D.ledger l)
      (hne : l.excess ≠ 0) (hmisses : Misses source attempts l.sides) :
      Outcome source attempts settings D (.ok none)
  | tooLarge {n : Nat} {l : Ledger σ} (hrounds : Rounds source attempts n D.ledger l)
      (hend : l.excess = 0) (hp : Problem.ofTable D.costs l.supply l.demand = .error .tooLarge) :
      Outcome source attempts settings D (.error .tooLarge)
  | oversized {n : Nat} {l : Ledger σ} (hrounds : Rounds source attempts n D.ledger l)
      (hend : l.excess = 0) (hsize : ¬ FitsMemory 8 (settings.rows * settings.cols)) :
      Outcome source attempts settings D (.error (.breach .overflow))
  | balanced {n : Nat} {l : Ledger σ} {p : Problem}
      (hrounds : Rounds source attempts n D.ledger l) (hend : l.excess = 0)
      (hp : p = ⟨settings.rows, settings.cols, D.costs.flatten, l.supply, l.demand, l.supply.sum⟩)
      (hcosts : ∀ c ∈ p.costs, 1 ≤ c ∧ c ≤ settings.maxCost) :
      Outcome source attempts settings D (.ok (some p))

theorem Ledger.Sound.ofTable_cases {l : Ledger σ}
    (h : l.Sound source attempts settings.rows settings.cols) (hD : D.Within settings)
    (hend : l.excess = 0) : Problem.ofTable D.costs l.supply l.demand = .error .tooLarge ∨
      (¬ FitsMemory 8 (settings.rows * settings.cols) ∧
        Problem.ofTable D.costs l.supply l.demand = .error (.breach .overflow)) ∨
      Problem.ofTable D.costs l.supply l.demand = .ok
        ⟨settings.rows, settings.cols, D.costs.flatten, l.supply, l.demand, l.supply.sum⟩ := by
  obtain ⟨hsupply, hdemand⟩ := List.forall_mem_append.mp h.entries
  have hexcess := h.excess_eq
  cases hp : Problem.ofTable D.costs l.supply l.demand with
  | ok p =>
      obtain ⟨-, rfl⟩ := Problem.ofTable_eq_ok_iff.mp hp
      rw [h.length_supply, h.length_demand, Amount.total_eq_sum]
      exact .inr (.inr rfl)
  | error failure =>
      cases Problem.hasDefect_of_ofTable hp with
      | tooLarge => exact .inl rfl
      | oversized hsize =>
          have hsize := hsize.size
          rw [h.length_supply, h.length_demand] at hsize
          exact .inr (.inl ⟨hsize, rfl⟩)
      | noParties hnone =>
          have hrows := hD.rows_pos
          have hcols := hD.cols_pos
          rw [← h.length_supply, List.length_pos_iff] at hrows
          rw [← h.length_demand, List.length_pos_iff] at hcols
          exact absurd hnone (not_or.mpr ⟨hrows, hcols⟩)
      | rowWidth hi hwidth =>
          rw [h.length_supply, ← hD.length_costs] at hi
          rw [List.getD_eq_getElem _ _ hi, h.length_demand] at hwidth
          exact absurd (hD.length_row _ (List.getElem_mem hi)) hwidth
      | surplusRow hmore =>
          rw [h.length_supply, hD.length_costs] at hmore
          exact absurd hmore (lt_irrefl _)
      | negativeCost hrow hcost hneg =>
          have hc := hD.costs_within _ (List.mem_of_getElem? hrow) _ (List.mem_of_getElem? hcost)
          omega
      | nonPositiveSupply hfirst =>
          have hs := hsupply _ (List.mem_of_getElem? hfirst.1)
          have hle := hfirst.2.1
          omega
      | nonPositiveDemand hfirst =>
          have hd := hdemand _ (List.mem_of_getElem? hfirst.1)
          have hle := hfirst.2.1
          omega
      | imbalanced hne => omega

theorem outcome_of_ends {n : Nat} {l : Ledger σ} (hD : D.Within settings) (hsum : D.Summable)
    (hfair : source.Fair) (hrounds : Rounds source attempts n D.ledger l) (hend : l.excess = 0) :
    Outcome source attempts settings D
      (do return some (← Problem.ofTable D.costs l.supply l.demand)) := by
  have hsound := (balances_of_rounds hD hsum hfair hrounds).sound
  rcases hsound.ofTable_cases hD hend with hp | ⟨hsize, hp⟩ | hp
  · rw [hp]
    exact .tooLarge hrounds hend hp
  · rw [hp]
    exact .oversized hrounds hend hsize
  · rw [hp]
    refine .balanced hrounds hend rfl fun c hc => ?_
    obtain ⟨row, hrow, hc⟩ := List.mem_flatten.mp hc
    exact hD.costs_within row hrow c hc

theorem outcome_of_balance (hD : D.Within settings) (hsum : D.Summable) (hfair : source.Fair)
    (attempts : Nat) (surplus : Bool)
    (hle : (D.sides surplus).smaller.sum ≤ (D.sides surplus).larger.sum) :
    (∃ s, balance source attempts D.gap (D.sides surplus) = .ok (some s) ∧
      Outcome source attempts settings D (do
        let l := Ledger.ofSides surplus 0 s
        return some (← Problem.ofTable D.costs l.supply l.demand))) ∨
    balance source attempts D.gap (D.sides surplus) = .ok none ∧
      Outcome source attempts settings D (.ok none) := by
  obtain ⟨hledger, hstart⟩ := hD.start hsum surplus hle
  rcases balance_cases hstart hfair (hD.smaller_pos surplus) attempts surplus with
    ⟨s, hs, hrounds⟩ | ⟨hnone, n, l, hrounds, hne, hmisses⟩
  · refine .inl ⟨s, hs, ?_⟩
    exact outcome_of_ends hD hsum hfair (hledger ▸ hrounds)
      (Ledger.excess_ofSides_eq_zero_iff.mpr rfl)
  · exact .inr ⟨hnone, .missed (hledger ▸ hrounds) hne hmisses⟩

theorem generate_eq_of_not_summable (hfair : source.Fair) (hvalid : settings.defect? = none)
    (hsum : ¬ (drawn source settings state).Summable) :
    generate source attempts settings state = .error .tooLarge := by
  have hexcess := (drawn_within hfair hvalid state).excess_eq_ite
  rw [if_neg hsum] at hexcess
  rw [generate, hvalid]
  change excess (drawn source settings state).supply (drawn source settings state).demand >>= _ = _
  rw [hexcess, error_bind]

theorem outcome_generate (hfair : source.Fair) (hvalid : settings.defect? = none)
    (hsum : (drawn source settings state).Summable) :
    Outcome source attempts settings (drawn source settings state)
      (generate source attempts settings state) := by
  let D := drawn source settings state
  have hD : D.Within settings := drawn_within hfair hvalid state
  have hexcess : excess D.supply D.demand = .ok (D.supply.sum - D.demand.sum) := by
    rw [hD.excess_eq_ite, if_pos hsum]
  rw [generate, hvalid]
  change Outcome source attempts settings D (excess D.supply D.demand >>= _)
  rw [hexcess, ok_bind]
  split
  · next hpos =>
      change Outcome source attempts settings D
        (balance source attempts D.gap (D.sides true) >>= _)
      have hle : D.demand.sum ≤ D.supply.sum := by omega
      rcases outcome_of_balance hD hsum hfair attempts true hle with ⟨s, hs, hout⟩ | ⟨hs, hout⟩
      · rw [hs, ok_bind]
        exact hout
      · rw [hs, ok_bind]
        exact hout
  · next hnonpos =>
      change Outcome source attempts settings D
        (balance source attempts D.gap (D.sides false) >>= _)
      have hle : D.supply.sum ≤ D.demand.sum := by omega
      rcases outcome_of_balance hD hsum hfair attempts false hle with ⟨s, hs, hout⟩ | ⟨hs, hout⟩
      · rw [hs, ok_bind]
        exact hout
      · rw [hs, ok_bind]
        exact hout

/-- The stream of any seed is a fair source. -/
theorem outcome_ofSettings (hvalid : settings.defect? = none) (fresh : UInt64)
    (hsum : (drawn KeyStream.source settings (stream settings fresh)).Summable) :
    Outcome KeyStream.source attempts settings
      (drawn KeyStream.source settings (stream settings fresh))
      (ofSettings attempts settings fresh) :=
  outcome_generate KeyStream.source_fair hvalid hsum

/-- Whatever a fair source draws, the balancing comes to the same total in as many rounds as the
totals differ by, and nothing but the size of the numbers can make it fail. -/
theorem generate_balances (hfair : source.Fair) (hvalid : settings.defect? = none) (attempts : Nat)
    (state : σ) :
    ((drawn source settings state).Summable →
      (∀ n l, Rounds source attempts n (drawn source settings state).ledger l →
        Balances source attempts settings (drawn source settings state) n l) ∧
      Outcome source attempts settings (drawn source settings state)
        (generate source attempts settings state)) ∧
    (¬ (drawn source settings state).Summable →
      generate source attempts settings state = .error .tooLarge) := by
  refine ⟨fun hsum => ⟨fun n l hrounds => ?_, ?_⟩, ?_⟩
  · exact balances_of_rounds (drawn_within hfair hvalid state) hsum hfair hrounds
  · exact outcome_generate hfair hvalid hsum
  · exact generate_eq_of_not_summable hfair hvalid

end Generate

def cycling : DrawSource Nat := ⟨fun _ bound n => (n % bound, n + 1)⟩

theorem cycling_fair : cycling.Fair := fun _ _ n hbound => Nat.mod_lt n hbound

/-- Four supplies of eight units and one demand of a single unit: four rounds bring the supplies
down to ones, and three more let the demand grow to four. -/
theorem generate_balances_cycling : (cycling.Fair ∧
    (⟨4, 1, 5, 3, 2, none⟩ : InstanceSettings).defect? = none) ∧
    ∃ l, Rounds cycling 4 7 (drawn cycling ⟨4, 1, 5, 3, 2, none⟩ 0).ledger l ∧ l.excess = 0 ∧
      l.supply.sum = 4 ∧ l.demand.sum = 4 := by
  have hvalid : (⟨4, 1, 5, 3, 2, none⟩ : InstanceSettings).defect? = none := by decide
  refine ⟨⟨cycling_fair, hvalid⟩, ?_⟩
  obtain ⟨hsummable, -⟩ := generate_balances cycling_fair hvalid 4 0
  obtain ⟨hbalances, houtcome⟩ := hsummable (by decide +kernel)
  have hgenerate : generate cycling 4 ⟨4, 1, 5, 3, 2, none⟩ 0 =
      .ok (some ⟨4, 1, [1, 2, 3, 4], [1, 1, 1, 1], [4], 4⟩) := by
    decide +kernel
  rw [hgenerate] at houtcome
  cases houtcome with
  | balanced hrounds hend hp hcosts =>
      have hl := hbalances _ _ hrounds
      obtain rfl := hl.ends_iff.mp hend
      have htotals := hl.totals_of_ge hend (by decide +kernel)
      exact ⟨_, hrounds, hend, htotals⟩

end Instance

end Transportation
