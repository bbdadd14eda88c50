import Transportation.Chain
import Transportation.Proofs.Plans
/-!
# Trails

A trail goes from node to node along cells. In a forest no trail without repeated cells returns to
its beginning. Cells along a trail take alternating signs, and the signed sum of any values of nodes
leaves only the two ends of the trail.
-/
namespace Transportation

/-- The cells lead from one node to another, each one on from the end of the one before. -/
def Trail : Node → List (Nat × Nat) → Node → Prop
  | a, [], b => a = b
  | a, c :: cs, b => ∃ m, Joins c a m ∧ Trail m cs b

section Trail

variable {E : Finset (Nat × Nat)} {S : Node → Prop} {a b d : Node} {c : Nat × Nat}
  {xs ys cs : List (Nat × Nat)}

theorem Joins.unique (h : Joins c a b) (h' : Joins c a d) : b = d := by
  rcases h with ⟨rfl, rfl⟩ | ⟨rfl, rfl⟩ <;> rcases h' with ⟨h', rfl⟩ | ⟨h', rfl⟩ <;> simp_all

theorem trail_append : Trail a (xs ++ ys) b ↔ ∃ m, Trail a xs m ∧ Trail m ys b := by
  induction xs generalizing a with
  | nil => simp [Trail]
  | cons x xs ih =>
      constructor
      · rintro ⟨m, hm, hrest⟩
        obtain ⟨k, hk, hys⟩ := ih.mp hrest
        exact ⟨k, ⟨m, hm, hk⟩, hys⟩
      · rintro ⟨k, ⟨m, hm, hk⟩, hys⟩
        exact ⟨m, hm, ih.mpr ⟨k, hk, hys⟩⟩

theorem trail_iff_exists_nodes : Trail a cs b ↔ ∃ f : Nat → Node, f 0 = a ∧ f cs.length = b ∧
    ∀ k c, cs[k]? = some c → Joins c (f k) (f (k + 1)) := by
  induction cs generalizing a with
  | nil =>
      constructor
      · intro h
        exact ⟨fun _ => a, rfl, h, by simp⟩
      · intro ⟨f, hstart, hend, _⟩
        exact hstart.symm.trans hend
  | cons c cs ih =>
      constructor
      · intro ⟨m, hm, hrest⟩
        obtain ⟨f, rfl, hend, hjoin⟩ := ih.mp hrest
        refine ⟨fun k => if k = 0 then a else f (k - 1), rfl, by simpa using hend, fun k d hd => ?_⟩
        cases k with
        | zero =>
            obtain rfl : c = d := by simpa using hd
            exact hm
        | succ k => exact hjoin k d hd
      · intro ⟨f, hstart, hend, hjoin⟩
        refine ⟨f 1, hstart ▸ hjoin 0 c rfl, ih.mpr ⟨fun k => f (k + 1), rfl, hend, ?_⟩⟩
        exact fun k d hd => hjoin (k + 1) d hd

theorem trail_concat : Trail a (xs ++ [c]) b ↔ ∃ m, Trail a xs m ∧ Joins c m b := by
  rw [trail_append]
  simp [Trail]

theorem Trail.unique (h : Trail a cs b) (h' : Trail a cs d) : b = d := by
  induction cs generalizing a with
  | nil => exact h.symm.trans h'
  | cons c cs ih =>
      obtain ⟨m, hm, hrest⟩ := h
      obtain ⟨m', hm', hrest'⟩ := h'
      obtain rfl := hm.unique hm'
      exact ih hrest hrest'

theorem Respects.iff_of_trail (hS : Respects E S) (h : Trail a cs b) (hcs : ∀ c ∈ cs, c ∈ E) :
    S a ↔ S b := by
  induction cs generalizing a with
  | nil => rw [show a = b from h]
  | cons c cs ih =>
      obtain ⟨m, hm, hrest⟩ := h
      exact (hS.iff_of_joins (hcs c List.mem_cons_self) hm).trans
        (ih hrest fun d hd => hcs d (List.mem_cons_of_mem c hd))

theorem Forest.trail_ne (hE : Forest E) (h : Trail a (c :: cs) b) (hnodup : (c :: cs).Nodup)
    (hcs : ∀ d ∈ c :: cs, d ∈ E) : a ≠ b := by
  obtain ⟨m, hm, hrest⟩ := h
  obtain ⟨S, hS, hsource, hsink⟩ := hE c (hcs c List.mem_cons_self)
  have hsub : ∀ d ∈ cs, d ∈ E.erase c := by
    intro d hd
    refine Finset.mem_erase.mpr ⟨?_, hcs d (List.mem_cons_of_mem c hd)⟩
    rintro rfl
    exact (List.nodup_cons.mp hnodup).1 hd
  have hiff := hS.iff_of_trail hrest hsub
  rintro rfl
  rcases hm with ⟨rfl, rfl⟩ | ⟨rfl, rfl⟩
  · exact hsink (hiff.mpr hsource)
  · exact hsink (hiff.mp hsource)

theorem Forest.trail_unique (hE : Forest E) (h : Trail a xs b) (h' : Trail a ys b)
    (hxs : xs.Nodup) (hys : ys.Nodup) (hsub : ∀ d ∈ xs, d ∈ E) (hsub' : ∀ d ∈ ys, d ∈ E) :
    xs = ys := by
  induction xs generalizing a ys with
  | nil =>
      cases ys with
      | nil => rfl
      | cons d ys => exact absurd h (hE.trail_ne h' hys hsub')
  | cons c xs ih =>
      obtain ⟨hnew, hnodup⟩ := List.nodup_cons.mp hxs
      obtain ⟨m, hm, hrest⟩ := h
      obtain ⟨hc, htail⟩ := List.forall_mem_cons.mp hsub
      obtain ⟨S, hS, hsource, hsink⟩ := hE c hc
      have hcross : ∀ x y, Joins c x y → (S x ↔ ¬ S y) := by
        rintro x y (⟨rfl, rfl⟩ | ⟨rfl, rfl⟩) <;> simp [hsource, hsink]
      have haround : ∀ {x y : Node} {ds : List (Nat × Nat)}, Trail x ds y → c ∉ ds →
          (∀ d ∈ ds, d ∈ E) → (S x ↔ S y) := fun htrail hnot hds =>
        hS.iff_of_trail htrail fun d hd =>
          Finset.mem_erase.mpr ⟨fun heq => hnot (heq ▸ hd), hds d hd⟩
      have hrest' := haround hrest hnew htail
      have hmem : c ∈ ys := by
        by_contra hnot
        have hall := haround h' hnot hsub'
        have := hcross a m hm
        tauto
      obtain ⟨us, vs, rfl⟩ := List.append_of_mem hmem
      obtain ⟨x, hus, y, hjoin, hvs⟩ := trail_append.mp h'
      obtain ⟨hus', hvs', hapart⟩ := List.nodup_append.mp hys
      have hbefore := haround hus (fun hin => hapart c hin c List.mem_cons_self rfl)
        fun d hd => hsub' d (List.mem_append_left _ hd)
      have hax : a = x := by
        have hfrom := hcross a m hm
        have hthere := hcross x y hjoin
        rcases hm with ⟨rfl, rfl⟩ | ⟨rfl, rfl⟩ <;> rcases hjoin with ⟨rfl, rfl⟩ | ⟨rfl, rfl⟩ <;>
          first | rfl | tauto
      have hnil : us = [] := by
        cases us with
        | nil => rfl
        | cons u us =>
            exact absurd hax (hE.trail_ne hus hus' fun d hd => hsub' d (List.mem_append_left _ hd))
      subst hax hnil
      obtain rfl := hm.unique hjoin
      rw [ih hrest hvs hnodup (List.nodup_cons.mp hvs').2 htail fun d hd =>
        hsub' d (List.mem_cons_of_mem c hd)]
      rfl

/-- A cell of a closed trail is not needed to connect the nodes. -/
theorem Spans.erase_of_trail {m n : Nat} (hE : Spans m n E) (h : Trail a cs a) (hnodup : cs.Nodup)
    (hcs : ∀ d ∈ cs, d ∈ E) (hc : c ∈ cs) : Spans m n (E.erase c) := by
  intro S hS
  apply hE S
  obtain ⟨xs, ys, rfl⟩ := List.append_of_mem hc
  obtain ⟨x, hxs, y, hjoin, hys⟩ := trail_append.mp h
  -- The rest of the trail connects the two ends of `c` the other way round.
  have hsub : ∀ d ∈ xs ++ ys, d ∈ E.erase c := by
    intro d hd
    refine Finset.mem_erase.mpr ⟨?_, hcs d ?_⟩
    · rintro rfl
      exact (List.nodup_middle.mp hnodup).notMem hd
    · rcases List.mem_append.mp hd with hd | hd <;> simp [hd]
  have hx := hS.iff_of_trail hxs fun d hd => hsub d (List.mem_append_left _ hd)
  have hy := hS.iff_of_trail hys fun d hd => hsub d (List.mem_append_right _ hd)
  have hends : S x ↔ S y := hx.symm.trans hy.symm
  intro d hd
  by_cases hdc : d = c
  · subst hdc
    rcases hjoin with ⟨rfl, rfl⟩ | ⟨rfl, rfl⟩
    · exact hends
    · exact hends.symm
  · exact hS d (Finset.mem_erase.mpr ⟨hdc, hd⟩)

end Trail

def Sign.flip : Sign → Sign
  | .plus => .minus
  | .minus => .plus

def Sign.factor : Sign → Int
  | .plus => 1
  | .minus => -1

def Node.sign : Node → Sign
  | .source _ => .minus
  | .sink _ => .plus

def Grid.link (p : Problem) (g : Grid) (sign : Sign) (c : Nat × Nat) : Link :=
  ⟨c.1, c.2, p.costAt c.1 c.2, g.amount c.1 c.2, sign⟩

def Grid.signed (p : Problem) (g : Grid) : Sign → List (Nat × Nat) → List Link
  | _, [] => []
  | sign, c :: cs => g.link p sign c :: signed p g sign.flip cs

section Signed

variable {p : Problem} {g : Grid} {a b m : Node} {c : Nat × Nat} {xs cs : List (Nat × Nat)}
  {l : Link}

@[simp] theorem Sign.flip_flip (s : Sign) : s.flip.flip = s := by
  cases s <;> rfl

theorem Joins.sign_eq (h : Joins c a b) : b.sign = a.sign.flip := by
  rcases h with ⟨rfl, rfl⟩ | ⟨rfl, rfl⟩ <;> rfl

/-- A plus cell leads from its sink to its source. -/
theorem Joins.of_plus (h : Joins c a b) (ha : a.sign = .plus) :
    a = .sink c.2 ∧ b = .source c.1 := by
  rcases h with ⟨rfl, rfl⟩ | h
  · contradiction
  · exact h

theorem Joins.of_minus (h : Joins c a b) (ha : a.sign = .minus) :
    a = .source c.1 ∧ b = .sink c.2 := by
  rcases h with h | ⟨rfl, rfl⟩
  · exact h
  · contradiction

theorem sign_of_joins {f : Nat → Node} {k : Nat}
    (hjoin : ∀ k c, cs[k]? = some c → Joins c (f k) (f (k + 1))) (hk : k ≤ cs.length) :
    (f k).sign = if k % 2 = 0 then (f 0).sign else (f 0).sign.flip := by
  induction k with
  | zero => rfl
  | succ k ih =>
      rw [(hjoin k cs[k] (List.getElem?_eq_getElem hk)).sign_eq, ih (by omega)]
      rcases Nat.mod_two_eq_zero_or_one k with hk | hk
      · rw [if_pos hk, if_neg (by omega)]
      · rw [if_neg (by omega), if_pos (by omega), Sign.flip_flip]

@[simp] theorem place_link (sign : Sign) : (g.link p sign c).place = c := rfl

@[simp] theorem map_place_signed (sign : Sign) (cs : List (Nat × Nat)) :
    (g.signed p sign cs).map Link.place = cs := by
  induction cs generalizing sign with
  | nil => rfl
  | cons c cs ih => rw [Grid.signed, List.map_cons, ih, place_link]

theorem mem_signed (sign : Sign) (hl : l ∈ g.signed p sign cs) :
    l.place ∈ cs ∧ l = g.link p l.sign l.place := by
  induction cs generalizing sign with
  | nil => simp [Grid.signed] at hl
  | cons c cs ih =>
      rcases List.mem_cons.mp hl with rfl | hl
      · exact ⟨List.mem_cons_self, rfl⟩
      · exact ⟨List.mem_cons_of_mem c (ih _ hl).1, (ih _ hl).2⟩

theorem sign_signed {s : Sign} {k : Nat} (h : (g.signed p s cs)[k]? = some l) :
    l.sign = if k % 2 = 0 then s else s.flip := by
  induction cs generalizing s k with
  | nil => simp [Grid.signed] at h
  | cons c cs ih =>
      cases k with
      | zero =>
          obtain rfl : g.link p s c = l := by simpa [Grid.signed] using h
          rfl
      | succ k =>
          rw [ih (by simpa [Grid.signed] using h)]
          rcases Nat.mod_two_eq_zero_or_one k with hk | hk
          · rw [if_pos hk, if_neg (by omega)]
          · rw [if_neg (by omega), if_pos (by omega), Sign.flip_flip]

theorem signed_concat (h : Trail a xs b) :
    g.signed p a.sign (xs ++ [c]) = g.signed p a.sign xs ++ [g.link p b.sign c] := by
  induction xs generalizing a with
  | nil =>
      obtain rfl : a = b := h
      rfl
  | cons x xs ih =>
      obtain ⟨m, hm, hrest⟩ := h
      rw [List.cons_append, Grid.signed, ← hm.sign_eq, ih hrest, Grid.signed, ← hm.sign_eq]
      rfl

theorem Trail.split_plus (h : Trail a cs b) (hl : l ∈ g.signed p a.sign cs)
    (hplus : l.sign = .plus) : ∃ xs ys, cs = xs ++ l.place :: ys ∧
      Trail a xs (.sink l.col) ∧ Trail (.source l.row) ys b := by
  induction cs generalizing a with
  | nil => simp [Grid.signed] at hl
  | cons c cs ih =>
      obtain ⟨m, hm, hrest⟩ := h
      rcases List.mem_cons.mp hl with rfl | hl
      · obtain ⟨rfl, rfl⟩ := hm.of_plus hplus
        exact ⟨[], cs, rfl, rfl, hrest⟩
      · rw [← hm.sign_eq] at hl
        obtain ⟨xs, ys, rfl, hxs, hys⟩ := ih hrest hl
        exact ⟨c :: xs, ys, rfl, ⟨m, hm, hxs⟩, hys⟩

theorem Trail.sum_signed (h : Trail a cs b) (f : Node → Int) :
    ((g.signed p a.sign cs).map fun l =>
      l.sign.factor * (f (.source l.row) + f (.sink l.col))).sum =
        a.sign.factor * f a - b.sign.factor * f b := by
  induction cs generalizing a with
  | nil =>
      obtain rfl : a = b := h
      simp [Grid.signed]
  | cons c cs ih =>
      obtain ⟨m, hm, hrest⟩ := h
      rw [Grid.signed, List.map_cons, List.sum_cons, ← hm.sign_eq, ih hrest]
      generalize b.sign.factor * f b = last
      rcases hm with ⟨rfl, rfl⟩ | ⟨rfl, rfl⟩ <;>
        simp only [Grid.link, Node.sign, Sign.factor] <;> ring

end Signed

end Transportation
