import Mathlib.Combinatorics.SimpleGraph.Acyclic
import Mathlib.Data.Finset.Prod
import Mathlib.Tactic.Linarith
import Transportation.Potentials
/-!
# Cells as edges

A set of cells is the edge set of a bipartite graph between the rows and the columns of a table.
Connection and the absence of cycles are said here through sets of nodes that no cell leads out of:
a connected set of cells has no such set but the trivial ones, and in a forest each cell is the only
one that leads out of some set.
-/
namespace Transportation

def Node.Within (m n : Nat) : Node → Prop
  | .source i => i < m
  | .sink j => j < n

/-- No cell of `E` leads out of the nodes in `S`. -/
def Respects (E : Finset (Nat × Nat)) (S : Node → Prop) : Prop :=
  ∀ c ∈ E, S (.source c.1) ↔ S (.sink c.2)

def Joins (c : Nat × Nat) (a b : Node) : Prop :=
  a = .source c.1 ∧ b = .sink c.2 ∨ a = .sink c.2 ∧ b = .source c.1

/-- The cells of `E` connect all nodes of the table. -/
def Spans (m n : Nat) (E : Finset (Nat × Nat)) : Prop :=
  ∀ S, Respects E S → ∀ a b : Node, a.Within m n → b.Within m n → S a → S b

/-- Each cell of `E` is the only one between two sets of nodes. -/
def Forest (E : Finset (Nat × Nat)) : Prop :=
  ∀ c ∈ E, ∃ S, Respects (E.erase c) S ∧ S (.source c.1) ∧ ¬ S (.sink c.2)

def cellGraph (m n : Nat) (E : Finset (Nat × Nat)) : SimpleGraph (Fin m ⊕ Fin n) where
  Adj
    | .inl i, .inr j => (i.val, j.val) ∈ E
    | .inr j, .inl i => (i.val, j.val) ∈ E
    | _, _ => False
  symm := ⟨by rintro (i | j) (i' | j') h <;> exact h⟩
  loopless := ⟨by rintro (i | j) h <;> exact h⟩

def Node.ofVertex {m n : Nat} : Fin m ⊕ Fin n → Node
  | .inl i => .source i
  | .inr j => .sink j

variable {m n : Nat} {E E' : Finset (Nat × Nat)} {S : Node → Prop}

theorem Respects.mono (h : Respects E S) (hsub : E' ⊆ E) : Respects E' S :=
  fun c hc => h c (hsub hc)

theorem Joins.symm {c : Nat × Nat} {a b : Node} (h : Joins c a b) : Joins c b a :=
  h.elim (fun h => .inr ⟨h.2, h.1⟩) fun h => .inl ⟨h.2, h.1⟩

theorem Respects.iff_of_joins (h : Respects E S) {c : Nat × Nat} (hc : c ∈ E) {a b : Node}
    (hab : Joins c a b) : S a ↔ S b := by
  rcases hab with ⟨rfl, rfl⟩ | ⟨rfl, rfl⟩
  · exact h c hc
  · exact (h c hc).symm

theorem Respects.not (h : Respects E S) : Respects E fun x => ¬ S x :=
  fun c hc => not_congr (h c hc)

theorem Spans.mono (h : Spans m n E) (hsub : E ⊆ E') : Spans m n E' :=
  fun S hS => h S (hS.mono hsub)

theorem Forest.mono (h : Forest E) (hsub : E' ⊆ E) : Forest E' := by
  intro c hc
  obtain ⟨S, hS, hsource, hsink⟩ := h c (hsub hc)
  exact ⟨S, hS.mono (Finset.erase_subset_erase c hsub), hsource, hsink⟩

private theorem within_ofVertex (x : Fin m ⊕ Fin n) : (Node.ofVertex x).Within m n := by
  cases x with
  | inl i => exact i.isLt
  | inr j => exact j.isLt

private theorem exists_vertex {a : Node} (ha : a.Within m n) :
    ∃ x : Fin m ⊕ Fin n, Node.ofVertex x = a := by
  cases a with
  | source i => exact ⟨.inl ⟨i, ha⟩, rfl⟩
  | sink j => exact ⟨.inr ⟨j, ha⟩, rfl⟩

private theorem ofVertex_injective : Function.Injective (Node.ofVertex (m := m) (n := n)) := by
  rintro (i | j) (i' | j') h <;> simp_all [Node.ofVertex, Fin.ext_iff]

private theorem Respects.iff_of_reachable {G : SimpleGraph (Fin m ⊕ Fin n)}
    (hS : ∀ x y, G.Adj x y → (S (.ofVertex x) ↔ S (.ofVertex y))) {x y : Fin m ⊕ Fin n}
    (h : G.Reachable x y) : S (.ofVertex x) ↔ S (.ofVertex y) := by
  obtain ⟨walk⟩ := h
  induction walk with
  | nil => rfl
  | cons hadj _ ih => exact (hS _ _ hadj).trans ih

private theorem Respects.iff_of_adj (hS : Respects E S) {x y : Fin m ⊕ Fin n}
    (h : (cellGraph m n E).Adj x y) : S (.ofVertex x) ↔ S (.ofVertex y) := by
  rcases x with i | j <;> rcases y with i' | j'
  · exact h.elim
  · exact hS _ h
  · exact (hS _ h).symm
  · exact h.elim

private def reached (G : SimpleGraph (Fin m ⊕ Fin n)) (x : Fin m ⊕ Fin n) (a : Node) : Prop :=
  ∃ y, Node.ofVertex y = a ∧ G.Reachable x y

private theorem reached_ofVertex {G : SimpleGraph (Fin m ⊕ Fin n)} {x y : Fin m ⊕ Fin n} :
    reached G x (.ofVertex y) ↔ G.Reachable x y := by
  constructor
  · rintro ⟨z, hz, hreach⟩
    rwa [ofVertex_injective hz] at hreach
  · exact fun h => ⟨y, rfl, h⟩

private theorem respects_reached {G : SimpleGraph (Fin m ⊕ Fin n)} (x : Fin m ⊕ Fin n)
    (hE : E ⊆ Finset.range m ×ˢ Finset.range n)
    (hadj : ∀ (i : Fin m) (j : Fin n), (i.val, j.val) ∈ E → G.Adj (.inl i) (.inr j)) :
    Respects E (reached G x) := by
  rintro ⟨i, j⟩ hc
  obtain ⟨hi, hj⟩ := Finset.mem_product.mp (hE hc)
  have h := (hadj ⟨i, Finset.mem_range.mp hi⟩ ⟨j, Finset.mem_range.mp hj⟩ hc).reachable
  refine ⟨fun hs => ?_, fun hs => ?_⟩
  · exact reached_ofVertex.mpr ((reached_ofVertex (y := .inl ⟨i, _⟩)).mp hs |>.trans h)
  · exact reached_ofVertex.mpr ((reached_ofVertex (y := .inr ⟨j, _⟩)).mp hs |>.trans h.symm)

theorem reachable_cellGraph_iff (hE : E ⊆ Finset.range m ×ˢ Finset.range n)
    {x y : Fin m ⊕ Fin n} : (cellGraph m n E).Reachable x y ↔
      ∀ S, Respects E S → S (.ofVertex x) → S (.ofVertex y) := by
  constructor
  · intro h S hS hx
    exact (Respects.iff_of_reachable (fun x y => hS.iff_of_adj) h).mp hx
  · intro h
    have hS := respects_reached (G := cellGraph m n E) x hE fun i j hij => hij
    exact reached_ofVertex.mp (h _ hS (reached_ofVertex.mpr (.refl x)))

theorem connected_cellGraph_iff (hE : E ⊆ Finset.range m ×ˢ Finset.range n) (hm : 0 < m) :
    (cellGraph m n E).Connected ↔ Spans m n E := by
  constructor
  · intro h S hS a b ha hb hSa
    obtain ⟨x, rfl⟩ := exists_vertex ha
    obtain ⟨y, rfl⟩ := exists_vertex hb
    exact (reachable_cellGraph_iff hE).mp (h.preconnected x y) S hS hSa
  · intro h
    have : Nonempty (Fin m ⊕ Fin n) := ⟨.inl ⟨0, hm⟩⟩
    refine SimpleGraph.Connected.mk fun x y => (reachable_cellGraph_iff hE).mpr fun S hS hx => ?_
    exact h S hS _ _ (within_ofVertex x) (within_ofVertex y) hx

theorem forest_of_isAcyclic (hE : E ⊆ Finset.range m ×ˢ Finset.range n)
    (h : (cellGraph m n E).IsAcyclic) : Forest E := by
  rintro ⟨i, j⟩ hc
  obtain ⟨hi, hj⟩ := Finset.mem_product.mp (hE hc)
  let x : Fin m ⊕ Fin n := .inl ⟨i, Finset.mem_range.mp hi⟩
  let y : Fin m ⊕ Fin n := .inr ⟨j, Finset.mem_range.mp hj⟩
  have hadj : (cellGraph m n E).Adj x y := hc
  have hbridge := SimpleGraph.isBridge_iff.mp
    (SimpleGraph.isAcyclic_iff_forall_adj_isBridge.mp h hadj)
  refine ⟨reached ((cellGraph m n E).deleteEdges {s(x, y)}) x, ?_, ?_, ?_⟩
  · refine respects_reached x ((Finset.erase_subset _ E).trans hE) fun i' j' hij => ?_
    obtain ⟨hne, hmem⟩ := Finset.mem_erase.mp hij
    refine SimpleGraph.deleteEdges_adj.mpr ⟨hmem, fun heq => hne ?_⟩
    have heq' := Sym2.eq_iff.mp (Set.mem_singleton_iff.mp heq)
    simpa [x, y, Fin.ext_iff] using heq'
  · exact reached_ofVertex.mpr (.refl x)
  · exact fun hy => hbridge (reached_ofVertex.mp hy)

private def cellEdge (hE : E ⊆ Finset.range m ×ˢ Finset.range n) (c : {c // c ∈ E}) :
    (cellGraph m n E).edgeSet :=
  have h := Finset.mem_product.mp (hE c.property)
  ⟨s(.inl ⟨c.val.1, Finset.mem_range.mp h.1⟩, .inr ⟨c.val.2, Finset.mem_range.mp h.2⟩),
    c.property⟩

private theorem cellEdge_bijective (hE : E ⊆ Finset.range m ×ˢ Finset.range n) :
    Function.Bijective (cellEdge hE) := by
  constructor
  · intro c c' h
    have heq := Sym2.eq_iff.mp (congrArg Subtype.val h)
    simp only [Sum.inl.injEq, Sum.inr.injEq, Fin.mk.injEq, reduceCtorEq, and_self,
      or_false] at heq
    exact Subtype.ext (Prod.ext heq.1 heq.2)
  · rintro ⟨edge, hedge⟩
    induction edge using Sym2.inductionOn with
    | _ x y =>
        rcases x with i | j <;> rcases y with i' | j'
        · exact hedge.elim
        · exact ⟨⟨(i.val, j'.val), hedge⟩, rfl⟩
        · exact ⟨⟨(i'.val, j.val), hedge⟩, Subtype.ext Sym2.eq_swap⟩
        · exact hedge.elim

/-- A tree on the nodes of the table connects them with one cell fewer than there are nodes. -/
theorem isTree_cellGraph_iff (hE : E ⊆ Finset.range m ×ˢ Finset.range n) (hm : 0 < m) :
    (cellGraph m n E).IsTree ↔ Spans m n E ∧ E.card + 1 = m + n := by
  have hcard : Nat.card (cellGraph m n E).edgeSet = E.card := by
    rw [← Nat.card_congr (Equiv.ofBijective _ (cellEdge_bijective hE))]
    simp
  rw [SimpleGraph.isTree_iff_connected_and_card, connected_cellGraph_iff hE hm, hcard]
  simp

/-- The values of the nodes with those in `S` shifted, sources up and sinks down. -/
private def shiftValues (S : Node → Prop) [DecidablePred S] (f : Node → Int) (change : Int) :
    Node → Int
  | .source i => if S (.source i) then f (.source i) + change else f (.source i)
  | .sink j => if S (.sink j) then f (.sink j) - change else f (.sink j)

theorem Forest.exists_values (h : Forest E) (value : Nat × Nat → Int) :
    ∃ f : Node → Int, ∀ c ∈ E, f (.source c.1) + f (.sink c.2) = value c := by
  classical
  induction E using Finset.induction_on with
  | empty => exact ⟨fun _ => 0, by simp⟩
  | insert c E hc ih =>
      obtain ⟨f, hf⟩ := ih (h.mono (Finset.subset_insert c E))
      obtain ⟨S, hS, hsource, hsink⟩ := h c (Finset.mem_insert_self c E)
      rw [Finset.erase_insert hc] at hS
      -- Only `c` leaves `S`, so the shift mends `c` and no other cell notices it.
      refine ⟨shiftValues S f (value c - (f (.source c.1) + f (.sink c.2))), ?_⟩
      intro d hd
      rcases Finset.mem_insert.mp hd with rfl | hd
      · simp only [shiftValues, hsource, hsink, if_true, if_false]
        omega
      · have hiff := hS d hd
        have hd' := hf d hd
        by_cases hSd : S (.source d.1)
        · simp only [shiftValues, hSd, hiff.mp hSd, if_true]
          omega
        · simp only [shiftValues, hSd, hiff.not.mp hSd, if_false]
          exact hd'

end Transportation
