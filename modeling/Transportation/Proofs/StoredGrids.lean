import Transportation.Document.Grid
import Transportation.Proofs.CellCounts
/-!
# Stored grids

A stored grid is read if its size is a 64-bit number, its cells are as many as its shape has places
and no amount is negative; otherwise the first of these conditions that fails is reported. The
number of basic cells is not stored and is counted anew. Without negative amounts, a grid that is
written is read again as it was.
-/
namespace Transportation

namespace Document

theorem count?_ofCount {n : Nat} (h : n ≤ Count.greatest) : (ofCount n).count? = some n := by
  rw [ofCount, count?, if_pos ⟨Int.natCast_nonneg n, Int.ofNat_le.mpr h⟩, Int.toNat_natCast]

theorem list?_ofList {α : Type} {read : Document → Option α} {write : α → Document} {items : List α}
    (h : ∀ a ∈ items, read (write a) = some a) : (ofList write items).list? read = some items := by
  rw [ofList, list?]
  induction items with
  | nil => rfl
  | cons a items ih =>
      obtain ⟨ha, hitems⟩ := List.forall_mem_cons.mp h
      rw [List.map_cons, List.mapM_cons, ha, ih hitems]
      rfl

theorem content?_of_mem {fields : List (String × Document)} (h : (fields.map Prod.fst).Nodup)
    {name : String} {optional : Bool} {d : Document} (hmem : (name, d) ∈ fields) :
    content? fields ⟨name, optional⟩ = some d := by
  have honce : (fields.filter fun entry => entry.1 == name) = [(name, d)] := by
    induction fields with
    | nil => contradiction
    | cons entry fields ih =>
        rw [List.map_cons, List.nodup_cons] at h
        rcases List.mem_cons.mp hmem with rfl | hmem
        · rw [List.filter_cons_of_pos (by simp)]
          refine congrArg _ (List.filter_eq_nil_iff.mpr fun other hother heq => ?_)
          exact h.1 (List.mem_map.mpr ⟨other, hother, eq_of_beq heq⟩)
        · rw [List.filter_cons_of_neg, ih h.2 hmem]
          intro heq
          exact h.1 (List.mem_map.mpr ⟨_, hmem, (eq_of_beq heq).symm⟩)
  rw [content?, honce]

end Document

namespace Cell

theorem amount_neg_iff {cell : Cell} : cell.amount < 0 ↔ ∃ x, cell = .basic x ∧ x < 0 := by
  cases cell <;> simp [amount]

theorem forall_amount_nonneg_iff {cells : List Cell} :
    (∀ x, .basic x ∈ cells → 0 ≤ x) ↔ ∀ cell ∈ cells, 0 ≤ cell.amount := by
  constructor
  · intro h cell hcell
    cases cell with
    | vacant => exact le_rfl
    | basic x => exact h x hcell
  · exact fun h x hx => h (.basic x) hx

theorem ofDocument?_toDocument {cell : Cell} (h : Amount.InRange cell.amount) :
    ofDocument? cell.toDocument = some cell := by
  cases cell with
  | vacant => rfl
  | basic x =>
      have hx : Amount.ofInt? x = some x := Amount.ofInt?_eq_some_iff.mpr ⟨h, rfl⟩
      change (Amount.ofInt? x).map Cell.basic = _
      rw [hx]
      rfl

end Cell

namespace StoredGrid

structure InWords (s : StoredGrid) : Prop where
  rows_le : s.rows ≤ Count.greatest
  cols_le : s.cols ≤ Count.greatest
  inRange : ∀ cell ∈ s.cells, Amount.InRange cell.amount

/-- A record has the fields of a stored grid, in any order and with any others beside them. -/
structure WrittenIn (s : StoredGrid) (fields : List (String × Document)) : Prop where
  nodup : (fields.map Prod.fst).Nodup
  rows_mem : ("rows", .ofCount s.rows) ∈ fields
  cols_mem : ("cols", .ofCount s.cols) ∈ fields
  cells_mem : ("cells", .ofList Cell.toDocument s.cells) ∈ fields

/-- A stored grid that is one: its size can be counted, it has this size, and it ships nothing
negative. -/
structure Consistent (s : StoredGrid) : Prop where
  size_le : s.rows * s.cols ≤ Count.greatest
  length_eq : s.cells.length = s.rows * s.cols
  nonneg : ∀ x, .basic x ∈ s.cells → 0 ≤ x

/-- The first condition that a stored grid fails. A negative amount is reported at the row and the
column of the first one. -/
inductive FirstDefect (s : StoredGrid) : Defect → Prop where
  | sizeOverflow (h : Count.greatest < s.rows * s.cols) : FirstDefect s .sizeOverflow
  | cellCount (hsize : s.rows * s.cols ≤ Count.greatest) (h : s.cells.length ≠ s.rows * s.cols) :
      FirstDefect s (.cellCount s.rows s.cols (s.rows * s.cols) s.cells.length)
  | negativeAmount {k : Nat} {x : Int} (hsize : s.rows * s.cols ≤ Count.greatest)
      (hlength : s.cells.length = s.rows * s.cols) (hcols : 0 < s.cols)
      (hcell : s.cells[k]? = some (.basic x)) (h : x < 0)
      (hfirst : ∀ i < k, ∀ y, s.cells[i]? = some (.basic y) → 0 ≤ y) :
      FirstDefect s (.negativeAmount (k / s.cols) (k % s.cols))

variable {s : StoredGrid}

theorem ofDocument?_record {fields : List (String × Document)} (hs : s.InWords)
    (h : s.WrittenIn fields) : ofDocument? (.record fields) = some s := by
  have hfields : (Document.record fields).fields? fieldNames = some
      [.ofCount s.rows, .ofCount s.cols, .ofList Cell.toDocument s.cells] := by
    simp [Document.fields?, fieldNames, Document.content?_of_mem h.nodup h.rows_mem,
      Document.content?_of_mem h.nodup h.cols_mem, Document.content?_of_mem h.nodup h.cells_mem]
  have hcells : (Document.ofList Cell.toDocument s.cells).list? Cell.ofDocument? = some s.cells :=
    Document.list?_ofList fun cell hcell => Cell.ofDocument?_toDocument (hs.inRange cell hcell)
  rw [ofDocument?, hfields]
  simp [Document.count?_ofCount hs.rows_le, Document.count?_ofCount hs.cols_le, hcells]

theorem writtenIn_fields (s : StoredGrid) : s.WrittenIn [("rows", .ofCount s.rows),
    ("cols", .ofCount s.cols), ("cells", .ofList Cell.toDocument s.cells)] :=
  ⟨by simp, by simp, by simp, by simp⟩

theorem consistent_iff_defect?_eq_none : s.Consistent ↔ s.defect? = none := by
  rw [defect?_eq_none_iff, ← Cell.forall_amount_nonneg_iff]
  exact ⟨fun h => ⟨h.size_le, h.length_eq, h.nonneg⟩, fun h => ⟨h.1, h.2.1, h.2.2⟩⟩

theorem Consistent.toGrid_eq_ok (h : s.Consistent) :
    s.toGrid = .ok ⟨s.rows, s.cols, s.cells, s.cells.countP Cell.isBasic⟩ :=
  toGrid_eq_ok_iff.mpr ⟨consistent_iff_defect?_eq_none.mp h, rfl⟩

private theorem findIdx?_negative_iff {k : Nat} :
    (s.cells.findIdx? fun cell => decide (cell.amount < 0)) = some k ↔
      ∃ x, s.cells[k]? = some (.basic x) ∧ x < 0 ∧
        ∀ i < k, ∀ y, s.cells[i]? = some (.basic y) → 0 ≤ y := by
  rw [List.findIdx?_eq_some_iff_getElem]
  constructor
  · rintro ⟨hk, hneg, hbefore⟩
    obtain ⟨x, hx, hneg⟩ := Cell.amount_neg_iff.mp (of_decide_eq_true hneg)
    refine ⟨x, by rw [List.getElem?_eq_getElem hk, hx], hneg, fun i hi y hy => ?_⟩
    obtain ⟨hlt, hy⟩ := List.getElem?_eq_some_iff.mp hy
    simpa [hy, Cell.amount] using hbefore i hi
  · rintro ⟨x, hx, hneg, hbefore⟩
    obtain ⟨hk, hx⟩ := List.getElem?_eq_some_iff.mp hx
    refine ⟨hk, by simpa [hx, Cell.amount] using hneg, fun i hi hnegative => ?_⟩
    obtain ⟨y, hy, hneg⟩ := Cell.amount_neg_iff.mp (of_decide_eq_true hnegative)
    have := hbefore i hi y (by rw [List.getElem?_eq_getElem (hi.trans hk), hy])
    omega

theorem firstDefect_of_defect? {defect : Defect} (h : s.defect? = some defect) :
    s.FirstDefect defect := by
  rw [defect?] at h
  split at h
  · next hsize =>
      cases h
      exact .sizeOverflow hsize
  · next hsize =>
      have hsize := not_lt.mp hsize
      split at h
      · next hlength =>
          cases h
          exact .cellCount hsize hlength
      · next hlength =>
          have hlength := not_not.mp hlength
          obtain ⟨k, hk, rfl⟩ := Option.map_eq_some_iff.mp h
          obtain ⟨x, hx, hneg, hfirst⟩ := findIdx?_negative_iff.mp hk
          have hlt : k < s.rows * s.cols :=
            hlength ▸ (List.getElem?_eq_some_iff.mp hx).1
          have hcols : 0 < s.cols := Nat.pos_of_mul_pos_left (Nat.zero_lt_of_lt hlt)
          exact .negativeAmount hsize hlength hcols hx hneg hfirst

theorem FirstDefect.defect?_eq {defect : Defect} (h : s.FirstDefect defect) :
    s.defect? = some defect := by
  rw [defect?]
  cases h with
  | sizeOverflow hsize => rw [if_pos hsize]
  | cellCount hsize hlength => rw [if_neg (not_lt.mpr hsize), if_pos hlength]
  | negativeAmount hsize hlength _ hx hneg hfirst =>
      rw [if_neg (not_lt.mpr hsize), if_neg (not_not.mpr hlength),
        findIdx?_negative_iff.mpr ⟨_, hx, hneg, hfirst⟩]
      rfl

theorem toGrid_eq_error_iff {defect : Defect} :
    s.toGrid = .error defect ↔ s.FirstDefect defect := by
  have hdefect : s.toGrid = .error defect ↔ s.defect? = some defect := by
    rw [toGrid]
    cases s.defect? <;> simp
  exact hdefect.trans ⟨firstDefect_of_defect?, FirstDefect.defect?_eq⟩

end StoredGrid

namespace Grid

theorem ofDocument_eq_ok_iff {d : Document} {s : StoredGrid} {g : Grid}
    (hd : StoredGrid.ofDocument? d = some s) : ofDocument d = .ok g ↔ s.toGrid = .ok g := by
  rw [ofDocument, hd]
  cases h : s.toGrid <;> simp [h, Except.mapError]

theorem ofDocument_eq_error_iff {d : Document} {s : StoredGrid} {e : ReadError}
    (hd : StoredGrid.ofDocument? d = some s) :
    ofDocument d = .error e ↔ ∃ defect, e = .defect defect ∧ s.toGrid = .error defect := by
  rw [ofDocument, hd]
  cases h : s.toGrid <;> simp [h, Except.mapError, eq_comm]

theorem ofDocument_toDocument {g : Grid} (hreg : g.Regular) (hwords : g.toStored.InWords)
    (hstored : g.toStored.Consistent) : ofDocument g.toDocument = .ok g := by
  have hread : StoredGrid.ofDocument? g.toDocument = some g.toStored :=
    StoredGrid.ofDocument?_record hwords (StoredGrid.writtenIn_fields g.toStored)
  rw [ofDocument, hread]
  dsimp only
  rw [hstored.toGrid_eq_ok, toStored, ← hreg.basicCount_eq]
  rfl

/-- A record of 64-bit numbers is a stored grid, whatever else it holds. From a stored grid a grid
is read just if it is consistent, and then with the cells that are stored and the count of the basic
ones among them; else the first defect is reported. A grid that is read is written with its shape
and its cells only, and a grid without negative amounts that is written is read again as it was. -/
theorem stored_form_exact :
    (∀ (s : StoredGrid) fields, s.InWords → s.WrittenIn fields →
      StoredGrid.ofDocument? (.record fields) = some s) ∧
    (∀ d s, StoredGrid.ofDocument? d = some s →
      ((∃ g, ofDocument d = .ok g) ↔ s.Consistent) ∧
      (∀ e, ofDocument d = .error e ↔ ∃ defect, e = .defect defect ∧ s.FirstDefect defect) ∧
      ∀ g, ofDocument d = .ok g →
        (g.rows = s.rows ∧ g.cols = s.cols ∧ g.cells = s.cells ∧
          g.basicCount = s.cells.countP Cell.isBasic) ∧
        g.toDocument = .record [("rows", .ofCount s.rows), ("cols", .ofCount s.cols),
          ("cells", .ofList Cell.toDocument s.cells)]) ∧
    ∀ g : Grid, g.Obtainable → g.toStored.InWords → (∀ x, .basic x ∈ g.cells → 0 ≤ x) →
      ofDocument g.toDocument = .ok g := by
  refine ⟨fun s fields hs hfields => StoredGrid.ofDocument?_record hs hfields,
    fun d s hd => ?_, fun g hg hwords hnonneg => ?_⟩
  · refine ⟨?_, fun e => ?_, fun g hg => ?_⟩
    · rw [StoredGrid.consistent_iff_defect?_eq_none]
      constructor
      · rintro ⟨g, hg⟩
        exact (StoredGrid.toGrid_eq_ok_iff.mp ((ofDocument_eq_ok_iff hd).mp hg)).1
      · exact fun h => ⟨_, (ofDocument_eq_ok_iff hd).mpr (StoredGrid.toGrid_eq_ok_iff.mpr ⟨h, rfl⟩)⟩
    · rw [ofDocument_eq_error_iff hd]
      simp only [StoredGrid.toGrid_eq_error_iff]
    · obtain ⟨-, rfl⟩ := StoredGrid.toGrid_eq_ok_iff.mp ((ofDocument_eq_ok_iff hd).mp hg)
      exact ⟨⟨rfl, rfl, rfl, rfl⟩, rfl⟩
  · obtain ⟨n, hn, hfull⟩ := hg.full
    have hsize : g.rows * g.cols ≤ Count.greatest := by
      rw [← hfull.length_cells, hfull.length_eq]
      exact hn
    exact ofDocument_toDocument hfull.toRegular hwords ⟨hsize, hfull.length_cells, hnonneg⟩

/-- A record with a number of basic cells that is not theirs, and one with a negative amount. -/
theorem stored_form_exact_tampered :
    (∃ g, ofDocument (.record [("basic", .integer 99), ("rows", .ofCount 2), ("cols", .ofCount 2),
        ("cells", .ofList Cell.toDocument [.basic 3, .basic 0, .vacant, .basic 5])]) = .ok g ∧
      g.basicCount = 3 ∧ ofDocument g.toDocument = .ok g) ∧
    ofDocument (.record [("rows", .ofCount 2), ("cols", .ofCount 2),
      ("cells", .ofList Cell.toDocument [.basic 3, .basic 0, .basic (-4), .basic (-5)])]) =
        .error (.defect (.negativeAmount 1 0)) := by
  obtain ⟨hrecord, hread, hwrite⟩ := stored_form_exact
  constructor
  · have hwords : StoredGrid.InWords ⟨2, 2, [.basic 3, .basic 0, .vacant, .basic 5]⟩ :=
      ⟨by decide, by decide, by decide⟩
    have hstored := hrecord ⟨2, 2, [.basic 3, .basic 0, .vacant, .basic 5]⟩
      [("basic", .integer 99), ("rows", .ofCount 2), ("cols", .ofCount 2),
        ("cells", .ofList Cell.toDocument [.basic 3, .basic 0, .vacant, .basic 5])] hwords
      ⟨by simp, by simp, by simp, by simp⟩
    obtain ⟨haccepts, -, hgrid⟩ := hread _ _ hstored
    obtain ⟨g, hg⟩ := haccepts.mpr ⟨by decide, rfl, by simp⟩
    have hobtained : g.Obtainable := .stored ((ofDocument_eq_ok_iff hstored).mp hg)
    obtain ⟨⟨hrows, hcols, hcells, hcount⟩, -⟩ := hgrid g hg
    have hform : g.toStored = ⟨2, 2, [.basic 3, .basic 0, .vacant, .basic 5]⟩ := by
      rw [toStored, hrows, hcols, hcells]
    exact ⟨g, hg, hcount, hwrite g hobtained (hform ▸ hwords) (by simp [hcells])⟩
  · have hwords : StoredGrid.InWords ⟨2, 2, [.basic 3, .basic 0, .basic (-4), .basic (-5)]⟩ :=
      ⟨by decide, by decide, by decide⟩
    have hstored := hrecord _ _ hwords (StoredGrid.writtenIn_fields _)
    obtain ⟨-, hrejects, -⟩ := hread _ _ hstored
    have hdefect : StoredGrid.FirstDefect ⟨2, 2, [.basic 3, .basic 0, .basic (-4), .basic (-5)]⟩
        (.negativeAmount 1 0) := StoredGrid.firstDefect_of_defect? (by decide)
    exact (hrejects _).mpr ⟨_, rfl, hdefect⟩

end Grid

end Transportation
