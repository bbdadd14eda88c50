import Transportation.Bounded
/-!
# Checked computations

How a computation that can fail opens when its parts are known to succeed. Folds, maps and filters
over a list succeed when each of their steps does, and then agree with their plain forms.
-/
namespace Transportation

variable {α β σ ε : Type}

@[simp] theorem ok_bind (a : α) (f : α → Except ε β) : (Except.ok a >>= f) = f a := rfl

@[simp] theorem error_bind (e : ε) (f : α → Except ε β) :
    ((Except.error e : Except ε α) >>= f) = .error e := rfl

@[simp] theorem pure_eq_ok (a : α) : (pure a : Except ε α) = .ok a := rfl

theorem bind_eq_ok_iff {x : Except ε α} {f : α → Except ε β} {b : β} :
    x >>= f = .ok b ↔ ∃ a, x = .ok a ∧ f a = .ok b := by
  cases x <;> simp

theorem bind_eq_error_iff {x : Except ε α} {f : α → Except ε β} {e : ε} :
    x >>= f = .error e ↔ x = .error e ∨ ∃ a, x = .ok a ∧ f a = .error e := by
  cases x <;> simp

@[simp] theorem onWorkers_eq_ok_iff {work : Except Failure α} {a : α} :
    onWorkers work = .ok a ↔ work = .ok a := by
  cases work with
  | ok b => rfl
  | error failure => cases failure <;> simp [onWorkers]

theorem foldlM_congr_of_inv {f f' : σ → α → Except ε σ} {xs : List α} (Inv : σ → Prop) {s : σ}
    (h : Inv s) (heq : ∀ s x, x ∈ xs → Inv s → f s x = f' s x)
    (hstep : ∀ s x s', f s x = .ok s' → Inv s') : xs.foldlM f s = xs.foldlM f' s := by
  induction xs generalizing s with
  | nil => rfl
  | cons x xs ih =>
      rw [List.foldlM_cons, List.foldlM_cons, ← heq s x List.mem_cons_self h]
      cases hx : f s x with
      | error e => rfl
      | ok s' =>
          exact ih (hstep s x s' hx) fun t y hy => heq t y (List.mem_cons_of_mem x hy)

theorem foldlM_congr {f f' : σ → α → Except ε σ} {xs : List α}
    (h : ∀ s x, x ∈ xs → f s x = f' s x) (s : σ) : xs.foldlM f s = xs.foldlM f' s :=
  foldlM_congr_of_inv (fun _ => True) trivial (fun s x hx _ => h s x hx) fun _ _ _ _ => trivial

theorem mapM_eq_ok_map (f : α → Except ε β) (g : α → β) (xs : List α)
    (h : ∀ x ∈ xs, f x = .ok (g x)) : xs.mapM f = .ok (xs.map g) := by
  induction xs with
  | nil => rfl
  | cons x xs ih =>
      have hx := h x List.mem_cons_self
      have hxs := ih fun y hy => h y (List.mem_cons_of_mem x hy)
      rw [List.mapM_cons, hx, hxs]
      rfl

theorem exists_error_of_mapM {f : α → Except ε β} {xs : List α} {e : ε}
    (h : xs.mapM f = .error e) : ∃ x ∈ xs, f x = .error e := by
  induction xs with
  | nil => cases h
  | cons x xs ih =>
      cases hx : f x with
      | error e' =>
          rw [List.mapM_cons, hx] at h
          cases h
          exact ⟨x, List.mem_cons_self, hx⟩
      | ok y =>
          cases hxs : xs.mapM f with
          | error e' =>
              rw [List.mapM_cons, hx, ok_bind, hxs] at h
              cases h
              obtain ⟨z, hz, herror⟩ := ih hxs
              exact ⟨z, List.mem_cons_of_mem x hz, herror⟩
          | ok ys =>
              rw [List.mapM_cons, hx, ok_bind, hxs] at h
              cases h

theorem exists_ok_of_mapM {f : α → Except ε β} {xs : List α} {ys : List β}
    (h : xs.mapM f = .ok ys) {x : α} (hx : x ∈ xs) : ∃ y, f x = .ok y := by
  induction xs generalizing ys with
  | nil => simp at hx
  | cons z xs ih =>
      rw [List.mapM_cons] at h
      obtain ⟨y, hz, h⟩ := bind_eq_ok_iff.mp h
      obtain ⟨zs, hzs, -⟩ := bind_eq_ok_iff.mp h
      rcases List.mem_cons.mp hx with rfl | hx
      · exact ⟨y, hz⟩
      · exact ih hzs hx

private theorem filterAuxM_eq_ok (f : α → Except ε Bool) (test : α → Bool) (xs acc : List α)
    (h : ∀ x ∈ xs, f x = .ok (test x)) :
    xs.filterAuxM f acc = .ok ((xs.filter test).reverse ++ acc) := by
  induction xs generalizing acc with
  | nil => rfl
  | cons x xs ih =>
      have hx := h x List.mem_cons_self
      have hxs := fun acc => ih acc fun y hy => h y (List.mem_cons_of_mem x hy)
      rw [List.filterAuxM, hx, ok_bind, hxs]
      cases htest : test x <;> simp [htest]

theorem filterM_eq_ok_filter (f : α → Except ε Bool) (test : α → Bool) (xs : List α)
    (h : ∀ x ∈ xs, f x = .ok (test x)) : xs.filterM f = .ok (xs.filter test) := by
  rw [List.filterM, filterAuxM_eq_ok f test xs [] h]
  simp

private theorem mem_filterAuxM {f : α → Except ε Bool} {xs acc ys : List α}
    (h : xs.filterAuxM f acc = .ok ys) {y : α} (hy : y ∈ ys) : f y = .ok true ∨ y ∈ acc := by
  induction xs generalizing acc with
  | nil =>
      cases h
      exact .inr hy
  | cons x xs ih =>
      rw [List.filterAuxM] at h
      obtain ⟨test, hx, hxs⟩ := bind_eq_ok_iff.mp h
      cases test with
      | false => exact ih hxs
      | true =>
          rcases ih hxs with hy | hy
          · exact .inl hy
          · rcases List.mem_cons.mp hy with rfl | hy
            · exact .inl hx
            · exact .inr hy

theorem of_mem_filterM {f : α → Except ε Bool} {xs ys : List α} (h : xs.filterM f = .ok ys) {y : α}
    (hy : y ∈ ys) : f y = .ok true := by
  rw [List.filterM] at h
  obtain ⟨zs, hzs, hreverse⟩ := bind_eq_ok_iff.mp h
  cases hreverse
  exact (mem_filterAuxM hzs (List.mem_reverse.mp hy)).resolve_right (List.not_mem_nil)

/-- The states in which a fold takes its steps, each with the item of the step. -/
def foldSteps {σ α ε : Type} (f : σ → α → Except ε σ) (s : σ) : List α → List (σ × α)
  | [] => []
  | a :: items => (s, a) :: match f s a with
    | .ok s' => foldSteps f s' items
    | .error _ => []

section FoldSteps

variable {f : σ → α → Except ε σ} {items : List α} {s : σ}

theorem forall_foldSteps_of_ok (Inv : σ → Prop) (h : Inv s)
    (hstep : ∀ s, ∀ a ∈ items, Inv s → ∀ s', f s a = .ok s' → Inv s') :
    ∀ step ∈ foldSteps f s items, Inv step.1 ∧ step.2 ∈ items := by
  induction items generalizing s with
  | nil => simp [foldSteps]
  | cons a items ih =>
      rw [foldSteps]
      refine List.forall_mem_cons.mpr ⟨⟨h, List.mem_cons_self⟩, fun step hmem => ?_⟩
      cases hs' : f s a with
      | error e => simp [hs'] at hmem
      | ok s' =>
          rw [hs'] at hmem
          have hnext := hstep s a List.mem_cons_self h s' hs'
          obtain ⟨hinv, hitem⟩ :=
            ih hnext (fun t b hb => hstep t b (List.mem_cons_of_mem a hb)) step hmem
          exact ⟨hinv, List.mem_cons_of_mem a hitem⟩

theorem of_foldlM_eq_ok (Inv : σ → Prop) (h : Inv s)
    (hstep : ∀ s a s', Inv s → f s a = .ok s' → Inv s') {t : σ}
    (hfold : items.foldlM f s = .ok t) : Inv t := by
  induction items generalizing s with
  | nil =>
      cases hfold
      exact h
  | cons a items ih =>
      rw [List.foldlM_cons] at hfold
      obtain ⟨s', hs', hrest⟩ := bind_eq_ok_iff.mp hfold
      exact ih (hstep s a s' h hs') hrest

theorem exists_error_of_foldlM {e : ε} (h : items.foldlM f s = .error e) :
    ∃ step ∈ foldSteps f s items, f step.1 step.2 = .error e := by
  induction items generalizing s with
  | nil => cases h
  | cons a items ih =>
      rw [List.foldlM_cons] at h
      rw [foldSteps]
      rcases bind_eq_error_iff.mp h with ha | ⟨s', hs', hrest⟩
      · exact ⟨(s, a), List.mem_cons_self, ha⟩
      · obtain ⟨step, hmem, herror⟩ := ih hrest
        exact ⟨step, List.mem_cons_of_mem _ (by simpa [hs'] using hmem), herror⟩

end FoldSteps

def OnlyBreaches (work : Except Failure α) : Prop :=
  ∀ failure, work = .error failure → ∃ b, failure = .breach b

theorem onlyBreaches_ok (a : α) : OnlyBreaches (.ok a) := nofun

theorem OnlyBreaches.bind {work : Except Failure α} {f : α → Except Failure β}
    (h : OnlyBreaches work) (hf : ∀ a, OnlyBreaches (f a)) : OnlyBreaches (work >>= f) := by
  intro failure hfailure
  rcases bind_eq_error_iff.mp hfailure with hwork | ⟨a, -, ha⟩
  · exact h failure hwork
  · exact hf a failure ha

theorem OnlyBreaches.mapM {f : α → Except Failure β} (h : ∀ a, OnlyBreaches (f a))
    (xs : List α) : OnlyBreaches (xs.mapM f) := by
  intro failure hfailure
  obtain ⟨x, -, hx⟩ := exists_error_of_mapM hfailure
  exact h x failure hx

theorem onlyBreaches_entry (xs : List α) (k : Nat) : OnlyBreaches (entry xs k) := by
  rw [entry]
  cases xs[k]? with
  | some x => exact onlyBreaches_ok x
  | none =>
      rintro failure ⟨⟩
      exact ⟨.outOfRange, rfl⟩

theorem onlyBreaches_ofInt (x : Int) : OnlyBreaches (Amount.ofInt x) := by
  rw [Amount.ofInt]
  split
  · exact onlyBreaches_ok x
  · rintro failure ⟨⟩
    exact ⟨.overflow, rfl⟩

theorem OnlyBreaches.onWorkers_eq {work : Except Failure α} (h : OnlyBreaches work)
    {failure : Failure} (hwork : work = .error failure) : onWorkers work = .error .taskFailed := by
  obtain ⟨b, rfl⟩ := h failure hwork
  rw [hwork]
  rfl

end Transportation
