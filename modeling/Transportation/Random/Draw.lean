import Transportation.Random.KeyStream
/-!
# Random numbers below a bound

A source of draws answers the request for a number below a bound. `KeyStream.source` multiplies the
bound by a random word and keeps the high part of the product. Where the low part is so large that
the next word could carry into the high part, one more word decides.
-/
namespace Transportation

inductive DrawWidth where
  | single
  | double
  deriving DecidableEq, Repr

def DrawWidth.span : DrawWidth → Nat
  | .single => 4294967296
  | .double => 18446744073709551616

/-- A source of random numbers: `below width bound` draws a number below a positive bound. -/
structure DrawSource (σ : Type) where
  below : DrawWidth → Nat → σ → Nat × σ

def DrawSource.Fair (source : DrawSource σ) : Prop :=
  ∀ width bound state, 0 < bound → (source.below width bound state).1 < bound

namespace KeyStream

/-- A word of the given width; of two words the first is the low half. -/
def draw (s : KeyStream) : DrawWidth → Nat × KeyStream
  | .single =>
    let (word, s) := s.next
    (word.toNat, s)
  | .double =>
    let (low, s) := s.next
    let (high, s) := s.next
    (low.toNat + DrawWidth.single.span * high.toNat, s)

def below (width : DrawWidth) (bound : Nat) (s : KeyStream) : Nat × KeyStream :=
  let (word, s) := s.draw width
  let high := word * bound / width.span
  let low := word * bound % width.span
  if width.span - bound < low then
    let (word, s) := s.draw width
    if width.span ≤ low + word * bound / width.span then (high + 1, s) else (high, s)
  else
    (high, s)

def source : DrawSource KeyStream := ⟨below⟩

/-- A word of a width is less than the number of such words. -/
theorem draw_lt_span (s : KeyStream) (width : DrawWidth) : (s.draw width).1 < width.span := by
  cases width with
  | single => exact s.next.1.toNat_lt
  | double =>
    have low := s.next.1.toNat_lt
    have high := s.next.2.next.1.toNat_lt
    simp only [draw, DrawWidth.span]
    omega

/-- The high part of a word times a bound is below the bound, and by more than one if the low part
is so large that the next word is asked. -/
theorem high_lt_bound {span word bound : Nat} (hword : word < span) (hbound : 0 < bound) :
    word * bound / span < bound ∧
      (span - bound < word * bound % span → word * bound / span + 1 < bound) := by
  have below : word * bound / span < bound :=
    Nat.div_lt_of_lt_mul (Nat.mul_lt_mul_of_pos_right hword hbound)
  refine ⟨below, fun large => ?_⟩
  have parts := Nat.div_add_mod (word * bound) span
  have room : word * bound + bound ≤ span * bound := by
    have := Nat.mul_le_mul_right bound (Nat.succ_le_of_lt hword)
    rwa [Nat.succ_mul] at this
  rcases Nat.lt_or_ge (word * bound / span + 1) bound with h | h
  · exact h
  · have last : bound = word * bound / span + 1 := by omega
    have whole : span * bound = span * (word * bound / span) + span := by
      conv => lhs; rw [last]
      rw [Nat.mul_add, Nat.mul_one]
    omega

theorem source_fair : source.Fair := by
  intro width bound s hbound
  obtain ⟨below', next⟩ := high_lt_bound (s.draw_lt_span width) hbound
  simp only [source, below]
  split
  · rename_i large
    split
    · exact next large
    · exact below'
  · exact below'

end KeyStream

end Transportation
