import Mathlib.Algebra.Order.Field.Rat
import Mathlib.Algebra.Order.Ring.Rat
import ParseForest.Score

/-!
# The laws of exact scores

The scores of the floating-point types are rounded. Exact scores form a linearly ordered
commutative monoid with zero as its least element, in which products of scores other than zero are
other than zero and division by them is exact.
-/

namespace ParseForest

class MonotoneScore (S : Type) [Score S] [LinearOrder S] : Prop where
  less_iff (a b : S) : Score.less a b = true ↔ a < b
  mul_mono (a : S) {b c : S} (h : b ≤ c) : Score.mul a b ≤ Score.mul a c

/-- The laws of a score type without rounding. -/
class LawfulScore (S : Type) [Score S] [LinearOrder S] : Prop where
  mul_comm (a b : S) : Score.mul a b = Score.mul b a
  mul_assoc (a b c : S) : Score.mul (Score.mul a b) c = Score.mul a (Score.mul b c)
  one_mul (a : S) : Score.mul Score.one a = a
  zero_mul (a : S) : Score.mul Score.zero a = Score.zero
  zero_le (a : S) : Score.zero ≤ a
  mul_mono (a : S) {b c : S} (h : b ≤ c) : Score.mul a b ≤ Score.mul a c
  eq_zero_or (a b : S) (h : Score.mul a b = Score.zero) : a = Score.zero ∨ b = Score.zero
  div_mul (a b : S) (h : b ≠ Score.zero) : Score.mul (Score.div a b) b = a
  less_iff (a b : S) : Score.less a b = true ↔ a < b
  isZero_iff (a : S) : Score.isZero a = true ↔ a = Score.zero

instance {S : Type} [Score S] [LinearOrder S] [LawfulScore S] : MonotoneScore S :=
  ⟨LawfulScore.less_iff, LawfulScore.mul_mono⟩

instance : Score ℚ≥0 where
  zero := 0
  one := 1
  add := max
  mul a b := a * b
  div a b := a / b
  less a b := decide (a < b)
  isZero a := decide (a = 0)

instance : LawfulScore ℚ≥0 where
  mul_comm := mul_comm
  mul_assoc := mul_assoc
  one_mul := one_mul
  zero_mul := zero_mul
  zero_le _ := zero_le
  mul_mono a _ _ h := mul_le_mul_right h a
  eq_zero_or _ _ h := mul_eq_zero.mp h
  div_mul _ _ h := div_mul_cancel₀ _ h
  less_iff _ _ := decide_eq_true_iff
  isZero_iff _ := decide_eq_true_iff

namespace LawfulScore

variable {S : Type} [Score S] [LinearOrder S] [LawfulScore S] {a b c d : S}

instance : Std.Commutative (Score.mul : S → S → S) := ⟨mul_comm⟩

instance : Std.Associative (Score.mul : S → S → S) := ⟨mul_assoc⟩

theorem isZero_eq_false_iff (a : S) : Score.isZero a = false ↔ a ≠ Score.zero := by
  rw [← Bool.not_eq_true, isZero_iff]

theorem nonzero_of_le (ha : a ≠ Score.zero) (h : a ≤ b) : b ≠ Score.zero := fun hb =>
  ha (le_antisymm (hb ▸ h) (zero_le a))

theorem mul_one (a : S) : Score.mul a Score.one = a := by rw [mul_comm, one_mul]

theorem mul_zero (a : S) : Score.mul a Score.zero = Score.zero := by rw [mul_comm, zero_mul]

theorem mul_le_mul (h : a ≤ b) (k : c ≤ d) : Score.mul a c ≤ Score.mul b d := by
  refine (mul_mono a k).trans ?_
  rw [mul_comm a, mul_comm b]
  exact mul_mono d h

theorem best_eq_max (a b : S) : Score.best a b = max a b := by
  unfold Score.best
  split
  · rename_i h
    exact (max_eq_right ((less_iff a b).mp h).le).symm
  · rename_i h
    rw [less_iff, not_lt] at h
    exact (max_eq_left h).symm

theorem div_le_one (h : a ≤ b) (hb : b ≠ Score.zero) : Score.div a b ≤ Score.one := by
  by_contra hlt
  rw [not_le] at hlt
  have hle : b ≤ a := by
    have hmul := mul_mono b hlt.le
    rw [mul_one, mul_comm, div_mul a b hb] at hmul
    exact hmul
  have heq := le_antisymm h hle
  subst heq
  have hone : Score.div a a = Score.one := by
    calc Score.div a a = Score.mul (Score.div a a) (Score.mul (Score.div Score.one a) a) := by
          rw [div_mul _ a hb, mul_one]
      _ = Score.mul (Score.mul (Score.div a a) a) (Score.div Score.one a) := by ac_rfl
      _ = Score.mul (Score.div Score.one a) a := by rw [div_mul a a hb, mul_comm]
      _ = Score.one := div_mul _ a hb
  rw [hone] at hlt
  exact lt_irrefl _ hlt

end LawfulScore

end ParseForest
