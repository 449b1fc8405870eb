import Mathlib.Tactic

/-!
# A clock that wraps around

A counter of `w` bits counts the ticks of a clock and starts again at zero.
Two readings are compared by the sign of their difference.  This orders the
readings correctly as long as they are no further apart than half the range
of the counter.
-/

namespace SerialClock

variable {w : ℕ}

/-- The reading `a` is later than `b`: the difference `b - a` is negative. -/
def after (a b : BitVec w) : Bool :=
  (b - a).slt 0#w

theorem ofNat_sub_ofNat (span elapsed : ℕ) :
    BitVec.ofNat w span - BitVec.ofNat w elapsed =
      BitVec.ofInt w ((span : ℤ) - elapsed) := by
  apply BitVec.eq_of_toInt_eq
  rw [← BitVec.ofInt_natCast, ← BitVec.ofInt_natCast, BitVec.toInt_sub,
    BitVec.toInt_ofInt, BitVec.toInt_ofInt, BitVec.toInt_ofInt,
    Int.sub_bmod_bmod, Int.bmod_sub_bmod]

theorem add_sub_add (base a b : BitVec w) :
    base + b - (base + a) = b - a := by
  grind

/-- From a common base, a reading `elapsed` ticks on is later than one `span`
ticks on exactly if the numbers of ticks are in this order. -/
theorem after_iff (base : BitVec w) {span elapsed : ℕ} (hw : 0 < w)
    (hspan : span < 2 ^ (w - 1)) (helapsed : elapsed ≤ 2 ^ (w - 1)) :
    after (base + BitVec.ofNat w elapsed) (base + BitVec.ofNat w span) =
      true ↔ span < elapsed := by
  have hlow : -(2 ^ (w - 1) : ℤ) ≤ (span : ℤ) - elapsed := by
    have hbound : (elapsed : ℤ) ≤ 2 ^ (w - 1) := by exact_mod_cast helapsed
    omega
  have hhigh : (span : ℤ) - elapsed < 2 ^ (w - 1) := by
    have hbound : (span : ℤ) < 2 ^ (w - 1) := by exact_mod_cast hspan
    omega
  unfold after
  rw [add_sub_add, ofNat_sub_ofNat, BitVec.slt_iff_toInt_lt,
    BitVec.toInt_ofInt_eq_self hw hlow hhigh, BitVec.toInt_zero]
  omega

/-- A reading is never taken for later too early, however often the clock has
wrapped around. -/
theorem lt_of_after (base : BitVec w) {span elapsed : ℕ} (hw : 0 < w)
    (hspan : span < 2 ^ (w - 1))
    (hafter : after (base + BitVec.ofNat w elapsed)
      (base + BitVec.ofNat w span) = true) :
    span < elapsed := by
  by_contra hle
  exact hle ((after_iff base hw hspan (by omega)).mp hafter)

end SerialClock
