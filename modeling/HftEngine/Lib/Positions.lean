import Mathlib.Data.Nat.Bitwise
import Mathlib.Data.Nat.ModEq

/-! Positions that count without end and are kept modulo 2^64: while two counts stay close, their difference, their
    equality and their slot in a power-of-two table are those of the counts. -/

namespace Positions

abbrev ofCount (n : Nat) : UInt64 := UInt64.ofNat n

variable {a b : Nat}

theorem succ (n : Nat) : ofCount n + 1 = ofCount (n + 1) := (UInt64.ofNat_add n 1).symm

/-- The difference of two positions is the difference of their counts. -/
theorem toNat_sub (hab : a ≤ b) (hclose : b - a < 2 ^ 64) : (ofCount b - ofCount a).toNat = b - a := by
  have hb : ofCount b = ofCount (b - a) + ofCount a := by
    rw [← UInt64.ofNat_add, Nat.sub_add_cancel hab]
  rw [hb, UInt64.add_sub_cancel]
  exact UInt64.toNat_ofNat_of_lt' hclose

/-- Two close positions are equal exactly when their counts are. -/
theorem inj (hab : a ≤ b) (hclose : b - a < 2 ^ 64) : ofCount a = ofCount b ↔ a = b := by
  refine ⟨fun h => ?_, congrArg _⟩
  have hsub := toNat_sub hab hclose
  rw [h, UInt64.sub_self] at hsub
  have : (0 : UInt64).toNat = 0 := rfl
  omega

theorem toNat_and_mask {c : UInt64} (hpos : 0 < c) (hpow : c &&& (c - 1) = 0) (n : Nat) :
    (ofCount n &&& (c - 1)).toNat = n % c.toNat := by
  have hone : 1 ≤ c.toNat := UInt64.lt_iff_toNat_lt.mp hpos
  have hmask : (c - 1).toNat = c.toNat - 1 := UInt64.toNat_sub_of_le _ _ (UInt64.le_iff_toNat_le.mpr hone)
  have hzero : c.toNat &&& (c.toNat - 1) = 0 := by
    rw [← hmask, ← UInt64.toNat_and, hpow]
    rfl
  obtain ⟨k, hk⟩ := (Nat.and_sub_one_eq_zero_iff_isPowerOfTwo (by omega)).mp hzero
  have hlt : k < 64 := by
    have := c.toNat_lt
    rw [hk] at this
    exact (Nat.pow_lt_pow_iff_right (by omega)).mp this
  rw [UInt64.toNat_and, hmask, hk, Nat.and_two_pow_sub_one_eq_mod, UInt64.toNat_ofNat']
  exact Nat.mod_mod_of_dvd n (Nat.pow_dvd_pow 2 (by omega))

/-- Two counts less than a table apart have different slots. -/
theorem mod_ne {c : Nat} (hlt : a < b) (hclose : b - a < c) : a % c ≠ b % c := by
  intro h
  have hdvd : c ∣ b - a := (Nat.modEq_iff_dvd' (Nat.le_of_lt hlt)).mp h
  exact absurd (Nat.le_of_dvd (by omega) hdvd) (by omega)

end Positions
