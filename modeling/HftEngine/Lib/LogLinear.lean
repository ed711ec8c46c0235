import Mathlib.Algebra.Ring.Nat

/-! Log-linear buckets with `P` bits of precision: the numbers below `2 ^ (P + 1)` have a bucket each, and every later
    octave is cut into `2 ^ P` buckets. -/

namespace LogLinear

def octave (P v : Nat) : Nat := Nat.log2 v - P

def index (P v : Nat) : Nat := octave P v * 2 ^ P + v / 2 ^ octave P v

/-- The last number of a bucket. -/
def top (P i : Nat) : Nat := (i - (i / 2 ^ P - 1) * 2 ^ P + 1) * 2 ^ (i / 2 ^ P - 1) - 1

section
variable {P v w : Nat}

theorem octave_of_lt (h : v < 2 ^ (P + 1)) : octave P v = 0 := by
  rcases Nat.eq_zero_or_pos v with rfl | hpos
  · simp [octave]
  · have := (Nat.log2_lt (by omega)).mpr h
    unfold octave
    omega

theorem lt_octave (P v : Nat) : v < 2 ^ (P + 1) * 2 ^ octave P v := by
  rcases Nat.eq_zero_or_pos v with rfl | hpos
  · exact Nat.mul_pos (Nat.two_pow_pos _) (Nat.two_pow_pos _)
  · calc v < 2 ^ (Nat.log2 v + 1) := Nat.lt_log2_self
      _ ≤ 2 ^ (P + 1 + octave P v) := Nat.pow_le_pow_right (by decide) (by unfold octave; omega)
      _ = 2 ^ (P + 1) * 2 ^ octave P v := Nat.pow_add ..

theorem octave_le (h : octave P v ≠ 0) : 2 ^ P * 2 ^ octave P v ≤ v := by
  have hv : v ≠ 0 := by
    rintro rfl
    simp [octave] at h
  calc 2 ^ P * 2 ^ octave P v = 2 ^ (P + octave P v) := (Nat.pow_add ..).symm
    _ = 2 ^ Nat.log2 v := by unfold octave at h ⊢; congr 1; omega
    _ ≤ v := Nat.log2_self_le hv

/-- The place of a number in its octave. -/
theorem quotient_lt (P v : Nat) : v / 2 ^ octave P v < 2 ^ (P + 1) :=
  Nat.div_lt_of_lt_mul (by rw [Nat.mul_comm]; exact lt_octave P v)

theorem le_quotient (h : octave P v ≠ 0) : 2 ^ P ≤ v / 2 ^ octave P v :=
  (Nat.le_div_iff_mul_le (Nat.two_pow_pos _)).mpr (octave_le h)

/-- The octave is found again in the index. -/
theorem octave_index (P v : Nat) : index P v / 2 ^ P - 1 = octave P v := by
  have hpos : 0 < 2 ^ P := Nat.two_pow_pos P
  have hlt := quotient_lt P v
  rw [Nat.pow_succ] at hlt
  rw [index, Nat.add_comm, Nat.add_mul_div_right _ _ hpos]
  rcases Nat.eq_zero_or_pos (octave P v) with h0 | h1
  · rw [h0] at hlt ⊢
    have := Nat.div_lt_of_lt_mul (show v / 2 ^ 0 < 2 ^ P * 2 from hlt)
    omega
  · have hle := le_quotient (by omega : octave P v ≠ 0)
    have hone : 1 ≤ v / 2 ^ octave P v / 2 ^ P := (Nat.le_div_iff_mul_le hpos).mpr (by rwa [Nat.one_mul])
    have htwo : v / 2 ^ octave P v / 2 ^ P < 2 := Nat.div_lt_of_lt_mul hlt
    omega

theorem top_index (P v : Nat) : top P (index P v) = (v / 2 ^ octave P v + 1) * 2 ^ octave P v - 1 := by
  rw [top, octave_index, index, Nat.add_sub_cancel_left]

/-- A number lies in its bucket. -/
theorem le_top_index (P v : Nat) : v ≤ top P (index P v) := by
  have := Nat.lt_mul_div_succ v (Nat.two_pow_pos (octave P v))
  rw [top_index, Nat.mul_comm]
  omega

theorem top_index_of_lt (h : v < 2 ^ (P + 1)) : top P (index P v) = v := by
  rw [top_index, octave_of_lt h]
  simp

/-- The relative error of a bucket's last number. -/
theorem top_error (P v : Nat) : (top P (index P v) - v) * 2 ^ P ≤ v := by
  rcases Nat.eq_zero_or_pos (octave P v) with h0 | h1
  · have hlt := lt_octave P v
    rw [h0, Nat.pow_zero, Nat.mul_one] at hlt
    rw [top_index_of_lt hlt, Nat.sub_self, Nat.zero_mul]
    exact Nat.zero_le v
  · have hwidth : top P (index P v) - v ≤ 2 ^ octave P v := by
      have hle := Nat.div_mul_le_self v (2 ^ octave P v)
      rw [top_index, Nat.add_mul, Nat.one_mul]
      generalize 2 ^ octave P v = width at hle ⊢
      omega
    calc (top P (index P v) - v) * 2 ^ P ≤ 2 ^ octave P v * 2 ^ P := Nat.mul_le_mul_right _ hwidth
      _ = 2 ^ P * 2 ^ octave P v := Nat.mul_comm ..
      _ ≤ v := octave_le (by omega)

theorem octave_mono (P : Nat) (h : v ≤ w) : octave P v ≤ octave P w := by
  rcases Nat.eq_zero_or_pos (octave P v) with h0 | h1
  · omega
  · by_contra hgt
    have hlt := lt_octave P w
    have hle := octave_le (by omega : octave P v ≠ 0)
    have hpow : 2 ^ (P + 1) * 2 ^ octave P w ≤ 2 ^ P * 2 ^ octave P v := by
      rw [← Nat.pow_add, ← Nat.pow_add]
      exact Nat.pow_le_pow_right (by decide) (by omega)
    omega

theorem index_lt (P v : Nat) : index P v < (octave P v + 2) * 2 ^ P := by
  have := quotient_lt P v
  rw [Nat.pow_succ] at this
  rw [index, Nat.add_mul]
  omega

theorem index_mono (P : Nat) (h : v ≤ w) : index P v ≤ index P w := by
  rcases Nat.lt_or_eq_of_le (octave_mono P h) with hlt | heq
  · have hw := le_quotient (by omega : octave P w ≠ 0)
    calc index P v ≤ (octave P v + 2) * 2 ^ P := Nat.le_of_lt (index_lt P v)
      _ ≤ (octave P w + 1) * 2 ^ P := Nat.mul_le_mul_right _ (by omega)
      _ = octave P w * 2 ^ P + 2 ^ P := Nat.succ_mul ..
      _ ≤ index P w := Nat.add_le_add_left hw _
  · rw [index, index, heq]
    exact Nat.add_le_add_left (Nat.div_le_div_right h) _

/-- The numbers from `v` to the end of its bucket. -/
theorem index_eq_of_le_top (hvw : v ≤ w) (hw : w ≤ top P (index P v)) : index P w = index P v := by
  have hend : w < (v / 2 ^ octave P v + 1) * 2 ^ octave P v := by
    have : 0 < (v / 2 ^ octave P v + 1) * 2 ^ octave P v := Nat.mul_pos (Nat.succ_pos _) (Nat.two_pow_pos _)
    rw [top_index] at hw
    omega
  have hoctave : octave P w = octave P v := by
    refine Nat.le_antisymm ?_ (octave_mono P hvw)
    by_contra hgt
    have hle := octave_le (by omega : octave P w ≠ 0)
    have hlt : w < 2 ^ (P + 1) * 2 ^ octave P v :=
      Nat.lt_of_lt_of_le hend (Nat.mul_le_mul_right _ (quotient_lt P v))
    have hpow : 2 ^ (P + 1) * 2 ^ octave P v ≤ 2 ^ P * 2 ^ octave P w := by
      rw [← Nat.pow_add, ← Nat.pow_add]
      exact Nat.pow_le_pow_right (by decide) (by omega)
    omega
  have hquotient : w / 2 ^ octave P v = v / 2 ^ octave P v :=
    Nat.le_antisymm (Nat.le_of_lt_succ (Nat.div_lt_of_lt_mul (by rwa [Nat.mul_comm]))) (Nat.div_le_div_right hvw)
  rw [index, index, hoctave, hquotient]

theorem top_mono (P : Nat) (h : v ≤ w) : top P (index P v) ≤ top P (index P w) := by
  by_contra hgt
  have hw := le_top_index P w
  rw [index_eq_of_le_top h (by omega)] at hgt
  omega

end

end LogLinear
