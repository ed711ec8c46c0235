import HftEngine.Histogram
import HftEngine.Lib.LogLinear
import Mathlib.Data.UInt
import Mathlib.Tactic.Ring

/-! The index arithmetic of the histogram is that of log-linear buckets: every value has a bucket in the counts array,
    and the value reported for a bucket is its last. -/

namespace Hft

namespace HistogramParams

/-! ### Index arithmetic -/

variable (p : HistogramParams) {value : UInt64}

theorem kSubBucketCount_eq : p.kSubBucketCount = 2 ^ (p.precisionBits + 1) := by
  rw [kSubBucketCount, Nat.one_shiftLeft]

theorem kSubBucketHalfCount_eq : p.kSubBucketHalfCount = 2 ^ p.precisionBits := by
  rw [kSubBucketHalfCount, kSubBucketCount_eq, Nat.shiftRight_eq_div_pow, Nat.pow_succ]
  exact Nat.mul_div_cancel _ (by decide)

theorem subBucketCount_le : 2 ^ (p.precisionBits + 1) ≤ 2 ^ 17 :=
  Nat.pow_le_pow_right (by decide) (Nat.succ_le_succ p.le_sixteen)

theorem toNat_kSubBucketMask : p.kSubBucketMask.toNat = 2 ^ (p.precisionBits + 1) - 1 := by
  have := p.subBucketCount_le
  rw [kSubBucketMask, kSubBucketCount_eq]
  exact UInt64.toNat_ofNat_of_lt' (by show _ < 2 ^ 64; omega)

theorem two_pow_octave_succ (P v : Nat) :
    2 ^ (P + LogLinear.octave P v + 1) = 2 ^ (P + 1) * 2 ^ LogLinear.octave P v := by
  rw [← Nat.pow_add, Nat.add_right_comm]

/-- The leading bit of a value above the mask. -/
theorem log2_or_mask (P v : Nat) : Nat.log2 (v ||| (2 ^ (P + 1) - 1)) = P + LogLinear.octave P v := by
  have hhalf : 2 ^ P ≤ 2 ^ (P + 1) - 1 := by
    have := Nat.two_pow_pos P
    rw [Nat.pow_succ]
    omega
  have hmask : 2 ^ P ≤ v ||| (2 ^ (P + 1) - 1) := Nat.le_trans hhalf Nat.right_le_or
  refine (Nat.log2_eq_iff (by have := Nat.two_pow_pos P; omega)).mpr ⟨?_, ?_⟩
  · by_cases h : LogLinear.octave P v = 0
    · rwa [h, Nat.add_zero]
    · rw [Nat.pow_add]
      exact Nat.le_trans (LogLinear.octave_le h) Nat.left_le_or
  · refine Nat.or_lt_two_pow ?_ ?_
    · rw [two_pow_octave_succ]
      exact LogLinear.lt_octave P v
    · have := Nat.pow_le_pow_right (n := 2) (by decide) (by omega : P + 1 ≤ P + LogLinear.octave P v + 1)
      have := Nat.two_pow_pos (P + 1)
      omega

theorem bucketIndex_eq : p.bucketIndex value = LogLinear.octave p.precisionBits value.toNat := by
  rw [bucketIndex, kLeadingZeroCountBase, clzll, UInt64.toNat_or, toNat_kSubBucketMask, log2_or_mask]
  omega

theorem precision_add_octave_le (value : UInt64) :
    p.precisionBits + LogLinear.octave p.precisionBits value.toNat ≤ 63 := by
  have hlog : Nat.log2 value.toNat < 64 := by
    rcases Nat.eq_zero_or_pos value.toNat with h0 | hpos
    · simp [h0]
    · exact (Nat.log2_lt (by omega)).mpr value.toNat_lt
  have := p.le_sixteen
  unfold LogLinear.octave
  omega

theorem toNat_subBucketIndex :
    (subBucketIndex value (p.bucketIndex value)).toNat =
      value.toNat / 2 ^ LogLinear.octave p.precisionBits value.toNat := by
  have hoctave := p.precision_add_octave_le value
  have hquotient := LogLinear.quotient_lt p.precisionBits value.toNat
  have hcount := p.subBucketCount_le
  rw [subBucketIndex, bucketIndex_eq, Int.toNat_natCast, UInt64.toNat_toUInt32, UInt64.toNat_shiftRight,
    UInt64.toNat_ofNat_of_lt' (by show _ < 2 ^ 64; omega), Nat.shiftRight_eq_div_pow,
    Nat.mod_eq_of_lt (by omega : LogLinear.octave p.precisionBits value.toNat < 64)]
  exact Nat.mod_eq_of_lt (by omega)

theorem countsIndex_eq : p.countsIndex value = LogLinear.index p.precisionBits value.toNat := by
  have hflat : ((LogLinear.octave p.precisionBits value.toNat : Int) + 1) * 2 ^ p.precisionBits +
      ((value.toNat / 2 ^ LogLinear.octave p.precisionBits value.toNat : Nat) - (2 ^ p.precisionBits : Nat)) =
      (LogLinear.index p.precisionBits value.toNat : Nat) := by
    rw [LogLinear.index]
    push_cast
    ring
  rw [countsIndex, toNat_subBucketIndex, bucketIndex_eq, kSubBucketHalfCount_eq, hflat, Int.toNat_natCast]

/-- The octave and the place in it, recovered from a flat index. -/
theorem recover_eq (P index : Nat) :
    (if ((index >>> P : Nat) : Int) - 1 < 0 then ((0 : Int), UInt32.ofNat index)
      else (((index >>> P : Nat) : Int) - 1, UInt32.ofNat (index &&& (2 ^ P - 1)) + UInt32.ofNat (2 ^ P))) =
      (((index / 2 ^ P - 1 : Nat) : Int), UInt32.ofNat (index - (index / 2 ^ P - 1) * 2 ^ P)) := by
  have hdiv := Nat.div_add_mod index (2 ^ P)
  rw [Nat.shiftRight_eq_div_pow, Nat.and_two_pow_sub_one_eq_mod]
  rcases Nat.eq_zero_or_pos (index / 2 ^ P) with h0 | hpos
  · rw [h0, if_pos (by omega)]
    simp
  · have hplace : index - (index / 2 ^ P - 1) * 2 ^ P = index % 2 ^ P + 2 ^ P := by
      obtain ⟨e, he⟩ : ∃ e, index / 2 ^ P = e + 1 := ⟨index / 2 ^ P - 1, by omega⟩
      rw [he, Nat.mul_add, Nat.mul_comm] at hdiv
      rw [he, Nat.add_sub_cancel]
      omega
    rw [if_neg (by omega), hplace, UInt32.ofNat_add]
    exact congrArg (·, _) (by omega)

theorem toNat_add_sub_one (a b : UInt64) (hpos : 0 < b.toNat) (hle : a.toNat + b.toNat ≤ 2 ^ 64) :
    (a + b - 1).toNat = a.toNat + b.toNat - 1 := by
  rw [UInt64.toNat_sub, UInt64.toNat_add, UInt64.toNat_one]
  omega

theorem toNat_shiftLeft_of_le {a : UInt64} {e : Nat} (he : e < 64) (hle : a.toNat * 2 ^ e < 2 ^ 64) :
    (a <<< UInt64.ofNat e).toNat = a.toNat * 2 ^ e := by
  rw [UInt64.toNat_shiftLeft, UInt64.toNat_ofNat_of_lt' (by show _ < 2 ^ 64; omega), Nat.mod_eq_of_lt he,
    Nat.shiftLeft_eq, Nat.mod_eq_of_lt hle]

/-- The bucket and the place in it that `highest_equivalent_value` recovers. -/
def recovered (index : Nat) : Int × UInt32 :=
  let bidx : Int := ((index >>> p.precisionBits : Nat) : Int) - 1
  let sidx := UInt32.ofNat (index &&& (p.kSubBucketHalfCount - 1)) + UInt32.ofNat p.kSubBucketHalfCount
  if bidx < 0 then (0, UInt32.ofNat index) else (bidx, sidx)

/-- The two operands of the sum in `highest_equivalent_value`. -/
def lowerAndUnit (index : Nat) : UInt64 × UInt64 :=
  let (bidx, sidx) := p.recovered index
  (sidx.toUInt64 <<< UInt64.ofNat bidx.toNat, 1 <<< UInt64.ofNat bidx.toNat)

theorem highestEquivalentValue_eq (index : Nat) :
    p.highestEquivalentValue index = (p.lowerAndUnit index).1 + (p.lowerAndUnit index).2 - 1 := rfl

/-- For the index of a value they are its octave and its place there. -/
theorem recovered_countsIndex (value : UInt64) :
    p.recovered (p.countsIndex value) = ((LogLinear.octave p.precisionBits value.toNat : Int),
      UInt32.ofNat (value.toNat / 2 ^ LogLinear.octave p.precisionBits value.toNat)) := by
  rw [countsIndex_eq]
  unfold recovered
  dsimp only
  rw [kSubBucketHalfCount_eq, recover_eq, LogLinear.octave_index, LogLinear.index, Nat.add_sub_cancel_left]

theorem toNat_recovered (value : UInt64) :
    (p.recovered (p.countsIndex value)).2.toNat =
      value.toNat / 2 ^ LogLinear.octave p.precisionBits value.toNat := by
  have hquotient := LogLinear.quotient_lt p.precisionBits value.toNat
  have hcount := p.subBucketCount_le
  rw [recovered_countsIndex]
  exact UInt32.toNat_ofNat_of_lt' (by show _ < 2 ^ 32; omega)

/-- No bit is lost in the operands: they are the first value of the bucket and its width. -/
theorem toNat_lowerAndUnit (value : UInt64) :
    let e := LogLinear.octave p.precisionBits value.toNat
    (p.lowerAndUnit (p.countsIndex value)).1.toNat = value.toNat / 2 ^ e * 2 ^ e ∧
      (p.lowerAndUnit (p.countsIndex value)).2.toNat = 2 ^ e ∧ (value.toNat / 2 ^ e + 1) * 2 ^ e ≤ 2 ^ 64 := by
  have hoctave := p.precision_add_octave_le value
  have hquotient := LogLinear.quotient_lt p.precisionBits value.toNat
  have hplace := p.toNat_recovered value
  have hone := p.one_le
  rw [recovered_countsIndex] at hplace
  unfold lowerAndUnit
  rw [recovered_countsIndex]
  dsimp only [Int.toNat_natCast] at hplace ⊢
  generalize LogLinear.octave p.precisionBits value.toNat = e at hoctave hquotient hplace ⊢
  generalize value.toNat / 2 ^ e = q at hquotient hplace ⊢
  have hpos := Nat.two_pow_pos e
  have hwidth : 2 ^ e < 2 ^ 64 := Nat.pow_lt_pow_right (by decide) (by omega)
  have hend : (q + 1) * 2 ^ e ≤ 2 ^ 64 :=
    calc (q + 1) * 2 ^ e ≤ 2 ^ (p.precisionBits + 1) * 2 ^ e := Nat.mul_le_mul_right _ hquotient
      _ = 2 ^ (p.precisionBits + 1 + e) := (Nat.pow_add ..).symm
      _ ≤ 2 ^ 64 := Nat.pow_le_pow_right (by decide) (by omega)
  have hwide : (UInt32.ofNat q).toUInt64.toNat = q := (UInt32.toNat_toUInt64 _).trans hplace
  have hfit : q * 2 ^ e < 2 ^ 64 := by
    rw [Nat.add_mul] at hend
    omega
  have hlower := toNat_shiftLeft_of_le (a := (UInt32.ofNat q).toUInt64) (by omega : e < 64) (by rwa [hwide])
  have hunit := toNat_shiftLeft_of_le (a := 1) (by omega : e < 64) (by rwa [UInt64.toNat_one, Nat.one_mul])
  rw [hwide] at hlower
  rw [UInt64.toNat_one, Nat.one_mul] at hunit
  exact ⟨hlower, hunit, hend⟩

/-- The value reported for the bucket of a value. -/
theorem toNat_highestEquivalentValue (value : UInt64) :
    (p.highestEquivalentValue (p.countsIndex value)).toNat =
      LogLinear.top p.precisionBits (LogLinear.index p.precisionBits value.toNat) := by
  obtain ⟨hlower, hunit, hend⟩ := p.toNat_lowerAndUnit value
  have hpos := Nat.two_pow_pos (LogLinear.octave p.precisionBits value.toNat)
  rw [Nat.add_mul, Nat.one_mul] at hend
  rw [LogLinear.top_index, highestEquivalentValue_eq, toNat_add_sub_one _ _ (by omega) (by omega), hlower, hunit,
    Nat.add_mul, Nat.one_mul]

/-! ### The counts array -/

/-- `smallest_untrackable` at the head of each round of the loop of `buckets_needed`. -/
def untrackables (value : UInt64) : (rounds : Nat) → (smallestUntrackable : UInt64) → List UInt64
  | 0, _ => []
  | rounds + 1, smallestUntrackable =>
    smallestUntrackable ::
      if smallestUntrackable ≤ value ∧ ¬smallestUntrackable > (0xFFFFFFFFFFFFFFFF : UInt64) >>> 1 then
        untrackables value rounds (smallestUntrackable <<< 1)
      else []

/-- A power that passes the overflow check is doubled exactly. -/
theorem toNat_double {k : Nat} {s : UInt64} (hpow : s.toNat = 2 ^ k)
    (hlast : ¬s > (0xFFFFFFFFFFFFFFFF : UInt64) >>> 1) : k < 63 ∧ (s <<< 1).toNat = 2 ^ (k + 1) := by
  have hsmall : s.toNat ≤ 2 ^ 63 - 1 := Nat.not_lt.mp fun h => hlast (UInt64.lt_iff_toNat_lt.mpr h)
  refine ⟨?_, ?_⟩
  · by_contra h
    have := Nat.pow_le_pow_right (n := 2) (by decide) (by omega : 63 ≤ k)
    omega
  · rw [Nat.pow_succ, ← hpow]
    exact toNat_shiftLeft_of_le (by decide : 1 < 64) (by rw [Nat.pow_one]; omega)

theorem toNat_untrackables {value : UInt64} {rounds k : Nat} {s : UInt64} (hpow : s.toNat = 2 ^ k) {i : Nat}
    {t : UInt64} (ht : (untrackables value rounds s)[i]? = some t) : t.toNat = 2 ^ (k + i) := by
  induction rounds generalizing k s i with
  | zero => cases ht
  | succ rounds ih =>
    unfold untrackables at ht
    cases i with
    | zero =>
      cases ht
      exact hpow
    | succ i =>
      rw [List.getElem?_cons_succ] at ht
      split at ht
      · next hgo =>
        rw [ih (toNat_double hpow hgo.2).2 ht]
        exact congrArg _ (by omega)
      · cases ht

/-- With `smallestUntrackable = 2 ^ (P + needed)`, the loop ends with enough buckets and no more than that. -/
theorem bucketsLoop_spec {value : UInt64} : ∀ {rounds needed : Nat} {smallestUntrackable : UInt64},
    smallestUntrackable.toNat = 2 ^ (p.precisionBits + needed) → p.precisionBits + needed ≤ 63 →
    63 < p.precisionBits + needed + rounds →
    ∃ n, bucketsLoop value rounds smallestUntrackable needed = some n ∧ needed ≤ n ∧
      value.toNat < 2 ^ (p.precisionBits + n) ∧ (needed < n → 2 ^ (p.precisionBits + n - 1) ≤ value.toNat)
  | 0, needed, smallestUntrackable, _, _, hrounds => by omega
  | rounds + 1, needed, smallestUntrackable, hpow, hle, hrounds => by
    rw [bucketsLoop]
    by_cases huntrackable : smallestUntrackable ≤ value
    · rw [if_pos huntrackable]
      have hreach := UInt64.le_iff_toNat_le.mp huntrackable
      rw [hpow] at hreach
      by_cases hlast : smallestUntrackable > (0xFFFFFFFFFFFFFFFF : UInt64) >>> 1
      · rw [if_pos hlast]
        refine ⟨_, rfl, Nat.le_succ needed, Nat.lt_of_lt_of_le value.toNat_lt (Nat.pow_le_pow_right (by decide) ?_),
          fun _ => hreach⟩
        by_contra hlt
        have hsmall : 2 ^ (p.precisionBits + needed) ≤ 2 ^ 62 := Nat.pow_le_pow_right (by decide) (by omega)
        have hbig : 2 ^ 63 - 1 < smallestUntrackable.toNat := UInt64.lt_iff_toNat_lt.mp hlast
        omega
      · rw [if_neg hlast]
        obtain ⟨hnext, hdouble⟩ := toNat_double hpow hlast
        rw [Nat.add_assoc] at hdouble
        obtain ⟨n, hn, hneeded, hvalue, hleast⟩ :=
          bucketsLoop_spec hdouble (by omega) (by omega : 63 < _ + _ + rounds)
        refine ⟨n, hn, Nat.le_of_succ_le hneeded, hvalue, fun _ => ?_⟩
        rcases Nat.lt_or_eq_of_le hneeded with hlt | rfl
        · exact hleast hlt
        · exact hreach
    · rw [if_neg huntrackable]
      refine ⟨_, rfl, Nat.le_refl needed, ?_, fun h => absurd h (Nat.lt_irrefl needed)⟩
      rw [← hpow]
      exact Nat.not_le.mp fun h => huntrackable (UInt64.le_iff_toNat_le.mpr h)

theorem toNat_ofNat_kSubBucketCount : (UInt64.ofNat p.kSubBucketCount).toNat = 2 ^ (p.precisionBits + 1) := by
  have hcount := p.subBucketCount_le
  rw [kSubBucketCount_eq]
  exact UInt64.toNat_ofNat_of_lt' (by show _ < 2 ^ 64; omega)

theorem bucketsNeeded_spec (value : UInt64) :
    ∃ n, p.bucketsNeeded value = some n ∧ 1 ≤ n ∧ value.toNat < 2 ^ (p.precisionBits + n) ∧
      (1 < n → 2 ^ (p.precisionBits + n - 1) ≤ value.toNat) := by
  have := p.le_sixteen
  exact p.bucketsLoop_spec p.toNat_ofNat_kSubBucketCount (by omega) (by omega)

theorem countsIndex_lt (h : value ≤ p.highestTrackableNs) : p.countsIndex value < p.kCountsLen := by
  obtain ⟨n, hn, hpos, hhighest, -⟩ := p.bucketsNeeded_spec p.highestTrackableNs
  have hle := UInt64.le_iff_toNat_le.mp h
  have hoctave : LogLinear.octave p.precisionBits value.toNat < n := by
    by_contra hge
    have hbottom := LogLinear.octave_le (by omega : LogLinear.octave p.precisionBits value.toNat ≠ 0)
    rw [← Nat.pow_add] at hbottom
    have := Nat.pow_le_pow_right (n := 2) (by decide) (by omega : p.precisionBits + n ≤
      p.precisionBits + LogLinear.octave p.precisionBits value.toNat)
    omega
  rw [countsIndex_eq, kCountsLen, kBucketCount, hn, Option.getD_some, kSubBucketHalfCount_eq]
  calc LogLinear.index p.precisionBits value.toNat
      < (LogLinear.octave p.precisionBits value.toNat + 2) * 2 ^ p.precisionBits := LogLinear.index_lt _ _
    _ ≤ (n + 1) * 2 ^ p.precisionBits := Nat.mul_le_mul_right _ (by omega)

/-! ### The bucket map -/

/-- The loop of `buckets_needed` finds the least number of buckets and loses no bit; every trackable value has a place
    in the counts array; the map is monotone; and the value reported for a place is the last one there. The shifts
    behind it lose no bit, and their sum is that value and one more, so it wraps for the bucket that ends at 2^64 - 1
    and for no other. -/
theorem bucket_map_exact (p : HistogramParams) :
    (∃ n, p.bucketsNeeded p.highestTrackableNs = some n ∧ 1 ≤ n ∧
      p.highestTrackableNs.toNat < 2 ^ (p.precisionBits + n) ∧
      (1 < n → 2 ^ (p.precisionBits + n - 1) ≤ p.highestTrackableNs.toNat)) ∧
    (∀ i s, (untrackables p.highestTrackableNs 64 (UInt64.ofNat p.kSubBucketCount))[i]? = some s →
      s.toNat = 2 ^ (p.precisionBits + 1 + i)) ∧
    (∀ v ≤ p.highestTrackableNs, p.countsIndex v < p.kCountsLen) ∧
    (∀ v w, v ≤ w → p.countsIndex v ≤ p.countsIndex w) ∧
    ∀ v, let top := p.highestEquivalentValue (p.countsIndex v)
      p.countsIndex top = p.countsIndex v ∧ (∀ w, p.countsIndex w = p.countsIndex v → w ≤ top) ∧
      (∃ e : Nat, (p.recovered (p.countsIndex v)).1 = e ∧ e < 64 ∧
        (p.lowerAndUnit (p.countsIndex v)).1.toNat = (p.recovered (p.countsIndex v)).2.toNat * 2 ^ e ∧
        (p.lowerAndUnit (p.countsIndex v)).2.toNat = 2 ^ e) ∧
      (p.lowerAndUnit (p.countsIndex v)).1.toNat + (p.lowerAndUnit (p.countsIndex v)).2.toNat = top.toNat + 1 := by
  refine ⟨p.bucketsNeeded_spec _, fun i s => toNat_untrackables p.toNat_ofNat_kSubBucketCount,
    fun v => p.countsIndex_lt, fun v w hle => ?_, fun v => ⟨?_, fun w heq => ?_, ?_, ?_⟩⟩
  · rw [countsIndex_eq, countsIndex_eq]
    exact LogLinear.index_mono _ (UInt64.le_iff_toNat_le.mp hle)
  · rw [countsIndex_eq, toNat_highestEquivalentValue, countsIndex_eq]
    exact LogLinear.index_eq_of_le_top (LogLinear.le_top_index _ _) (Nat.le_refl _)
  · rw [UInt64.le_iff_toNat_le, toNat_highestEquivalentValue, ← countsIndex_eq, ← heq, countsIndex_eq]
    exact LogLinear.le_top_index _ _
  · obtain ⟨hlower, hunit, -⟩ := p.toNat_lowerAndUnit v
    have hoctave := p.precision_add_octave_le v
    have hone := p.one_le
    exact ⟨_, congrArg Prod.fst (p.recovered_countsIndex v), by omega, p.toNat_recovered v ▸ hlower, hunit⟩
  · obtain ⟨hlower, hunit, -⟩ := p.toNat_lowerAndUnit v
    have hpos := Nat.two_pow_pos (LogLinear.octave p.precisionBits v.toNat)
    rw [toNat_highestEquivalentValue, LogLinear.top_index, hlower, hunit, Nat.add_mul, Nat.one_mul]
    omega

/-- With every value trackable, the sum for the last bucket wraps to 0. -/
theorem last_bucket_sum_wraps :
    let p : HistogramParams := ⟨0xFFFFFFFFFFFFFFFF, 5, by decide, by decide⟩
    let v : UInt64 := 0xFFFFFFFFFFFFFFFF
    v ≤ p.highestTrackableNs ∧
      (p.lowerAndUnit (p.countsIndex v)).1.toNat + (p.lowerAndUnit (p.countsIndex v)).2.toNat = 2 ^ 64 ∧
      (p.lowerAndUnit (p.countsIndex v)).1 + (p.lowerAndUnit (p.countsIndex v)).2 = 0 := by
  decide +kernel

end HistogramParams

end Hft
