import HftEngine.Lib.Ranks
import HftEngine.Lib.Transition
import HftEngine.Theorems.HistogramIndex
import Mathlib.Data.UInt

/-! The percentiles of the histogram: its counts are those of the recorded values, and the scan finds the bucket of the
    value of a rank. -/

namespace Hft

namespace Histogram

/-! ### The counts -/

section
variable {p : HistogramParams}

/-- What a histogram keeps of the values recorded in it. -/
structure Holds (h : Histogram p) (vs : List UInt64) : Prop where
  counts : ∀ i : Fin p.kCountsLen, h.counts[i] = UInt64.ofNat (vs.countP fun v => p.countsIndex (clamp p v) = i)
  total : h.totalCount = UInt64.ofNat vs.length
  max_recorded : h.max ≠ 0 → ∃ v ∈ vs, h.max = clamp p v

theorem holds_nil : Holds ({} : Histogram p) [] where
  counts i := by simp
  total := rfl
  max_recorded h := absurd rfl h

theorem clamp_le (value : UInt64) : clamp p value ≤ p.highestTrackableNs := by
  unfold clamp
  split_ifs with h
  · exact UInt64.le_refl _
  · exact UInt64.not_lt.mp h

theorem countsIndex_clamp_lt (value : UInt64) : p.countsIndex (clamp p value) < p.kCountsLen :=
  p.countsIndex_lt (clamp_le value)

/-- No call of `record` leaves the array. -/
theorem Holds.record {h : Histogram p} {vs : List UInt64} (hh : Holds h vs) (value : UInt64) :
    ∃ h', h.record value = some h' ∧ Holds h' (vs ++ [value]) := by
  refine ⟨_, dif_pos (countsIndex_clamp_lt value), fun i => ?_, ?_, ?_⟩
  · have hold := hh.counts i
    simp only [Fin.getElem_fin] at hold ⊢
    rw [Vector.getElem_set, List.countP_append, List.countP_singleton]
    by_cases hi : p.countsIndex (clamp p value) = i
    · have hsame := hh.counts ⟨_, countsIndex_clamp_lt value⟩
      simp only [Fin.getElem_fin] at hsame
      simp only [hi, decide_true, if_true] at hsame ⊢
      rw [hsame, UInt64.ofNat_add]
      rfl
    · rw [if_neg hi, if_neg (by simpa using hi), Nat.add_zero]
      exact hold
  · show h.totalCount + 1 = _
    rw [hh.total, List.length_append, UInt64.ofNat_add]
    rfl
  · intro hne
    by_cases hgt : clamp p value > h.max
    · exact ⟨value, by simp, if_pos hgt⟩
    · simp only [if_neg hgt] at hne ⊢
      obtain ⟨v, hv, hmax⟩ := hh.max_recorded hne
      exact ⟨v, List.mem_append_left _ hv, hmax⟩

theorem holds_recorded (vs : List UInt64) :
    ∃ h, vs.foldlM Histogram.record ({} : Histogram p) = some h ∧ Holds h vs :=
  Transition.foldlM_total (fun value hh => hh.record value) holds_nil vs

/-- The recorded values as numbers. -/
def recorded (p : HistogramParams) (vs : List UInt64) : List Nat := vs.map fun v => (clamp p v).toNat

/-- The number of values in each bucket. -/
def bucketCounts (p : HistogramParams) (vs : List UInt64) (n : Nat) : List Nat :=
  (List.range n).map fun i => (recorded p vs).countP fun v => LogLinear.index p.precisionBits v = i

theorem sum_bucketCounts (vs : List UInt64) (i : Nat) :
    (bucketCounts p vs (i + 1)).sum = Ranks.upTo (LogLinear.index p.precisionBits) (recorded p vs) i :=
  Ranks.sum_countP ..

theorem take_bucketCounts (vs : List UInt64) {i n : Nat} (hi : i ≤ n) :
    (bucketCounts p vs n).take i = bucketCounts p vs i := by
  rw [bucketCounts, ← List.map_take, List.take_range, Nat.min_eq_left hi, bucketCounts]

theorem index_lt_of_mem {vs : List UInt64} {v : Nat} (hv : v ∈ recorded p vs) :
    LogLinear.index p.precisionBits v < p.kCountsLen := by
  obtain ⟨w, -, rfl⟩ := List.mem_map.mp hv
  rw [← p.countsIndex_eq]
  exact countsIndex_clamp_lt w

theorem kCountsLen_pos (p : HistogramParams) : 0 < p.kCountsLen :=
  Nat.zero_lt_of_lt (countsIndex_clamp_lt (p := p) 0)

theorem sum_bucketCounts_kCountsLen (vs : List UInt64) : (bucketCounts p vs p.kCountsLen).sum = vs.length := by
  have hpos := kCountsLen_pos p
  obtain ⟨last, hlast⟩ : ∃ last, p.kCountsLen = last + 1 := ⟨p.kCountsLen - 1, by omega⟩
  have hall : Ranks.upTo (LogLinear.index p.precisionBits) (recorded p vs) last = (recorded p vs).length :=
    List.countP_eq_length.mpr fun v hv => by
      have := index_lt_of_mem hv
      exact decide_eq_true (by omega)
  rw [hlast, sum_bucketCounts, hall, recorded, List.length_map]

theorem Holds.toList_counts {h : Histogram p} {vs : List UInt64} (hh : Holds h vs) :
    h.counts.toList = (bucketCounts p vs p.kCountsLen).map UInt64.ofNat := by
  refine List.ext_getElem (by simp [bucketCounts]) fun i hi _ => ?_
  have := hh.counts ⟨i, by simpa using hi⟩
  simp only [Fin.getElem_fin, HistogramParams.countsIndex_eq] at this
  simp only [Vector.getElem_toList, this, bucketCounts, recorded, List.getElem_map, List.getElem_range, List.countP_map]
  rfl

theorem sum_map_ofNat (ns : List Nat) : (ns.map UInt64.ofNat).sum = UInt64.ofNat ns.sum := by
  induction ns with
  | nil => rfl
  | cons n ns ih => rw [List.map_cons, List.sum_cons, List.sum_cons, ih, UInt64.ofNat_add]

theorem Holds.sum_counts {h : Histogram p} {vs : List UInt64} (hh : Holds h vs) : h.counts.toList.sum = h.count := by
  rw [hh.toList_counts, sum_map_ofNat, sum_bucketCounts_kCountsLen, count, hh.total]

/-! ### The scan -/

/-- The scan ends at the first place where the sum of the counts reaches the rank. -/
theorem scan_eq {want : UInt64} : ∀ {ns : List Nat} {m i j : Nat}, m + ns.sum < 2 ^ 64 → j < ns.length →
    m + (ns.take j).sum < want.toNat → want.toNat ≤ m + (ns.take (j + 1)).sum →
    scan want (ns.map UInt64.ofNat) i (UInt64.ofNat m) = some (i + j)
  | [], _, _, _, _, hj, _, _ => absurd hj (Nat.not_lt_zero _)
  | n :: ns, m, i, j, hsum, hj, hbefore, hat => by
    rw [List.sum_cons, ← Nat.add_assoc] at hsum
    have hreach : UInt64.ofNat (m + n) ≥ want ↔ want.toNat ≤ m + n := by
      rw [ge_iff_le, UInt64.le_iff_toNat_le, UInt64.toNat_ofNat_of_lt' (by show _ < 2 ^ 64; omega)]
    rw [List.map_cons, scan, ← UInt64.ofNat_add]
    cases j with
    | zero =>
      rw [if_pos (hreach.mpr (by simpa using hat)), Nat.add_zero]
    | succ j =>
      rw [List.take_succ_cons, List.sum_cons, ← Nat.add_assoc] at hbefore hat
      rw [if_neg (by rw [hreach]; omega), scan_eq hsum (Nat.lt_of_succ_lt_succ hj) hbefore hat]
      congr 1
      omega

theorem index_monotone (P : Nat) : Monotone (LogLinear.index P) := fun _ _ => LogLinear.index_mono P

/-- The scan ends in the bucket of the value of the rank. -/
theorem Holds.scan_counts {h : Histogram p} {vs : List UInt64} (hh : Holds h vs) (hlen : vs.length < 2 ^ 64)
    {want : UInt64} (hwant : 1 ≤ want.toNat) {v : Nat} (hmem : v ∈ recorded p vs)
    (hv : (Ranks.sorted (recorded p vs))[want.toNat - 1]? = some v) :
    scan want h.counts.toList 0 0 = some (LogLinear.index p.precisionBits v) := by
  have hindex := index_lt_of_mem hmem
  have hbefore : (bucketCounts p vs (LogLinear.index p.precisionBits v)).sum < want.toNat := by
    cases hi : LogLinear.index p.precisionBits v with
    | zero => exact hwant
    | succ i =>
      have := Ranks.upTo_le (index_monotone p.precisionBits) hv (by omega : i < _)
      rw [sum_bucketCounts]
      omega
  have hat := Ranks.lt_upTo (index_monotone p.precisionBits) hv (Nat.le_refl _)
  rw [← sum_bucketCounts] at hat
  rw [hh.toList_counts]
  refine (scan_eq (m := 0) (i := 0) (j := LogLinear.index p.precisionBits v) ?_ ?_ ?_ ?_).trans (by rw [Nat.zero_add])
  · rwa [sum_bucketCounts_kCountsLen, Nat.zero_add]
  · rwa [bucketCounts, List.length_map, List.length_range]
  · rwa [take_bucketCounts _ (Nat.le_of_lt hindex), Nat.zero_add]
  · rw [take_bucketCounts _ (by omega : _ + 1 ≤ p.kCountsLen), Nat.zero_add]
    omega

end

end Histogram

/-! ### Percentiles -/

/-- The floating-point rank grows from 0 to 100, where it is the number of values, while that number is a double. -/
structure PercentRanks.Lawful {π : Type} [LinearOrder π] (r : PercentRanks π) : Prop where
  zero_le_hundred : r.zero ≤ r.hundred
  rank_mono : ∀ {n : UInt64} {pct pct' : π}, n.toNat < 2 ^ 53 → r.zero ≤ pct → pct ≤ pct' → pct' ≤ r.hundred →
    r.rank pct n ≤ r.rank pct' n
  rank_hundred : ∀ {n : UInt64}, n.toNat < 2 ^ 53 → r.rank r.hundred n = n

namespace Histogram

section
variable {p : HistogramParams} {π : Type} [LinearOrder π] {r : PercentRanks π} {h : Histogram p} {vs : List UInt64}
  {pct pct' : π}

theorem clip_eq (r : PercentRanks π) (pct : π) :
    (if (if pct < r.zero then r.zero else pct) > r.hundred then r.hundred else if pct < r.zero then r.zero else pct) =
      Min.min r.hundred (Max.max r.zero pct) := by
  rw [max_def_lt', min_def_lt]

theorem one_le_want (r : PercentRanks π) (h : Histogram p) (pct : π) : 1 ≤ (h.want r pct).toNat := by
  unfold want
  dsimp only
  rw [clip_eq]
  split_ifs with htarget
  · exact Nat.le_refl 1
  · exact Nat.pos_of_ne_zero fun h0 => htarget (UInt64.toNat_inj.mp h0)

theorem want_mono (hr : r.Lawful) (hn : h.totalCount.toNat < 2 ^ 53) (hle : pct ≤ pct') :
    (h.want r pct).toNat ≤ (h.want r pct').toNat := by
  have hrank := hr.rank_mono hn (le_min hr.zero_le_hundred (le_max_left r.zero pct))
    (min_le_min_left r.hundred (max_le_max_left r.zero hle)) (min_le_left ..)
  have hpos := one_le_want r h pct'
  unfold want at hpos ⊢
  dsimp only at hpos ⊢
  rw [clip_eq] at hpos ⊢
  rw [clip_eq]
  split_ifs with h0 h0' h0'
  · exact Nat.le_refl _
  · rwa [if_neg h0'] at hpos
  · rw [h0'] at hrank
    exact absurd (UInt64.le_antisymm hrank (UInt64.le_iff_toNat_le.mpr (Nat.zero_le _))) h0
  · exact UInt64.le_iff_toNat_le.mp hrank

theorem want_of_hundred_le (hr : r.Lawful) (hn : h.totalCount.toNat < 2 ^ 53) (hpos : h.totalCount ≠ 0)
    (hle : r.hundred ≤ pct) : h.want r pct = h.totalCount := by
  unfold want
  dsimp only
  rw [clip_eq, min_eq_left (le_trans hle (le_max_right ..)), hr.rank_hundred hn, if_neg hpos]

theorem want_le (hr : r.Lawful) (hn : h.totalCount.toNat < 2 ^ 53) (hpos : h.totalCount ≠ 0) (pct : π) :
    (h.want r pct).toNat ≤ h.totalCount.toNat := by
  have := want_mono hr hn (le_max_left pct r.hundred)
  rwa [want_of_hundred_le hr hn hpos (le_max_right ..)] at this

theorem Holds.toNat_totalCount (hh : Holds h vs) (hlen : vs.length < 2 ^ 53) : h.totalCount.toNat = vs.length := by
  rw [hh.total]
  exact UInt64.toNat_ofNat_of_lt' (by show _ < 2 ^ 64; omega)

theorem Holds.totalCount_ne (hh : Holds h vs) (hne : vs ≠ []) (hlen : vs.length < 2 ^ 53) : h.totalCount ≠ 0 := by
  intro h0
  have htotal := hh.toNat_totalCount hlen
  rw [h0] at htotal
  exact hne (List.length_eq_zero_iff.mp htotal.symm)

/-- The value reported for a rank. -/
theorem Holds.percentile_eq (hh : Holds h vs) (hne : vs ≠ []) (hlen : vs.length < 2 ^ 53) {v : Nat}
    (hmem : v ∈ recorded p vs) (hv : (Ranks.sorted (recorded p vs))[(h.want r pct).toNat - 1]? = some v) :
    (h.percentile r pct).toNat = LogLinear.top p.precisionBits (LogLinear.index p.precisionBits v) := by
  obtain ⟨w, -, rfl⟩ := List.mem_map.mp hmem
  rw [percentile, if_neg (hh.totalCount_ne hne hlen),
    hh.scan_counts (by omega) (one_le_want r h pct) hmem hv, ← p.countsIndex_eq]
  exact (p.toNat_highestEquivalentValue _).trans (by rw [p.countsIndex_eq])

/-- The value at the rank of a percentile. -/
theorem Holds.exists_ranked (hh : Holds h vs) (hr : r.Lawful) (hne : vs ≠ []) (hlen : vs.length < 2 ^ 53) (pct : π) :
    ∃ v, (Ranks.sorted (recorded p vs))[(h.want r pct).toNat - 1]? = some v ∧ v ∈ recorded p vs := by
  have hle := want_le hr (by rwa [hh.toNat_totalCount hlen]) (hh.totalCount_ne hne hlen) pct
  rw [hh.toNat_totalCount hlen] at hle
  exact Ranks.exists_rank (one_le_want r h pct) (by rwa [recorded, List.length_map])

theorem Holds.percentile_mono (hh : Holds h vs) (hr : r.Lawful) (hne : vs ≠ []) (hlen : vs.length < 2 ^ 53)
    (hle : pct ≤ pct') : h.percentile r pct ≤ h.percentile r pct' := by
  obtain ⟨v, hv, hmem⟩ := hh.exists_ranked hr hne hlen pct
  obtain ⟨v', hv', hmem'⟩ := hh.exists_ranked hr hne hlen pct'
  have hwant := want_mono hr (by rwa [hh.toNat_totalCount hlen]) hle
  rw [UInt64.le_iff_toNat_le, hh.percentile_eq hne hlen hmem hv, hh.percentile_eq hne hlen hmem' hv']
  exact LogLinear.top_mono _ (Ranks.sorted_mono hv hv' (by omega))

theorem Holds.max_le (hh : Holds h vs) (hr : r.Lawful) (hne : vs ≠ []) (hlen : vs.length < 2 ^ 53) :
    h.max ≤ h.percentile r r.hundred := by
  by_cases h0 : h.max = 0
  · rw [h0]
    exact UInt64.le_iff_toNat_le.mpr (Nat.zero_le _)
  · obtain ⟨w, hw, hmax⟩ := hh.max_recorded h0
    obtain ⟨v, hv, hmem⟩ := hh.exists_ranked hr hne hlen r.hundred
    have hlast : (recorded p vs).length = (h.want r r.hundred).toNat := by
      rw [want_of_hundred_le hr (by rwa [hh.toNat_totalCount hlen]) (hh.totalCount_ne hne hlen) (le_refl _),
        hh.toNat_totalCount hlen, recorded, List.length_map]
    rw [UInt64.le_iff_toNat_le, hh.percentile_eq hne hlen hmem hv, hmax]
    rw [← hlast] at hv
    exact Nat.le_trans (Ranks.le_last hv (List.mem_map_of_mem hw)) (LogLinear.le_top_index _ v)

end

section
variable (p : HistogramParams) {π : Type} [LinearOrder π] (r : PercentRanks π)

/-- A percentile is the value of its rank, up to the relative error. -/
theorem percentile_accurate (hr : r.Lawful) (vs : List UInt64) :
    ∃ h : Histogram p, vs.foldlM Histogram.record {} = some h ∧ h.counts.toList.sum = h.count ∧
      (vs ≠ [] → vs.length < 2 ^ 53 →
        (∀ pct, ∃ v, 1 ≤ (h.want r pct).toNat ∧ (h.want r pct).toNat ≤ vs.length ∧
          (Ranks.sorted (recorded p vs))[(h.want r pct).toNat - 1]? = some v ∧ v ≤ (h.percentile r pct).toNat ∧
          ((h.percentile r pct).toNat - v) * 2 ^ p.precisionBits ≤ v ∧
          (v < 2 ^ (p.precisionBits + 1) → (h.percentile r pct).toNat = v)) ∧
        (∀ pct pct', pct ≤ pct' → h.percentile r pct ≤ h.percentile r pct') ∧
        h.max ≤ h.percentile r r.hundred) := by
  obtain ⟨h, hrun, hh⟩ := holds_recorded (p := p) vs
  refine ⟨h, hrun, hh.sum_counts, fun hne hlen => ⟨fun pct => ?_, fun pct pct' hle => ?_, ?_⟩⟩
  · obtain ⟨v, hv, hmem⟩ := hh.exists_ranked hr hne hlen pct
    have hle := want_le hr (by rwa [hh.toNat_totalCount hlen]) (hh.totalCount_ne hne hlen) pct
    rw [hh.toNat_totalCount hlen] at hle
    refine ⟨v, one_le_want r h pct, hle, hv, ?_⟩
    rw [hh.percentile_eq hne hlen hmem hv]
    exact ⟨LogLinear.le_top_index _ v, LogLinear.top_error _ v, LogLinear.top_index_of_lt⟩
  · exact hh.percentile_mono hr hne hlen hle
  · exact hh.max_le hr hne hlen

end

/-- Whole percentages, rounded half up. -/
def wholePercents : PercentRanks Nat where
  zero := 0
  hundred := 100
  rank pct n := UInt64.ofNat ((pct * n.toNat + 50) / 100)

theorem toNat_rank_wholePercents {n : UInt64} (hn : n.toNat < 2 ^ 53) {pct : Nat} (hpct : pct ≤ 100) :
    (wholePercents.rank pct n).toNat = (pct * n.toNat + 50) / 100 := by
  have := Nat.mul_le_mul_right n.toNat hpct
  refine UInt64.toNat_ofNat_of_lt' ?_
  show _ < 2 ^ 64
  omega

theorem lawful_wholePercents : wholePercents.Lawful where
  zero_le_hundred := by decide
  rank_mono {n pct pct'} hn _ hle hhundred := by
    have := Nat.mul_le_mul_right n.toNat hle
    rw [UInt64.le_iff_toNat_le, toNat_rank_wholePercents hn hhundred,
      toNat_rank_wholePercents hn (Nat.le_trans hle hhundred)]
    omega
  rank_hundred {n} hn := by
    refine UInt64.toNat_inj.mp ((toNat_rank_wholePercents hn (Nat.le_refl 100)).trans ?_)
    omega

/-- The default template arguments. -/
def defaultParams : HistogramParams := ⟨1000000000, 5, by decide, by decide⟩

/-- The median of three values, the last of them clamped. -/
theorem percentile_accurate_three :
    ∃ h : Histogram defaultParams, [70, 3, 2000000000].foldlM Histogram.record {} = some h ∧
      ∃ v, (Ranks.sorted (recorded defaultParams [70, 3, 2000000000]))[(h.want wholePercents 50).toNat - 1]? = some v ∧
        v ≤ (h.percentile wholePercents 50).toNat ∧ ((h.percentile wholePercents 50).toNat - v) * 2 ^ 5 ≤ v := by
  obtain ⟨h, hrun, -, hacc⟩ := percentile_accurate defaultParams wholePercents lawful_wholePercents [70, 3, 2000000000]
  obtain ⟨v, -, -, hv, hle, herror, -⟩ := (hacc (by decide) (by decide)).1 50
  exact ⟨h, hrun, v, hv, hle, herror⟩

example :
    ([70, 3, 2000000000].foldlM Histogram.record ({} : Histogram defaultParams)).map
      (fun h => [h.percentile wholePercents 0, h.percentile wholePercents 50, h.percentile wholePercents 100]) =
      some [3, 71, 1006632959] := by
  decide +kernel

end Histogram

end Hft
