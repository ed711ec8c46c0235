import HftEngine.Theorems.Histogram
import Mathlib.Algebra.BigOperators.Group.List.Basic

/-! Merging and bulk recording: a histogram is told by the samples recorded in it, in any order, and the merge of two is
    told by the samples of both. -/

namespace Hft

attribute [ext] Histogram

namespace Histogram

/-! ### What the samples tell -/

section
variable {p : HistogramParams} {h h' a b : Histogram p} {vs ws xs ys : List UInt64} {value : UInt64}

/-- All that a histogram keeps of the samples recorded in it. -/
structure Captures (h : Histogram p) (vs : List UInt64) : Prop extends Holds h vs where
  sum : h.sumNs = UInt64.ofNat (recorded p vs).sum
  le_max : ∀ v ∈ vs, clamp p v ≤ h.max
  min_le : ∀ v ∈ vs, h.min ≤ clamp p v
  min_recorded : h.min ≠ 0xFFFFFFFFFFFFFFFF → ∃ v ∈ vs, h.min = clamp p v

theorem captures_nil : Captures ({} : Histogram p) [] where
  toHolds := holds_nil
  sum := rfl
  le_max _ hv := by cases hv
  min_le _ hv := by cases hv
  min_recorded h := absurd rfl h

theorem le_greatest (u : UInt64) : u ≤ 0xFFFFFFFFFFFFFFFF :=
  UInt64.le_iff_toNat_le.mpr (Nat.le_of_lt_succ u.toNat_lt)

theorem zero_le (u : UInt64) : 0 ≤ u := UInt64.le_iff_toNat_le.mpr (Nat.zero_le _)

/-- The larger of two, as the source writes it. -/
theorem raise_spec (u v : UInt64) : u ≤ (if u > v then u else v) ∧ v ≤ (if u > v then u else v) := by
  split
  · next h => exact ⟨UInt64.le_refl u, UInt64.le_of_lt h⟩
  · next h => exact ⟨UInt64.not_lt.mp h, UInt64.le_refl v⟩

theorem lower_spec (u v : UInt64) : (if u < v then u else v) ≤ u ∧ (if u < v then u else v) ≤ v := by
  split
  · next h => exact ⟨UInt64.le_refl u, UInt64.le_of_lt h⟩
  · next h => exact ⟨UInt64.not_lt.mp h, UInt64.le_refl v⟩

theorem Captures.record (hh : Captures h vs) (value : UInt64) :
    ∃ h', h.record value = some h' ∧ Captures h' (vs ++ [value]) := by
  obtain ⟨h', hrecord, hholds⟩ := hh.toHolds.record value
  refine ⟨h', hrecord, ?_⟩
  rw [Histogram.record, dif_pos (countsIndex_clamp_lt value)] at hrecord
  cases hrecord
  refine ⟨hholds, ?_, fun v hv => ?_, fun v hv => ?_, fun hne => ?_⟩
  · show h.sumNs + clamp p value = _
    rw [hh.sum, recorded, recorded, List.map_append, List.sum_append, UInt64.ofNat_add, List.map_singleton,
      List.sum_singleton, UInt64.ofNat_toNat]
  · rcases List.mem_append.mp hv with hv | hv
    · exact UInt64.le_trans (hh.le_max v hv) (raise_spec _ h.max).2
    · obtain rfl := List.mem_singleton.mp hv
      exact (raise_spec _ h.max).1
  · rcases List.mem_append.mp hv with hv | hv
    · exact UInt64.le_trans (lower_spec _ h.min).2 (hh.min_le v hv)
    · obtain rfl := List.mem_singleton.mp hv
      exact (lower_spec _ h.min).1
  · by_cases hlt : clamp p value < h.min
    · exact ⟨value, by simp, if_pos hlt⟩
    · simp only [if_neg hlt] at hne ⊢
      obtain ⟨v, hv, hmin⟩ := hh.min_recorded hne
      exact ⟨v, List.mem_append_left _ hv, hmin⟩

/-- The samples tell the histogram, and their order does not matter. -/
theorem Captures.eq (hh : Captures h vs) (hh' : Captures h' ws) (hperm : vs.Perm ws) : h = h' := by
  have hmem : ∀ v, v ∈ vs ↔ v ∈ ws := fun v => hperm.mem_iff
  refine Histogram.ext (Vector.ext fun i hi => ?_) ?_ ?_ (UInt64.le_antisymm ?_ ?_) (UInt64.le_antisymm ?_ ?_)
  · have hc := hh.counts ⟨i, hi⟩
    rw [hperm.countP_eq, ← hh'.counts ⟨i, hi⟩] at hc
    exact hc
  · rw [hh.total, hh'.total, hperm.length_eq]
  · rw [hh.sum, hh'.sum, recorded, recorded, (hperm.map _).sum_eq]
  · by_cases h0 : h.max = 0
    · exact h0 ▸ zero_le _
    · obtain ⟨v, hv, hmax⟩ := hh.max_recorded h0
      exact hmax ▸ hh'.le_max v ((hmem v).mp hv)
  · by_cases h0 : h'.max = 0
    · exact h0 ▸ zero_le _
    · obtain ⟨v, hv, hmax⟩ := hh'.max_recorded h0
      exact hmax ▸ hh.le_max v ((hmem v).mpr hv)
  · by_cases hnone : h'.min = 0xFFFFFFFFFFFFFFFF
    · exact hnone ▸ le_greatest _
    · obtain ⟨v, hv, hmin⟩ := hh'.min_recorded hnone
      exact hmin ▸ hh.min_le v ((hmem v).mpr hv)
  · by_cases hnone : h.min = 0xFFFFFFFFFFFFFFFF
    · exact hnone ▸ le_greatest _
    · obtain ⟨v, hv, hmin⟩ := hh.min_recorded hnone
      exact hmin ▸ hh'.min_le v ((hmem v).mp hv)

/-! ### Merging -/

theorem Captures.count_eq_zero_iff (hh : Captures h vs) : h.count = 0 ↔ 2 ^ 64 ∣ vs.length := by
  rw [count, hh.total, ← UInt64.toNat_inj, UInt64.toNat_ofNat']
  exact (Nat.dvd_iff_mod_eq_zero).symm

theorem min_add (a b : Histogram p) :
    (a.add b).min = if b.count ≠ 0 then (if b.min < a.min then b.min else a.min) else a.min := by
  by_cases h0 : b.count = 0
  · simp [add, h0]
  · have hmin : b.getMin = b.min := if_pos h0
    simp [add, h0, hmin]

theorem Captures.add (ha : Captures a xs) (hb : Captures b ys) (hmin : 2 ^ 64 ∣ ys.length → a.min ≤ b.min) :
    Captures (a.add b) (xs ++ ys) := by
  have hlow : (a.add b).min ≤ a.min ∧ (a.add b).min ≤ b.min ∧
      ((a.add b).min = a.min ∨ (a.add b).min = b.min) := by
    rw [min_add]
    split
    · obtain ⟨hb', ha'⟩ := lower_spec b.min a.min
      refine ⟨ha', hb', ?_⟩
      split
      · exact Or.inr rfl
      · exact Or.inl rfl
    · next h0 =>
      exact ⟨UInt64.le_refl _, hmin (hb.count_eq_zero_iff.mp (Classical.not_not.mp h0)), Or.inl rfl⟩
  obtain ⟨hlowa, hlowb, hfrom⟩ := hlow
  obtain ⟨hmaxb, hmaxa⟩ := raise_spec b.max a.max
  refine ⟨⟨fun i => ?_, ?_, fun hne => ?_⟩, ?_, fun v hv => ?_, fun v hv => ?_, fun hne => ?_⟩
  · have hca := ha.counts i
    have hcb := hb.counts i
    simp only [Fin.getElem_fin] at hca hcb ⊢
    rw [List.countP_append, UInt64.ofNat_add, ← hca, ← hcb]
    exact Vector.getElem_zipWith i.isLt
  · show a.totalCount + b.totalCount = _
    rw [ha.total, hb.total, List.length_append, UInt64.ofNat_add]
  · by_cases hgt : b.max > a.max
    · simp only [Histogram.add, if_pos hgt] at hne ⊢
      obtain ⟨v, hv, hmax⟩ := hb.max_recorded hne
      exact ⟨v, List.mem_append_right _ hv, hmax⟩
    · simp only [Histogram.add, if_neg hgt] at hne ⊢
      obtain ⟨v, hv, hmax⟩ := ha.max_recorded hne
      exact ⟨v, List.mem_append_left _ hv, hmax⟩
  · show a.sumNs + b.sumNs = _
    rw [ha.sum, hb.sum, recorded, recorded, recorded, List.map_append, List.sum_append, UInt64.ofNat_add]
  · rcases List.mem_append.mp hv with hv | hv
    · exact UInt64.le_trans (ha.le_max v hv) hmaxa
    · exact UInt64.le_trans (hb.le_max v hv) hmaxb
  · rcases List.mem_append.mp hv with hv | hv
    · exact UInt64.le_trans hlowa (ha.min_le v hv)
    · exact UInt64.le_trans hlowb (hb.min_le v hv)
  · rcases hfrom with hfrom | hfrom
    · rw [hfrom] at hne ⊢
      obtain ⟨v, hv, hmin⟩ := ha.min_recorded hne
      exact ⟨v, List.mem_append_left _ hv, hmin⟩
    · rw [hfrom] at hne ⊢
      obtain ⟨v, hv, hmin⟩ := hb.min_recorded hne
      exact ⟨v, List.mem_append_right _ hv, hmin⟩

/-- A merge whose count of the other wraps to 0 leaves the least sample of the other out. -/
theorem Captures.least_of_add (hb : Captures b ys) (hab : Captures (a.add b) (xs ++ ys))
    (hwrap : 2 ^ 64 ∣ ys.length) : a.min ≤ b.min := by
  have hmin : (a.add b).min = a.min := by
    rw [min_add, if_neg (fun hne => hne (hb.count_eq_zero_iff.mpr hwrap))]
  by_cases hnone : b.min = 0xFFFFFFFFFFFFFFFF
  · exact hnone ▸ le_greatest _
  · obtain ⟨y, hy, hyb⟩ := hb.min_recorded hnone
    exact hmin ▸ hyb ▸ hab.min_le y (List.mem_append_right _ hy)

end

/-- The histogram of a thread that recorded the samples. -/
def capture (p : HistogramParams) (vs : List UInt64) : Histogram p := (vs.foldlM record {}).getD {}

/-- The histograms of several threads, merged into an empty one. -/
def merge (p : HistogramParams) (parts : List (List UInt64)) : Histogram p :=
  parts.foldl (fun h vs => h.add (capture p vs)) {}

/-- The 64-bit count tells the samples from none. -/
def Counted (vs : List UInt64) : Prop := vs = [] ∨ ¬2 ^ 64 ∣ vs.length

section
variable (p : HistogramParams) {xs ys zs : List UInt64}

theorem capture_spec (vs : List UInt64) :
    vs.foldlM record {} = some (capture p vs) ∧ Captures (capture p vs) vs := by
  obtain ⟨h, hfold, hcaptures⟩ : ∃ h, vs.foldlM record ({} : Histogram p) = some h ∧ Captures h vs :=
    Transition.foldlM_total (fun value hh => hh.record value) captures_nil vs
  have hcapture : capture p vs = h := by rw [capture, hfold, Option.getD_some]
  rw [hcapture]
  exact ⟨hfold, hcaptures⟩

theorem add_capture_iff (xs ys : List UInt64) :
    (capture p xs).add (capture p ys) = capture p (xs ++ ys) ↔
      (2 ^ 64 ∣ ys.length → (capture p xs).min ≤ (capture p ys).min) := by
  have ha := (capture_spec p xs).2
  have hb := (capture_spec p ys).2
  have hc := (capture_spec p (xs ++ ys)).2
  exact ⟨fun heq => hb.least_of_add (heq ▸ hc), fun hmin => (ha.add hb hmin).eq hc (List.Perm.refl _)⟩

theorem Counted.least (hys : Counted ys) (h : Histogram p) (hwrap : 2 ^ 64 ∣ ys.length) :
    h.min ≤ (capture p ys).min := by
  rcases hys with rfl | hys
  · exact le_greatest _
  · exact absurd hwrap hys

theorem Counted.add_capture (hys : Counted ys) (xs : List UInt64) :
    (capture p xs).add (capture p ys) = capture p (xs ++ ys) :=
  (add_capture_iff p xs ys).mpr (hys.least p _)

theorem capture_perm (h : xs.Perm ys) : capture p xs = capture p ys :=
  (capture_spec p xs).2.eq (capture_spec p ys).2 h

theorem merge_eq_capture {parts : List (List UInt64)} (h : ∀ vs ∈ parts, Counted vs) :
    merge p parts = capture p parts.flatten := by
  have hfrom : ∀ xs,
      parts.foldl (fun h vs => h.add (capture p vs)) (capture p xs) = capture p (xs ++ parts.flatten) := by
    induction parts with
    | nil => exact fun xs => by rw [List.flatten_nil, List.append_nil]; rfl
    | cons vs parts ih =>
      intro xs
      rw [List.foldl_cons, (h vs List.mem_cons_self).add_capture p xs,
        ih fun ws hws => h ws (List.mem_cons_of_mem _ hws), List.flatten_cons, List.append_assoc]
  exact hfrom []

/-- A merge is the histogram of the samples of both, unless the count of the other wraps to 0 over a new least sample.
    So merging is commutative and associative, an empty histogram is its identity, and the merge of several threads
    does not depend on how the samples were split. -/
theorem merge_captures (p : HistogramParams) :
    (∀ xs ys : List UInt64, xs.foldlM record {} = some (capture p xs) ∧
      ((capture p xs).add (capture p ys) = capture p (xs ++ ys) ↔
        (2 ^ 64 ∣ ys.length → (capture p xs).min ≤ (capture p ys).min))) ∧
    (∀ xs ys, Counted xs → Counted ys →
      (capture p xs).add (capture p ys) = (capture p ys).add (capture p xs)) ∧
    (∀ xs ys zs, Counted ys → Counted zs → Counted (ys ++ zs) →
      ((capture p xs).add (capture p ys)).add (capture p zs) =
        (capture p xs).add ((capture p ys).add (capture p zs))) ∧
    (∀ xs, (capture p xs).add {} = capture p xs ∧ (Counted xs → add {} (capture p xs) = capture p xs)) ∧
    ∀ parts parts' : List (List UInt64), parts.flatten.Perm parts'.flatten → (∀ vs ∈ parts, Counted vs) →
      (∀ vs ∈ parts', Counted vs) → merge p parts = merge p parts' := by
  refine ⟨fun xs ys => ⟨(capture_spec p xs).1, add_capture_iff p xs ys⟩, fun xs ys hxs hys => ?_,
    fun xs ys zs hys hzs hyzs => ?_, fun xs => ⟨?_, fun hxs => ?_⟩, fun parts parts' hperm hparts hparts' => ?_⟩
  · rw [hys.add_capture, hxs.add_capture, capture_perm p List.perm_append_comm]
  · rw [hys.add_capture, hzs.add_capture, hzs.add_capture, hyzs.add_capture, List.append_assoc]
  · have hnil := Counted.add_capture p (Or.inl rfl) xs
    rwa [List.append_nil] at hnil
  · exact hxs.add_capture p []
  · rw [merge_eq_capture p hparts, merge_eq_capture p hparts', capture_perm p hperm]

end

theorem hides_min {ys : List UInt64} (hlen : ys.length = 2 ^ 64) (hzero : 0 ∈ ys) :
    ((capture defaultParams [5]).add (capture defaultParams ys)).getMin = 5 ∧
      (capture defaultParams ([5] ++ ys)).getMin = 0 := by
  have hb := (capture_spec defaultParams ys).2
  have hc := (capture_spec defaultParams ([5] ++ ys)).2
  have hwrap : (capture defaultParams ys).count = 0 := hb.count_eq_zero_iff.mpr (by rw [hlen])
  constructor
  · have htotal : ((capture defaultParams [5]).add (capture defaultParams ys)).totalCount = 1 := by
      show (capture defaultParams [5]).totalCount + (capture defaultParams ys).count = 1
      rw [hwrap]
      rfl
    rw [getMin, htotal, if_pos (by decide), min_add, if_neg (fun hne => hne hwrap)]
    rfl
  · have htotal : (capture defaultParams ([5] ++ ys)).totalCount = 1 := by
      rw [hc.total, List.length_append, hlen]
      rfl
    have hle : (capture defaultParams ([5] ++ ys)).min ≤ 0 := hc.min_le 0 (List.mem_append_right _ hzero)
    rw [getMin, htotal, if_pos (by decide)]
    exact UInt64.le_antisymm hle (zero_le _)

/-- After 2^64 samples of zero the count reads zero, and a merge leaves them out of its minimum. -/
theorem wrapped_count_hides_min :
    let a := capture defaultParams [5]
    let b := capture defaultParams (List.replicate (2 ^ 64) 0)
    let c := capture defaultParams ([5] ++ List.replicate (2 ^ 64) 0)
    (a.add b).getMin = 5 ∧ c.getMin = 0 ∧ a.add b ≠ c := by
  intro a b c
  obtain ⟨hadd, hleast⟩ := hides_min (List.length_replicate (n := 2 ^ 64) (a := 0))
    (List.mem_replicate.mpr ⟨by decide, rfl⟩)
  refine ⟨hadd, hleast, fun heq => ?_⟩
  have hsame : (5 : UInt64) = 0 := hadd.symm.trans ((congrArg getMin heq).trans hleast)
  exact absurd hsame (by decide)

/-! ### Bulk recording -/

section
variable {p : HistogramParams}

theorem raise_raise (u v : UInt64) : (if u > (if u > v then u else v) then u else if u > v then u else v) =
    if u > v then u else v := by
  split_ifs <;> rfl

theorem lower_lower (u v : UInt64) : (if u < (if u < v then u else v) then u else if u < v then u else v) =
    if u < v then u else v := by
  split_ifs <;> rfl

theorem recordN_isSome (h : Histogram p) (value n : UInt64) : (h.recordN value n).isSome = true := by
  rw [recordN, dif_pos (countsIndex_clamp_lt value)]
  rfl

theorem record_eq_recordN (h : Histogram p) (value : UInt64) : h.record value = h.recordN value 1 := by
  rw [record, recordN, UInt64.mul_one]

/-- One sample and then `n` more of the same value. -/
theorem recordN_succ (h : Histogram p) (value n : UInt64) :
    (h.record value).bind (fun h' => h'.recordN value n) = h.recordN value (n + 1) := by
  have hidx := countsIndex_clamp_lt (p := p) value
  rw [record, recordN, dif_pos hidx, dif_pos hidx, Option.bind_some, recordN, dif_pos hidx]
  refine congrArg some (Histogram.ext ?_ ?_ ?_ (raise_raise _ _) (lower_lower _ _))
  · dsimp only
    rw [Vector.set_set, Vector.getElem_set_self, UInt64.add_assoc, UInt64.add_comm 1]
  · show h.totalCount + 1 + n = h.totalCount + (n + 1)
    rw [UInt64.add_assoc, UInt64.add_comm 1]
  · show h.sumNs + clamp p value + clamp p value * n = h.sumNs + clamp p value * (n + 1)
    rw [UInt64.mul_add, UInt64.mul_one, UInt64.add_assoc, UInt64.add_comm (clamp p value)]

theorem record_replicate (h : Histogram p) (value : UInt64) (k : Nat) :
    (List.replicate (k + 1) value).foldlM record h = h.recordN value (UInt64.ofNat (k + 1)) := by
  induction k generalizing h with
  | zero => rw [List.replicate_one, List.foldlM_cons, record_eq_recordN]; exact bind_pure _
  | succ k ih =>
    rw [List.replicate_succ, List.foldlM_cons, UInt64.ofNat_add]
    exact (congrArg _ (funext fun h' => ih h')).trans (recordN_succ h value _)

/-- Recording a value no times changes the histogram exactly when the value lies outside its extremes. -/
theorem recordN_zero_iff (h : Histogram p) (value : UInt64) :
    h.recordN value 0 = some h ↔ clamp p value ≤ h.max ∧ h.min ≤ clamp p value := by
  have hidx := countsIndex_clamp_lt (p := p) value
  rw [recordN, dif_pos hidx, Option.some.injEq, Histogram.ext_iff]
  simp only [UInt64.add_zero, UInt64.mul_zero, Vector.set_getElem_self, true_and]
  refine and_congr ⟨fun heq => ?_, fun hle => if_neg (UInt64.not_lt.mpr hle)⟩
    ⟨fun heq => ?_, fun hle => if_neg (UInt64.not_lt.mpr hle)⟩
  · exact heq ▸ (raise_spec (clamp p value) h.max).1
  · exact heq ▸ (lower_spec (clamp p value) h.min).1

/-- Recording a value `n` times at once is recording it `n` times, except that none moves the extremes. -/
theorem recordN_iff (h : Histogram p) (value n : UInt64) :
    (h.recordN value n).isSome = true ∧
      (h.recordN value n = (List.replicate n.toNat value).foldlM record h ↔
        n ≠ 0 ∨ (clamp p value ≤ h.max ∧ h.min ≤ clamp p value)) := by
  refine ⟨recordN_isSome h value n, ?_⟩
  cases hk : n.toNat with
  | zero =>
    obtain rfl : n = 0 := UInt64.toNat_inj.mp hk
    simp [← recordN_zero_iff]
  | succ k =>
    have hn : n = UInt64.ofNat (k + 1) := by rw [← hk, UInt64.ofNat_toNat]
    have hne : n ≠ 0 := fun h0 => by rw [h0] at hk; cases hk
    rw [record_replicate, ← hn]
    exact iff_of_true rfl (Or.inl hne)

end

/-- No sample of 7 in an empty histogram: its extremes move, and a sample of 9 then has the minimum 7. -/
theorem record_none_moves_extremes :
    (({} : Histogram defaultParams).recordN 7 0).map (fun h => (h.count, h.max, h.min)) = some (0, 7, 7) ∧
      (({} : Histogram defaultParams).recordN 7 0 >>= fun h => (h.record 9).map getMin) = some 7 ∧
      ({} : Histogram defaultParams).recordN 7 0 ≠ (List.replicate (0 : UInt64).toNat 7).foldlM record {} := by
  have hmoved : (({} : Histogram defaultParams).recordN 7 0).map (fun h => (h.count, h.max, h.min)) =
      some (0, 7, 7) := by decide +kernel
  refine ⟨hmoved, by decide +kernel, fun heq => ?_⟩
  rw [heq] at hmoved
  exact absurd hmoved (by decide +kernel)

end Histogram

end Hft
