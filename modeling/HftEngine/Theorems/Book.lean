import HftEngine.LevelBook

/-! The book refines a two-sided level map: its arrays hold the sizes of the map, and each cached index is
    the extreme key of its side. -/

namespace Hft

namespace BookView

variable {n : NumTicks} {b : BookView n} {isBid s : Bool} {i : Fin n.val} {size v : UInt32} {k : Nat}

/-! ### Sizes -/

theorem toNat_addSize (level size : UInt32) :
    (addSize level size).toNat = min (level.toNat + size.toNat) (2 ^ 32 - 1) := by
  have hl := level.toNat_lt
  have hs := size.toNat_lt
  have hmax : (kMaxLevelSize - size).toNat = 2 ^ 32 - 1 - size.toNat :=
    UInt32.toNat_sub_of_le _ _ (UInt32.le_iff_toNat_le.mpr (show size.toNat ≤ 4294967295 by omega))
  unfold addSize
  split
  · next h =>
    have h := UInt32.lt_iff_toNat_lt.mp h
    rw [hmax] at h
    show 4294967295 = _
    omega
  · next h =>
    have h := mt UInt32.lt_iff_toNat_lt.mpr h
    rw [hmax] at h
    rw [UInt32.toNat_add]
    omega

theorem toNat_cutSize (level size : UInt32) : (cutSize level size).toNat = level.toNat - size.toNat := by
  unfold cutSize
  split
  · next h =>
    have := UInt32.le_iff_toNat_le.mp h
    show 0 = _
    omega
  · next h =>
    have h := mt UInt32.le_iff_toNat_le.mpr h
    exact UInt32.toNat_sub_of_le _ _ (UInt32.le_iff_toNat_le.mpr (by omega))

theorem toNat_eq_zero {x : UInt32} : x.toNat = 0 ↔ x = 0 := by
  rw [← UInt32.toNat_inj]
  rfl

/-! ### What an update touches -/

@[simp] theorem arr_setLevel_self : (b.setLevel isBid i v).arr isBid = (b.arr isBid).set i v i.isLt := by
  cases isBid <;> rfl

theorem arr_setLevel_ne (h : s ≠ isBid) : (b.setLevel isBid i v).arr s = b.arr s := by
  cases s <;> cases isBid <;> first | rfl | exact absurd rfl h

@[simp] theorem arr_onSizeIncreased {idx : Int} : (b.onSizeIncreased isBid idx).arr s = b.arr s := by
  cases isBid <;> simp only [onSizeIncreased, Bool.false_eq_true, ↓reduceIte] <;> split <;> rfl

@[simp] theorem arr_onLevelEmptied : (b.onLevelEmptied isBid i).arr s = b.arr s := by
  cases isBid <;> simp only [onLevelEmptied, Bool.false_eq_true, ↓reduceIte] <;> split <;> rfl

@[simp] theorem bestBidIdx_setLevel : (b.setLevel isBid i v).bestBidIdx = b.bestBidIdx := by cases isBid <;> rfl
@[simp] theorem bestAskIdx_setLevel : (b.setLevel isBid i v).bestAskIdx = b.bestAskIdx := by cases isBid <;> rfl

theorem bestBidIdx_onSizeIncreased {idx : Int} :
    (b.onSizeIncreased isBid idx).bestBidIdx = if isBid then max idx b.bestBidIdx else b.bestBidIdx := by
  unfold onSizeIncreased
  split
  · split
    · next hlt => exact (max_eq_left (Int.le_of_lt hlt)).symm
    · next hge => exact (max_eq_right (not_lt.mp hge)).symm
  · split <;> rfl

theorem bestAskIdx_onSizeIncreased {idx : Int} :
    (b.onSizeIncreased isBid idx).bestAskIdx = if isBid then b.bestAskIdx else min idx b.bestAskIdx := by
  unfold onSizeIncreased
  split
  · split <;> rfl
  · split
    · next hlt => exact (min_eq_left (Int.le_of_lt hlt)).symm
    · next hge => exact (min_eq_right (not_lt.mp hge)).symm

theorem bestBidIdx_onLevelEmptied :
    (b.onLevelEmptied isBid i).bestBidIdx =
      if isBid = true ∧ (i : Int) = b.bestBidIdx then walkDown b.bid i (Nat.le_of_lt i.isLt) else b.bestBidIdx := by
  cases isBid <;> simp only [onLevelEmptied, Bool.false_eq_true, ↓reduceIte] <;> split <;> simp_all

theorem bestAskIdx_onLevelEmptied :
    (b.onLevelEmptied isBid i).bestAskIdx =
      if isBid = false ∧ (i : Int) = b.bestAskIdx then walkUp b.ask (n.val - (i + 1)) (Nat.sub_le _ _)
      else b.bestAskIdx := by
  cases isBid <;> simp only [onLevelEmptied, Bool.false_eq_true, ↓reduceIte] <;> split <;> simp_all

/-! ### The relation -/

/-- An array holds the sizes of a level map, and the map has no key outside the window. -/
structure Levels (v : Vector UInt32 n.val) (m : Int →₀ Nat) : Prop where
  size : ∀ i : Fin n.val, (v.get i).toNat = m i
  window : ∀ k ∈ m.support, 0 ≤ k ∧ k < n.val

/-- The arrays of a book hold a level book, and its cached indices are the extreme keys. -/
structure Refines (b : BookView n) (A : LevelBook) : Prop where
  levels : ∀ s, Levels (b.arr s) (A.side s)
  bestBid : IsGreatest (insert (-1) (A.bids.support : Set Int)) b.bestBidIdx
  bestAsk : IsLeast (insert (n.val : Int) (A.asks.support : Set Int)) b.bestAskIdx

namespace Levels
variable {w : Vector UInt32 n.val} {m : Int →₀ Nat}

theorem set (h : Levels w m) (i : Fin n.val) (v : UInt32) : Levels (w.set i v i.isLt) (m.update i v.toNat) where
  size j := by
    by_cases hj : j = i
    · subst hj
      show ((w.set (j : Nat) v j.isLt)[(j : Nat)]).toNat = _
      simp
    · have hne : (i : Nat) ≠ j := fun he => hj (Fin.ext he.symm)
      have hkey : (j : Int) ≠ (i : Int) := fun he => hne (Int.ofNat.inj he.symm)
      have hval : w[(j : Nat)].toNat = m j := h.size j
      show ((w.set (i : Nat) v i.isLt)[(j : Nat)]).toNat = _
      simp [hne, hkey, hval]
  window k hk := by
    by_cases hki : k = i
    · subst hki
      exact ⟨Int.natCast_nonneg _, by exact_mod_cast i.isLt⟩
    · simp only [Finsupp.mem_support_iff, Finsupp.coe_update, Function.update_of_ne hki] at hk
      exact h.window k (Finsupp.mem_support_iff.mpr hk)

theorem eq_zero_iff (h : Levels w m) (i : Fin n.val) : w.get i = 0 ↔ m i = 0 := by
  rw [← h.size, toNat_eq_zero]

/-- The walk down ends at the greatest non-empty level below `k`, or at -1. -/
theorem walkDown (h : Levels w m) : ∀ (k : Nat) (hk : k ≤ n.val),
    IsGreatest (insert (-1) {i | i ∈ m.support ∧ i < k}) (BookView.walkDown w k hk)
  | 0, _ => by
    refine ⟨Or.inl rfl, fun i hi => ?_⟩
    rcases hi with rfl | ⟨hi, hlt⟩
    · exact le_refl _
    · have := (h.window i hi).1
      omega
  | k + 1, hk => by
    have ih := h.walkDown k (Nat.le_of_succ_le hk)
    have hlevel : w[k] = 0 ↔ m k = 0 := h.eq_zero_iff ⟨k, hk⟩
    unfold BookView.walkDown
    split
    · next hzero =>
      have hmk := hlevel.mp hzero
      refine ⟨ih.1.imp id fun hi => ⟨hi.1, by have := hi.2; omega⟩, fun i hi => ih.2 (hi.imp id fun hi => ⟨hi.1, ?_⟩)⟩
      have hne : i ≠ k := fun he => by
        have := Finsupp.mem_support_iff.mp hi.1
        exact this (he ▸ hmk)
      have := hi.2
      omega
    · next hpos =>
      refine ⟨Or.inr ⟨Finsupp.mem_support_iff.mpr (mt hlevel.mpr hpos), by omega⟩, fun i hi => ?_⟩
      rcases hi with rfl | ⟨-, hlt⟩ <;> omega

/-- The walk up ends at the least non-empty level among the last `k`, or at `NumTicks`. -/
theorem walkUp (h : Levels w m) : ∀ (k : Nat) (hk : k ≤ n.val),
    IsLeast (insert (n.val : Int) {i | i ∈ m.support ∧ (n.val : Int) - k ≤ i}) (BookView.walkUp w k hk)
  | 0, _ => by
    refine ⟨Or.inl rfl, fun i hi => ?_⟩
    rcases hi with rfl | ⟨hi, hge⟩
    · exact le_refl _
    · have := (h.window i hi).2
      omega
  | k + 1, hk => by
    have ih := h.walkUp k (Nat.le_of_succ_le hk)
    have hlt : n.val - (k + 1) < n.val := by omega
    have hkey : ((n.val - (k + 1) : Nat) : Int) = (n.val : Int) - (k + 1 : Nat) := by omega
    have hlevel : w[n.val - (k + 1)] = 0 ↔ m ((n.val - (k + 1) : Nat) : Int) = 0 := h.eq_zero_iff ⟨_, hlt⟩
    unfold BookView.walkUp
    split
    · next hzero =>
      have hmk := hlevel.mp hzero
      refine ⟨ih.1.imp id fun hi => ⟨hi.1, by have := hi.2; omega⟩, fun i hi => ih.2 (hi.imp id fun hi => ⟨hi.1, ?_⟩)⟩
      have hne : i ≠ ((n.val - (k + 1) : Nat) : Int) := fun he => by
        have := Finsupp.mem_support_iff.mp hi.1
        exact this (he ▸ hmk)
      have := hi.2
      omega
    · next hpos =>
      refine ⟨Or.inr ⟨Finsupp.mem_support_iff.mpr (mt hlevel.mpr hpos), by omega⟩, fun i hi => ?_⟩
      rcases hi with rfl | ⟨-, hge⟩ <;> omega

end Levels

/-! ### One update -/

namespace Refines
variable {A : LevelBook}

theorem levels_update (h : Refines b A) (isBid : Bool) (i : Fin n.val) (v : UInt32) (s : Bool) :
    Levels ((b.setLevel isBid i v).arr s)
      ((A.setSide isBid ((A.side isBid).update i v.toNat)).side s) := by
  by_cases hs : s = isBid
  · subst hs
    rw [arr_setLevel_self, LevelBook.side_setSide_self]
    exact (h.levels s).set i v
  · rw [arr_setLevel_ne hs, LevelBook.side_setSide_ne hs]
    exact h.levels s

/-- A level that gains size can only improve the touch. -/
theorem raise (h : Refines b A) (isBid : Bool) (i : Fin n.val) (hv : v ≠ 0) :
    Refines ((b.setLevel isBid i v).onSizeIncreased isBid i)
      (A.setSide isBid ((A.side isBid).update i v.toNat)) := by
  have hv' : v.toNat ≠ 0 := mt toNat_eq_zero.mp hv
  refine ⟨fun s => by rw [arr_onSizeIncreased]; exact h.levels_update isBid i v s, ?_, ?_⟩
  · rw [bestBidIdx_onSizeIncreased, bestBidIdx_setLevel]
    cases isBid with
    | false => exact h.bestBid
    | true =>
      have hraise := LevelMap.greatest_raise (k := (i : Int)) h.bestBid
      rwa [← LevelMap.support_update_pos hv'] at hraise
  · rw [bestAskIdx_onSizeIncreased, bestAskIdx_setLevel]
    cases isBid with
    | true => exact h.bestAsk
    | false =>
      have hlower := LevelMap.least_lower (k := (i : Int)) h.bestAsk
      rwa [← LevelMap.support_update_pos hv'] at hlower

/-- A level that stays non-empty leaves the touch alone. -/
theorem reduce (h : Refines b A) (i : Fin n.val) (hv : v ≠ 0) (hi : ((b.arr isBid).get i) ≠ 0) :
    Refines (b.setLevel isBid i v) (A.setSide isBid ((A.side isBid).update i v.toNat)) := by
  have hv' : v.toNat ≠ 0 := mt toNat_eq_zero.mp hv
  have hkey := mt ((h.levels isBid).eq_zero_iff i).mpr hi
  refine ⟨h.levels_update isBid i v, ?_, ?_⟩
  · rw [bestBidIdx_setLevel]
    cases isBid with
    | false => exact h.bestBid
    | true => exact LevelMap.support_update_kept hv' hkey ▸ h.bestBid
  · rw [bestAskIdx_setLevel]
    cases isBid with
    | true => exact h.bestAsk
    | false => exact LevelMap.support_update_kept hv' hkey ▸ h.bestAsk

/-- A bid level that empties hands the touch to the greatest bid below it when it was the best. -/
theorem emptied_bid (h : Refines b A) (i : Fin n.val) :
    IsGreatest (insert (-1) ((A.bids.update i 0).support : Set Int))
      ((b.setLevel true i 0).onLevelEmptied true i).bestBidIdx := by
  rw [bestBidIdx_onLevelEmptied, bestBidIdx_setLevel]
  split
  · next hbest =>
    -- Every other key lies below the emptied best, where the walk looks.
    have hwalk := (h.levels_update true i 0 true).walkDown i (Nat.le_of_lt i.isLt)
    have hbelow : {j | j ∈ (A.bids.update i 0).support ∧ j < ((i : Nat) : Int)} =
        ((A.bids.update i 0).support : Set Int) := by
      refine Set.ext fun j => ⟨fun hj => hj.1, fun hj => ⟨hj, ?_⟩⟩
      rw [LevelMap.support_update_zero] at hj
      have hle := h.bestBid.2 (Or.inr hj.1)
      have hne : j ≠ i := hj.2
      have := hbest.2
      omega
    rw [← hbelow]
    exact hwalk
  · next hother =>
    rw [LevelMap.support_update_zero]
    exact LevelMap.greatest_remove h.bestBid fun he => hother ⟨rfl, he⟩

/-- An ask level that empties hands the touch to the least ask above it when it was the best. -/
theorem emptied_ask (h : Refines b A) (i : Fin n.val) :
    IsLeast (insert (n.val : Int) ((A.asks.update i 0).support : Set Int))
      ((b.setLevel false i 0).onLevelEmptied false i).bestAskIdx := by
  rw [bestAskIdx_onLevelEmptied, bestAskIdx_setLevel]
  split
  · next hbest =>
    have hwalk := (h.levels_update false i 0 false).walkUp (n.val - (i + 1)) (Nat.sub_le _ _)
    have habove : {j | j ∈ (A.asks.update i 0).support ∧ (n.val : Int) - (n.val - (i + 1) : Nat) ≤ j} =
        ((A.asks.update i 0).support : Set Int) := by
      refine Set.ext fun j => ⟨fun hj => hj.1, fun hj => ⟨hj, ?_⟩⟩
      rw [LevelMap.support_update_zero] at hj
      have hle := h.bestAsk.2 (Or.inr hj.1)
      have hne : j ≠ i := hj.2
      have := hbest.2
      omega
    rw [← habove]
    exact hwalk
  · next hother =>
    rw [LevelMap.support_update_zero]
    exact LevelMap.least_remove h.bestAsk fun he => hother ⟨rfl, he⟩

theorem emptied (h : Refines b A) (i : Fin n.val) :
    Refines ((b.setLevel isBid i 0).onLevelEmptied isBid i)
      (A.setSide isBid ((A.side isBid).update i 0)) := by
  have hlevels := fun s => h.levels_update isBid i 0 s
  cases isBid with
  | true =>
    refine ⟨fun s => by rw [arr_onLevelEmptied]; exact hlevels s, h.emptied_bid i, ?_⟩
    simpa [bestAskIdx_onLevelEmptied, LevelBook.setSide] using h.bestAsk
  | false =>
    refine ⟨fun s => by rw [arr_onLevelEmptied]; exact hlevels s, ?_, h.emptied_ask i⟩
    simpa [bestBidIdx_onLevelEmptied, LevelBook.setSide] using h.bestBid

/-! ### One message -/

theorem setSide_side : A.setSide isBid (A.side isBid) = A := by cases isBid <;> rfl

theorem cut (h : Refines b A) (i : Fin n.val) (size : UInt32) {t : MsgType} (ht : t = .kExecute ∨ t = .kCancel) :
    Refines (b.applyAt t isBid i size) (A.step t isBid i size.toNat) := by
  have hupdate : A.step t isBid i size.toNat =
      A.setSide isBid ((A.side isBid).update i (cutSize ((b.arr isBid).get i) size).toNat) := by
    rcases ht with rfl | rfl <;>
      simp only [LevelBook.step, LevelBook.update, LevelMap.withdraw, toNat_cutSize, (h.levels isBid).size i]
  have happly : b.applyAt t isBid i size =
      if cutSize ((b.arr isBid).get i) size = 0 then
        (b.setLevel isBid i (cutSize ((b.arr isBid).get i) size)).onLevelEmptied isBid i
      else b.setLevel isBid i (cutSize ((b.arr isBid).get i) size) := by
    rcases ht with rfl | rfl <;> rfl
  rw [hupdate, happly]
  split
  · next hzero =>
    rw [hzero]
    exact h.emptied i
  · next hpos =>
    refine h.reduce i hpos fun hlevel => hpos ?_
    rw [hlevel, ← toNat_eq_zero, toNat_cutSize]
    exact Nat.zero_sub _

/-- A message at an index inside the window has the effect of the level map. -/
theorem applyAt (h : Refines b A) (t : MsgType) (isBid : Bool) (i : Fin n.val) (size : UInt32) :
    Refines (b.applyAt t isBid i size) (A.step t isBid i size.toNat) := by
  cases t with
  | kAdd =>
    by_cases hsize : size = 0
    · subst hsize
      simpa [BookView.applyAt, LevelBook.step, LevelBook.update, LevelMap.deposit, setSide_side] using h
    · have hpos : size.toNat ≠ 0 := mt toNat_eq_zero.mp hsize
      have hadd : addSize ((b.arr isBid).get i) size ≠ 0 := fun hzero => by
        rw [← toNat_eq_zero, toNat_addSize] at hzero
        omega
      have := h.raise isBid i hadd
      rw [toNat_addSize, (h.levels isBid).size i] at this
      simpa only [BookView.applyAt, LevelBook.step, LevelBook.update, LevelMap.deposit, hsize, hpos,
        ↓reduceIte] using this
  | kExecute => exact h.cut i size (Or.inl rfl)
  | kCancel => exact h.cut i size (Or.inr rfl)
  | kDelete => exact h.emptied i
  | kTrade => simpa only [BookView.applyAt, LevelBook.step, LevelBook.update, setSide_side] using h
  | kUnknown => simpa only [BookView.applyAt, LevelBook.step, LevelBook.update, setSide_side] using h

end Refines

/-! ### The window -/

def InWindow (n : NumTicks) (base tick price : Int) : Prop := base ≤ price ∧ price < base + n.val * tick

instance (n : NumTicks) (base tick price : Int) : Decidable (InWindow n base tick price) :=
  inferInstanceAs (Decidable (_ ∧ _))

section Window
variable {base tick price : Int}

theorem tickKey_window (htick : 0 < tick) (hp : InWindow n base tick price) :
    0 ≤ tickKey base tick price ∧ tickKey base tick price < n.val := by
  obtain ⟨hlo, hhi⟩ := hp
  exact ⟨Int.ediv_nonneg (by omega) (by omega), Int.ediv_lt_of_lt_mul htick (by omega)⟩

/-- Inside the window the truncating division and the narrowing cast give the tick of the price. -/
theorem toIndex_eq (htick : 0 < b.tick) (hp : InWindow n b.base b.tick price) :
    b.toIndex price = tickKey b.base b.tick price := by
  have hkey := tickKey_window htick hp
  have hn := n.lt_int
  unfold toIndex castInt
  rw [Int.tdiv_eq_ediv_of_nonneg (by have := hp.1; omega)]
  show (tickKey b.base b.tick price).bmod (2 ^ 32) = _
  exact Int.bmod_eq_of_le_mul_two (by omega) (by omega)

theorem tickKey_priceAt (htick : 0 < tick) (k : Int) : tickKey base tick (base + k * tick) = k := by
  unfold tickKey
  rw [add_sub_cancel_left, Int.mul_ediv_cancel _ (by omega)]

theorem inWindow_priceAt (htick : 0 < tick) {k : Int} (h0 : 0 ≤ k) (hn : k < n.val) :
    InWindow n base tick (base + k * tick) := by
  have h1 := Int.mul_nonneg h0 (Int.le_of_lt htick)
  have h2 := Int.mul_lt_mul_of_pos_right hn htick
  exact ⟨by omega, by omega⟩

end Window

/-! ### Whole streams -/

theorem setLevel_base : (b.setLevel isBid i v).base = b.base ∧ (b.setLevel isBid i v).tick = b.tick := by
  cases isBid <;> exact ⟨rfl, rfl⟩

theorem onSizeIncreased_base {idx : Int} :
    (b.onSizeIncreased isBid idx).base = b.base ∧ (b.onSizeIncreased isBid idx).tick = b.tick := by
  unfold onSizeIncreased
  split_ifs <;> exact ⟨rfl, rfl⟩

theorem onLevelEmptied_base :
    (b.onLevelEmptied isBid i).base = b.base ∧ (b.onLevelEmptied isBid i).tick = b.tick := by
  unfold onLevelEmptied
  split_ifs <;> exact ⟨rfl, rfl⟩

theorem applyAt_base {t : MsgType} :
    (b.applyAt t isBid i size).base = b.base ∧ (b.applyAt t isBid i size).tick = b.tick := by
  cases t <;> dsimp only [applyAt] <;> try split_ifs
  all_goals simp [setLevel_base, onSizeIncreased_base, onLevelEmptied_base]

theorem apply_base {m : ItchMessage} : (b.apply m).base = b.base ∧ (b.apply m).tick = b.tick := by
  unfold apply
  dsimp only
  split
  · exact applyAt_base
  · exact ⟨rfl, rfl⟩

theorem applyAll_base (b : BookView n) (msgs : List ItchMessage) :
    (b.applyAll msgs).base = b.base ∧ (b.applyAll msgs).tick = b.tick := by
  induction msgs generalizing b with
  | nil => exact ⟨rfl, rfl⟩
  | cons m msgs ih =>
    obtain ⟨hbase, htick⟩ := ih (b.apply m)
    exact ⟨hbase.trans apply_base.1, htick.trans apply_base.2⟩

theorem refines_new {base tick : Int} : Refines (new n base tick) LevelBook.empty where
  levels s := by
    refine ⟨fun i => ?_, fun k hk => ?_⟩
    · have hzero : ((Vector.replicate n.val (0 : UInt32))[(i : Nat)]).toNat = 0 := by simp
      cases s <;> exact hzero
    · simp at hk
  bestBid := by simp [new, LevelBook.empty]
  bestAsk := by simp [new, LevelBook.empty]

theorem Refines.apply {A : LevelBook} {m : ItchMessage} (h : Refines b A) (htick : 0 < b.tick)
    (hp : InWindow n b.base b.tick m.price) : Refines (b.apply m) (A.apply b.base b.tick m) := by
  have hkey := tickKey_window htick hp
  have hidx := toIndex_eq htick hp
  rw [← hidx] at hkey
  have hstep := h.applyAt (msgType m) (m.side == Side.kBuy.toByte) ⟨(b.toIndex m.price).toNat, by omega⟩ m.size
  simp only [Int.toNat_of_nonneg hkey.1] at hstep
  unfold BookView.apply LevelBook.apply
  rw [dif_pos hkey, ← hidx]
  exact hstep

theorem Refines.applyAll {msgs : List ItchMessage} {A : LevelBook} (h : Refines b A) (htick : 0 < b.tick)
    (hp : ∀ m ∈ msgs, InWindow n b.base b.tick m.price) :
    Refines (b.applyAll msgs) (msgs.foldl (LevelBook.apply b.base b.tick) A) := by
  induction msgs generalizing b A with
  | nil => exact h
  | cons m msgs ih =>
    have hstep := h.apply htick (hp m List.mem_cons_self)
    obtain ⟨hbase, htick'⟩ := apply_base (b := b) (m := m)
    have := ih hstep (htick' ▸ htick) fun m' hm' => by
      rw [hbase, htick']
      exact hp m' (List.mem_cons_of_mem _ hm')
    rwa [hbase, htick'] at this

/-! ### What the book reports -/

/-- Everything a book reports about its window agrees with a level book. -/
structure Agrees (b : BookView n) (A : LevelBook) : Prop where
  sizeAt : ∀ side price, InWindow n b.base b.tick price →
    (b.sizeAt side price).toNat = A.side (side == .kBuy) (tickKey b.base b.tick price)
  hasBid : b.hasBid = true ↔ A.bids ≠ 0
  hasAsk : b.hasAsk = true ↔ A.asks ≠ 0
  bestBid : b.hasBid = true → ∃ k, IsGreatest (A.bids.support : Set Int) k ∧
    b.bestBidPrice = b.base + k * b.tick ∧ b.bestBidSize.toNat = A.bids k
  bestAsk : b.hasAsk = true → ∃ k, IsLeast (A.asks.support : Set Int) k ∧
    b.bestAskPrice = b.base + k * b.tick ∧ b.bestAskSize.toNat = A.asks k

/-- A reported best level is a real one: it has size, `sizeAt` finds that size there, and its price lies in
    the window. -/
structure BestLevels (b : BookView n) : Prop where
  bid : b.hasBid = true → 0 < b.bestBidSize ∧ b.sizeAt .kBuy b.bestBidPrice = b.bestBidSize ∧
    InWindow n b.base b.tick b.bestBidPrice
  ask : b.hasAsk = true → 0 < b.bestAskSize ∧ b.sizeAt .kSell b.bestAskPrice = b.bestAskSize ∧
    InWindow n b.base b.tick b.bestAskPrice

section Reports
variable {A : LevelBook}

theorem support_eq_empty {m : Int →₀ Nat} : (m.support : Set Int) = ∅ ↔ m = 0 := by
  rw [Finset.coe_eq_empty, Finsupp.support_eq_empty]

theorem Refines.hasBid (h : Refines b A) : b.hasBid = true ↔ A.bids ≠ 0 := by
  have hbound : ∀ i ∈ (A.bids.support : Set Int), (-1 : Int) < i := fun i hi => by
    have := ((h.levels true).window i hi).1
    omega
  have hbest : -1 ≤ b.bestBidIdx := h.bestBid.2 (Or.inl rfl)
  rw [ne_eq, ← support_eq_empty, ← LevelMap.greatest_eq_bound_iff h.bestBid hbound]
  simp only [BookView.hasBid, decide_eq_true_eq]
  omega

theorem Refines.hasAsk (h : Refines b A) : b.hasAsk = true ↔ A.asks ≠ 0 := by
  have hbound : ∀ i ∈ (A.asks.support : Set Int), i < n.val := fun i hi => ((h.levels false).window i hi).2
  have hbest : b.bestAskIdx ≤ n.val := h.bestAsk.2 (Or.inl rfl)
  rw [ne_eq, ← support_eq_empty, ← LevelMap.least_eq_bound_iff h.bestAsk hbound]
  simp only [BookView.hasAsk, decide_eq_true_eq]
  omega

theorem Refines.bestBid_level (h : Refines b A) (hb : b.hasBid = true) :
    IsGreatest (A.bids.support : Set Int) b.bestBidIdx ∧ b.bestBidSize.toNat = A.bids b.bestBidIdx := by
  have h0 : 0 ≤ b.bestBidIdx := by simpa [BookView.hasBid] using hb
  have hg := LevelMap.greatest_of_ne h.bestBid (by omega)
  have hlt := ((h.levels true).window _ hg.1).2
  have hin : b.bestBidIdx.toNat < n.val := by omega
  have hkey : ((b.bestBidIdx.toNat : Nat) : Int) = b.bestBidIdx := Int.toNat_of_nonneg h0
  have hlevel : b.bid[b.bestBidIdx.toNat].toNat = A.bids b.bestBidIdx :=
    ((h.levels true).size ⟨b.bestBidIdx.toNat, hin⟩).trans (congrArg A.bids hkey)
  refine ⟨hg, ?_⟩
  simp [BookView.bestBidSize, hb, hin, hlevel]

theorem Refines.bestAsk_level (h : Refines b A) (ha : b.hasAsk = true) :
    IsLeast (A.asks.support : Set Int) b.bestAskIdx ∧ b.bestAskSize.toNat = A.asks b.bestAskIdx := by
  have hn : b.bestAskIdx < n.val := by simpa [BookView.hasAsk] using ha
  have hl := LevelMap.least_of_ne h.bestAsk (by omega)
  have h0 := ((h.levels false).window _ hl.1).1
  have hin : b.bestAskIdx.toNat < n.val := by omega
  have hkey : ((b.bestAskIdx.toNat : Nat) : Int) = b.bestAskIdx := Int.toNat_of_nonneg h0
  have hlevel : b.ask[b.bestAskIdx.toNat].toNat = A.asks b.bestAskIdx :=
    ((h.levels false).size ⟨b.bestAskIdx.toNat, hin⟩).trans (congrArg A.asks hkey)
  refine ⟨hl, ?_⟩
  simp [BookView.bestAskSize, ha, hin, hlevel]

theorem Refines.sizeAt (h : Refines b A) (htick : 0 < b.tick) (side : Side) {price : Int}
    (hp : InWindow n b.base b.tick price) :
    (b.sizeAt side price).toNat = A.side (side == .kBuy) (tickKey b.base b.tick price) := by
  have hkey := tickKey_window htick hp
  have hidx := toIndex_eq htick hp
  have hlevel := (h.levels (side == .kBuy)).size ⟨(b.toIndex price).toNat, by omega⟩
  unfold BookView.sizeAt
  rw [dif_pos (hidx ▸ hkey)]
  refine hlevel.trans ?_
  rw [← hidx]
  congr 1
  exact Int.toNat_of_nonneg (hidx ▸ hkey.1)

theorem Refines.agrees (h : Refines b A) (htick : 0 < b.tick) : Agrees b A where
  sizeAt side _ hp := h.sizeAt htick side hp
  hasBid := h.hasBid
  hasAsk := h.hasAsk
  bestBid hb := ⟨_, (h.bestBid_level hb).1, rfl, (h.bestBid_level hb).2⟩
  bestAsk ha := ⟨_, (h.bestAsk_level ha).1, rfl, (h.bestAsk_level ha).2⟩

theorem Agrees.bestLevels (h : Agrees b A) (htick : 0 < b.tick)
    (hwin : ∀ s, ∀ k ∈ (A.side s).support, 0 ≤ k ∧ k < n.val) : BestLevels b where
  bid hb := by
    obtain ⟨k, hk, hprice, hsize⟩ := h.bestBid hb
    have hin : InWindow n b.base b.tick b.bestBidPrice :=
      hprice ▸ inWindow_priceAt htick (hwin true k hk.1).1 (hwin true k hk.1).2
    have hpos := Finsupp.mem_support_iff.mp (Finset.mem_coe.mp hk.1)
    refine ⟨UInt32.lt_iff_toNat_lt.mpr (show 0 < _ by omega), UInt32.toNat_inj.mp ?_, hin⟩
    rw [h.sizeAt .kBuy _ hin, hsize, hprice, tickKey_priceAt htick]
    rfl
  ask ha := by
    obtain ⟨k, hk, hprice, hsize⟩ := h.bestAsk ha
    have hin : InWindow n b.base b.tick b.bestAskPrice :=
      hprice ▸ inWindow_priceAt htick (hwin false k hk.1).1 (hwin false k hk.1).2
    have hpos := Finsupp.mem_support_iff.mp (Finset.mem_coe.mp hk.1)
    refine ⟨UInt32.lt_iff_toNat_lt.mpr (show 0 < _ by omega), UInt32.toNat_inj.mp ?_, hin⟩
    rw [h.sizeAt .kSell _ hin, hsize, hprice, tickKey_priceAt htick]
    rfl

end Reports

/-- What two books report about their touch. -/
def SameTouch (b b' : BookView n) : Prop :=
  b.hasBid = b'.hasBid ∧ b.hasAsk = b'.hasAsk ∧
  (b.hasBid = true → b.bestBidPrice = b'.bestBidPrice ∧ b.bestBidSize = b'.bestBidSize) ∧
  (b.hasAsk = true → b.bestAskPrice = b'.bestAskPrice ∧ b.bestAskSize = b'.bestAskSize)

theorem Agrees.sameTouch {b' : BookView n} {A : LevelBook} (h : Agrees b A) (h' : Agrees b' A)
    (hbase : b.base = b'.base) (htick : b.tick = b'.tick) : SameTouch b b' := by
  have hbid : b.hasBid = b'.hasBid := Bool.eq_iff_iff.mpr (h.hasBid.trans h'.hasBid.symm)
  have hask : b.hasAsk = b'.hasAsk := Bool.eq_iff_iff.mpr (h.hasAsk.trans h'.hasAsk.symm)
  refine ⟨hbid, hask, fun hb => ?_, fun ha => ?_⟩
  · obtain ⟨k, hk, hprice, hsize⟩ := h.bestBid hb
    obtain ⟨k', hk', hprice', hsize'⟩ := h'.bestBid (hbid ▸ hb)
    obtain rfl := hk.unique hk'
    exact ⟨by rw [hprice, hprice', hbase, htick], UInt32.toNat_inj.mp (hsize.trans hsize'.symm)⟩
  · obtain ⟨k, hk, hprice, hsize⟩ := h.bestAsk ha
    obtain ⟨k', hk', hprice', hsize'⟩ := h'.bestAsk (hask ▸ ha)
    obtain rfl := hk.unique hk'
    exact ⟨by rw [hprice, hprice', hbase, htick], UInt32.toNat_inj.mp (hsize.trans hsize'.symm)⟩

/-- After any stream of in-window messages the book reports what the level map holds, its best levels are
    real, and another stream that leaves the same levels leaves the same touch. -/
theorem book_refines_levels (n : NumTicks) (base tick : Int) (htick : 0 < tick) (msgs : List ItchMessage)
    (hp : ∀ m ∈ msgs, InWindow n base tick m.price) :
    Agrees ((new n base tick).applyAll msgs) (LevelBook.run base tick msgs) ∧
    BestLevels ((new n base tick).applyAll msgs) ∧
    ∀ msgs', (∀ m ∈ msgs', InWindow n base tick m.price) →
      LevelBook.run base tick msgs' = LevelBook.run base tick msgs →
      SameTouch ((new n base tick).applyAll msgs) ((new n base tick).applyAll msgs') := by
  have agrees : ∀ ms : List ItchMessage, (∀ m ∈ ms, InWindow n base tick m.price) →
      Refines ((new n base tick).applyAll ms) (LevelBook.run base tick ms) := fun ms hms =>
    refines_new.applyAll htick hms
  have hb := fun ms => (new n base tick).applyAll_base ms
  have hpos : ∀ ms, 0 < ((new n base tick).applyAll ms).tick := fun ms => (hb ms).2 ▸ htick
  have h := agrees msgs hp
  refine ⟨h.agrees (hpos msgs), (h.agrees (hpos msgs)).bestLevels (hpos msgs) fun s => (h.levels s).window,
    fun msgs' hp' heq => ?_⟩
  exact (h.agrees (hpos msgs)).sameTouch (heq ▸ (agrees msgs' hp').agrees (hpos msgs'))
    ((hb msgs).1.trans (hb msgs').1.symm) ((hb msgs).2.trans (hb msgs').2.symm)

theorem book_refines_levels_small :
    let n : NumTicks := ⟨4, by decide, by decide⟩
    let msgs : List ItchMessage :=
      [{ type := MsgType.kAdd.toByte, side := Side.kBuy.toByte, price := 115, size := 7 },
       { type := MsgType.kAdd.toByte, side := Side.kBuy.toByte, price := 110, size := 2 },
       { type := MsgType.kAdd.toByte, side := Side.kSell.toByte, price := 139, size := 4294967295 },
       { type := MsgType.kAdd.toByte, side := Side.kSell.toByte, price := 131, size := 1 }]
    Agrees ((new n 100 10).applyAll msgs) (LevelBook.run 100 10 msgs) ∧
    BestLevels ((new n 100 10).applyAll msgs) ∧
    ∀ msgs', (∀ m ∈ msgs', InWindow n 100 10 m.price) →
      LevelBook.run 100 10 msgs' = LevelBook.run 100 10 msgs →
      SameTouch ((new n 100 10).applyAll msgs) ((new n 100 10).applyAll msgs') :=
  book_refines_levels _ 100 10 (by decide) _ (by decide)

end BookView

end Hft
