import HftEngine.Theorems.Book

/-! Prices outside the window of the book: which of them the index arithmetic counts and drops, and which it folds back
    onto a level. -/

namespace Hft

namespace BookView

variable {n : NumTicks} {b : BookView n} {base tick price : Int} {m : ItchMessage}

/-! ### The index of a price -/

/-- A narrowed quotient is an index exactly when its low 32 bits are one. -/
theorem castInt_index_iff (n : NumTicks) (q : Int) :
    (0 ≤ castInt q ∧ castInt q < n.val) ↔ q % 2 ^ 32 < n.val := by
  have hn := n.lt_int
  have hpos := Int.emod_nonneg q (by decide : (2 ^ 32 : Int) ≠ 0)
  have hlt := Int.emod_lt_of_pos q (by decide : (0 : Int) < 2 ^ 32)
  unfold castInt
  rw [Int.bmod_def]
  split_ifs <;> omega

/-- A copy of the window 2^32 ticks or a multiple above it, and one below: there the division rounds up, and the copy
    next to the window is what lies less than a tick below the base. -/
def Folds (n : NumTicks) (base tick price : Int) : Prop :=
  (∃ k : Nat, 1 ≤ k ∧ InWindow n (base + 2 ^ 32 * k * tick) tick price) ∨
    ∃ k : Nat, price < base ∧ base - (2 ^ 32 * k + 1) * tick < price ∧ price ≤ base - (2 ^ 32 * k + 1 - n.val) * tick

theorem tdiv_above (htick : 0 < tick) (hp : base + n.val * tick ≤ price) :
    ((price - base).tdiv tick) % 2 ^ 32 < n.val ↔
      ∃ k : Nat, 1 ≤ k ∧ InWindow n (base + 2 ^ 32 * k * tick) tick price := by
  have hn : (0 : Int) ≤ n.val * tick := Int.mul_nonneg (Int.natCast_nonneg _) (Int.le_of_lt htick)
  have hle : ∀ x : Int, x ≤ (price - base) / tick ↔ base + x * tick ≤ price := fun x => by
    rw [Int.le_ediv_iff_mul_le htick]
    omega
  have hlt : ∀ x : Int, (price - base) / tick < x ↔ price < base + x * tick := fun x => by
    rw [Int.ediv_lt_iff_lt_mul htick]
    omega
  have hcopy : ∀ k : Nat, InWindow n (base + 2 ^ 32 * k * tick) tick price ↔
      2 ^ 32 * (k : Int) ≤ (price - base) / tick ∧ (price - base) / tick < 2 ^ 32 * k + n.val := fun k => by
    rw [hle, hlt, InWindow, Int.add_mul, Int.add_assoc]
  have hq := (hle n.val).mpr hp
  rw [Int.tdiv_eq_ediv_of_nonneg (by omega)]
  simp only [hcopy]
  generalize (price - base) / tick = q at hq
  constructor
  · intro hmod
    exact ⟨(q / 2 ^ 32).toNat, by omega, by omega, by omega⟩
  · rintro ⟨k, -, hlo, hhi⟩
    omega

theorem tdiv_below (htick : 0 < tick) (hp : price < base) :
    ((price - base).tdiv tick) % 2 ^ 32 < n.val ↔
      ∃ k : Nat, base - (2 ^ 32 * k + 1) * tick < price ∧ price ≤ base - (2 ^ 32 * k + 1 - n.val) * tick := by
  have hle : ∀ x : Int, x ≤ (base - price) / tick ↔ price ≤ base - x * tick := fun x => by
    rw [Int.le_ediv_iff_mul_le htick]
    omega
  have hlt : ∀ x : Int, (base - price) / tick < x ↔ base - x * tick < price := fun x => by
    rw [Int.ediv_lt_iff_lt_mul htick]
    omega
  have hr : 0 ≤ (base - price) / tick := Int.ediv_nonneg (by omega) (Int.le_of_lt htick)
  have hneg : (price - base).tdiv tick = -((base - price) / tick) := by
    rw [← Int.neg_sub base price, Int.neg_tdiv, Int.tdiv_eq_ediv_of_nonneg (by omega)]
  have hn := n.lt_int
  rw [hneg]
  simp only [← hlt, ← hle]
  generalize (base - price) / tick = r at hr
  constructor
  · intro hmod
    exact ⟨(-(-r / 2 ^ 32)).toNat, by omega, by omega⟩
  · rintro ⟨k, hhi, hlo⟩
    omega

/-- A price outside the window gets an index exactly when it folds. -/
theorem toIndex_iff (htick : 0 < b.tick) (hp : ¬InWindow n b.base b.tick price) :
    (0 ≤ b.toIndex price ∧ b.toIndex price < n.val) ↔ Folds n b.base b.tick price := by
  rw [toIndex, castInt_index_iff]
  rcases Int.lt_or_le price b.base with hlt | hge
  · rw [tdiv_below htick hlt]
    constructor
    · rintro ⟨k, hk⟩
      exact Or.inr ⟨k, hlt, hk⟩
    · rintro (⟨k, hk, hlo, -⟩ | ⟨k, -, hk⟩)
      · have := Int.mul_nonneg (by omega : (0 : Int) ≤ 2 ^ 32 * k) (Int.le_of_lt htick)
        omega
      · exact ⟨k, hk⟩
  · rw [tdiv_above htick (Int.not_lt.mp fun hlt => hp ⟨hge, hlt⟩)]
    constructor
    · exact Or.inl
    · rintro (hk | ⟨k, hlt, -⟩)
      · exact hk
      · omega

theorem Folds.not_inWindow (htick : 0 < tick) (h : Folds n base tick price) : ¬InWindow n base tick price := by
  rintro ⟨hlo, hhi⟩
  rcases h with ⟨k, hk, hcopy, -⟩ | ⟨k, hlt, -⟩
  · have hn := n.lt_int
    have : (n.val : Int) * tick ≤ 2 ^ 32 * k * tick := Int.mul_le_mul_of_nonneg_right (by omega) (Int.le_of_lt htick)
    omega
  · omega

/-! ### Messages -/

theorem outOfRange_applyAt {t : MsgType} {isBid : Bool} {i : Fin n.val} {size : UInt32} :
    (b.applyAt t isBid i size).outOfRange = b.outOfRange := by
  have hset : ∀ v, (b.setLevel isBid i v).outOfRange = b.outOfRange := fun v => by cases isBid <;> rfl
  have hraise : ∀ (b' : BookView n) idx, (b'.onSizeIncreased isBid idx).outOfRange = b'.outOfRange := fun b' idx => by
    unfold onSizeIncreased
    split_ifs <;> rfl
  have hempty : ∀ b' : BookView n, (b'.onLevelEmptied isBid i).outOfRange = b'.outOfRange := fun b' => by
    unfold onLevelEmptied
    split_ifs <;> rfl
  cases t <;> dsimp only [applyAt] <;> try split_ifs
  all_goals simp only [hset, hraise, hempty]

theorem outOfRange_of_index (h : 0 ≤ b.toIndex m.price ∧ b.toIndex m.price < n.val) :
    (b.apply m).outOfRange = b.outOfRange := by
  unfold apply
  rw [dif_pos h]
  exact outOfRange_applyAt

theorem apply_of_no_index (h : ¬(0 ≤ b.toIndex m.price ∧ b.toIndex m.price < n.val)) :
    b.apply m = { b with outOfRange := b.outOfRange + 1 } := by
  unfold apply
  exact dif_neg h

/-- A message inside the window is not counted out of range. -/
theorem outOfRange_apply (htick : 0 < b.tick) (hp : InWindow n b.base b.tick m.price) :
    (b.apply m).outOfRange = b.outOfRange := by
  have hkey := tickKey_window htick hp
  rw [← toIndex_eq htick hp] at hkey
  exact outOfRange_of_index hkey

/-- A message outside the window is counted and changes no level and no best price, and no size rests at its price; a
    message inside is not counted. -/
def DropsOutside (b : BookView n) (m : ItchMessage) : Prop :=
  (¬InWindow n b.base b.tick m.price →
    ((∀ isBid, (b.apply m).arr isBid = b.arr isBid) ∧ (b.apply m).bestBidIdx = b.bestBidIdx ∧
      (b.apply m).bestAskIdx = b.bestAskIdx ∧ (b.apply m).outOfRange = b.outOfRange + 1) ∧
    ∀ side, b.sizeAt side m.price = 0) ∧
  (InWindow n b.base b.tick m.price → (b.apply m).outOfRange = b.outOfRange)

/-- Messages outside the window are dropped, all but those whose price folds. -/
theorem drops_outside_iff (b : BookView n) (htick : 0 < b.tick) (m : ItchMessage) :
    DropsOutside b m ↔ ¬Folds n b.base b.tick m.price := by
  constructor
  · intro hdrops hfolds
    have hp := hfolds.not_inWindow htick
    obtain ⟨⟨-, -, -, hcount⟩, -⟩ := hdrops.1 hp
    rw [outOfRange_of_index ((toIndex_iff htick hp).mpr hfolds)] at hcount
    exact absurd hcount.symm (by simp)
  · intro hfolds
    refine ⟨fun hp => ?_, outOfRange_apply htick⟩
    have hidx : ¬(0 ≤ b.toIndex m.price ∧ b.toIndex m.price < n.val) := mt (toIndex_iff htick hp).mp hfolds
    rw [apply_of_no_index hidx]
    exact ⟨⟨fun _ => rfl, rfl, rfl, rfl⟩, fun side => dif_neg hidx⟩

theorem drops_outside_iff_below :
    let n : NumTicks := ⟨4, by decide, by decide⟩
    DropsOutside (new n 100 10) { price := 90 } ↔ ¬Folds n 100 10 90 :=
  drops_outside_iff _ (by decide) _

/-- Half a tick below the base, and 2^32 ticks above it: both messages reach the lowest level. -/
theorem price_below_base_folded :
    let b : BookView ⟨4, by decide, by decide⟩ := new _ 100 10
    let below : ItchMessage := { type := MsgType.kAdd.toByte, side := Side.kBuy.toByte, price := 95, size := 7 }
    let above : ItchMessage :=
      { type := MsgType.kAdd.toByte, side := Side.kBuy.toByte, price := 42949673060, size := 7 }
    ¬DropsOutside b below ∧ ((b.apply below).bid.get 0 = 7 ∧ (b.apply below).outOfRange = 0) ∧
      ¬DropsOutside b above ∧ (b.apply above).bid.get 0 = 7 ∧ (b.apply above).outOfRange = 0 := by
  refine ⟨fun h => ?_, ⟨by decide +kernel, by decide +kernel⟩, fun h => ?_, by decide +kernel, by decide +kernel⟩
  · exact absurd (h.1 (by decide)).1.2.2.2 (by decide +kernel)
  · exact absurd (h.1 (by decide)).1.2.2.2 (by decide +kernel)

/-! ### Any stream -/

section Any
variable {A : LevelBook}

/-- Whatever the price, a message leaves the arrays with the levels of some book and the best indices at its touch. -/
theorem Refines.apply_any (h : Refines b A) (m : ItchMessage) : ∃ A', Refines (b.apply m) A' := by
  by_cases hidx : 0 ≤ b.toIndex m.price ∧ b.toIndex m.price < n.val
  · unfold BookView.apply
    rw [dif_pos hidx]
    exact ⟨_, h.applyAt _ _ _ _⟩
  · rw [apply_of_no_index hidx]
    exact ⟨A, h.levels, h.bestBid, h.bestAsk⟩

theorem Refines.bestLevels (h : Refines b A) (htick : 0 < b.tick) : BestLevels b :=
  (h.agrees htick).bestLevels htick fun s => (h.levels s).window

end Any

/-- Rounding keeps the order and leaves what `double` holds as it is. -/
structure Rounding (round : Rat → Rat) : Prop where
  mono : ∀ x y, x ≤ y → round x ≤ round y
  one : round 1 = 1
  neg_one : round (-1) = -1

theorem Rounding.id : Rounding fun x => x := ⟨fun _ _ h => h, rfl, rfl⟩

theorem imbalance_range {round : Rat → Rat} (hr : Rounding round) (b : BookView n) :
    -1 ≤ b.imbalance round ∧ b.imbalance round ≤ 1 := by
  unfold imbalance
  have hzero : (-1 : Rat) ≤ 0 ∧ (0 : Rat) ≤ 1 := by decide
  have hbid : (0 : Rat) ≤ b.bestBidSize.toNat := Rat.natCast_nonneg
  have hask : (0 : Rat) ≤ b.bestAskSize.toNat := Rat.natCast_nonneg
  dsimp only
  split
  · split
    · next hpos =>
      have hlow : -1 ≤
          (b.bestBidSize.toNat - b.bestAskSize.toNat : Rat) / (b.bestBidSize.toNat + b.bestAskSize.toNat) := by
        rw [← Rat.not_lt, Rat.div_lt_iff hpos]
        grind
      have hhigh :
          (b.bestBidSize.toNat - b.bestAskSize.toNat : Rat) / (b.bestBidSize.toNat + b.bestAskSize.toNat) ≤ 1 := by
        rw [← Rat.not_lt, Rat.lt_div_iff hpos]
        grind
      exact ⟨hr.neg_one ▸ hr.mono _ _ hlow, hr.one ▸ hr.mono _ _ hhigh⟩
    · exact hzero
  · exact hzero

end BookView

end Hft
