import HftEngine.TradingSession
import HftEngine.Theorems.Book
import Mathlib.Algebra.Order.Field.Basic
import Mathlib.Data.Rat.Cast.Order
import Mathlib.Tactic.Linarith
import Mathlib.Tactic.NormNum

/-! The strategy trades exactly on the imbalance of the true top of the book. -/

namespace Hft

open BookView

/-! ### The comparison -/

section Comparison
variable {A : LevelBook} {thrNum : Int}

theorem Touch.pos (T : Touch A) : 0 < T.bidSize ∧ 0 < T.askSize :=
  ⟨Nat.pos_of_ne_zero (Finsupp.mem_support_iff.mp T.isBid.1), Nat.pos_of_ne_zero (Finsupp.mem_support_iff.mp T.isAsk.1)⟩

theorem Touch.unique (T T' : Touch A) : T = T' := by
  obtain ⟨_, _, hbid, hask⟩ := T
  obtain ⟨_, _, hbid', hask'⟩ := T'
  obtain rfl := hbid.unique hbid'
  obtain rfl := hask.unique hask'
  rfl

/-- Cross-multiplied by two positive denominators, the comparison needs no division. -/
theorem over_iff (thrNum d : Int) {b a : Nat} (hsum : 0 < b + a) :
    (d : ℚ) / (b + a) > thrNum / 2 ^ 14 ↔ d * kThrDen > thrNum * (b + a) := by
  have hpos : (0 : ℚ) < b + a := by exact_mod_cast hsum
  rw [gt_iff_lt, div_lt_div_iff₀ (by norm_num) hpos, gt_iff_lt]
  unfold kThrDen
  norm_num
  exact_mod_cast Iff.rfl

theorem Touch.buy_iff (T : Touch A) :
    ((T.bidSize : ℚ) - T.askSize) / (T.bidSize + T.askSize) > thrNum / 2 ^ 14 ↔
      ((T.bidSize : Int) - T.askSize) * kThrDen > thrNum * (T.bidSize + T.askSize) := by
  rw [← over_iff thrNum _ (Nat.add_pos_left T.pos.1 _)]
  push_cast
  exact Iff.rfl

theorem Touch.sell_iff (T : Touch A) :
    ((T.askSize : ℚ) - T.bidSize) / (T.bidSize + T.askSize) > thrNum / 2 ^ 14 ↔
      ((T.askSize : Int) - T.bidSize) * kThrDen > thrNum * (T.bidSize + T.askSize) := by
  rw [← over_iff thrNum _ (Nat.add_pos_left T.pos.1 _)]
  push_cast
  exact Iff.rfl

/-- With a threshold of at least zero the levels call for one side only, whatever the positions. -/
theorem Calls.unique (hthr : 0 ≤ thrNum) {pos pos' k k' : Int} {side side' : Side} (h : Calls thrNum pos A side k)
    (h' : Calls thrNum pos' A side' k') : side = side' ∧ k = k' := by
  have apart : ∀ T : Touch A, ((T.bidSize : ℚ) - T.askSize) / (T.bidSize + T.askSize) > thrNum / 2 ^ 14 →
      ((T.askSize : ℚ) - T.bidSize) / (T.bidSize + T.askSize) > thrNum / 2 ^ 14 → False := by
    intro T hbuy hsell
    have := Int.mul_nonneg hthr (Int.natCast_nonneg (T.bidSize + T.askSize))
    rw [T.buy_iff] at hbuy
    rw [T.sell_iff] at hsell
    unfold kThrDen at hbuy hsell
    push_cast at this
    omega
  cases h with
  | buy T hpos h =>
    cases h' with
    | buy T' hpos' h' => exact ⟨rfl, by rw [T.unique T']⟩
    | sell T' hpos' h' => exact absurd (T.unique T' ▸ h') (apart T h)
  | sell T hpos h =>
    cases h' with
    | buy T' hpos' h' => exact absurd h (apart T (T'.unique T ▸ h'))
    | sell T' hpos' h' => exact ⟨rfl, by rw [T.unique T']⟩

theorem Calls.touch {pos k : Int} {side : Side} (h : Calls thrNum pos A side k) :
    ∃ T : Touch A, k = if side = .kBuy then T.bid else T.ask := by
  cases h with
  | buy T => exact ⟨T, rfl⟩
  | sell T => exact ⟨T, rfl⟩

end Comparison

/-! ### One event -/

section Event
variable {n : NumTicks} {s : ImbalanceStrategy n} {A : LevelBook}

/-- A book that refines levels is two-sided when they have a touch, and reports it. -/
theorem Touch.of_refines {b : BookView n} (h : Refines b A) (htwo : b.twoSided = true) :
    ∃ T : Touch A, b.bestBidSize.toNat = T.bidSize ∧ b.bestAskSize.toNat = T.askSize ∧
      b.bestBidPrice = b.base + T.bid * b.tick ∧ b.bestAskPrice = b.base + T.ask * b.tick := by
  obtain ⟨hbid, hask⟩ := (Bool.and_eq_true ..).mp htwo
  obtain ⟨hgreatest, hbidSize⟩ := h.bestBid_level hbid
  obtain ⟨hleast, haskSize⟩ := h.bestAsk_level hask
  exact ⟨⟨_, _, hgreatest, hleast⟩, hbidSize, haskSize, rfl, rfl⟩

theorem Touch.twoSided (T : Touch A) {b : BookView n} (h : Refines b A) : b.twoSided = true := by
  refine (Bool.and_eq_true ..).mpr ⟨h.hasBid.mpr fun h0 => ?_, h.hasAsk.mpr fun h0 => ?_⟩
  · exact T.pos.1.ne' (by rw [bidSize, h0]; rfl)
  · exact T.pos.2.ne' (by rw [askSize, h0]; rfl)

/-- The two tests of the strategy are those of the levels. -/
theorem wants_iff (h : Refines s.book A) (htwo : s.book.twoSided = true) :
    (s.wantBuy = true ↔ ∃ k, Calls s.thrNum s.position A .kBuy k) ∧
    (s.wantSell = true ↔ ∃ k, Calls s.thrNum s.position A .kSell k) := by
  obtain ⟨T, hbid, hask, -, -⟩ := Touch.of_refines h htwo
  have hdiff : s.diff = T.bidSize - T.askSize := by rw [ImbalanceStrategy.diff, hbid, hask]
  have hsum : s.sum = T.bidSize + T.askSize := by rw [ImbalanceStrategy.sum, hbid, hask]
  have hneg : -(((T.bidSize : Int) - T.askSize) * kThrDen) = (T.askSize - T.bidSize) * kThrDen := by
    rw [← Int.neg_mul, Int.neg_sub]
  constructor
  · unfold ImbalanceStrategy.wantBuy
    rw [hdiff, hsum, Bool.and_eq_true, decide_eq_true_eq, decide_eq_true_eq, ← T.buy_iff]
    constructor
    · rintro ⟨hover, hpos⟩
      exact ⟨_, .buy T hpos hover⟩
    · rintro ⟨k, hcalls⟩
      cases hcalls with
      | buy T' hpos hover => exact ⟨T'.unique T ▸ hover, hpos⟩
  · unfold ImbalanceStrategy.wantSell
    rw [hdiff, hsum, hneg, Bool.and_eq_true, decide_eq_true_eq, decide_eq_true_eq, ← T.sell_iff]
    constructor
    · rintro ⟨hover, hpos⟩
      exact ⟨_, .sell T hpos hover⟩
    · rintro ⟨k, hcalls⟩
      cases hcalls with
      | sell T' hpos hover => exact ⟨T'.unique T ▸ hover, hpos⟩

/-- What the strategy does with one event, told by the levels `A` after it. -/
structure Decides (p : StrategyParams) (s : TradingSession n) (ev : MdEvent) (A : LevelBook) : Prop where
  emits : (s.strat.onMd ev).2.isSome = true ↔ s.waiting = false ∧ ∃ side k, Calls p.thrNum s.net A side k
  order : ∀ o, (s.strat.onMd ev).2 = some o → ∃ side k, Calls p.thrNum s.net A side k ∧
    o.side = side.toByte ∧ o.price = p.basePrice + k * p.tick ∧ o.size = p.orderSize
  exclusive : ∀ side side' k k', Calls p.thrNum s.net A side k → Calls p.thrNum s.net A side' k' → side = side' ∧ k = k'
  compares : (s.strat.observe ev).book.twoSided = true → 0 < (s.strat.observe ev).sum
  fits : |(s.strat.observe ev).diff * kThrDen| < 2 ^ 63 ∧ |p.thrNum * (s.strat.observe ev).sum| < 2 ^ 63

theorem onMd_eq (s : ImbalanceStrategy n) (ev : MdEvent) :
    (s.onMd ev).2 = if (s.observe ev).book.twoSided = true ∧ s.inFlight = false ∧
        ((s.observe ev).wantBuy = true ∨ (s.observe ev).wantSell = true) then
      some ((s.observe ev).order ev) else none := by
  have hlatch : (s.observe ev).inFlight = s.inFlight := rfl
  unfold ImbalanceStrategy.onMd
  dsimp only
  rw [hlatch]
  cases (s.observe ev).book.twoSided <;> cases s.inFlight <;> cases (s.observe ev).wantBuy <;>
    cases (s.observe ev).wantSell <;> rfl

theorem products_fit (hthr : 0 ≤ s.thrNum) (hone : s.thrNum ≤ 2 ^ 14) :
    |s.diff * kThrDen| < 2 ^ 63 ∧ |s.thrNum * s.sum| < 2 ^ 63 := by
  have hb := s.book.bestBidSize.toNat_lt
  have ha := s.book.bestAskSize.toNat_lt
  unfold ImbalanceStrategy.diff ImbalanceStrategy.sum kThrDen
  constructor
  · rw [abs_lt]
    omega
  · have hsum : (0 : Int) ≤ s.book.bestBidSize.toNat + s.book.bestAskSize.toNat := by omega
    rw [abs_of_nonneg (Int.mul_nonneg hthr hsum)]
    calc s.thrNum * (s.book.bestBidSize.toNat + s.book.bestAskSize.toNat)
        ≤ 2 ^ 14 * (s.book.bestBidSize.toNat + s.book.bestAskSize.toNat) := Int.mul_le_mul_of_nonneg_right hone hsum
      _ < 2 ^ 63 := by omega

end Event

/-! ### Whole sessions -/

section Session
variable {n : NumTicks} {p : StrategyParams} {s : TradingSession n} {ins : List StrategyInput} {i : StrategyInput}

/-- The strategy holds the true levels, the sum of its fills, the latch, and the number of its orders. -/
structure Ledger (p : StrategyParams) (ins : List StrategyInput) (s : TradingSession n) : Prop where
  book : Refines s.strat.book (LevelBook.after p ins)
  base : s.strat.book.base = p.basePrice
  tick : s.strat.book.tick = p.tick
  thrNum : s.strat.thrNum = p.thrNum
  orderSize : s.strat.orderSize = p.orderSize
  position : s.strat.position = s.net
  inFlight : s.strat.inFlight = s.waiting
  lastOrderId : s.strat.lastOrderId = UInt64.ofNat s.orders.length
  ids : s.orders.map OrderRequest.orderId = (List.range s.orders.length).map fun k => UInt64.ofNat (k + 1)

/-- The price of an input lies in the window of the book. -/
def InWindowInput (n : NumTicks) (p : StrategyParams) (i : StrategyInput) : Prop :=
  ∀ m, i.message? = some m → InWindow n p.basePrice p.tick m.price

structure Settled (s t : ImbalanceStrategy n) (ev : MdEvent) : Prop where
  book : t.book = s.book.apply ev.msg
  thrNum : t.thrNum = s.thrNum
  orderSize : t.orderSize = s.orderSize
  position : t.position = s.position

theorem onMd_settled (s : ImbalanceStrategy n) (ev : MdEvent) : Settled s (s.onMd ev).1 ev := by
  unfold ImbalanceStrategy.onMd
  dsimp only
  split_ifs <;> exact ⟨rfl, rfl, rfl, rfl⟩

theorem onMd_order (s : ImbalanceStrategy n) (ev : MdEvent) :
    ((s.onMd ev).2 = none ∧ (s.onMd ev).1.inFlight = s.inFlight ∧ (s.onMd ev).1.lastOrderId = s.lastOrderId) ∨
    ∃ o, (s.onMd ev).2 = some o ∧ o.orderId = s.lastOrderId + 1 ∧ (s.onMd ev).1.inFlight = true ∧
      (s.onMd ev).1.lastOrderId = s.lastOrderId + 1 := by
  unfold ImbalanceStrategy.onMd
  dsimp only
  split_ifs
  · exact Or.inl ⟨rfl, rfl, rfl⟩
  · exact Or.inl ⟨rfl, rfl, rfl⟩
  · exact Or.inr ⟨_, rfl, rfl, rfl, rfl⟩

theorem after_md (ev : MdEvent) :
    LevelBook.after p (ins ++ [.md ev]) = (LevelBook.after p ins).apply p.basePrice p.tick ev.msg := by
  simp [LevelBook.after, LevelBook.run, List.filterMap_append, StrategyInput.message?]

theorem after_fill (r : ExecReport) : LevelBook.after p (ins ++ [.fill r]) = LevelBook.after p ins := by
  rw [LevelBook.after, List.filterMap_append]
  exact congrArg _ (List.append_nil _)

theorem ledger_new : Ledger p [] (TradingSession.run n p []) :=
  ⟨refines_new, rfl, rfl, rfl, rfl, rfl, rfl, rfl, rfl⟩

/-- A window with a price in it has a positive tick. -/
theorem tick_pos {base tick price : Int} (h : InWindow n base tick price) : 0 < tick := by
  by_contra hle
  have := mul_nonpos_of_nonneg_of_nonpos (Int.natCast_nonneg n.val) (Int.not_lt.mp hle)
  have := h.1
  have := h.2
  omega

theorem Ledger.observe (h : Ledger p ins s) {ev : MdEvent} (hin : InWindow n p.basePrice p.tick ev.msg.price) :
    Refines (s.strat.observe ev).book (LevelBook.after p (ins ++ [.md ev])) := by
  have htick := tick_pos hin
  have hbook := h.book.apply (h.tick ▸ htick) (m := ev.msg) (by rw [h.base, h.tick]; exact hin)
  rw [after_md, ← h.base, ← h.tick]
  exact hbook

theorem Ledger.md (h : Ledger p ins s) {ev : MdEvent} (hin : InWindow n p.basePrice p.tick ev.msg.price) :
    Ledger p (ins ++ [.md ev]) (s.next (.md ev)) := by
  have hset := onMd_settled s.strat ev
  have hbase := apply_base (b := s.strat.book) (m := ev.msg)
  have hbook : Refines (s.next (.md ev)).strat.book (LevelBook.after p (ins ++ [.md ev])) := hset.book ▸ h.observe hin
  have hb : (s.next (.md ev)).strat.book.base = p.basePrice := by rw [← h.base, ← hbase.1, ← hset.book]; rfl
  have ht : (s.next (.md ev)).strat.book.tick = p.tick := by rw [← h.tick, ← hbase.2, ← hset.book]; rfl
  have hlast := h.lastOrderId
  have hids := h.ids
  rcases onMd_order s.strat ev with ⟨hnone, hflight, hid⟩ | ⟨o, hsome, ho, hflight, hid⟩
  · have hlog : (s.next (.md ev)).log = s.log := by simp [TradingSession.next, hnone]
    exact ⟨hbook, hb, ht, hset.thrNum.trans h.thrNum, hset.orderSize.trans h.orderSize,
      by rw [TradingSession.net, TradingSession.fills, hlog]; exact hset.position.trans h.position,
      by rw [TradingSession.waiting, hlog]; exact hflight.trans h.inFlight,
      by rw [TradingSession.orders, hlog]; exact hid.trans h.lastOrderId,
      by rw [TradingSession.orders, hlog]; exact h.ids⟩
  · have hlog : (s.next (.md ev)).log = s.log ++ [.inl o] := by simp [TradingSession.next, hsome]
    have horders : (s.next (.md ev)).orders = s.orders ++ [o] := by
      simp [TradingSession.orders, hlog, List.filterMap_append]
    have hfills : (s.next (.md ev)).fills = s.fills := by simp [TradingSession.fills, hlog, List.filterMap_append]
    exact ⟨hbook, hb, ht, hset.thrNum.trans h.thrNum, hset.orderSize.trans h.orderSize,
      by rw [TradingSession.net, hfills]; exact hset.position.trans h.position,
      by rw [TradingSession.waiting, hlog, List.getLast?_append]; exact hflight,
      by
        rw [horders, List.length_append, List.length_singleton, UInt64.ofNat_add]
        exact hid.trans (by rw [hlast]; rfl),
      by
        rw [horders, List.length_append, List.length_singleton, List.range_succ, List.map_append, List.map_append, hids]
        simp [ho, hlast]⟩

theorem Ledger.fill (h : Ledger p ins s) (r : ExecReport) : Ledger p (ins ++ [.fill r]) (s.next (.fill r)) := by
  have horders : (s.next (.fill r)).orders = s.orders := by
    simp [TradingSession.orders, TradingSession.next, List.filterMap_append]
  have hfills : (s.next (.fill r)).fills = s.fills ++ [r] := by
    simp [TradingSession.fills, TradingSession.next, List.filterMap_append]
  have hnet : (s.next (.fill r)).net = s.net + r.signedFill := by
    simp [TradingSession.net, hfills]
  refine ⟨by rw [after_fill]; exact h.book, h.base, h.tick, h.thrNum, h.orderSize, ?_, ?_, ?_, ?_⟩
  · rw [hnet, ← h.position]
    rfl
  · rw [TradingSession.waiting, TradingSession.next, List.getLast?_append]
    rfl
  · rw [horders]
    exact h.lastOrderId
  · rw [horders]
    exact h.ids

theorem ledger_run (hin : ∀ i ∈ ins, InWindowInput n p i) : Ledger p ins (TradingSession.run n p ins) := by
  induction ins using List.reverseRecOn with
  | nil => exact ledger_new
  | append_singleton ins i ih =>
    have h := ih fun j hj => hin j (List.mem_append_left _ hj)
    have hi := hin i (List.mem_append_right _ (List.mem_singleton_self i))
    rw [TradingSession.run, List.foldl_append]
    cases i with
    | md ev => exact h.md (hi ev.msg rfl)
    | fill r => exact h.fill r

section Decision
variable {ev : MdEvent}

/-- The two tests after an event are what the true levels call for. -/
theorem Ledger.wants_iff (h : Ledger p ins s) (hin : InWindow n p.basePrice p.tick ev.msg.price)
    (htwo : (s.strat.observe ev).book.twoSided = true) :
    ((s.strat.observe ev).wantBuy = true ↔
      ∃ k, Calls p.thrNum s.net (LevelBook.after p (ins ++ [.md ev])) .kBuy k) ∧
    ((s.strat.observe ev).wantSell = true ↔
      ∃ k, Calls p.thrNum s.net (LevelBook.after p (ins ++ [.md ev])) .kSell k) := by
  have hthrNum : (s.strat.observe ev).thrNum = p.thrNum := h.thrNum
  have hpos : (s.strat.observe ev).position = s.net := h.position
  rw [← hthrNum, ← hpos]
  exact Hft.wants_iff (h.observe hin) htwo

theorem Ledger.emits_iff (h : Ledger p ins s) (hin : InWindow n p.basePrice p.tick ev.msg.price) :
    (s.strat.onMd ev).2.isSome = true ↔ s.waiting = false ∧
      ∃ side k, Calls p.thrNum s.net (LevelBook.after p (ins ++ [.md ev])) side k := by
  rw [onMd_eq, h.inFlight, Option.isSome_ite]
  constructor
  · rintro ⟨htwo, hfree, hwant⟩
    refine ⟨hfree, ?_⟩
    rcases hwant with hbuy | hsell
    · exact ⟨.kBuy, (h.wants_iff hin htwo).1.mp hbuy⟩
    · exact ⟨.kSell, (h.wants_iff hin htwo).2.mp hsell⟩
  · rintro ⟨hfree, side, k, hcalls⟩
    obtain ⟨T, -⟩ := hcalls.touch
    have htwo := T.twoSided (h.observe hin)
    refine ⟨htwo, hfree, ?_⟩
    cases side with
    | kNone => cases hcalls
    | kBuy => exact Or.inl ((h.wants_iff hin htwo).1.mpr ⟨k, hcalls⟩)
    | kSell => exact Or.inr ((h.wants_iff hin htwo).2.mpr ⟨k, hcalls⟩)

theorem Ledger.order_calls (h : Ledger p ins s) (hin : InWindow n p.basePrice p.tick ev.msg.price) {o : OrderRequest}
    (ho : (s.strat.onMd ev).2 = some o) :
    ∃ side k, Calls p.thrNum s.net (LevelBook.after p (ins ++ [.md ev])) side k ∧
      o.side = side.toByte ∧ o.price = p.basePrice + k * p.tick ∧ o.size = p.orderSize := by
  rw [onMd_eq] at ho
  obtain ⟨⟨htwo, -, hwant⟩, ho⟩ := Option.ite_none_right_eq_some.mp ho
  obtain rfl := Option.some_inj.mp ho
  have hbase := apply_base (b := s.strat.book) (m := ev.msg)
  obtain ⟨T, -, -, hbid, hask⟩ := Touch.of_refines (h.observe hin) htwo
  have hb : (s.strat.observe ev).book.base = p.basePrice := hbase.1.trans h.base
  have ht : (s.strat.observe ev).book.tick = p.tick := hbase.2.trans h.tick
  rw [hb, ht] at hbid hask
  cases hbuy : (s.strat.observe ev).wantBuy with
  | true =>
    obtain ⟨k, hcalls⟩ := (h.wants_iff hin htwo).1.mp hbuy
    obtain ⟨T', rfl⟩ := hcalls.touch
    obtain rfl := T.unique T'
    exact ⟨.kBuy, _, hcalls, by simp [ImbalanceStrategy.order, hbuy], by simp [ImbalanceStrategy.order, hbuy, hbid],
      h.orderSize⟩
  | false =>
    obtain ⟨k, hcalls⟩ := (h.wants_iff hin htwo).2.mp (hwant.resolve_left (by simp [hbuy]))
    obtain ⟨T', rfl⟩ := hcalls.touch
    obtain rfl := T.unique T'
    exact ⟨.kSell, _, hcalls, by simp [ImbalanceStrategy.order, hbuy], by simp [ImbalanceStrategy.order, hbuy, hask],
      h.orderSize⟩

theorem Ledger.sum_pos (h : Ledger p ins s) (hin : InWindow n p.basePrice p.tick ev.msg.price)
    (htwo : (s.strat.observe ev).book.twoSided = true) : 0 < (s.strat.observe ev).sum := by
  obtain ⟨T, hbid, hask, -, -⟩ := Touch.of_refines (h.observe hin) htwo
  have := T.pos
  rw [ImbalanceStrategy.sum, hbid, hask]
  omega

theorem Ledger.decides (h : Ledger p ins s) (hthr : 0 ≤ p.thrNum) (hone : p.thrNum ≤ 2 ^ 14)
    (hin : InWindow n p.basePrice p.tick ev.msg.price) : Decides p s ev (LevelBook.after p (ins ++ [.md ev])) where
  emits := h.emits_iff hin
  order _ ho := h.order_calls hin ho
  exclusive _ _ _ _ hcalls hcalls' := hcalls.unique hthr hcalls'
  compares htwo := h.sum_pos hin htwo
  fits := by
    have hthrNum : (s.strat.observe ev).thrNum = p.thrNum := h.thrNum
    rw [← hthrNum]
    exact products_fit (hthrNum ▸ hthr) (hthrNum ▸ hone)

end Decision

theorem length_orders_next (i : StrategyInput) : (s.next i).orders.length ≤ s.orders.length + 1 := by
  unfold TradingSession.orders TradingSession.next
  cases i with
  | md ev =>
    cases hout : (s.strat.onMd ev).2 with
    | none => simp [hout]
    | some o => simp [hout, List.filterMap_append]
  | fill r =>
    rw [List.filterMap_append, List.length_append]
    exact Nat.add_le_add_left (Nat.zero_le 1) _

end Session

/-- The strategy trades exactly on the imbalance of the true top of the book, whatever came before. -/
theorem TradingSession.trades_on_imbalance (n : NumTicks) (p : StrategyParams) (hthr : 0 ≤ p.thrNum)
    (hone : p.thrNum ≤ 2 ^ 14) (ins : List StrategyInput) (hin : ∀ i ∈ ins, InWindowInput n p i) :
    (run n p ins).strat.position = (run n p ins).net ∧ (run n p ins).strat.inFlight = (run n p ins).waiting ∧
    (run n p ins).orders.map OrderRequest.orderId =
      (List.range (run n p ins).orders.length).map (fun k => UInt64.ofNat (k + 1)) ∧
    (∀ i, (run n p (ins ++ [i])).orders.length ≤ (run n p ins).orders.length + 1) ∧
    ∀ ev, InWindow n p.basePrice p.tick ev.msg.price →
      Decides p (run n p ins) ev (LevelBook.after p (ins ++ [.md ev])) := by
  have h := ledger_run hin
  refine ⟨h.position, h.inFlight, h.ids, fun i => ?_, fun ev => h.decides hthr hone⟩
  rw [run, List.foldl_append]
  exact length_orders_next i

/-- A bid of 9 against an ask of 1 is over a threshold of one half; the event before it leaves the book one-sided. -/
theorem TradingSession.trades_on_imbalance_buy :
    let n : NumTicks := ⟨4, by decide, by decide⟩
    let p : StrategyParams := ⟨100, 10, 8192, 5⟩
    let bid : MdEvent :=
      { msg := { type := MsgType.kAdd.toByte, side := Side.kBuy.toByte, price := 110, size := 9 }, arrivalTsc := 0 }
    let ask : MdEvent :=
      { msg := { type := MsgType.kAdd.toByte, side := Side.kSell.toByte, price := 120, size := 1 }, arrivalTsc := 0 }
    ((run n p [.md bid]).strat.position = (run n p [.md bid]).net ∧
      (run n p [.md bid]).strat.inFlight = (run n p [.md bid]).waiting ∧
      (run n p [.md bid]).orders.map OrderRequest.orderId =
        (List.range (run n p [.md bid]).orders.length).map (fun k => UInt64.ofNat (k + 1)) ∧
      (∀ i, (run n p ([.md bid] ++ [i])).orders.length ≤ (run n p [.md bid]).orders.length + 1) ∧
      ∀ ev, InWindow n p.basePrice p.tick ev.msg.price →
        Decides p (run n p [.md bid]) ev (LevelBook.after p ([.md bid] ++ [.md ev]))) ∧
    ((run n p [.md bid, .md ask]).orders.map fun o => (o.side, o.price)) = [(Side.kBuy.toByte, 110)] :=
  ⟨trades_on_imbalance _ _ (by decide) (by decide) _ (by
    intro i hi m hm
    obtain rfl := List.mem_singleton.mp hi
    obtain rfl := Option.some_inj.mp hm
    decide), by decide +kernel⟩

end Hft
