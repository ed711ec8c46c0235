import HftEngine.Theorems.BookWindow
import HftEngine.Theorems.SimExchange

/-! The simulated feed and a book that applies it: after every step the book holds the exchange's two quotes and
    nothing else. -/

namespace Hft

open BookView Finsupp

/-! ### Random draws -/

section Draws
variable {ρ : Type} (draw : ρ → UInt64 × ρ) (rng : ρ)

/-- A draw lies in its range when the range has fewer than 2^32 numbers. -/
theorem drawRange_between (lo hi : UInt32) (hle : lo.toNat ≤ hi.toNat) (hfit : hi.toNat - lo.toNat + 1 < 2 ^ 32) :
    lo.toNat ≤ (drawRange draw lo hi rng).1.toNat ∧ (drawRange draw lo hi rng).1.toNat ≤ hi.toNat := by
  have hspan : (hi - lo + 1).toNat = hi.toNat - lo.toNat + 1 := by
    rw [UInt32.toNat_add, UInt32.toNat_sub_of_le _ _ (UInt32.le_iff_toNat_le.mpr hle)]
    exact Nat.mod_eq_of_lt hfit
  have hlt : (draw rng).1.toNat % (hi.toNat - lo.toNat + 1) < hi.toNat - lo.toNat + 1 := Nat.mod_lt _ (Nat.succ_pos _)
  have hrest : ((draw rng).1 % (hi - lo + 1).toUInt64).toUInt32.toNat =
      (draw rng).1.toNat % (hi.toNat - lo.toNat + 1) := by
    rw [UInt64.toNat_toUInt32, UInt64.toNat_mod, UInt32.toNat_toUInt64, hspan]
    exact Nat.mod_eq_of_lt (by omega)
  have hhi := hi.toNat_lt
  have hsum : (drawRange draw lo hi rng).1.toNat = lo.toNat + (draw rng).1.toNat % (hi.toNat - lo.toNat + 1) := by
    show (lo + _).toNat = _
    rw [UInt32.toNat_add, hrest]
    exact Nat.mod_eq_of_lt (by omega)
  omega

theorem drawSize_ne_zero : (drawSize draw rng).1 ≠ 0 := by
  intro hzero
  have hpos : 100 ≤ (drawSize draw rng).1.toNat := by
    unfold drawSize
    dsimp only
    split
    · have hlarge := drawRange_between draw (drawRange draw 0 15 rng).2 2000 5000 (by decide) (by decide)
      exact Nat.le_trans (by decide) hlarge.1
    · have hsmall := drawRange_between draw (drawRange draw 0 15 rng).2 100 800 (by decide) (by decide)
      exact hsmall.1
  rw [hzero] at hpos
  exact absurd hpos (by decide)

end Draws

/-! ### One level a side -/

namespace LevelBook

variable {A : LevelBook} {k k' : Int} {q q' : Nat} {isBid : Bool}

/-- Deleting the only level of a side empties it. -/
theorem step_delete_single (h : A.side isBid = single k q) : A.step .kDelete isBid k q' = A.setSide isBid 0 := by
  rw [step, h]
  exact congrArg _ (LevelMap.clear_single k q)

/-- The first add of a side makes its only level. -/
theorem step_add_empty (h : A.side isBid = 0) (hq : q ≠ 0) (hlt : q < 2 ^ 32) :
    A.step .kAdd isBid k q = A.setSide isBid (single k q) := by
  rw [step, h]
  exact congrArg _ (LevelMap.deposit_zero hq (Nat.le_sub_one_of_lt hlt) k)

/-- Delete then add moves the only level of a side, and leaves the other side alone. -/
theorem step_requote (h : A.side isBid = single k q) {r : Nat} (hq : q' ≠ 0) (hlt : q' < 2 ^ 32) :
    (A.step .kDelete isBid k r).step .kAdd isBid k' q' = A.setSide isBid (single k' q') := by
  rw [step_delete_single h, step_add_empty side_setSide_self hq hlt]
  cases isBid <;> rfl

end LevelBook

/-! ### A message -/

section Message
variable {ρ : Type} {n : NumTicks} {c : SimConfig} {base : Int} {s t : SimExchange ρ} {A : LevelBook} {px : Int}

/-- The book of a consumer that applied every message so far. -/
def bookOf (n : NumTicks) (base : Int) (s : SimExchange ρ) : BookView n :=
  (BookView.new n base s.tick).applyAll s.emitted

theorem bookOf_base (n : NumTicks) (base : Int) (s : SimExchange ρ) :
    (bookOf n base s).base = base ∧ (bookOf n base s).tick = s.tick := applyAll_base _ _

/-- The consumer's book holds the levels `A`. -/
structure Feeds (n : NumTicks) (base : Int) (s : SimExchange ρ) (A : LevelBook) : Prop where
  packs : s.Packs
  book : Refines (bookOf n base s) A
  outOfRange : (bookOf n base s).outOfRange = 0

theorem Feeds.flush (h : Feeds n base s A) : Feeds n base s.flush A ∧ s.Kept s.flush := by
  obtain ⟨hpacks, -, hkept, hemitted, -⟩ := h.packs.flush
  have hbook : bookOf n base s.flush = bookOf n base s := by rw [bookOf, bookOf, hemitted, hkept.tick]
  exact ⟨⟨hpacks, hbook ▸ h.book, hbook ▸ h.outOfRange⟩, hkept⟩

theorem Feeds.emit (h : Feeds n base s A) (htick : 0 < s.tick) (hp : InWindow n base s.tick px) (now : UInt64)
    (type : MsgType) (side : Side) (size : UInt32) :
    ∃ t, s.emit now type side px size = some t ∧ s.Kept t ∧
      Feeds n base t (A.step type (side.toByte == Side.kBuy.toByte) (tickKey base s.tick px) size.toNat) := by
  obtain ⟨t, ht, hpacks, hkept, hemitted, -⟩ := h.packs.emit now type side px size
  obtain ⟨hb, hbt⟩ := bookOf_base n base s
  let m := s.message now type side px size
  have hbook : bookOf n base t = (bookOf n base s).apply m := by
    rw [bookOf, hkept.tick, hemitted, applyAll, List.foldl_append]
    rfl
  have hstep := h.book.apply (m := m) (hbt ▸ htick) (by rw [hb, hbt]; exact hp)
  have hout := outOfRange_apply (b := bookOf n base s) (m := m) (hbt ▸ htick) (by rw [hb, hbt]; exact hp)
  refine ⟨t, ht, hkept, hpacks, ?_, ?_⟩
  · rw [hbook]
    rw [hb, hbt, LevelBook.apply, msgType_of_toByte (t := type) rfl] at hstep
    exact hstep
  · rw [hbook, hout, h.outOfRange]

/-- Delete then add moves the only level of a side; between them the state may change where no message tells of it. -/
theorem Feeds.requote (h : Feeds n base s A) (htick : 0 < s.tick) (hp : InWindow n base s.tick px) (now now' : UInt64)
    (side : Side) {size : UInt32}
    (hside : A.side (side.toByte == Side.kBuy.toByte) = single (tickKey base s.tick px) size.toNat) :
    ∃ t, s.emit now .kDelete side px size = some t ∧ s.Kept t ∧
      ∀ u : SimExchange ρ, (∀ B, Feeds n base t B → Feeds n base u B) → u.tick = t.tick →
        ∀ px' size', InWindow n base s.tick px' → size' ≠ 0 →
          ∃ v, u.emit now' .kAdd side px' size' = some v ∧ u.Kept v ∧ Feeds n base v
            (A.setSide (side.toByte == Side.kBuy.toByte) (single (tickKey base s.tick px') size'.toNat)) := by
  obtain ⟨t, ht, hkept, hfeeds⟩ := h.emit htick hp now .kDelete side size
  refine ⟨t, ht, hkept, fun u hu hut px' size' hp' hsize => ?_⟩
  have htick' : u.tick = s.tick := hut.trans hkept.tick
  obtain ⟨v, hv, hkeptv, hfeedsv⟩ := (hu _ hfeeds).emit (htick' ▸ htick) (htick' ▸ hp') now' .kAdd side size'
  refine ⟨v, hv, hkeptv, ?_⟩
  rw [LevelBook.step_requote hside (fun h0 => hsize (UInt32.toNat_inj.mp h0)) size'.toNat_lt, htick'] at hfeedsv
  exact hfeedsv

end Message

/-! ### The walk -/

section Walk
variable {ρ : Type} (draw : ρ → UInt64 × ρ) {n : NumTicks} {c : SimConfig} {base px w : Int} {s t : SimExchange ρ}

/-- A price at most `w` ticks from the first middle. -/
def OnGrid (c : SimConfig) (w px : Int) : Prop := ∃ k, -w ≤ k ∧ k ≤ w ∧ px = c.basePrice + k * c.tick

/-- A window that covers every price of the walk, on the walk's grid. -/
structure Covers (n : NumTicks) (base : Int) (c : SimConfig) : Prop where
  tick : 0 < c.tick
  lo : InWindow n base c.tick (c.basePrice - 1501 * c.tick)
  hi : InWindow n base c.tick (c.basePrice + 1501 * c.tick)
  congruent : base ≡ c.basePrice [ZMOD c.tick]

theorem Covers.inWindow (hc : Covers n base c) (h : OnGrid c 1501 px) : InWindow n base c.tick px := by
  obtain ⟨k, hlo, hhi, rfl⟩ := h
  have hl := Int.mul_le_mul_of_nonneg_right hlo (Int.le_of_lt hc.tick)
  have hh := Int.mul_le_mul_of_nonneg_right hhi (Int.le_of_lt hc.tick)
  have h1 := hc.lo.1
  have h2 := hc.hi.2
  exact ⟨by omega, by omega⟩

/-- A price on the grid is the price of its key. -/
theorem Covers.priceAt_key (hc : Covers n base c) (h : OnGrid c w px) :
    base + tickKey base c.tick px * c.tick = px := by
  obtain ⟨k, -, -, rfl⟩ := h
  have hdvd : c.tick ∣ c.basePrice + k * c.tick - base := by
    have := Int.dvd_add (Int.ModEq.dvd hc.congruent) (Int.dvd_mul_left k c.tick)
    rwa [← add_sub_right_comm] at this
  rw [tickKey, Int.ediv_mul_cancel hdvd]
  omega

theorem OnGrid.shift (h : OnGrid c w px) {d : Int} (hd : d = c.tick ∨ d = -c.tick) : OnGrid c (w + 1) (px + d) := by
  obtain ⟨k, hlo, hhi, rfl⟩ := h
  rcases hd with rfl | rfl
  · exact ⟨k + 1, by omega, by omega, by rw [Int.add_mul]; omega⟩
  · exact ⟨k - 1, by omega, by omega, by rw [Int.sub_mul]; omega⟩

/-- The levels that the two quotes make. -/
noncomputable def quoteLevels (base : Int) (s : SimExchange ρ) : LevelBook where
  bids := single (tickKey base s.tick s.bestBid) s.bidSz.toNat
  asks := single (tickKey base s.tick s.bestAsk) s.askSz.toNat

/-- The middle, the quotes and the band of the exchange, and the levels that its messages leave. -/
structure Quotes (c : SimConfig) (n : NumTicks) (base : Int) (s : SimExchange ρ) : Prop where
  tick : s.tick = c.tick
  feeds : Feeds n base s (quoteLevels base s)
  bid : OnGrid c 1501 s.bestBid
  ask : OnGrid c 1501 s.bestAsk
  mid : OnGrid c 1500 s.mid
  midLo : s.midLo = c.basePrice - 1500 * c.tick
  midHi : s.midHi = c.basePrice + 1500 * c.tick
  bidSz : s.bidSz ≠ 0
  askSz : s.askSz ≠ 0

theorem moveMid_onGrid (h : Quotes c n base s) (hc : Covers n base c) (delta : UInt32) :
    OnGrid c 1500 (s.moveMid delta) := by
  obtain ⟨k, hlo, hhi, hmid⟩ := h.mid
  have hmove : s.mid + ((delta.toNat : Int) - 1) * s.tick = c.basePrice + (k + (delta.toNat - 1)) * c.tick := by
    rw [hmid, h.tick, Int.add_mul, Int.add_assoc]
  unfold SimExchange.moveMid
  rw [hmove, h.midLo, h.midHi]
  dsimp only
  split_ifs with hbelow habove habove
  · exact ⟨1500, by decide, by decide, rfl⟩
  · exact ⟨-1500, by decide, by decide, by omega⟩
  · exact ⟨1500, by decide, by decide, rfl⟩
  · refine ⟨k + (delta.toNat - 1), ?_, ?_, rfl⟩
    · exact Int.le_of_mul_le_mul_right (by omega) hc.tick
    · exact Int.le_of_mul_le_mul_right (by omega) hc.tick

section Quote
variable {spread : Int}

/-- The new bid replaces the old one; the ask stays. -/
theorem Quotes.quoteBid (h : Quotes c n base s) (hc : Covers n base c) (hs : spread = c.tick ∨ spread = -c.tick)
    (now now' : UInt64) : ∃ t, s.quoteBid draw now now' spread = some t ∧ Quotes c n base t := by
  have hin : ∀ {px}, OnGrid c 1501 px → InWindow n base s.tick px := fun hpx => h.tick ▸ hc.inWindow hpx
  obtain ⟨t, ht, hkept, hnext⟩ := h.feeds.requote (h.tick ▸ hc.tick) (hin h.bid) now now' .kBuy rfl
  let size := drawSize draw t.rng
  let u : SimExchange ρ := { t with bestBid := t.mid - spread, bidSz := size.1, rng := size.2 }
  have hbid : OnGrid c 1501 u.bestBid := by
    show OnGrid c 1501 (t.mid - spread)
    rw [hkept.mid, Int.sub_eq_add_neg]
    exact h.mid.shift (by omega)
  have hsz : u.bidSz ≠ 0 := drawSize_ne_zero draw t.rng
  obtain ⟨v, hv, hkeptv, hfeeds⟩ := hnext u (fun B hB => ⟨{ hB.packs with }, hB.book, hB.outOfRange⟩) rfl u.bestBid
    u.bidSz (hin hbid) hsz
  have htick : v.tick = s.tick := hkeptv.tick.trans hkept.tick
  have hlevels : (quoteLevels base s).setSide true (single (tickKey base s.tick u.bestBid) u.bidSz.toNat) =
      quoteLevels base v := by
    rw [quoteLevels, quoteLevels, htick, hkeptv.bestBid, hkeptv.bidSz, hkeptv.bestAsk, hkeptv.askSz, ← hkept.bestAsk,
      ← hkept.askSz]
    rfl
  refine ⟨v, ?_, htick.trans h.tick, ?_, ?_, ?_, ?_, ?_, ?_, ?_, ?_⟩
  · unfold SimExchange.quoteBid
    simp only [ht]
    exact hv
  · exact hlevels ▸ hfeeds
  · exact hkeptv.bestBid ▸ hbid
  · rw [hkeptv.bestAsk]
    exact hkept.bestAsk ▸ h.ask
  · rw [hkeptv.mid]
    exact hkept.mid ▸ h.mid
  · exact hkeptv.midLo.trans (hkept.midLo.trans h.midLo)
  · exact hkeptv.midHi.trans (hkept.midHi.trans h.midHi)
  · exact hkeptv.bidSz ▸ hsz
  · rw [hkeptv.askSz]
    exact hkept.askSz ▸ h.askSz

/-- The new ask replaces the old one; the bid stays. -/
theorem Quotes.quoteAsk (h : Quotes c n base s) (hc : Covers n base c) (hs : spread = c.tick ∨ spread = -c.tick)
    (now now' : UInt64) : ∃ t, s.quoteAsk draw now now' spread = some t ∧ Quotes c n base t := by
  have hin : ∀ {px}, OnGrid c 1501 px → InWindow n base s.tick px := fun hpx => h.tick ▸ hc.inWindow hpx
  obtain ⟨t, ht, hkept, hnext⟩ := h.feeds.requote (h.tick ▸ hc.tick) (hin h.ask) now now' .kSell rfl
  let size := drawSize draw t.rng
  let u : SimExchange ρ := { t with bestAsk := t.mid + spread, askSz := size.1, rng := size.2 }
  have hask : OnGrid c 1501 u.bestAsk := by
    show OnGrid c 1501 (t.mid + spread)
    rw [hkept.mid]
    exact h.mid.shift hs
  have hsz : u.askSz ≠ 0 := drawSize_ne_zero draw t.rng
  obtain ⟨v, hv, hkeptv, hfeeds⟩ := hnext u (fun B hB => ⟨{ hB.packs with }, hB.book, hB.outOfRange⟩) rfl u.bestAsk
    u.askSz (hin hask) hsz
  have htick : v.tick = s.tick := hkeptv.tick.trans hkept.tick
  have hlevels : (quoteLevels base s).setSide false (single (tickKey base s.tick u.bestAsk) u.askSz.toNat) =
      quoteLevels base v := by
    rw [quoteLevels, quoteLevels, htick, hkeptv.bestAsk, hkeptv.askSz, hkeptv.bestBid, hkeptv.bidSz, ← hkept.bestBid,
      ← hkept.bidSz]
    rfl
  refine ⟨v, ?_, htick.trans h.tick, ?_, ?_, ?_, ?_, ?_, ?_, ?_, ?_⟩
  · unfold SimExchange.quoteAsk
    simp only [ht]
    exact hv
  · exact hlevels ▸ hfeeds
  · rw [hkeptv.bestBid]
    exact hkept.bestBid ▸ h.bid
  · exact hkeptv.bestAsk ▸ hask
  · rw [hkeptv.mid]
    exact hkept.mid ▸ h.mid
  · exact hkeptv.midLo.trans (hkept.midLo.trans h.midLo)
  · exact hkeptv.midHi.trans (hkept.midHi.trans h.midHi)
  · rw [hkeptv.bidSz]
    exact hkept.bidSz ▸ h.bidSz
  · exact hkeptv.askSz ▸ hsz

end Quote

theorem Quotes.step (h : Quotes c n base s) (hc : Covers n base c) (now now' : UInt64) :
    ∃ t, s.step draw now now' = some t ∧ Quotes c n base t := by
  unfold SimExchange.step
  dsimp only
  have hmoved : ∀ (delta : UInt32) (rng : ρ), Quotes c n base { s with mid := s.moveMid delta, rng } := fun delta _ =>
    { h with feeds := ⟨{ h.feeds.packs with }, h.feeds.book, h.feeds.outOfRange⟩, mid := moveMid_onGrid h hc delta }
  have hspread : ∀ x : UInt32, (if x = 0 then -s.tick else s.tick) = c.tick ∨
      (if x = 0 then -s.tick else s.tick) = -c.tick := fun x => by
    split <;> simp [h.tick]
  split
  · exact (hmoved _ _).quoteBid draw hc (hspread _) now now'
  · exact (hmoved _ _).quoteAsk draw hc (hspread _) now now'

/-- The first quotes. -/
theorem quotes_start (hc : Covers n base c) (rng : ρ) (now now' : UInt64) :
    ∃ t, (SimExchange.new c rng).start now now' = some t ∧ Quotes c n base t := by
  have hbid : OnGrid c 1501 (c.basePrice - c.tick) := ⟨-1, by decide, by decide, by omega⟩
  have hask : OnGrid c 1501 (c.basePrice + c.tick) := ⟨1, by decide, by decide, by omega⟩
  have hnew : Feeds n base (SimExchange.new c rng) LevelBook.empty := ⟨SimExchange.packs_new c rng, refines_new, rfl⟩
  obtain ⟨t, ht, hkept, hfeeds⟩ := hnew.emit hc.tick (hc.inWindow hbid) now .kAdd .kBuy 500
  have htt : t.tick = c.tick := hkept.tick
  have htask : t.bestAsk = c.basePrice + c.tick := hkept.bestAsk
  have hin : InWindow n base t.tick t.bestAsk := by rw [htt, htask]; exact hc.inWindow hask
  obtain ⟨u, hu, hkeptu, hfeedsu⟩ := hfeeds.emit (htt ▸ hc.tick) hin now' .kAdd .kSell t.askSz
  obtain ⟨hflushed, hkeptf⟩ := hfeedsu.flush
  have hall := (hkept.trans hkeptu).trans hkeptf
  have hlevels : (LevelBook.empty.step .kAdd true (tickKey base c.tick (c.basePrice - c.tick)) 500).step .kAdd false
      (tickKey base t.tick t.bestAsk) t.askSz.toNat = quoteLevels base u.flush := by
    have haskSz : t.askSz = 500 := hkept.askSz
    rw [haskSz, LevelBook.step_add_empty rfl (by decide) (by decide),
      LevelBook.step_add_empty rfl (by decide) (by decide), quoteLevels, hall.tick, hall.bestBid, hall.bidSz,
      hall.bestAsk, hall.askSz, hkept.tick, hkept.bestAsk]
    rfl
  refine ⟨u.flush, ?_, hall.tick, hlevels ▸ hflushed, ?_, ?_, ?_, hall.midLo, hall.midHi, ?_, ?_⟩
  · unfold SimExchange.start
    have ht' : (SimExchange.new c rng).emit now .kAdd .kBuy (SimExchange.new c rng).bestBid
        (SimExchange.new c rng).bidSz = some t := ht
    simp only [ht']
    show (t.emit now' .kAdd .kSell t.bestAsk t.askSz).bind (fun s => some s.flush) = _
    rw [hu]
    rfl
  · exact hall.bestBid ▸ hbid
  · exact hall.bestAsk ▸ hask
  · exact hall.mid ▸ ⟨0, by decide, by decide, by simp [SimExchange.new]⟩
  · rw [hall.bidSz]
    exact (by decide : (500 : UInt32) ≠ 0)
  · rw [hall.askSz]
    exact (by decide : (500 : UInt32) ≠ 0)

theorem Quotes.steps (h : Quotes c n base s) (hc : Covers n base c) (clocks : List (UInt64 × UInt64)) :
    ∃ t, clocks.foldlM (fun s now => SimExchange.step draw s now.1 now.2) s = some t ∧ Quotes c n base t := by
  induction clocks generalizing s with
  | nil => exact ⟨s, rfl, h⟩
  | cons now clocks ih =>
    obtain ⟨t, ht, hq⟩ := h.step draw hc now.1 now.2
    obtain ⟨u, hu, hqu⟩ := ih hq
    exact ⟨u, by rw [List.foldlM_cons, ht]; exact hu, hqu⟩

end Walk

/-! ### What the consumer sees -/

/-- The book has one level a side: the quotes of the exchange. -/
structure Coherent {ρ : Type} {n : NumTicks} (s : SimExchange ρ) (b : BookView n) : Prop where
  bidLevel : ∃ i : Fin n.val, b.priceAt i = s.bestBid ∧ ∀ j : Fin n.val, b.bid.get j = if j = i then s.bidSz else 0
  askLevel : ∃ i : Fin n.val, b.priceAt i = s.bestAsk ∧ ∀ j : Fin n.val, b.ask.get j = if j = i then s.askSz else 0
  sizes : s.bidSz ≠ 0 ∧ s.askSz ≠ 0
  bestBid : b.hasBid = true ∧ b.bestBidPrice = s.bestBid ∧ b.bestBidSize = s.bidSz
  bestAsk : b.hasAsk = true ∧ b.bestAskPrice = s.bestAsk ∧ b.bestAskSize = s.askSz
  outOfRange : b.outOfRange = 0
  mid : s.midLo ≤ s.mid ∧ s.mid ≤ s.midHi

section Consumer
variable {ρ : Type} {n : NumTicks} {c : SimConfig} {base : Int} {s : SimExchange ρ}

/-- An array that holds a map with one level. -/
theorem levels_single {v : Vector UInt32 n.val} {k : Int} {q : UInt32} (h : Levels v (single k q.toNat))
    (hk : 0 ≤ k ∧ k < n.val) : ∃ i : Fin n.val, (i : Int) = k ∧ ∀ j : Fin n.val, v.get j = if j = i then q else 0 := by
  refine ⟨⟨k.toNat, by omega⟩, Int.toNat_of_nonneg hk.1, fun j => UInt32.toNat_inj.mp ?_⟩
  rw [h.size j]
  split
  · next hj =>
    subst hj
    rw [Int.toNat_of_nonneg hk.1, single_eq_same]
  · next hj =>
    refine single_eq_of_ne fun heq => hj (Fin.ext ?_)
    show (j : Nat) = k.toNat
    omega

theorem mem_support_single {k i : Int} {q : Nat} (h : i ∈ ((single k q).support : Set Int)) : i = k := by
  by_contra hne
  exact (mem_support_iff.mp (Finset.mem_coe.mp h)) (single_eq_of_ne hne)

theorem Quotes.coherent (h : Quotes c n base s) (hc : Covers n base c) : Coherent s (bookOf n base s) := by
  obtain ⟨hb, hbt⟩ := bookOf_base n base s
  have hbook := h.feeds.book
  have hbidIn := tickKey_window hc.tick (hc.inWindow h.bid)
  have haskIn := tickKey_window hc.tick (hc.inWindow h.ask)
  have hprice : ∀ k, (bookOf n base s).priceAt k = base + k * c.tick := fun k => by rw [priceAt, hb, hbt, h.tick]
  rw [← h.tick] at hbidIn haskIn
  have hbidSz : s.bidSz.toNat ≠ 0 := fun h0 => h.bidSz (UInt32.toNat_inj.mp h0)
  have haskSz : s.askSz.toNat ≠ 0 := fun h0 => h.askSz (UInt32.toNat_inj.mp h0)
  obtain ⟨i, hi, hbidLevel⟩ := levels_single (hbook.levels true) hbidIn
  obtain ⟨j, hj, haskLevel⟩ := levels_single (hbook.levels false) haskIn
  have hhasBid : (bookOf n base s).hasBid = true := hbook.hasBid.mpr (single_ne_zero.mpr hbidSz)
  have hhasAsk : (bookOf n base s).hasAsk = true := hbook.hasAsk.mpr (single_ne_zero.mpr haskSz)
  obtain ⟨hgreatest, hbidBest⟩ := hbook.bestBid_level hhasBid
  obtain ⟨hleast, haskBest⟩ := hbook.bestAsk_level hhasAsk
  have hbidIdx := mem_support_single hgreatest.1
  have haskIdx := mem_support_single hleast.1
  rw [hbidIdx] at hbidBest
  rw [haskIdx] at haskBest
  have hbidPrice : base + tickKey base s.tick s.bestBid * c.tick = s.bestBid := h.tick ▸ hc.priceAt_key h.bid
  have haskPrice : base + tickKey base s.tick s.bestAsk * c.tick = s.bestAsk := h.tick ▸ hc.priceAt_key h.ask
  refine ⟨⟨i, by rw [hprice, hi, hbidPrice], hbidLevel⟩, ⟨j, by rw [hprice, hj, haskPrice], haskLevel⟩,
    ⟨h.bidSz, h.askSz⟩, ⟨hhasBid, ?_, ?_⟩, ⟨hhasAsk, ?_, ?_⟩, h.feeds.outOfRange, ?_⟩
  · rw [bestBidPrice, hprice, hbidIdx, hbidPrice]
  · exact UInt32.toNat_inj.mp (hbidBest.trans single_eq_same)
  · rw [bestAskPrice, hprice, haskIdx, haskPrice]
  · exact UInt32.toNat_inj.mp (haskBest.trans single_eq_same)
  · obtain ⟨k, hlo, hhi, hmid⟩ := h.mid
    have hl := Int.mul_le_mul_of_nonneg_right hlo (Int.le_of_lt hc.tick)
    have hh := Int.mul_le_mul_of_nonneg_right hhi (Int.le_of_lt hc.tick)
    rw [h.midLo, h.midHi, hmid]
    omega

end Consumer

/-- Whatever numbers are drawn, after every step the consumer's book holds the two quotes of the exchange. -/
theorem SimExchange.keeps_book_coherent {ρ : Type} (draw : ρ → UInt64 × ρ) (rng : ρ) (c : SimConfig) (n : NumTicks)
    (base : Int) (hc : Covers n base c) (first : UInt64 × UInt64) (clocks : List (UInt64 × UInt64)) :
    ∃ s t, (SimExchange.new c rng).start first.1 first.2 = some s ∧
      clocks.foldlM (fun s now => SimExchange.step draw s now.1 now.2) s = some t ∧
      Coherent t ((BookView.new n base c.tick).applyAll t.emitted) := by
  obtain ⟨s, hs, hq⟩ := quotes_start hc rng first.1 first.2
  obtain ⟨t, ht, hqt⟩ := hq.steps draw hc clocks
  refine ⟨s, t, hs, ht, ?_⟩
  have := hqt.coherent hc
  rwa [bookOf, hqt.tick] at this

/-- A band of 3003 ticks around a middle of 20000, with the generator of the source. -/
theorem SimExchange.keeps_book_coherent_seed :
    let c : SimConfig := ⟨7, 4, 20000, 10⟩
    let n : NumTicks := ⟨4096, by decide, by decide⟩
    ∃ s t, (SimExchange.new c (Rng.new 42)).start 1 2 = some s ∧
      [((3 : UInt64), (4 : UInt64)), (5, 6)].foldlM (fun s now => SimExchange.step Rng.next s now.1 now.2) s = some t ∧
      Coherent t ((BookView.new n 0 c.tick).applyAll t.emitted) :=
  SimExchange.keeps_book_coherent Rng.next (Rng.new 42) _ _ 0 ⟨by decide, by decide, by decide, by decide⟩ (1, 2) _

end Hft
