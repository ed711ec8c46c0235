import HftEngine.Theorems.Book
import HftEngine.Theorems.Conservation
import HftEngine.Theorems.OrderProtocol

/-! The replay loop tells the order-by-order truth: the table of the decoder is the account that the messages give of
    the live orders, each level of the book is the total of those in its tick, and the best levels are the extreme ticks
    of live orders. -/

namespace Hft

open Itch50

/-- The orders of one side whose price falls in tick `k`. -/
def tickLevel (base tick : Int) (side : Side) (k : Int) (s : Side) (price : Int) : Bool :=
  s == side && tickKey base tick price == k

/-! ### Deltas on the level book -/

namespace LevelBook

variable {base tick : Int} {A : LevelBook} {L : Side → Int → Nat} {delta : LevelDelta} {type : MsgType}
  {side : Side} {price : Int} {size : UInt32}

/-- The level book holds, for both sides, the sizes of `L`. -/
def Holds (A : LevelBook) (L : Side → Int → Nat) : Prop := ∀ s ≠ .kNone, ∀ k, A.side (s == .kBuy) k = L s k

theorem side_beq_inj {s s' : Side} (h : s ≠ .kNone) (h' : s' ≠ .kNone) :
    (s == Side.kBuy) = (s' == Side.kBuy) ↔ s = s' := by
  cases s <;> cases s' <;> simp_all

/-- The message of a delta is one step at the tick of its price. -/
theorem apply_toMessage (h : delta.Moves type side price size) :
    A.apply base tick delta.toMessage = A.step type (side == .kBuy) (tickKey base tick price) size.toNat := by
  have htype : msgType delta.toMessage = delta.type := msgType_of_toByte rfl
  have hside : (delta.toMessage.side == Side.kBuy.toByte) = (side == .kBuy) := by
    rw [← h.side]
    show (delta.side.toByte == Side.kBuy.toByte) = _
    cases delta.side <;> rfl
  unfold LevelBook.apply
  rw [htype, hside, h.type]
  show A.step type _ (tickKey base tick delta.price) delta.size.toNat = _
  rw [h.price, h.size]

theorem Holds.step {q v : Nat} {k : Int} (h : A.Holds L) (hside : side ≠ .kNone)
    (hv : (update type (A.side (side == .kBuy)) k q) = (A.side (side == .kBuy)).update k v) :
    (A.step type (side == .kBuy) k q).Holds fun s j => if s = side ∧ j = k then v else L s j := by
  intro s hs j
  unfold LevelBook.step
  by_cases hss : s = side
  · subst hss
    rw [side_setSide_self, hv]
    by_cases hj : j = k
    · subst hj
      simp
    · simp [hj, h s hs j]
  · rw [side_setSide_ne fun heq => hss ((side_beq_inj hs hside).mp heq), h s hs j]
    simp [hss]

theorem portion_tickLevel {s : Side} {k : Int} :
    portion (tickLevel base tick s k) side price size =
      if s = side ∧ k = tickKey base tick price then size.toNat else 0 := by
  unfold portion tickLevel
  simp only [Bool.and_eq_true, beq_iff_eq]
  congr 1
  exact propext (and_congr eq_comm eq_comm)

variable (base tick)

theorem Holds.add (h : A.Holds L) (hside : side ≠ .kNone) (hd : delta.Moves .kAdd side price size)
    (hfits : L side (tickKey base tick price) + size.toNat ≤ 2 ^ 32 - 1) :
    (A.apply base tick delta.toMessage).Holds fun s k =>
      portion (tickLevel base tick s k) side price size + L s k := by
  rw [apply_toMessage hd]
  have hupdate : update .kAdd (A.side (side == .kBuy)) (tickKey base tick price) size.toNat =
      (A.side (side == .kBuy)).update (tickKey base tick price)
        (size.toNat + L side (tickKey base tick price)) := by
    have hlevel := h side hside (tickKey base tick price)
    show LevelMap.deposit _ _ _ _ = _
    unfold LevelMap.deposit
    split
    · next hzero => rw [hzero, Nat.zero_add, ← hlevel, Finsupp.update_self]
    · rw [hlevel, Nat.min_eq_left hfits, Nat.add_comm]
  intro s hs k
  rw [h.step hside hupdate s hs k]
  dsimp only
  rw [portion_tickLevel]
  split
  · next hk => rw [hk.1, hk.2]
  · rw [Nat.zero_add]

theorem Holds.remove (h : A.Holds L) (hside : side ≠ .kNone) (htype : type = .kExecute ∨ type = .kCancel)
    (hd : delta.Moves type side price size) :
    (A.apply base tick delta.toMessage).Holds fun s k =>
      L s k - portion (tickLevel base tick s k) side price size := by
  rw [apply_toMessage hd]
  have hupdate : update type (A.side (side == .kBuy)) (tickKey base tick price) size.toNat =
      (A.side (side == .kBuy)).update (tickKey base tick price)
        (L side (tickKey base tick price) - size.toNat) := by
    rw [← h side hside]
    rcases htype with rfl | rfl <;> rfl
  intro s hs k
  rw [h.step hside hupdate s hs k]
  dsimp only
  rw [portion_tickLevel]
  split
  · next hk => rw [hk.1, hk.2]
  · rw [Nat.sub_zero]

theorem Holds.congr {L' : Side → Int → Nat} (h : A.Holds L) (hL : ∀ s k, L s k = L' s k) : A.Holds L' :=
  fun s hs k => (h s hs k).trans (hL s k)

theorem holds_empty : empty.Holds fun _ _ => 0 := fun s _ k => by simp

end LevelBook

/-! ### The simulation -/

/-- A live order has a side, and its price lies in the window. -/
def Placed (n : NumTicks) (base tick : Int) (orders : OrderTable) : Prop :=
  ∀ ref o, orders.lookup ref = some o → o.side ≠ .kNone ∧ BookView.InWindow n base tick o.price

/-- The shares of the live orders that a level covers. -/
noncomputable def Itch50.LiveOrders.sharesIn (live : LiveOrders) (level : Side → Int → Bool) : Nat :=
  ∑ᶠ ref, (live ref).elim 0 fun o => portion level o.side o.price o.shares

/-- The live shares of every side and tick fit in a level. -/
def Fits (base tick : Int) (live : LiveOrders) : Prop :=
  ∀ side k, live.sharesIn (tickLevel base tick side k) ≤ 2 ^ 32 - 1

theorem Itch50.Decoder.liveIn_orders (d : Decoder) (level : Side → Int → Bool) :
    liveIn d.orders level = d.live.sharesIn level := Tally.total_eq_finsum ..

section Events
variable {n : NumTicks} {base tick : Int} {orders orders' : OrderTable} {e : OrderEvent} {deltas : List LevelDelta}
  {ref : UInt64} {o : Order} {A : LevelBook}

theorem Placed.insert (h : Placed n base tick orders) (hside : o.side ≠ .kNone)
    (hp : BookView.InWindow n base tick o.price) : Placed n base tick (orders.insert ref o) := by
  intro ref' o' ho'
  by_cases hr : ref' = ref
  · subst hr
    rw [AList.lookup_insert] at ho'
    exact Option.some.inj ho' ▸ ⟨hside, hp⟩
  · rw [AList.lookup_insert_ne hr] at ho'
    exact h ref' o' ho'

theorem Placed.erase (h : Placed n base tick orders) : Placed n base tick (orders.erase ref) := by
  intro ref' o' ho'
  by_cases hr : ref' = ref
  · subst hr
    simp at ho'
  · rw [AList.lookup_erase_ne hr] at ho'
    exact h ref' o' ho'

theorem Placed.keep {left : UInt32} (h : Placed n base tick orders) (ho : orders.lookup ref = some o) :
    Placed n base tick (orders.keep ref o left) := by
  unfold OrderTable.keep
  split
  · exact h.erase
  · exact h.insert (h ref o ho).1 (h ref o ho).2

theorem Itch50.Effect.placed (h : Effect orders e orders' deltas) (hpl : Placed n base tick orders)
    (hnew : ∀ price ∈ e.newPrice?, BookView.InWindow n base tick price) : Placed n base tick orders' := by
  cases h with
  | quiet => exact hpl
  | add hside => exact hpl.insert hside (hnew _ rfl)
  | cut _ ho => exact hpl.keep ho
  | replace ho => exact hpl.erase.insert (hpl _ _ ho).1 (hnew _ rfl)
  | unknown => exact hpl.insert (by simp) (hnew _ rfl)

theorem Itch50.Effect.deltas_inWindow (h : Effect orders e orders' deltas) (hpl : Placed n base tick orders)
    (hnew : ∀ price ∈ e.newPrice?, BookView.InWindow n base tick price) :
    ∀ m ∈ deltas.map LevelDelta.toMessage, BookView.InWindow n base tick m.price := by
  intro m hm
  obtain ⟨delta, hdelta, rfl⟩ := List.mem_map.mp hm
  show BookView.InWindow n base tick delta.price
  cases h with
  | quiet | unknown => cases hdelta
  | add _ hd =>
    obtain rfl := List.mem_singleton.mp hdelta
    exact hd.price ▸ hnew _ rfl
  | cut _ ho _ _ hd =>
    obtain rfl := List.mem_singleton.mp hdelta
    exact hd.price ▸ (hpl _ _ ho).2
  | replace ho hr hi =>
    rcases List.mem_cons.mp hdelta with rfl | hdelta
    · exact hr.price ▸ (hpl _ _ ho).2
    · obtain rfl := List.mem_singleton.mp hdelta
      exact hi.price ▸ hnew _ rfl

/-- The level book follows the live totals through one event: the removal comes first, so no level saturates on
    the way to totals that fit. -/
theorem Itch50.Effect.holds (h : Effect orders e orders' deltas)
    (hA : A.Holds fun s k => liveIn orders (tickLevel base tick s k))
    (hpl : Placed n base tick orders) (fresh : ∀ ref ∈ e.newRef?, ref ∉ orders) (known : e.NamesLive orders)
    (hfits : ∀ side k, liveIn orders' (tickLevel base tick side k) ≤ 2 ^ 32 - 1) :
    ((deltas.map LevelDelta.toMessage).foldl (LevelBook.apply base tick) A).Holds fun s k =>
      liveIn orders' (tickLevel base tick s k) := by
  cases h with
  | quiet => exact hA
  | @add ref o delta hside hd =>
    have hins := fun level => liveIn_insert level (o := o) (fresh ref rfl)
    refine (hA.add base tick hside hd ?_).congr fun s k => (hins _).symm
    have := hfits o.side (tickKey base tick o.price)
    rw [hins, LevelBook.portion_tickLevel, if_pos ⟨rfl, rfl⟩] at this
    omega
  | cut _ ho htaken htype hd =>
    refine (hA.remove base tick (hpl _ _ ho).1 htype hd).congr fun s k => ?_
    have := liveIn_keep (tickLevel base tick s k) ho htaken
    omega
  | @replace orig ref shares price old removal insertion ho hr hi =>
    have hnew : ref ∉ orders.erase orig := fun hmem => fresh _ rfl (AList.mem_erase.mp hmem).2
    have hins := fun level => liveIn_insert level (o := ⟨price, shares, old.side⟩) hnew
    have herase := (hA.remove base tick (hpl _ _ ho).1 (Or.inr rfl) hr).congr fun s k => by
      have := liveIn_of_lookup (tickLevel base tick s k) ho
      show _ = liveIn (orders.erase orig) (tickLevel base tick s k)
      omega
    refine (herase.add base tick (hpl _ _ ho).1 hi ?_).congr fun s k => (hins _).symm
    have := hfits old.side (tickKey base tick price)
    rw [hins, LevelBook.portion_tickLevel, if_pos ⟨rfl, rfl⟩] at this
    dsimp only at this
    omega
  | unknown ho => exact absurd known (AList.lookup_eq_none.mp ho)

end Events

/-! ### Well-formed streams -/

/-- A message that may come next where `live` are the live orders: a fresh reference, a live original for a Replace, a
    price in the window, and live shares that fit. -/
structure Admissible (n : NumTicks) (base tick : Int) (live : LiveOrders) (m : Message) : Prop where
  fresh : ∀ ref ∈ m.newRef?, live ref = none
  known : ∀ orig ∈ m.original?, live orig ≠ none
  window : ∀ price ∈ m.newPrice?, BookView.InWindow n base tick price
  fits : Fits base tick (live.step m).live

section Streams
variable {n : NumTicks} {base tick : Int} {ms : List Message} {m : Message} {live : LiveOrders} {orders : OrderTable}

theorem Itch50.Message.newRef?_event (m : Message) : m.event.newRef? = m.newRef? := by
  cases m <;> rfl

theorem Itch50.Message.newPrice?_event (m : Message) : m.event.newPrice? = m.newPrice? := by
  cases m <;> rfl

theorem Itch50.Message.namesLive_event (h : ∀ orig ∈ m.original?, orig ∈ orders) : m.event.NamesLive orders := by
  cases m
  case orderReplace => exact h _ rfl
  all_goals exact trivial

end Streams

namespace Replay

variable {n : NumTicks} {base tick : Int} {r : Replay n} {live : LiveOrders} {p : Packet} {ps : List Packet}

/-- The loop state holds the order-by-order truth. -/
structure Tracks (base tick : Int) (live : LiveOrders) (r : Replay n) : Prop where
  live : r.decoder.live = live
  drained : r.decoder.pending = {}
  placed : Placed n base tick r.decoder.orders
  base_eq : r.book.base = base
  tick_eq : r.book.tick = tick
  levels : ∃ A : LevelBook, r.book.Refines A ∧ A.Holds fun s k => liveIn r.decoder.orders (tickLevel base tick s k)

theorem tracks_new : Tracks base tick (LiveOrders.after []) (new n base tick) where
  live := rfl
  drained := rfl
  placed _ _ h := by simp [new] at h
  base_eq := rfl
  tick_eq := rfl
  levels := ⟨LevelBook.empty, BookView.refines_new, LevelBook.holds_empty⟩

/-- What the loop of one packet leaves of the live orders is what its message says. -/
theorem feed_live {d d' : Decoder} {deltas : List LevelDelta} (hfeed : d.feed p.encode = some (d', deltas)) :
    d'.live = (d.live.step p.message).live := by
  obtain ⟨d₁, out, happly, hfollows⟩ := (decode_refines d).1 p
  rw [Decoder.feed, happly] at hfeed
  have hdrain : d₁.drain out = (d', deltas) := Option.some.inj hfeed
  have horders := (drain_kept d₁ out).1
  rw [hdrain] at horders
  exact (congrArg (fun orders ref => AList.lookup ref orders) horders).trans hfollows.live

theorem Tracks.step (htick : 0 < tick) (h : r.Tracks base tick live) (ha : Admissible n base tick live p.message) :
    ∃ t, r.step p.encode = some t ∧ t.Tracks base tick (live.step p.message).live := by
  obtain ⟨rfl, hdrained, hplaced, hbase, htick_eq, A, hA, hholds⟩ := h
  have hlen : 11 ≤ p.encode.length := by
    rw [p.length_encode]
    cases p.message.type <;> decide
  obtain ⟨e, d', deltas, he, hfeed, heffect, hp⟩ := feed_effect hlen hdrained
  obtain rfl := Option.some.inj (he.symm.trans (ofBody?_encode p))
  have hlive := feed_live hfeed
  have hfresh : ∀ ref ∈ p.message.event.newRef?, ref ∉ r.decoder.orders := fun ref href =>
    AList.lookup_eq_none.mp (ha.fresh ref (p.message.newRef?_event ▸ href))
  have hknown : p.message.event.NamesLive r.decoder.orders := Message.namesLive_event fun orig horig =>
    AList.lookup_isSome.mp (Option.isSome_iff_ne_none.mpr (ha.known orig horig))
  have hnew : ∀ price ∈ p.message.event.newPrice?, BookView.InWindow n base tick price := fun price hprice =>
    ha.window price (p.message.newPrice?_event ▸ hprice)
  have hfits : ∀ side k, liveIn d'.orders (tickLevel base tick side k) ≤ 2 ^ 32 - 1 := fun side k => by
    rw [d'.liveIn_orders, hlive]
    exact ha.fits side k
  obtain ⟨hbase', htick'⟩ := r.book.applyAll_base (deltas.map (·.toMessage))
  have hrefines := hA.applyAll (htick_eq ▸ htick)
    (by rw [hbase, htick_eq]; exact heffect.deltas_inWindow hplaced hnew)
  rw [hbase, htick_eq] at hrefines
  refine ⟨{ decoder := d', book := r.book.applyAll (deltas.map (·.toMessage)) }, by simp [Replay.step, hfeed], ?_⟩
  exact ⟨hlive, hp, heffect.placed hplaced hnew, hbase'.trans hbase, htick'.trans htick_eq, _, hrefines,
    heffect.holds hholds hplaced hfresh hknown hfits⟩

end Replay

end Hft
