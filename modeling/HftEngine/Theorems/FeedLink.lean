import HftEngine.Theorems.ClosedLoop
import HftEngine.Theorems.QuoteFeed

/-! A feed that keeps its datagrams in order: as long as the feed handler drops nothing, the strategy sees the messages
    of the exchange in turn, and its book is the one that they make. Orders and reports may be lost, doubled and
    reordered. -/

namespace Hft

open Transition
open Threads (Label)

/-! ### What the exchange has said -/

namespace SimExchange

variable {ρ : Type} {draw : ρ → UInt64 × ρ} {s t : SimExchange ρ} {now now' : UInt64} {type : MsgType} {side : Side}
  {px spread : Int} {size : UInt32} {P : Int → Prop}

theorem Packs.emitted (hp : Packs s) (h : s.emit now type side px size = some t) :
    Packs t ∧ s.Kept t ∧ t.emitted = s.emitted ++ [s.message now type side px size] := by
  obtain ⟨u, hu, hpacks, hkept, hemitted, -⟩ := hp.emit now type side px size
  obtain rfl := Option.some.inj (hu.symm.trans h)
  exact ⟨hpacks, hkept, hemitted⟩

theorem prices_snoc {ms : List ItchMessage} {m : ItchMessage} (hms : ∀ m ∈ ms, P m.price) (hm : P m.price) :
    ∀ m' ∈ ms ++ [m], P m'.price := by
  intro m' hm'
  rcases List.mem_append.mp hm' with hm' | hm'
  · exact hms m' hm'
  · exact List.mem_singleton.mp hm' ▸ hm

/-- A requote tells of the old price and the new one. -/
theorem Packs.prices_quoteBid (hp : Packs s) (h : s.quoteBid draw now now' spread = some t)
    (hall : ∀ m ∈ s.emitted, P m.price) (hold : P s.bestBid) (hnew : P t.bestBid) : ∀ m ∈ t.emitted, P m.price := by
  obtain ⟨u, hu, h⟩ := Option.bind_eq_some_iff.mp h
  obtain ⟨hpacks, -, hfirst⟩ := hp.emitted hu
  obtain ⟨-, hkept, hsecond⟩ :=
    Packs.emitted (s := { u with bestBid := u.mid - spread, bidSz := _, rng := _ }) { hpacks with } h
  rw [hsecond]
  refine prices_snoc (hfirst ▸ prices_snoc hall hold) ?_
  exact hkept.bestBid ▸ hnew

theorem Packs.prices_quoteAsk (hp : Packs s) (h : s.quoteAsk draw now now' spread = some t)
    (hall : ∀ m ∈ s.emitted, P m.price) (hold : P s.bestAsk) (hnew : P t.bestAsk) : ∀ m ∈ t.emitted, P m.price := by
  obtain ⟨u, hu, h⟩ := Option.bind_eq_some_iff.mp h
  obtain ⟨hpacks, -, hfirst⟩ := hp.emitted hu
  obtain ⟨-, hkept, hsecond⟩ :=
    Packs.emitted (s := { u with bestAsk := u.mid + spread, askSz := _, rng := _ }) { hpacks with } h
  rw [hsecond]
  refine prices_snoc (hfirst ▸ prices_snoc hall hold) ?_
  exact hkept.bestAsk ▸ hnew

theorem Packs.prices_step (hp : Packs s) (h : s.step draw now now' = some t) (hall : ∀ m ∈ s.emitted, P m.price)
    (hold : P s.bestBid ∧ P s.bestAsk) (hnew : P t.bestBid ∧ P t.bestAsk) : ∀ m ∈ t.emitted, P m.price := by
  have hmoved : ∀ (mid : Int) (rng : ρ), Packs { s with mid, rng } := fun _ _ => { hp with }
  unfold step at h
  dsimp only at h
  split at h
  · exact (hmoved _ _).prices_quoteBid h hall hold.1 hnew.1
  · exact (hmoved _ _).prices_quoteAsk h hall hold.2 hnew.2

theorem Packs.prices_start (hp : Packs s) (h : s.start now now' = some t) (hall : ∀ m ∈ s.emitted, P m.price)
    (hold : P s.bestBid ∧ P s.bestAsk) : ∀ m ∈ t.emitted, P m.price := by
  obtain ⟨u, hu, h⟩ := Option.bind_eq_some_iff.mp h
  obtain ⟨u', hu', h⟩ := Option.bind_eq_some_iff.mp h
  obtain rfl := Option.some.inj h
  obtain ⟨hpacks, hkept, hfirst⟩ := hp.emitted hu
  obtain ⟨hpacks', -, hsecond⟩ := hpacks.emitted hu'
  obtain ⟨-, -, -, hsame, -⟩ := hpacks'.flush
  rw [hsame, hsecond]
  refine prices_snoc (hfirst ▸ prices_snoc hall hold.1) ?_
  exact hkept.bestAsk ▸ hold.2

/-- The messages in a datagram. -/
def decode (d : List UInt8) : List ItchMessage := (Frames.frames kMsgSize d).filterMap parseMessage

/-- The datagrams that went out tell the messages in order, up to those in the buffer. -/
theorem Packs.decode_sent (hp : Packs s) (hprices : ∀ m ∈ s.emitted, Int64Price m) :
    s.sent.flatMap decode <+: s.emitted := by
  have hwhole : ∀ d ∈ s.sent, ∃ n, d.length = n * kMsgSize := fun d hd => by
    obtain ⟨k, -, -, hk⟩ := hp.sizes d hd
    exact ⟨k, hk⟩
  obtain ⟨n, hlen⟩ := Frames.length_flatten_whole hwhole
  have hcut : s.sent.flatMap (Frames.frames kMsgSize) ++
      Frames.frames kMsgSize (s.dgram.front (s.dgramMsgs * kMsgSize)) = s.emitted.map encodeMessage := by
    rw [Frames.flatMap_frames (by decide) hwhole, ← Frames.frames_append_whole (by decide) hlen, hp.bytes,
      List.flatMap_def]
    refine Frames.frames_flatten (by decide) fun f hf => ?_
    obtain ⟨m, -, rfl⟩ := List.mem_map.mp hf
    exact length_encodeMessage m
  have hback : (s.emitted.map encodeMessage).filterMap parseMessage = s.emitted := by
    rw [List.filterMap_map]
    exact (List.filterMap_congr fun m hm => parse_encode (hprices m hm)).trans List.filterMap_some
  have hsplit := congrArg (List.filterMap parseMessage) hcut
  rw [hback, List.filterMap_append, List.filterMap_flatMap] at hsplit
  exact ⟨_, hsplit⟩

end SimExchange

theorem Quotes.flush {ρ : Type} {n : NumTicks} {c : SimConfig} {base : Int} {s : SimExchange ρ}
    (h : Quotes c n base s) : Quotes c n base s.flush := by
  obtain ⟨hfeeds, hkept⟩ := h.feeds.flush
  have hlevels : quoteLevels base s.flush = quoteLevels base s := by
    rw [quoteLevels, quoteLevels, hkept.tick, hkept.bestBid, hkept.bestAsk, hkept.bidSz, hkept.askSz]
  exact ⟨hkept.tick.trans h.tick, hlevels ▸ hfeeds, hkept.bestBid ▸ h.bid, hkept.bestAsk ▸ h.ask, hkept.mid ▸ h.mid,
    hkept.midLo.trans h.midLo, hkept.midHi.trans h.midHi, hkept.bidSz ▸ h.bidSz, hkept.askSz ▸ h.askSz⟩

namespace Exchange

variable {ρ : Type} {draw : ρ → UInt64 × ρ} {x y : Exchange ρ} {now now' : UInt64} {c : SimConfig} {rng : ρ}
  {n : NumTicks} {base : Int}

/-- The exchange has not said anything yet, or it is somewhere on its walk. -/
structure Quoting (c : SimConfig) (rng : ρ) (n : NumTicks) (base : Int) (x : Exchange ρ) : Prop where
  opening : x.pc = .opening → x.quotes = SimExchange.new c rng
  quotes : x.pc ≠ .opening → Quotes c n base x.quotes
  prices : ∀ m ∈ x.quotes.emitted, OnGrid c 1501 m.price

theorem quoting_new (c : SimConfig) (rng : ρ) (n : NumTicks) (base : Int) : Quoting c rng n base (new c rng) where
  opening _ := rfl
  quotes h := absurd rfl h
  prices _ h := by cases h

theorem Quoting.packs (h : Quoting c rng n base x) : x.quotes.Packs := by
  by_cases hpc : x.pc = .opening
  · exact h.opening hpc ▸ SimExchange.packs_new c rng
  · exact (h.quotes hpc).feeds.packs

/-- The walk goes on behind the same quotes. -/
theorem Quoting.congr (h : Quoting c rng n base x) (hx : x.pc ≠ .opening) (hy : y.pc ≠ .opening)
    (hq : y.quotes = x.quotes) : Quoting c rng n base y where
  opening hpc := absurd hpc hy
  quotes _ := hq ▸ h.quotes hx
  prices := hq ▸ h.prices

theorem Quoting.next (h : Quoting c rng n base x) (hc : Covers n base c) (hs : x.next? draw now now' = some y) :
    Quoting c rng n base y := by
  unfold next? at hs
  split at hs
  · next hpc =>
    obtain ⟨quotes, hq, rfl⟩ := Option.map_eq_some_iff.mp hs
    rw [h.opening hpc] at hq
    obtain ⟨t, ht, hquotes⟩ := quotes_start hc rng now now'
    obtain rfl := Option.some.inj (ht.symm.trans hq)
    refine ⟨fun hpc => (by cases hpc), fun _ => hquotes, ?_⟩
    exact (SimExchange.packs_new c rng).prices_start hq (fun m hm => by cases hm)
      ⟨⟨-1, by decide, by decide, by simp [SimExchange.new, Int.sub_eq_add_neg]⟩,
        ⟨1, by decide, by decide, by simp [SimExchange.new]⟩⟩
  · next hpc =>
    have hx : x.pc ≠ .opening := fun h => by cases hpc.symm.trans h
    split at hs
    · obtain rfl := Option.some.inj hs
      exact h.congr hx (fun h => by cases h) rfl
    · obtain rfl := Option.some.inj hs
      refine ⟨fun hpc => (by cases hpc), fun _ => (h.quotes hx).flush, ?_⟩
      obtain ⟨-, -, -, hsame, -⟩ := h.packs.flush
      exact hsame ▸ h.prices
  · next hpc =>
    have hx : x.pc ≠ .opening := fun h => by cases hpc.symm.trans h
    obtain ⟨quotes, hq, rfl⟩ := Option.map_eq_some_iff.mp hs
    obtain ⟨t, ht, hquotes⟩ := (h.quotes hx).step draw hc now now'
    obtain rfl := Option.some.inj (ht.symm.trans hq)
    exact ⟨fun hpc => (by cases hpc), fun _ => hquotes, h.packs.prices_step hq h.prices
      ⟨(h.quotes hx).bid, (h.quotes hx).ask⟩ ⟨hquotes.bid, hquotes.ask⟩⟩
  · next k hpc =>
    have hx : x.pc ≠ .opening := fun h => by cases hpc.symm.trans h
    obtain rfl := Option.some.inj hs
    unfold serve
    split
    · exact h.congr hx (fun h => by cases h) rfl
    · split
      · exact h.congr hx (fun h => by cases h) rfl
      · refine h.congr hx ?_ rfl
        cases k <;> exact fun h => by cases h
  · cases hs

end Exchange

/-! ### The link -/

/-- The feed neither loses nor doubles a datagram, and delivers the oldest first. -/
def ClosedEvent.InOrder : ClosedEvent → Prop
  | .deliver l i => l = .feed → i = 0
  | .lose l _ | .copy l _ => l ≠ .feed
  | .thread _ _ | .exchange _ _ | .setKill _ | .stop | .halt => True

instance : DecidablePred ClosedEvent.InOrder
  | .deliver l i => inferInstanceAs (Decidable (l = .feed → i = 0))
  | .lose l _ | .copy l _ => inferInstanceAs (Decidable (l ≠ .feed))
  | .thread _ _ | .exchange _ _ | .setKill _ | .stop | .halt => inferInstanceAs (Decidable True)

namespace ClosedLoop

variable {z : EngineSizes} {ρ : Type} {draw : ρ → UInt64 × ρ} {cfg : EngineConfig} {c : SimConfig} {rng : ρ}
  {s t : ClosedLoop z ρ} {e : ClosedEvent}

/-- What reached the socket and what is under way is what the exchange sent. -/
def FeedInOrder (s : ClosedLoop z ρ) : Prop := s.engine.world.market ++ s.links .feed = s.exchange.quotes.sent

theorem FeedInOrder.move (h : FeedInOrder s) (hr : Reachable RingEngine.Step (RingEngine.start z cfg) s.engine)
    (he : e.InOrder) (hm : s.Move draw e t) : FeedInOrder t := by
  cases hm with
  | thread hs =>
    obtain ⟨hmarket, -⟩ := RingEngine.outlet hr hs
    exact (congrArg (· ++ s.links .feed) hmarket).trans h
  | @exchange now now' exchange hs =>
    obtain ⟨more, hmore⟩ : ∃ more, exchange.quotes.sent = s.exchange.quotes.sent ++ more := by
      cases Exchange.effect_of_next hs with
      | quotes _ _ hsent => exact hsent.imp fun _ => Eq.symm
      | skip _ _ _ hq | fill _ _ _ hq => exact ⟨[], by rw [hq, List.append_nil]⟩
    show s.engine.world.market ++ (s.withExchange exchange).links .feed = exchange.quotes.sent
    rw [withExchange_feed hmore, ← List.append_assoc, h, hmore]
  | @market i d hd =>
    obtain rfl := he rfl
    show (s.engine.world.market ++ [d]) ++ (s.drop .feed 0).links .feed = s.exchange.quotes.sent
    rw [← h, drop_self]
    match hlink : s.links .feed with
    | [] =>
      rw [hlink] at hd
      cases hd
    | x :: xs =>
      rw [hlink] at hd
      cases hd
      exact List.append_assoc _ _ _
  | order | fill | setKill | stop | halt => exact h
  | lose => exact (congrArg (s.engine.world.market ++ ·) (drop_ne he.symm)).trans h
  | copy => exact (congrArg (s.engine.world.market ++ ·) (put_ne he.symm)).trans h

/-! ### The book -/

theorem quoting_step (hc : Covers z.ticks cfg.strategy.basePrice c) (hs : s.Step draw e t)
    (h : s.exchange.Quoting c rng z.ticks cfg.strategy.basePrice) :
    t.exchange.Quoting c rng z.ticks cfg.strategy.basePrice := by
  cases hs.move with
  | exchange hx => exact h.next hc hx
  | thread | market | fill | lose | copy | setKill | stop => exact h
  | order | halt => exact ⟨h.opening, h.quotes, h.prices⟩

theorem msg_events (buf : List UInt8) (arrival : UInt64) :
    (FeedHandler.events buf arrival).map MdEvent.msg = SimExchange.decode buf := by
  unfold FeedHandler.events SimExchange.decode
  rw [List.map_filterMap]
  refine List.filterMap_congr fun f hf => ?_
  cases parseMessage f <;> rfl

/-- Without drops the strategy sees the messages of the datagrams that reached the socket, in order. -/
theorem seen_messages {f : RingEngine z} {q : BoundedQueue MdEvent z.feedCap.val.toNat}
    (h : RingEngine.Conserves cfg f q) (hdrops : f.feed.drops = 0)
    (hwhole : ∀ d ∈ f.world.market, SimExchange.WholeFrames d) :
    f.world.seen.map MdEvent.msg <+: f.world.market.flatMap SimExchange.decode := by
  obtain ⟨left, hframes, -⟩ := h.frames
  have hkept : f.feed.outcomes.filter Prod.snd = f.feed.outcomes := List.filter_eq_self.mpr fun o ho => by
    have := List.countP_eq_zero.mp hdrops o ho
    simpa using this
  have hevents := h.events
  rw [hkept] at hevents
  have hmsgs : (f.feed.arrived.map Prod.fst).flatMap SimExchange.decode =
      f.world.seen.map MdEvent.msg ++ (f.strategy.pc.heldEvents ++ q.items ++ left).map MdEvent.msg := by
    have hmap := congrArg (List.map MdEvent.msg) hframes
    rw [← hevents, List.map_flatMap] at hmap
    rw [← List.map_append, List.flatMap_map]
    refine Eq.trans (List.flatMap_congr fun d hd => ?_) (hmap.trans (by simp))
    have hmem : d.1 ∈ f.world.market := by
      rw [← h.market]
      exact List.mem_append_left _ (List.mem_map_of_mem hd)
    obtain ⟨k, -, hk, hlen⟩ := hwhole d.1 hmem
    rw [msg_events, List.take_of_length_le]
    rw [hlen]
    exact Nat.mul_le_mul_right kMsgSize (Nat.le_trans hk (by decide))
  rw [← h.market, List.flatMap_append, hmsgs, List.append_assoc]
  exact List.prefix_append _ _

/-- With a feed in order and no drop, the strategy has seen the first messages of the exchange, its book is the one that
    they make, and with as many events seen as there are messages the book holds the two quotes of the exchange and
    nothing else. -/
theorem book_follows_exchange {h : List (ClosedLoop z ρ × ClosedEvent)} (hc : Covers z.ticks cfg.strategy.basePrice c)
    (htick : cfg.strategy.tick = c.tick) (hlo : -2 ^ 63 ≤ c.basePrice - 1501 * c.tick)
    (hhi : c.basePrice + 1501 * c.tick < 2 ^ 63) (hr : Run (Step draw) (start z cfg c rng) h s)
    (horder : ∀ p ∈ h, p.2.InOrder) (hdrops : s.engine.feed.drops = 0) :
    s.engine.world.seen.map MdEvent.msg <+: s.exchange.quotes.emitted ∧
      s.engine.strategy.runner.strat.book =
        (BookView.new z.ticks cfg.strategy.basePrice cfg.strategy.tick).applyAll
          (s.exchange.quotes.emitted.take s.engine.world.seen.length) ∧
      (s.exchange.pc ≠ .opening → s.engine.world.seen.length = s.exchange.quotes.emitted.length →
        Coherent s.exchange.quotes s.engine.strategy.runner.strat.book) := by
  obtain ⟨-, hreach, hfeed, hquoting⟩ := hr.invariant
    (I := fun s => Reachable RingEngine.Step (RingEngine.start z cfg) s.engine ∧ FeedInOrder s ∧
      s.exchange.Quoting c rng z.ticks cfg.strategy.basePrice)
    (C := fun _ e => e.InOrder) ⟨.refl, rfl, Exchange.quoting_new c rng _ _⟩ (fun hi he hs => by
      obtain ⟨hr, hfeed, hquoting⟩ := hi
      exact ⟨hs.move.reachable hr, hfeed.move hr he hs.move, quoting_step hc hs hquoting⟩) horder
  obtain ⟨v, hv, hpath⟩ := RingEngine.invariant Snapshot.marketPath_start (fun h hm => h.move hm) hreach
  have hconserves := RingEngine.conserves_of_shows hv hpath
  have hpacks := hquoting.packs
  have hprices : ∀ m ∈ s.exchange.quotes.emitted, Int64Price m := fun m hm => by
    obtain ⟨k, hk, hk', hpx⟩ := hquoting.prices m hm
    have hl := Int.mul_le_mul_of_nonneg_right hk (Int.le_of_lt hc.tick)
    have hh := Int.mul_le_mul_of_nonneg_right hk' (Int.le_of_lt hc.tick)
    rw [Int64Price, hpx]
    omega
  have hwhole : ∀ d ∈ s.engine.world.market, SimExchange.WholeFrames d := fun d hd =>
    hpacks.sizes d (hfeed ▸ List.mem_append_left _ hd)
  have hbefore : s.engine.world.seen.map MdEvent.msg <+: s.exchange.quotes.emitted := by
    have hdecode := hpacks.decode_sent hprices
    rw [← hfeed, List.flatMap_append] at hdecode
    exact (seen_messages hconserves hdrops hwhole).trans ((List.prefix_append _ _).trans hdecode)
  have hseen : s.engine.world.seen.map MdEvent.msg =
      s.exchange.quotes.emitted.take s.engine.world.seen.length := by
    rw [← List.length_map (f := MdEvent.msg)]
    exact List.prefix_iff_eq_take.mp hbefore
  have hbook := hconserves.book
  rw [hseen] at hbook
  refine ⟨hbefore, hbook, fun hopen hlen => ?_⟩
  have hquotes := hquoting.quotes hopen
  have hcoherent := hquotes.coherent hc
  rwa [hbook, hlen, List.take_length, htick, ← hquotes.tick]

/-- The first quotes, around 20000, taken in by a strategy whose window has room for the whole walk. -/
theorem book_follows_exchange_first :
    let z : EngineSizes := { Engine.least with ticks := ⟨4096, by decide, by decide⟩ }
    let cfg : EngineConfig :=
      { Engine.hundreds with strategy := { basePrice := 0, tick := 10, thrNum := 0, orderSize := 100 } }
    let c : SimConfig := ⟨7, 2, 20000, 10⟩
    ∃ s, after? z cfg c (exchangeSteps 1 ++ [.deliver .feed 0] ++ steps .feed 22 ++ steps .strategy 40) = some s ∧
      s.engine.world.seen.length = 2 ∧ Coherent s.exchange.quotes s.engine.strategy.runner.strat.book := by
  intro z cfg c
  have hrun : ((after? z cfg c
      (exchangeSteps 1 ++ [.deliver .feed 0] ++ steps .feed 22 ++ steps .strategy 40)).map fun s =>
      (s.engine.feed.drops, s.engine.world.seen.length, s.exchange.quotes.emitted.length,
        decide (s.exchange.pc = .opening))) = some (0, 2, 2, false) := by decide +kernel
  obtain ⟨s, hs, hstate⟩ := Option.map_eq_some_iff.mp hrun
  simp only [Prod.mk.injEq, decide_eq_false_iff_not] at hstate
  obtain ⟨hdrops, hseen, hemitted, hopen⟩ := hstate
  obtain ⟨h, hr, hlabels⟩ := Run.of_foldlM hs
  have horder : ∀ e ∈ exchangeSteps 1 ++ [.deliver .feed 0] ++ steps .feed 22 ++ steps .strategy 40, e.InOrder := by
    decide +kernel
  have hcovers : Covers z.ticks cfg.strategy.basePrice c := ⟨by decide, by decide, by decide, by decide⟩
  have hall := book_follows_exchange hcovers rfl (by decide) (by decide) hr
    (fun p hp => horder _ (hlabels ▸ List.mem_map_of_mem hp)) hdrops
  exact ⟨s, hs, hseen, hall.2.2 hopen (hseen.trans hemitted.symm)⟩

end ClosedLoop

end Hft
