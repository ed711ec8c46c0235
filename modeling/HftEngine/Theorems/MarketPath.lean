import HftEngine.Theorems.RingEngine
import HftEngine.Theorems.FeedHandler

/-! The way of the market data, from the socket to the strategy's book: on any run of the threads nothing is lost or
    reordered but the events that the feed handler counts as dropped, and it drops one only after a whole budget of
    attempts that found the ring full. -/

namespace Hft

open Transition
open Threads (Label)

/-! ### What a thread has in its hand -/

def FeedAt.toPc : FeedAt → FeedPc
  | .loop | .recv | .stopped => .idle
  | .reading reader arrival => .reading reader arrival
  | .pushing ev spins reader arrival => .pushing ev (spins + 1) reader arrival

def StrategyAt.heldEvents : StrategyAt → List MdEvent
  | .event ev => [ev]
  | .loop | .fills _ | .fill _ _ | .feed | .pushing _ | .stopped => []

/-- The events that are in the book but not counted as processed yet. -/
def StrategyAt.uncounted : StrategyAt → UInt64
  | .pushing _ => 1
  | .loop | .fills _ | .fill _ _ | .feed | .event _ | .stopped => 0

theorem FeedHandler.left_idle {cap : Nat} {h : FeedHandler cap} (hidle : h.pc = .idle) : h.left = [] := by
  rw [FeedHandler.left, hidle]

/-- Between two datagrams every event received was pushed or dropped. -/
theorem FeedHandler.Counts.sum {cap : Nat} {h : FeedHandler cap} (hc : h.Counts) (hidle : h.pc = .idle) :
    h.received = h.pushed + h.dropped := by
  have hpending : h.pending = 0 := by rw [FeedHandler.pending, hidle]
  rw [hc.received, hc.pushed, hc.dropped, hpending, ← UInt64.ofNat_add, Nat.add_zero]
  exact congrArg _ (by simpa using List.length_eq_countP_add_countP Prod.snd (l := h.outcomes))

namespace Snapshot

variable {z : EngineSizes} {cfg : EngineConfig} {v v' : Snapshot z} {tsc : UInt64}

/-- The feed handler, with the consumer at the other end of its queue. -/
def handler (v : Snapshot z) : FeedHandler z.feedCap.val.toNat where
  out := v.feedQ
  pc := v.feed.pc.toPc
  enqueued := v.feed.enqueued
  received := v.feed.received
  pushed := v.feed.pushed
  dropped := v.feed.dropped
  arrived := v.feed.arrived
  outcomes := v.feed.outcomes
  taken := v.world.seen ++ v.strategy.pc.heldEvents

structure MarketPath (cfg : EngineConfig) (v : Snapshot z) : Prop where
  counts : v.handler.Counts
  market : v.feed.arrived.map Prod.fst ++ v.world.feedRx = v.world.market
  book : v.strategy.runner.strat.book =
    (BookView.new z.ticks cfg.strategy.basePrice cfg.strategy.tick).applyAll (v.world.seen.map MdEvent.msg)
  mdSeen : v.strategy.runner.strat.mdSeen = UInt64.ofNat v.world.seen.length
  processed : v.strategy.runner.processed + v.strategy.pc.uncounted = UInt64.ofNat v.world.seen.length

theorem marketPath_start : MarketPath cfg (Stages.start z cfg).snapshot where
  counts := FeedHandler.counts_new
  market := rfl
  book := rfl
  mdSeen := rfl
  processed := rfl

/-! ### A move of the feed handler -/

theorem toPc_head (running : Bool) : (if running then .recv else .stopped : FeedAt).toPc = .idle := by
  cases running <;> rfl

theorem MarketPath.feed_at (h : MarketPath cfg v) {pc : FeedAt} (hpc : pc.toPc = v.feed.pc.toPc) :
    MarketPath cfg { v with feed := { v.feed with pc } } := by
  refine { h with counts := ?_ }
  show FeedHandler.Counts { v.handler with pc := pc.toPc }
  rw [hpc]
  exact h.counts

theorem MarketPath.recv (h : MarketPath cfg v) {d : List UInt8} {rx : List (List UInt8)} (hpc : v.feed.pc = .recv)
    (hrx : v.world.feedRx = d :: rx) :
    MarketPath cfg { v with feed := v.feed.recv d tsc, world := { v.world with feedRx := rx } } := by
  refine { h with counts := ?_, market := ?_ }
  · have hidle : v.handler.pc = .idle := by rw [handler, hpc]; rfl
    have hcounts := h.counts.recv hidle d tsc
    unfold FeedHandler.recv at hcounts
    unfold handler FeedThread.recv
    dsimp only at hcounts ⊢
    split_ifs at hcounts ⊢ <;> exact hcounts
  · show (v.feed.arrived ++ [(d, tsc)]).map Prod.fst ++ rx = v.world.market
    rw [← h.market, hrx, List.map_append, List.append_assoc]
    rfl

theorem MarketPath.settle (h : MarketPath cfg v) {ev : MdEvent} {spins : Nat} {reader : FeedReader} {arrival : UInt64}
    (hpc : v.feed.pc = .pushing ev spins reader arrival) (ok : Bool) {q : BoundedQueue MdEvent z.feedCap.val.toNat}
    (hq : q.items = v.feedQ.items ++ if ok then [ev] else []) :
    MarketPath cfg { v with feed := v.feed.settle ev reader arrival ok, feedQ := q } :=
  { h with counts := h.counts.settle (by rw [handler, hpc]; rfl) ok hq }

theorem MarketPath.feedMove (h : MarketPath cfg v) (hm : v.FeedMove tsc v') : MarketPath cfg v' := by
  cases hm with
  | head hpc => exact h.feed_at ((toPc_head _).trans (by rw [hpc]; rfl))
  | quiet hpc hrx => exact h.feed_at (by rw [hpc]; rfl)
  | recv hpc hrx => exact h.recv hpc hrx
  | @next reader reader' arrival msg hpc hmore hnext =>
    exact { h with counts := h.counts.receive (by rw [handler, hpc]; rfl) hmore hnext }
  | @last reader arrival hpc hlast =>
    have hlt : reader.rest.length < kMsgSize := by simpa [FeedReader.hasNext] using hlast
    have hreading : v.handler.pc = .reading reader arrival := by rw [handler, hpc]; rfl
    refine { h with counts := h.counts.move .idle ?_ ?_ }
    · simp [FeedHandler.left, hreading, FeedHandler.events_of_lt hlt]
    · simp [FeedHandler.pending, hreading]
  | push hpc hq => exact h.settle hpc true hq
  | @full ev spins reader arrival hpc =>
    cases spins with
    | zero => exact h.settle hpc false (List.append_nil _).symm
    | succ spins =>
      have hpushing : v.handler.pc = .pushing ev (spins + 2) reader arrival := by rw [handler, hpc]; rfl
      refine { h with counts := h.counts.move (.pushing ev (spins + 1) reader arrival) ?_ ?_ }
      · simp [FeedHandler.left, hpushing]
      · simp [FeedHandler.pending, hpushing]

/-! ### A move of the strategy -/

/-- Another place of the strategy, with the same events behind it. -/
theorem MarketPath.strategy_at (h : MarketPath cfg v) {t : StrategyThread z.ticks} {w : World}
    {q : BoundedQueue ExecReport z.fillCap.val.toNat} {r : BoundedQueue OrderRequest z.orderCap.val.toNat}
    (hheld : t.pc.heldEvents = v.strategy.pc.heldEvents) (hbook : t.runner.strat.book = v.strategy.runner.strat.book)
    (hseen : t.runner.strat.mdSeen = v.strategy.runner.strat.mdSeen)
    (hproc : t.runner.processed + t.pc.uncounted = v.strategy.runner.processed + v.strategy.pc.uncounted)
    (hw : w.seen = v.world.seen) (hrx : w.feedRx = v.world.feedRx) (hmarket : w.market = v.world.market) :
    MarketPath cfg { v with strategy := t, world := w, orderQ := r, fillQ := q } := by
  obtain ⟨hcounts, hmark, hbk, hmd, hprocessed⟩ := h
  refine ⟨?_, ?_, ?_, ?_, ?_⟩
  · show FeedHandler.Counts { v.handler with taken := w.seen ++ t.pc.heldEvents }
    rw [hheld, hw]
    exact hcounts
  · exact hrx ▸ hmarket ▸ hmark
  · exact hbook.trans (hw ▸ hbk)
  · exact hseen.trans (hw ▸ hmd)
  · exact hproc.trans (hw ▸ hprocessed)

theorem heldEvents_head (running : Bool) :
    (if running then .fills 15 else .stopped : StrategyAt).heldEvents = [] ∧
      (if running then .fills 15 else .stopped : StrategyAt).uncounted = 0 := by
  cases running <;> exact ⟨rfl, rfl⟩

theorem heldEvents_afterFill (t : StrategyThread z.ticks) (k : Nat) (r : ExecReport) :
    (t.afterFill k r).pc.heldEvents = [] ∧ (t.afterFill k r).pc.uncounted = 0 := by
  cases k <;> exact ⟨rfl, rfl⟩

theorem MarketPath.takeEvent (h : MarketPath cfg v) {ev : MdEvent} {q : BoundedQueue MdEvent z.feedCap.val.toNat}
    (hpc : v.strategy.pc = .feed) (hq : v.feedQ.items = ev :: q.items) :
    MarketPath cfg { v with strategy := { v.strategy with pc := .event ev }, feedQ := q } := by
  obtain ⟨hcounts, hmark, hbk, hmd, hprocessed⟩ := h
  rw [hpc] at hprocessed
  refine ⟨?_, hmark, hbk, hmd, hprocessed⟩
  have hpop : FeedHandler.Counts { v.handler with out := q, taken := v.handler.taken ++ [ev] } := hcounts.pop hq
  have htaken : v.handler.taken = v.world.seen := by
    show v.world.seen ++ v.strategy.pc.heldEvents = v.world.seen
    rw [hpc]
    exact List.append_nil _
  rw [htaken] at hpop
  exact hpop

/-- The event in the hand goes into the book. -/
structure Booked (t : StrategyThread z.ticks) (ev : MdEvent) (w : World) (r : StrategyThread z.ticks × World) :
    Prop where
  book : r.1.runner.strat.book = t.runner.strat.book.apply ev.msg
  mdSeen : r.1.runner.strat.mdSeen = t.runner.strat.mdSeen + 1
  held : r.1.pc.heldEvents = []
  processed : r.1.runner.processed + r.1.pc.uncounted = t.runner.processed + 1
  seen : r.2.seen = w.seen ++ [ev]
  feedRx : r.2.feedRx = w.feedRx
  market : r.2.market = w.market

theorem booked_afterEvent (t : StrategyThread z.ticks) (ev : MdEvent) (w : World) :
    Booked t ev w (t.afterEvent ev w) := by
  unfold StrategyThread.afterEvent ImbalanceStrategy.onMd
  dsimp only
  split_ifs
  · exact ⟨rfl, rfl, rfl, UInt64.add_zero _, rfl, rfl, rfl⟩
  · exact ⟨rfl, rfl, rfl, UInt64.add_zero _, rfl, rfl, rfl⟩
  · exact ⟨rfl, rfl, rfl, rfl, rfl, rfl, rfl⟩

theorem MarketPath.event (h : MarketPath cfg v) {ev : MdEvent} (hpc : v.strategy.pc = .event ev) :
    MarketPath cfg { v with
      strategy := (v.strategy.afterEvent ev v.world).1
      world := (v.strategy.afterEvent ev v.world).2 } := by
  obtain ⟨hcounts, hmark, hbk, hmd, hprocessed⟩ := h
  obtain ⟨hbook, hmdSeen, hheld, hproc, hseen, hrx, hmarket⟩ := booked_afterEvent v.strategy ev v.world
  have hlength : UInt64.ofNat (v.world.seen ++ [ev]).length = UInt64.ofNat v.world.seen.length + 1 := by
    rw [List.length_append, UInt64.ofNat_add]
    rfl
  rw [hpc, StrategyAt.uncounted, UInt64.add_zero] at hprocessed
  refine ⟨?_, ?_, ?_, ?_, ?_⟩
  · have hhandler : v.handler = { v.handler with taken := (v.world.seen ++ [ev]) ++ [] } := by
      rw [List.append_nil]
      unfold handler
      rw [hpc]
      rfl
    rw [hhandler, ← hseen, ← hheld] at hcounts
    exact hcounts
  · exact hrx ▸ hmarket ▸ hmark
  · dsimp only
    rw [hbook, hbk, hseen, List.map_append, BookView.applyAll, BookView.applyAll, List.foldl_append]
    rfl
  · dsimp only
    rw [hmdSeen, hmd, hseen, hlength]
  · dsimp only
    rw [hproc, hprocessed, hseen, hlength]

theorem MarketPath.strategyMove (h : MarketPath cfg v) (hm : v.StrategyMove v') : MarketPath cfg v' := by
  cases hm with
  | head hpc =>
    have hhead := heldEvents_head v.world.running
    exact h.strategy_at (hhead.1.trans (by rw [hpc]; rfl)) rfl rfl (by rw [hhead.2, hpc]; rfl) rfl rfl rfl
  | noFill hpc => exact h.strategy_at (by rw [hpc]; rfl) rfl rfl (by rw [hpc]; rfl) rfl rfl rfl
  | takeFill hpc hq => exact h.strategy_at (by rw [hpc]; rfl) rfl rfl (by rw [hpc]; rfl) rfl rfl rfl
  | @fill k r hpc =>
    have hafter := heldEvents_afterFill v.strategy k r
    exact h.strategy_at (hafter.1.trans (by rw [hpc]; rfl)) rfl rfl (by rw [hafter.2, hpc]; rfl) rfl rfl rfl
  | noEvent hpc => exact h.strategy_at (by rw [hpc]; rfl) rfl rfl (by rw [hpc]; rfl) rfl rfl rfl
  | takeEvent hpc hq => exact h.takeEvent hpc hq
  | event hpc => exact h.event hpc
  | push hpc hq =>
    exact h.strategy_at (by rw [hpc]; rfl) rfl rfl (by rw [hpc]; exact UInt64.add_zero _) rfl rfl rfl
  | full => exact h

/-! ### Any move -/

/-- What a move of the gateway leaves of the world. -/
structure GatewayWorld (v v' : Snapshot z) : Prop where
  feed : v'.feed = v.feed
  strategy : v'.strategy = v.strategy
  feedQ : v'.feedQ = v.feedQ
  seen : v'.world.seen = v.world.seen
  feedRx : v'.world.feedRx = v.world.feedRx
  market : v'.world.market = v.world.market

theorem GatewayMove.world (hm : v.GatewayMove tsc v') : GatewayWorld v v' := by
  cases hm with
  | head | noReport | short | push | full | noOrder | takeOrder | check | send => exact ⟨rfl, rfl, rfl, rfl, rfl, rfl⟩
  | report =>
    unfold GatewayThread.handle
    split <;> exact ⟨rfl, rfl, rfl, rfl, rfl, rfl⟩

theorem MarketPath.gatewayMove (h : MarketPath cfg v) (hm : v.GatewayMove tsc v') : MarketPath cfg v' := by
  obtain ⟨hcounts, hmark, hbk, hmd, hprocessed⟩ := h
  obtain ⟨hfeed, hstrategy, hfeedQ, hseen, hrx, hmarket⟩ := hm.world
  have hhandler : v'.handler = v.handler := by
    unfold handler
    rw [hfeed, hstrategy, hfeedQ, hseen]
  refine ⟨hhandler ▸ hcounts, ?_, ?_, ?_, ?_⟩
  · rw [hfeed, hrx, hmarket]
    exact hmark
  · rw [hstrategy, hseen]
    exact hbk
  · rw [hstrategy, hseen]
    exact hmd
  · rw [hstrategy, hseen]
    exact hprocessed

theorem MarketPath.move {l : Label Stage UInt64 Outside} (h : MarketPath cfg v) (hm : v.Move l v') :
    MarketPath cfg v' := by
  match l with
  | .thread .feed _ => exact h.feedMove hm
  | .thread .strategy _ => exact h.strategyMove hm
  | .thread .gateway _ => exact h.gatewayMove hm
  | .outside x =>
    obtain ⟨w, hw, rfl⟩ := hm
    cases x with
    | market m =>
      cases hw
      refine { h with market := ?_ }
      show v.feed.arrived.map Prod.fst ++ (v.world.feedRx ++ [m]) = v.world.market ++ [m]
      rw [← List.append_assoc, h.market]
    | report m | setKill b | stop =>
      cases hw
      exact { h with }

end Snapshot

/-! ### Drops -/

namespace FeedThread

variable {z : EngineSizes} {t : FeedThread}

def drops (t : FeedThread) : Nat := t.outcomes.countP fun o => !o.2

/-- The attempts that failed for the event in the hand. -/
def refused (t : FeedThread) : Nat :=
  match t.pc with
  | .pushing _ spins _ _ => kSpinBudget - (spins + 1)
  | .loop | .recv | .reading _ _ | .stopped => 0

/-- A thread that pushes has an attempt left. -/
def Spins (t : FeedThread) : Prop :=
  ∀ ev spins reader arrival, t.pc = .pushing ev spins reader arrival → spins < kSpinBudget

theorem work_drops {w : World} {tsc : UInt64} {k : UInt64 → World → Option (FeedThread × World)}
    {r : FeedThread × World} (hn : t.next z = .work k) (hk : k tsc w = some r) :
    r.1.drops = t.drops ∧ r.1.refused = 0 ∧ r.1.Spins := by
  unfold FeedThread.next at hn
  split at hn <;> cases hn
  · obtain rfl := Option.some.inj hk
    cases w.running <;> exact ⟨rfl, rfl, fun _ _ _ _ h => by cases h⟩
  · dsimp only at hk
    split at hk
    · obtain rfl := Option.some.inj hk
      exact ⟨rfl, rfl, fun _ _ _ _ h => by cases h⟩
    · obtain rfl := Option.some.inj hk
      unfold FeedThread.recv drops refused Spins
      dsimp only
      split_ifs <;> exact ⟨rfl, rfl, fun _ _ _ _ h => by cases h⟩
  · dsimp only at hk
    split at hk
    · obtain ⟨_, -, rfl⟩ := Option.map_eq_some_iff.mp hk
      refine ⟨rfl, rfl, fun _ _ _ _ h => ?_⟩
      cases h
      decide
    · obtain rfl := Option.some.inj hk
      exact ⟨rfl, rfl, fun _ _ _ _ h => by cases h⟩

/-- An attempt that fails is one more for the event, or uses its budget up. -/
theorem attempted_drops {ev : MdEvent} {spins : Nat} {reader : FeedReader} {arrival : UInt64}
    (hpc : t.pc = .pushing ev spins reader arrival) (hs : t.Spins) (ok : Bool) :
    let t' := t.attempted ev spins reader arrival ok
    kSpinBudget * t'.drops + t'.refused ≤ kSpinBudget * t.drops + t.refused + (if ok then 0 else 1) ∧ t'.Spins := by
  have hlt := hs _ _ _ _ hpc
  have hrefused : t.refused = kSpinBudget - (spins + 1) := by rw [refused, hpc]
  have hsettle : ∀ ok, (t.settle ev reader arrival ok).drops = t.drops + if ok then 0 else 1 := by
    intro ok
    unfold drops FeedThread.settle
    rw [List.countP_append]
    cases ok <;> rfl
  cases ok with
  | true =>
    refine ⟨?_, fun _ _ _ _ h => by cases h⟩
    show kSpinBudget * (t.settle ev reader arrival true).drops + 0 ≤ _
    rw [hsettle]
    exact Nat.le_add_right _ _
  | false =>
    cases spins with
    | zero =>
      refine ⟨?_, fun _ _ _ _ h => by cases h⟩
      show kSpinBudget * (t.settle ev reader arrival false).drops + 0 ≤ _
      rw [hsettle, hrefused]
      show kSpinBudget * (t.drops + 1) + 0 ≤ kSpinBudget * t.drops + (kSpinBudget - 1) + 1
      rw [Nat.mul_succ]
      omega
    | succ spins =>
      refine ⟨?_, fun _ spins' _ _ h => ?_⟩
      · show kSpinBudget * t.drops + (kSpinBudget - (spins + 1)) ≤ kSpinBudget * t.drops + t.refused + 1
        omega
      · cases h
        exact Nat.lt_of_succ_lt hlt

theorem pushing_of_next {ev : MdEvent} {k : Bool → FeedThread} (hn : t.next z = .call .feedQ .push rfl ev k) :
    ∃ spins reader arrival, t.pc = .pushing ev spins reader arrival ∧ k = t.attempted ev spins reader arrival := by
  unfold FeedThread.next at hn
  split at hn <;> cases hn
  exact ⟨_, _, _, by assumption, rfl⟩

end FeedThread

namespace RingEngine

variable {z : EngineSizes} {cfg : EngineConfig} {f g : RingEngine z}

/-- Every event that was dropped stands for a whole budget of pushes that the ring refused. -/
structure Refusals (f : RingEngine z) : Prop where
  budget : kSpinBudget * f.feed.drops + f.feed.refused ≤ f.feedRing.fullAt.length
  spins : f.feed.Spins

theorem Refusals.step {l : Label Stage UInt64 Outside} (h : Refusals f) (hs : f.Step l g) : Refusals g := by
  obtain ⟨hbudget, hspins⟩ := h
  cases hs.move with
  | @work t e k r hn hk =>
    cases t with
    | feed =>
      obtain ⟨hdrops, hrefused, hspins'⟩ := FeedThread.work_drops hn hk
      refine ⟨?_, hspins'⟩
      show kSpinBudget * r.1.drops + r.1.refused ≤ _
      rw [hdrops, hrefused]
      exact Nat.le_trans (Nat.le_add_right _ _) hbudget
    | strategy => exact ⟨hbudget, hspins⟩
    | gateway => exact ⟨hbudget, hspins⟩
  | outside => exact ⟨hbudget, hspins⟩
  | @op t e q d own a k hn hr =>
    subst own
    cases q with
    | orderQ | fillQ => exact ⟨hbudget, hspins⟩
    | feedQ =>
      cases d with
      | push =>
        have hsame := (SpscQueue.fullAt_push f.feedRing a).resolve_right fun hf => by
          obtain ⟨n, -, hfalse⟩ := hf
          cases hr.symm.trans hfalse
        exact ⟨hsame.1 ▸ hbudget, hspins⟩
      | pop => exact ⟨(SpscQueue.fullAt_pop f.feedRing).symm ▸ hbudget, hspins⟩
  | @ret t e q d own a k r hn hr =>
    subst own
    cases q with
    | orderQ | fillQ => cases d <;> exact ⟨hbudget, hspins⟩
    | feedQ =>
      cases d with
      | push =>
        obtain ⟨spins, reader, arrival, hpc, rfl⟩ := FeedThread.pushing_of_next hn
        obtain ⟨hattempt, hspins'⟩ := FeedThread.attempted_drops hpc hspins r
        refine ⟨Nat.le_trans hattempt ?_, hspins'⟩
        show kSpinBudget * f.feed.drops + f.feed.refused + _ ≤ (f.feedRing.op .push a).1.fullAt.length
        rcases SpscQueue.fullAt_push f.feedRing a with ⟨hsame, htrue⟩ | ⟨n, hmore, hfalse⟩
        · rw [hsame]
          cases r with
          | true => exact hbudget
          | false => exact absurd hr htrue
        · rw [hmore, List.length_append]
          cases hr.symm.trans hfalse
          exact Nat.succ_le_succ hbudget
      | pop => exact ⟨(SpscQueue.fullAt_pop f.feedRing).symm ▸ hbudget, hspins⟩

theorem refusals_of_reachable (hr : Reachable Step (start z cfg) f) : Refusals f :=
  hr.invariant ⟨Nat.le_refl _, fun _ _ _ _ h => by cases h⟩ fun h hs => h.step hs

/-! ### Conservation -/

/-- Where everything is that came in on the feed, with `q` the events in the ring. -/
structure Conserves (cfg : EngineConfig) (f : RingEngine z) (q : BoundedQueue MdEvent z.feedCap.val.toNat) : Prop where
  ring : f.feedRing.Holds q
  market : f.feed.arrived.map Prod.fst ++ f.world.feedRx = f.world.market
  /-- Every whole frame of a datagram has its outcome, in order, once the datagram is done. -/
  frames : ∃ left, f.feed.arrived.flatMap (fun d => FeedHandler.events (d.1.take kBufBytes) d.2) =
    f.feed.outcomes.map Prod.fst ++ left ∧ (f.feed.pc.toPc = .idle → left = [])
  /-- The strategy gets those that are not dropped. -/
  events : f.world.seen ++ f.strategy.pc.heldEvents ++ q.items = (f.feed.outcomes.filter Prod.snd).map Prod.fst
  received : f.feed.pc.toPc = .idle → f.feed.received = f.feed.pushed + f.feed.dropped
  pushed : f.feed.pushed = UInt64.ofNat (f.feed.outcomes.countP Prod.snd)
  dropped : f.feed.dropped = UInt64.ofNat f.feed.drops
  mdSeen : f.strategy.runner.strat.mdSeen = UInt64.ofNat f.world.seen.length
  processed : f.strategy.runner.processed + f.strategy.pc.uncounted = UInt64.ofNat f.world.seen.length
  book : f.strategy.runner.strat.book =
    (BookView.new z.ticks cfg.strategy.basePrice cfg.strategy.tick).applyAll (f.world.seen.map MdEvent.msg)

theorem conserves_of_shows {v : Snapshot z} (hv : Shows f v) (hp : v.MarketPath cfg) : Conserves cfg f v.feedQ := by
  have hleft : v.handler.pc = .idle → v.handler.left = [] := FeedHandler.left_idle
  obtain ⟨feed, strategy, gateway, feedQ, orderQ, fillQ, world⟩ := v
  obtain ⟨hfeed, hstrategy, -, hworld, hring, -, -⟩ := hv
  obtain rfl : feed = f.feed := hfeed
  obtain rfl : strategy = f.strategy := hstrategy
  obtain rfl : world = f.world := hworld
  obtain ⟨hcounts, hmarket, hbook, hmdSeen, hprocessed⟩ := hp
  have hsum := hcounts.sum
  obtain ⟨hframes, hput, -, hpushed, hdropped⟩ := hcounts
  exact ⟨hring, hmarket, ⟨_, hframes, hleft⟩, hput, hsum, hpushed, hdropped, hmdSeen,
    hprocessed, hbook⟩

/-- An event is dropped only after as many attempts as the budget allows, each of which found the ring with no room. -/
theorem drops_need_full_ring (hr : Reachable Step (start z cfg) f) :
    f.feed.dropped = UInt64.ofNat f.feed.drops ∧ kSpinBudget * f.feed.drops ≤ f.feedRing.fullAt.length ∧
      ∀ k ∈ f.feedRing.fullAt, k = z.feedCap.val.toNat := by
  obtain ⟨v, hv, hp⟩ := invariant Snapshot.marketPath_start (fun h hm => h.move hm) hr
  obtain ⟨⟨_, _, hinv⟩, -, -⟩ := inv_of_reachable hr
  exact ⟨(conserves_of_shows hv hp).dropped, Nat.le_of_add_right_le (refusals_of_reachable hr).budget, hinv.full⟩

theorem drops_need_full_ring_session :
    ∃ f, after? Engine.least Engine.hundreds session = some f ∧
      f.feed.dropped = UInt64.ofNat f.feed.drops ∧ kSpinBudget * f.feed.drops ≤ f.feedRing.fullAt.length ∧
      ∀ k ∈ f.feedRing.fullAt, k = 2 := by
  obtain ⟨f, hf, -, -, hr⟩ := session_total
  exact ⟨f, hf, drops_need_full_ring hr⟩

end RingEngine

end Hft
