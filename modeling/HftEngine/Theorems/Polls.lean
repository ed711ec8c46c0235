import HftEngine.Theorems.StageMoves
import HftEngine.Theorems.ItchParser
import HftEngine.Lib.OwnSteps

/-! A poll that is taken as one step is a run of its thread alone, so every run of the engine poll by poll is one of the
    interleavings of its threads. -/

namespace Hft

open Transition
open Threads (Label)
open Channel (End)

namespace OrderGateway

variable {cap : TableSize} {fillCap orderCap : Nat}

/-- A report that matches is released and pushed, any other is counted. -/
theorem handleFill_eq (g : OrderGateway cap) (rep : ExecReport) (fills : BoundedQueue ExecReport fillCap) :
    g.handleFill rep fills =
      if g.Matches rep then (fills.push? rep).map fun fills => (g.release rep, fills)
      else some ({ g with fillsUnmatched := g.fillsUnmatched + 1 }, fills) := by
  unfold handleFill
  dsimp only
  by_cases h : g.Matches rep
  · rw [if_pos h]
    refine (if_pos h).trans ?_
    cases fills.push? rep <;> rfl
  · rw [if_neg h]
    exact if_neg h

/-- The part of a poll for the orders, in the steps of the thread. -/
theorem pollOrder_eq (g : OrderGateway cap) (kill : Bool) (now sendT : UInt64) (rx : List (List UInt8))
    (orders : BoundedQueue OrderRequest orderCap) (fills : BoundedQueue ExecReport fillCap) :
    g.pollOrder kill now sendT rx orders fills = match orders.pop? with
      | none => { gateway := g, rx, orders, fills, checked := none, wire := none, busy := false }
      | some (o, orders) =>
        if (g.risk.check kill now o).2 ≠ .kAccept then
          { gateway := { g with risk := (g.risk.check kill now o).1, riskRejected := g.riskRejected + 1 }, rx, orders,
            fills, checked := some (o, g.risk.position), wire := none, busy := true }
        else
          { gateway := ({ g with risk := (g.risk.check kill now o).1 } : OrderGateway cap).record o sendT, rx, orders,
            fills, checked := some (o, g.risk.position), wire := some o, busy := true } := by
  unfold pollOrder
  cases orders.pop? with
  | none => rfl
  | some p => rfl

end OrderGateway

namespace Snapshot

variable {z : EngineSizes} {v v' v'' : Snapshot z} {t : Stage} {s : Stages z}

/-- The state with these parts. -/
def stages (v : Snapshot z) : Stages z where
  threads
    | .feed => v.feed
    | .strategy => v.strategy
    | .gateway => v.gateway
  world := v.world
  queue
    | .feedQ => v.feedQ
    | .orderQ => v.orderQ
    | .fillQ => v.fillQ

theorem stages_eq (h : s.snapshot = v) : s = v.stages := by
  subst h
  obtain ⟨threads, world, queue⟩ := s
  rw [stages, Threads.Net.mk.injEq]
  refine ⟨?_, rfl, ?_⟩
  · funext t
    cases t <;> rfl
  · funext q
    cases q <;> rfl

theorem outside_step {w : World} {x : Outside} (hx : v.world.next? x = some w) :
    v.stages.Step (.outside x) { v with world := w }.stages := Threads.Net.step_outside hx

/-! ### A thread by itself -/

/-- A run of steps of one thread. -/
def Plays (t : Stage) (v v' : Snapshot z) : Prop :=
  ∃ h, Run Threads.Net.Step v.stages h v'.stages ∧ ∀ p ∈ h, p.2.own t = true

theorem Plays.refl : Plays t v v := ⟨[], .nil, by simp⟩

theorem Plays.trans (h : Plays t v v') (h' : Plays t v' v'') : Plays t v v'' := by
  obtain ⟨hs, hr, hown⟩ := h
  obtain ⟨hs', hr', hown'⟩ := h'
  exact ⟨hs ++ hs', hr.append hr', fun p hp => (List.mem_append.mp hp).elim (hown p) (hown' p)⟩

theorem Plays.one (tsc : UInt64) (hs : v.stages.Step (.thread t tsc) s) (h : s.snapshot = v') : Plays t v v' := by
  rw [stages_eq h] at hs
  exact ⟨_, Run.nil.snoc hs, by simp [Label.own]⟩

/-- A step in the world, at this reading of the clock. -/
theorem Plays.work (tsc : UInt64) {k : UInt64 → World → Option (z.program.Local t × World)}
    {r : z.program.Local t × World} (hn : z.program.next t (v.stages.threads t) = .work k)
    (hk : k tsc v.world = some r)
    (hv : Stages.snapshot { v.stages with threads := Function.update v.stages.threads t r.1, world := r.2 } = v') :
    Plays t v v' := .one tsc (Threads.Net.step_work hn hk) hv

theorem Plays.call {q : QueueName} {d : End} {own : z.wiring.owner q d = t} {a : d.Arg (z.wiring.Payload q)}
    {k : d.Ret (z.wiring.Payload q) → z.program.Local t}
    {r : d.Ret (z.wiring.Payload q) × BoundedQueue (z.wiring.Payload q) (z.wiring.cap q)}
    (hn : z.program.next t (v.stages.threads t) = .call q d own a k) (hr : (v.stages.queue q).call d a = r)
    (hv : Stages.snapshot { v.stages with
      threads := Function.update v.stages.threads t (k r.1)
      queue := Function.update v.stages.queue q r.2 } = v') : Plays t v v' := by
  subst hr
  exact .one 0 (Threads.Net.step_call hn) hv

/-! ### The gateway -/

/-- The receive loop with `k` rounds left. -/
theorem plays_reports (v : Snapshot z) (w : World) {g g' : OrderGateway z.flightCap} {rx rx' : List (List UInt8)}
    {fills fills' : BoundedQueue ExecReport z.fillCap.val.toNat} {k : Nat}
    (hd : OrderGateway.drainFills k g rx fills = some (g', rx', fills')) :
    ∃ matched, Plays .gateway
      { v with gateway := ⟨.after k, g⟩, fillQ := fills, world := { w with fillRx := rx } }
      { v with
        gateway := ⟨.orders, g'⟩
        fillQ := fills'
        world := { w with fillRx := rx', matched := w.matched ++ matched } } := by
  induction k generalizing g rx fills w with
  | zero =>
    obtain ⟨rfl, rfl, rfl⟩ : g = g' ∧ rx = rx' ∧ fills = fills' := by
      simpa only [OrderGateway.drainFills, Option.some.injEq, Prod.mk.injEq] using hd
    exact ⟨[], by rw [List.append_nil]; exact .refl⟩
  | succ k ih =>
    cases rx with
    | nil =>
      obtain ⟨rfl, rfl, rfl⟩ : g = g' ∧ [] = rx' ∧ fills = fills' := by
        simpa only [OrderGateway.drainFills, Option.some.injEq, Prod.mk.injEq] using hd
      exact ⟨[], by rw [List.append_nil]; exact .work 0 rfl rfl rfl⟩
    | cons m rx =>
      cases hm : ExecReport.ofDatagram? m with
      | none =>
        obtain ⟨rfl, rfl, rfl⟩ : g = g' ∧ rx = rx' ∧ fills = fills' := by
          simpa only [OrderGateway.drainFills, hm, Option.some.injEq, Prod.mk.injEq] using hd
        refine ⟨[], .work 0 (r := (⟨.orders, g⟩, { w with fillRx := rx })) rfl (by simp only [hm]; rfl) ?_⟩
        rw [List.append_nil]
        rfl
      | some rep =>
        simp only [OrderGateway.drainFills, hm] at hd
        obtain ⟨⟨g₁, fills₁⟩, hfill, hd⟩ := Option.bind_eq_some_iff.mp hd
        rw [OrderGateway.handleFill_eq] at hfill
        have hround : ∀ r : GatewayThread z.flightCap × World,
            GatewayThread.handle ⟨.recv k, g⟩ k rep { w with fillRx := rx } = r →
            Plays .gateway
              { v with gateway := ⟨.after (k + 1), g⟩, fillQ := fills, world := { w with fillRx := m :: rx } }
              { v with gateway := r.1, fillQ := fills, world := r.2 } := by
          rintro r rfl
          exact .work 0 rfl (by simp only [hm]; rfl) rfl
        by_cases hmatch : g.Matches rep
        · rw [if_pos hmatch] at hfill
          obtain ⟨q, hq, heq⟩ := Option.map_eq_some_iff.mp hfill
          obtain ⟨rfl, rfl⟩ := Prod.mk.inj heq
          obtain ⟨matched, hrest⟩ := ih { w with matched := w.matched ++ [rep] } hd
          rw [List.append_assoc] at hrest
          refine ⟨rep :: matched, (hround _ (if_pos hmatch)).trans (.trans ?_ hrest)⟩
          exact .call rfl (BoundedQueue.offer_of_some hq) rfl
        · rw [if_neg hmatch] at hfill
          obtain ⟨rfl, rfl⟩ := Prod.mk.inj (Option.some.inj hfill)
          obtain ⟨matched, hrest⟩ := ih w hd
          exact ⟨matched, (hround _ (if_neg hmatch)).trans hrest⟩

/-- The rest of a poll: an order is taken, checked, and sent when it passes. -/
theorem plays_pollOrder (v : Snapshot z) (w : World) (g : OrderGateway z.flightCap) (now sendT : UInt64)
    (orders : BoundedQueue OrderRequest z.orderCap.val.toNat) (fills : BoundedQueue ExecReport z.fillCap.val.toNat) :
    let p := g.pollOrder w.kill now sendT w.fillRx orders fills
    Plays .gateway { v with gateway := ⟨.orders, g⟩, orderQ := orders, fillQ := fills, world := w } { v with
      gateway := ⟨.loop, p.gateway⟩
      orderQ := p.orders
      fillQ := p.fills
      world := { w with
        fillRx := p.rx
        checked := w.checked ++ p.checked.toList
        sent := w.sent ++ p.wire.toList } } := by
  intro p
  cases hpop : orders.pop? with
  | none =>
    have hp : p = { gateway := g, rx := w.fillRx, orders, fills, checked := none, wire := none, busy := false } := by
      simp only [p, OrderGateway.pollOrder_eq, hpop]
    rw [hp]
    simp only [Option.toList_none, List.append_nil]
    exact .call rfl (BoundedQueue.poll_of_empty (BoundedQueue.pop?_eq_none.mp hpop)) rfl
  | some r =>
    obtain ⟨o, orders'⟩ := r
    refine .trans (.call rfl (BoundedQueue.poll_of_some hpop) rfl) ?_
    have hcheck : ∀ t' : GatewayThread z.flightCap,
        (⟨.check o, g⟩ : GatewayThread z.flightCap).checked w.kill now o = t' →
        Plays .gateway { v with gateway := ⟨.check o, g⟩, orderQ := orders', fillQ := fills, world := w } { v with
          gateway := t'
          orderQ := orders'
          fillQ := fills
          world := { w with checked := w.checked ++ [(o, g.risk.position)] } } := by
      rintro t' rfl
      exact .work now rfl rfl rfl
    by_cases hrr : (g.risk.check w.kill now o).2 ≠ .kAccept
    · simp only [p, OrderGateway.pollOrder_eq, hpop, if_pos hrr, Option.toList_some, Option.toList_none,
        List.append_nil]
      exact hcheck _ (if_pos hrr)
    · simp only [p, OrderGateway.pollOrder_eq, hpop, if_neg hrr, Option.toList_some]
      exact (hcheck _ (if_neg hrr)).trans (.work sendT rfl rfl rfl)

/-! ### The strategy -/

/-- The strategy in the loop over the fills, after a round with `k` more to come. -/
def strategyAfter : Nat → StrategyAt
  | 0 => .feed
  | k + 1 => .fills k

theorem afterFill_eq {n : NumTicks} (t : StrategyThread n) (k : Nat) (r : ExecReport) :
    t.afterFill k r = ⟨strategyAfter k, { t.runner with strat := t.runner.strat.onFill r }⟩ := by
  cases k <;> rfl

theorem afterEvent_none {n : NumTicks} {t : StrategyThread n} {ev : MdEvent} {strat : ImbalanceStrategy n}
    (hmd : t.runner.strat.onMd ev = (strat, none)) (w : World) :
    t.afterEvent ev w = (⟨.loop, { t.runner with strat, processed := t.runner.processed + 1 }⟩,
      { w with seen := w.seen ++ [ev] }) := by
  unfold StrategyThread.afterEvent
  rw [hmd]

theorem afterEvent_some {n : NumTicks} {t : StrategyThread n} {ev : MdEvent} {strat : ImbalanceStrategy n}
    {o : OrderRequest} (hmd : t.runner.strat.onMd ev = (strat, some o)) (w : World) :
    t.afterEvent ev w = (⟨.pushing o, { t.runner with strat }⟩,
      { w with seen := w.seen ++ [ev], emitted := w.emitted ++ [(o, strat.position)] }) := by
  unfold StrategyThread.afterEvent
  rw [hmd]

theorem plays_fills (v : Snapshot z) (w : World) (runner : StrategyRunner z.ticks)
    (fills : BoundedQueue ExecReport z.fillCap.val.toNat) (k : Nat) :
    ∃ filled, Plays .strategy { v with strategy := ⟨strategyAfter k, runner⟩, fillQ := fills, world := w } { v with
      strategy := ⟨.feed, { runner with strat := (StrategyRunner.drainFills k runner.strat fills).1 }⟩
      fillQ := (StrategyRunner.drainFills k runner.strat fills).2
      world := { w with filled := w.filled ++ filled } } := by
  induction k generalizing runner fills w with
  | zero => exact ⟨[], by rw [List.append_nil]; exact .refl⟩
  | succ k ih =>
    cases hpop : fills.pop? with
    | none =>
      refine ⟨[], ?_⟩
      simp only [StrategyRunner.drainFills, hpop, List.append_nil]
      exact .call rfl (BoundedQueue.poll_of_empty (BoundedQueue.pop?_eq_none.mp hpop)) rfl
    | some p =>
      obtain ⟨r, fills'⟩ := p
      obtain ⟨filled, hrest⟩ :=
        ih { w with filled := w.filled ++ [r] } { runner with strat := runner.strat.onFill r } fills'
      refine ⟨r :: filled, ?_⟩
      simp only [StrategyRunner.drainFills, hpop]
      rw [List.append_assoc] at hrest
      have hfill := afterFill_eq ⟨.fill k r, runner⟩ k r
      refine .trans (.call rfl (BoundedQueue.poll_of_some hpop) rfl) (.trans (.work 0
        (r := (⟨strategyAfter k, { runner with strat := runner.strat.onFill r }⟩, { w with filled := w.filled ++ [r] }))
        rfl ?_ rfl) hrest)
      exact congrArg (fun t => some (t, { w with filled := w.filled ++ [r] })) hfill

/-- The rest of a poll: an event is taken and processed, and the order that it leads to is pushed. -/
theorem plays_pollFeed (v : Snapshot z) (w : World) {runner : StrategyRunner z.ticks}
    {feed : BoundedQueue MdEvent z.feedCap.val.toNat} {orders : BoundedQueue OrderRequest z.orderCap.val.toNat}
    {fills : BoundedQueue ExecReport z.fillCap.val.toNat}
    {p : StrategyRunner.Polled z.ticks z.feedCap.val.toNat z.orderCap.val.toNat z.fillCap.val.toNat}
    (hp : runner.pollFeed feed orders fills = some p) :
    ∃ seen, Plays .strategy
      { v with strategy := ⟨.feed, runner⟩, feedQ := feed, orderQ := orders, fillQ := fills, world := w } { v with
      strategy := ⟨.loop, p.runner⟩
      feedQ := p.feed
      orderQ := p.orders
      fillQ := p.fills
      world := { w with
        seen := w.seen ++ seen
        emitted := w.emitted ++ p.emitted.toList.map fun o => (o, p.runner.strat.position) } } := by
  unfold StrategyRunner.pollFeed at hp
  cases hpop : feed.pop? with
  | none =>
    rw [hpop] at hp
    obtain rfl := Option.some.inj hp
    refine ⟨[], ?_⟩
    simp only [Option.toList_none, List.map_nil, List.append_nil]
    exact .call rfl (BoundedQueue.poll_of_empty (BoundedQueue.pop?_eq_none.mp hpop)) rfl
  | some p =>
    obtain ⟨ev, feed'⟩ := p
    simp only [hpop] at hp
    refine ⟨[ev], .trans (.call rfl (BoundedQueue.poll_of_some hpop) rfl) ?_⟩
    have hevent : ∀ r : StrategyThread z.ticks × World, StrategyThread.afterEvent ⟨.event ev, runner⟩ ev w = r →
        Plays .strategy
          { v with strategy := ⟨.event ev, runner⟩, feedQ := feed', orderQ := orders, fillQ := fills, world := w }
          { v with strategy := r.1, feedQ := feed', orderQ := orders, fillQ := fills, world := r.2 } := by
      rintro r rfl
      exact .work 0 rfl rfl rfl
    cases hmd : runner.strat.onMd ev with
    | mk strat order? =>
      cases order? with
      | none =>
        simp only [hmd] at hp
        obtain rfl := Option.some.inj hp
        simp only [Option.toList_none, List.map_nil, List.append_nil]
        exact hevent _ (afterEvent_none (t := ⟨.event ev, runner⟩) hmd w)
      | some o =>
        simp only [hmd] at hp
        obtain ⟨orders', hpush, hp⟩ := Option.bind_eq_some_iff.mp hp
        obtain rfl := Option.some.inj hp
        refine (hevent _ (afterEvent_some (t := ⟨.event ev, runner⟩) hmd w)).trans ?_
        exact .call rfl (BoundedQueue.offer_of_some hpush) rfl

/-! ### The feed handler -/

theorem plays_next (v : Snapshot z) (f : FeedThread) {reader reader' : FeedReader} {arrival : UInt64}
    {msg : ItchMessage} (hmore : reader.hasNext = true) (hnext : reader.next = some (msg, reader')) :
    Plays .feed { v with feed := { f with pc := .reading reader arrival } } { v with
      feed := { f with
        pc := .pushing { msg, arrivalTsc := arrival } (kSpinBudget - 1) reader' arrival
        received := f.received + 1 } } := by
  refine .work 0 (r := (({ f with
    pc := .pushing { msg, arrivalTsc := arrival } (kSpinBudget - 1) reader' arrival
    received := f.received + 1 } : FeedThread), v.world)) rfl ?_ rfl
  simp only [hmore, hnext, if_true, Option.map_some]
  rfl

theorem plays_last (v : Snapshot z) (f : FeedThread) {reader : FeedReader} {arrival : UInt64}
    (hlast : reader.hasNext = false) :
    Plays .feed { v with feed := { f with pc := .reading reader arrival } } { v with
      feed := { f with pc := .loop } } := by
  refine .work 0 (r := (({ f with pc := .loop } : FeedThread), v.world)) rfl ?_ rfl
  simp only [hlast, Bool.false_eq_true, if_false]
  rfl

/-- A datagram with one message is taken, read and pushed. -/
theorem plays_message (v : Snapshot z) (w : World) (f : FeedThread) (ev : MdEvent)
    {q : BoundedQueue MdEvent z.feedCap.val.toNat} (hprice : Int64Price ev.msg) (hpush : v.feedQ.push? ev = some q) :
    ∃ f' : FeedThread, Plays .feed
      { v with
        feed := { f with pc := .loop }
        world := { w with running := true, feedRx := [encodeMessage ev.msg] } }
      { v with
        feed := { f' with pc := .loop }
        feedQ := q
        world := { w with running := true, feedRx := [] } } := by
  have hlen := length_encodeMessage ev.msg
  have hbuf : (encodeMessage ev.msg).take kBufBytes = encodeMessage ev.msg :=
    List.take_of_length_le (by rw [hlen]; decide)
  let reader : FeedReader := ⟨encodeMessage ev.msg⟩
  let reader' : FeedReader := ⟨(encodeMessage ev.msg).drop kMsgSize⟩
  have hmore : reader.hasNext = true := decide_eq_true hlen.ge
  have hnext : reader.next = some (ev.msg, reader') := by
    rw [FeedReader.next, parse_encode hprice]
    rfl
  have hlast : reader'.hasNext = false := decide_eq_false (by rw [List.length_drop, hlen]; decide)
  let taken : FeedThread := { f with
    pc := .reading reader ev.arrivalTsc
    enqueued := 0
    arrived := f.arrived ++ [(encodeMessage ev.msg, ev.arrivalTsc)] }
  have hrecv : ({ f with pc := .recv } : FeedThread).recv (encodeMessage ev.msg) ev.arrivalTsc = taken := by
    rw [FeedThread.recv, hbuf, if_neg (by rw [hlen]; decide)]
  let parsed : FeedThread := { taken with
    pc := .pushing ev (kSpinBudget - 1) reader' ev.arrivalTsc
    received := taken.received + 1 }
  let pushed := parsed.settle ev reader' ev.arrivalTsc true
  let v' : Snapshot z := { v with world := { w with running := true, feedRx := [] } }
  have htaken : Plays .feed
      { v with
        feed := { f with pc := .loop }
        world := { w with running := true, feedRx := [encodeMessage ev.msg] } }
      { v' with feed := taken } := by
    refine .trans (.work 0 rfl rfl rfl) (.work ev.arrivalTsc (r := (taken, v'.world)) rfl ?_ rfl)
    exact congrArg (fun t => some (t, v'.world)) hrecv
  have hpushed : Plays .feed { v' with feed := parsed } { v' with feed := pushed, feedQ := q } :=
    .call rfl (BoundedQueue.offer_of_some hpush) rfl
  exact ⟨pushed, htaken.trans ((plays_next v' taken hmore hnext).trans
    (hpushed.trans (plays_last { v' with feedQ := q } pushed hlast)))⟩

end Snapshot

/-- Of market data, with a price that the field of a datagram can hold. -/
def EngineEvent.Representable : EngineEvent → Prop
  | .md ev => Int64Price ev.msg
  | _ => True

instance (e : EngineEvent) : Decidable e.Representable :=
  match e with
  | .md _ => inferInstanceAs (Decidable (_ ∧ _))
  | .datagram _ | .setKill _ | .strategyPoll | .gatewayPoll _ _ | .stop | .strategyExit | .gatewayExit => isTrue trivial

namespace Engine

variable {z : EngineSizes} {cfg : EngineConfig} {s t : Engine z} {e : EngineEvent}

/-- The threads between two polls, each at the head of its loop; `f` and `w` are what the polls do not show. -/
def atHeads (s : Engine z) (f : FeedThread) (w : World) : Snapshot z where
  feed := { f with pc := .loop }
  strategy := ⟨.loop, s.strategy⟩
  gateway := ⟨.loop, s.gateway⟩
  feedQ := s.feedQ
  orderQ := s.orderQ
  fillQ := s.fillQ
  world := { w with
    running := true
    kill := s.kill
    feedRx := []
    fillRx := s.fillRx
    arrived := s.arrived
    kills := s.kills
    emitted := s.emitted
    checked := s.checked
    sent := s.sent }

theorem plays_gatewayPoll {now sendT : UInt64} (f : FeedThread) (w : World)
    (hs : s.gatewayPoll? now sendT = some t) : ∃ w', Snapshot.Plays .gateway (s.atHeads f w) (t.atHeads f w') := by
  obtain ⟨p, hp, rfl⟩ := Option.map_eq_some_iff.mp hs
  obtain ⟨⟨g, rx, fills⟩, hdrain, hp⟩ := Option.bind_eq_some_iff.mp hp
  obtain rfl := Option.some.inj hp
  obtain ⟨matched, hfills⟩ := Snapshot.plays_reports (s.atHeads f w) (s.atHeads f w).world hdrain
  refine ⟨{ w with matched := w.matched ++ matched }, .trans (.work 0 rfl rfl rfl) (hfills.trans ?_)⟩
  exact Snapshot.plays_pollOrder (s.atHeads f w)
    { (s.atHeads f w).world with fillRx := rx, matched := w.matched ++ matched } g now sendT s.orderQ fills

theorem plays_strategyPoll (f : FeedThread) (w : World) (hs : s.strategyPoll? = some t) :
    ∃ w', Snapshot.Plays .strategy (s.atHeads f w) (t.atHeads f w') := by
  obtain ⟨p, hp, rfl⟩ := Option.map_eq_some_iff.mp hs
  obtain ⟨filled, hfills⟩ := Snapshot.plays_fills (s.atHeads f w) (s.atHeads f w).world s.strategy
    s.fillQ 16
  obtain ⟨seen, hfeed⟩ := Snapshot.plays_pollFeed (s.atHeads f w)
    { (s.atHeads f w).world with filled := w.filled ++ filled } hp
  exact ⟨{ w with filled := w.filled ++ filled, seen := w.seen ++ seen },
    .trans (.work 0 rfl rfl rfl) (hfills.trans hfeed)⟩

theorem runs_md (f : FeedThread) (w : World) {ev : MdEvent} (hprice : Int64Price ev.msg) (hs : s.Step (.md ev) t) :
    ∃ f' w', Reachable Threads.Net.Step (s.atHeads f w).stages (t.atHeads f' w').stages := by
  obtain ⟨q, hpush, rfl⟩ := Option.map_eq_some_iff.mp hs
  let w' : World := { w with market := w.market ++ [encodeMessage ev.msg] }
  have harrives := Snapshot.outside_step (v := s.atHeads f w) (x := .market (encodeMessage ev.msg)) rfl
  obtain ⟨f', h, hread, -⟩ := Snapshot.plays_message (s.atHeads f w') (s.atHeads f w').world f ev hprice hpush
  exact ⟨f', w', _, (Run.nil.snoc harrives).append hread⟩

theorem Step.running (hs : s.Step e t) (hrunning : t.running = true) : s.running = true := by
  cases e with
  | md ev =>
    obtain ⟨q, -, rfl⟩ := Option.map_eq_some_iff.mp hs
    exact hrunning
  | datagram m =>
    obtain rfl := Option.some.inj hs
    exact hrunning
  | setKill b =>
    obtain rfl := Option.some.inj hs
    exact hrunning
  | strategyPoll =>
    obtain ⟨-, hs⟩ := Option.ite_none_right_eq_some.mp hs
    obtain ⟨p, -, rfl⟩ := Option.map_eq_some_iff.mp hs
    exact hrunning
  | gatewayPoll now sendT =>
    obtain ⟨-, hs⟩ := Option.ite_none_right_eq_some.mp hs
    obtain ⟨p, -, rfl⟩ := Option.map_eq_some_iff.mp hs
    exact hrunning
  | stop =>
    obtain rfl := Option.some.inj hs
    cases hrunning
  | strategyExit =>
    obtain ⟨hstopped, hs⟩ := Option.ite_none_left_eq_some.mp hs
    obtain rfl := Option.some.inj hs
    exact hrunning
  | gatewayExit =>
    obtain ⟨hstopped, hs⟩ := Option.ite_none_left_eq_some.mp hs
    obtain rfl := Option.some.inj hs
    exact hrunning

/-- One step of the engine by polls, as steps of its threads from head to head. -/
theorem runs_of_step (f : FeedThread) (w : World) (hs : s.Step e t) (hrunning : t.running = true)
    (he : e.Representable) : ∃ f' w', Reachable Threads.Net.Step (s.atHeads f w).stages (t.atHeads f' w').stages := by
  cases e with
  | md ev => exact runs_md f w he hs
  | datagram m =>
    obtain rfl := Option.some.inj hs
    exact ⟨f, w, _, Run.nil.snoc (Snapshot.outside_step (x := .report m) rfl)⟩
  | setKill b =>
    obtain rfl := Option.some.inj hs
    exact ⟨f, w, _, Run.nil.snoc (Snapshot.outside_step (x := .setKill b) rfl)⟩
  | strategyPoll =>
    obtain ⟨-, hs⟩ := Option.ite_none_right_eq_some.mp hs
    obtain ⟨w', h, hplays, -⟩ := plays_strategyPoll f w hs
    exact ⟨f, w', h, hplays⟩
  | gatewayPoll now sendT =>
    obtain ⟨-, hs⟩ := Option.ite_none_right_eq_some.mp hs
    obtain ⟨w', h, hplays, -⟩ := plays_gatewayPoll f w hs
    exact ⟨f, w', h, hplays⟩
  | stop =>
    obtain rfl := Option.some.inj hs
    cases hrunning
  | strategyExit =>
    obtain ⟨hstopped, -⟩ := Option.ite_none_left_eq_some.mp hs
    exact absurd (hs.running hrunning) hstopped
  | gatewayExit =>
    obtain ⟨hstopped, -⟩ := Option.ite_none_left_eq_some.mp hs
    exact absurd (hs.running hrunning) hstopped

/-- Until the stop, whatever the engine does poll by poll its threads can do step by step. -/
theorem atHeads_reachable {h : List (Engine z × EngineEvent)} (hr : Run Step (start z cfg) h s)
    (hrunning : s.running = true) (hall : ∀ p ∈ h, p.2.Representable) :
    ∃ f w, Reachable Threads.Net.Step (Stages.start z cfg) (s.atHeads f w).stages := by
  induction hr with
  | nil => exact ⟨{}, {}, Snapshot.stages_eq (s := Stages.start z cfg) rfl ▸ .refl⟩
  | @snoc h t u l hr hs ih =>
    obtain ⟨f, w, _, hbefore⟩ := ih (hs.running hrunning) fun p hp => hall p (List.mem_append_left _ hp)
    obtain ⟨f', w', _, hstep⟩ := runs_of_step f w hs hrunning (hall (t, l) (by simp))
    exact ⟨f', w', _, hbefore.append hstep⟩

theorem atHeads_reachable_filled :
    ∃ s, after? least hundreds (buySignal ++ roundTrip 1 .kBuy ++ [.strategyPoll]) = some s ∧ s.position = 100 ∧
      ∃ f w, Reachable Threads.Net.Step (Stages.start least hundreds) (s.atHeads f w).stages := by
  have hrun : (after? least hundreds (buySignal ++ roundTrip 1 .kBuy ++ [.strategyPoll])).map
      (fun s => (s.position, s.running)) = some (100, true) := by decide
  have hall : ∀ e ∈ buySignal ++ roundTrip 1 .kBuy ++ [.strategyPoll], e.Representable := by decide
  obtain ⟨s, hs, hstate⟩ := Option.map_eq_some_iff.mp hrun
  obtain ⟨hpos, hrunning⟩ := Prod.mk.inj hstate
  obtain ⟨h, hr, hlabels⟩ := Run.of_foldlM hs
  exact ⟨s, hs, hpos, atHeads_reachable hr hrunning fun p hp => hall p.2 (hlabels ▸ List.mem_map_of_mem hp)⟩

end Engine

end Hft
