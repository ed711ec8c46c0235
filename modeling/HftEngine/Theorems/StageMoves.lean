import HftEngine.Stages

/-! What one step of the engine can do, for each place where a thread can be. A call that fails leaves the queues alone,
    and nothing is said of when it may fail. -/

namespace Hft

open Channel (End)
open Threads (Label)

/-- A state of the engine, part by part. -/
structure Snapshot (z : EngineSizes) where
  feed : FeedThread
  strategy : StrategyThread z.ticks
  gateway : GatewayThread z.flightCap
  feedQ : BoundedQueue MdEvent z.feedCap.val.toNat
  orderQ : BoundedQueue OrderRequest z.orderCap.val.toNat
  fillQ : BoundedQueue ExecReport z.fillCap.val.toNat
  world : World

def Stages.snapshot {z : EngineSizes} (s : Stages z) : Snapshot z where
  feed := s.feed
  strategy := s.strategy
  gateway := s.gateway
  feedQ := s.feedQ
  orderQ := s.orderQ
  fillQ := s.fillQ
  world := s.world

namespace Snapshot

variable {z : EngineSizes}

inductive FeedMove (v : Snapshot z) (tsc : UInt64) : Snapshot z → Prop
  | head (hpc : v.feed.pc = .loop) :
      FeedMove v tsc { v with feed := { v.feed with pc := if v.world.running then .recv else .stopped } }
  | quiet (hpc : v.feed.pc = .recv) (hrx : v.world.feedRx = []) :
      FeedMove v tsc { v with feed := { v.feed with pc := .loop } }
  | recv {d : List UInt8} {rx : List (List UInt8)} (hpc : v.feed.pc = .recv) (hrx : v.world.feedRx = d :: rx) :
      FeedMove v tsc { v with feed := v.feed.recv d tsc, world := { v.world with feedRx := rx } }
  | next {reader reader' : FeedReader} {arrival : UInt64} {msg : ItchMessage}
      (hpc : v.feed.pc = .reading reader arrival) (hmore : reader.hasNext = true)
      (hnext : reader.next = some (msg, reader')) :
      FeedMove v tsc { v with
        feed := { v.feed with
          pc := .pushing { msg, arrivalTsc := arrival } (kSpinBudget - 1) reader' arrival
          received := v.feed.received + 1 } }
  | last {reader : FeedReader} {arrival : UInt64} (hpc : v.feed.pc = .reading reader arrival)
      (hlast : reader.hasNext = false) : FeedMove v tsc { v with feed := { v.feed with pc := .loop } }
  | push {ev : MdEvent} {spins : Nat} {reader : FeedReader} {arrival : UInt64}
      {q : BoundedQueue MdEvent z.feedCap.val.toNat} (hpc : v.feed.pc = .pushing ev spins reader arrival)
      (hq : q.items = v.feedQ.items ++ [ev]) :
      FeedMove v tsc { v with feed := v.feed.settle ev reader arrival true, feedQ := q }
  | full {ev : MdEvent} {spins : Nat} {reader : FeedReader} {arrival : UInt64}
      (hpc : v.feed.pc = .pushing ev spins reader arrival) :
      FeedMove v tsc { v with feed := v.feed.attempted ev spins reader arrival false }

inductive StrategyMove (v : Snapshot z) : Snapshot z → Prop
  | head (hpc : v.strategy.pc = .loop) :
      StrategyMove v { v with strategy := { v.strategy with pc := if v.world.running then .fills 15 else .stopped } }
  | noFill {k : Nat} (hpc : v.strategy.pc = .fills k) :
      StrategyMove v { v with strategy := { v.strategy with pc := .feed } }
  | takeFill {k : Nat} {r : ExecReport} {q : BoundedQueue ExecReport z.fillCap.val.toNat}
      (hpc : v.strategy.pc = .fills k) (hq : v.fillQ.items = r :: q.items) :
      StrategyMove v { v with strategy := { v.strategy with pc := .fill k r }, fillQ := q }
  | fill {k : Nat} {r : ExecReport} (hpc : v.strategy.pc = .fill k r) :
      StrategyMove v { v with
        strategy := v.strategy.afterFill k r
        world := { v.world with filled := v.world.filled ++ [r] } }
  | noEvent (hpc : v.strategy.pc = .feed) :
      StrategyMove v { v with strategy := { v.strategy with pc := .loop } }
  | takeEvent {ev : MdEvent} {q : BoundedQueue MdEvent z.feedCap.val.toNat} (hpc : v.strategy.pc = .feed)
      (hq : v.feedQ.items = ev :: q.items) :
      StrategyMove v { v with strategy := { v.strategy with pc := .event ev }, feedQ := q }
  | event {ev : MdEvent} (hpc : v.strategy.pc = .event ev) :
      StrategyMove v { v with
        strategy := (v.strategy.afterEvent ev v.world).1
        world := (v.strategy.afterEvent ev v.world).2 }
  | push {o : OrderRequest} {q : BoundedQueue OrderRequest z.orderCap.val.toNat} (hpc : v.strategy.pc = .pushing o)
      (hq : q.items = v.orderQ.items ++ [o]) : StrategyMove v { v with strategy := v.strategy.pushed, orderQ := q }
  | full {o : OrderRequest} (hpc : v.strategy.pc = .pushing o) : StrategyMove v v

inductive GatewayMove (v : Snapshot z) (tsc : UInt64) : Snapshot z → Prop
  | head (hpc : v.gateway.pc = .loop) :
      GatewayMove v tsc { v with gateway := { v.gateway with pc := if v.world.running then .recv 31 else .stopped } }
  | noReport {k : Nat} (hpc : v.gateway.pc = .recv k) (hrx : v.world.fillRx = []) :
      GatewayMove v tsc { v with gateway := { v.gateway with pc := .orders } }
  | short {k : Nat} {m : List UInt8} {rx : List (List UInt8)} (hpc : v.gateway.pc = .recv k)
      (hrx : v.world.fillRx = m :: rx) (hm : ExecReport.ofDatagram? m = none) :
      GatewayMove v tsc { v with
        gateway := { v.gateway with pc := .orders }
        world := { v.world with fillRx := rx } }
  | report {k : Nat} {m : List UInt8} {rx : List (List UInt8)} {rep : ExecReport} (hpc : v.gateway.pc = .recv k)
      (hrx : v.world.fillRx = m :: rx) (hm : ExecReport.ofDatagram? m = some rep) :
      GatewayMove v tsc { v with
        gateway := (v.gateway.handle k rep { v.world with fillRx := rx }).1
        world := (v.gateway.handle k rep { v.world with fillRx := rx }).2 }
  | push {k : Nat} {rep : ExecReport} {q : BoundedQueue ExecReport z.fillCap.val.toNat}
      (hpc : v.gateway.pc = .report k rep) (hq : q.items = v.fillQ.items ++ [rep]) :
      GatewayMove v tsc { v with gateway := { v.gateway with pc := .after k }, fillQ := q }
  | full {k : Nat} {rep : ExecReport} (hpc : v.gateway.pc = .report k rep) : GatewayMove v tsc v
  | noOrder (hpc : v.gateway.pc = .orders) :
      GatewayMove v tsc { v with gateway := { v.gateway with pc := .loop } }
  | takeOrder {o : OrderRequest} {q : BoundedQueue OrderRequest z.orderCap.val.toNat} (hpc : v.gateway.pc = .orders)
      (hq : v.orderQ.items = o :: q.items) :
      GatewayMove v tsc { v with gateway := { v.gateway with pc := .check o }, orderQ := q }
  | check {o : OrderRequest} (hpc : v.gateway.pc = .check o) :
      GatewayMove v tsc { v with
        gateway := v.gateway.checked v.world.kill tsc o
        world := { v.world with checked := v.world.checked ++ [(o, v.gateway.gateway.risk.position)] } }
  | send {o : OrderRequest} (hpc : v.gateway.pc = .send o) :
      GatewayMove v tsc { v with
        gateway := { pc := .loop, gateway := v.gateway.gateway.record o tsc }
        world := { v.world with sent := v.world.sent ++ [o] } }

def Move (v : Snapshot z) : Label Stage UInt64 Outside → Snapshot z → Prop
  | .thread .feed tsc, v' => v.FeedMove tsc v'
  | .thread .strategy _, v' => v.StrategyMove v'
  | .thread .gateway tsc, v' => v.GatewayMove tsc v'
  | .outside x, v' => ∃ w, v.world.next? x = some w ∧ v' = { v with world := w }

/-! ### The code of each thread -/

section
variable {v : Snapshot z} {tsc : UInt64} {q : QueueName} {d : End}

theorem FeedMove.of_work {k : UInt64 → World → Option (FeedThread × World)} {r : FeedThread × World}
    (hn : FeedThread.next z v.feed = .work k) (hk : k tsc v.world = some r) :
    v.FeedMove tsc { v with feed := r.1, world := r.2 } := by
  unfold FeedThread.next at hn
  split at hn <;> cases hn
  · next hpc =>
    obtain rfl := Option.some.inj hk
    exact .head hpc
  · next hpc =>
    dsimp only at hk
    split at hk
    · next hrx =>
      obtain rfl := Option.some.inj hk
      exact .quiet hpc hrx
    · next d rx hrx =>
      obtain rfl := Option.some.inj hk
      exact .recv hpc hrx
  · next reader arrival hpc =>
    dsimp only at hk
    split at hk
    · next hmore =>
      obtain ⟨⟨msg, reader'⟩, hnext, rfl⟩ := Option.map_eq_some_iff.mp hk
      exact .next hpc hmore hnext
    · next hlast =>
      obtain rfl := Option.some.inj hk
      exact .last hpc (Bool.eq_false_iff.mpr hlast)

/-- The feed handler calls only to push an event. -/
theorem FeedMove.of_call (tsc : UInt64) {own : z.wiring.owner q d = .feed} {a : d.Arg (z.wiring.Payload q)}
    {k : d.Ret (z.wiring.Payload q) → FeedThread} (hn : FeedThread.next z v.feed = .call q d own a k) :
    ∃ ev : MdEvent, ∃ k', FeedThread.next z v.feed = .call .feedQ .push rfl ev k' ∧
      (∀ q' : BoundedQueue MdEvent z.feedCap.val.toNat, q'.items = v.feedQ.items ++ [ev] →
        v.FeedMove tsc { v with feed := k' true, feedQ := q' }) ∧
      v.FeedMove tsc { v with feed := k' false } := by
  have hn' := hn
  unfold FeedThread.next at hn
  split at hn
  case h_4 ev spins reader arrival hpc =>
    cases hn
    exact ⟨ev, _, hn', fun q' hq' => .push hpc hq', .full hpc⟩
  all_goals cases hn

theorem StrategyMove.of_work {k : UInt64 → World → Option (StrategyThread z.ticks × World)}
    {r : StrategyThread z.ticks × World} (hn : StrategyThread.next z v.strategy = .work k)
    (hk : k tsc v.world = some r) : v.StrategyMove { v with strategy := r.1, world := r.2 } := by
  unfold StrategyThread.next at hn
  split at hn <;> cases hn <;> obtain rfl := Option.some.inj hk
  · next hpc => exact .head hpc
  · next k r hpc => exact .fill hpc
  · next ev hpc => exact .event hpc

/-- The strategy calls to pop a report or an event, or to push an order. -/
theorem StrategyMove.of_call {own : z.wiring.owner q d = .strategy} {a : d.Arg (z.wiring.Payload q)}
    {k : d.Ret (z.wiring.Payload q) → StrategyThread z.ticks}
    (hn : StrategyThread.next z v.strategy = .call q d own a k) :
    (∃ k', StrategyThread.next z v.strategy = .call .fillQ .pop rfl () k' ∧
      (∀ x (q' : BoundedQueue ExecReport z.fillCap.val.toNat), v.fillQ.items = x :: q'.items →
        v.StrategyMove { v with strategy := k' (some x), fillQ := q' }) ∧
      v.StrategyMove { v with strategy := k' none }) ∨
    (∃ k', StrategyThread.next z v.strategy = .call .feedQ .pop rfl () k' ∧
      (∀ x (q' : BoundedQueue MdEvent z.feedCap.val.toNat), v.feedQ.items = x :: q'.items →
        v.StrategyMove { v with strategy := k' (some x), feedQ := q' }) ∧
      v.StrategyMove { v with strategy := k' none }) ∨
    ∃ o : OrderRequest, ∃ k', StrategyThread.next z v.strategy = .call .orderQ .push rfl o k' ∧
      (∀ q' : BoundedQueue OrderRequest z.orderCap.val.toNat, q'.items = v.orderQ.items ++ [o] →
        v.StrategyMove { v with strategy := k' true, orderQ := q' }) ∧
      v.StrategyMove { v with strategy := k' false } := by
  have hn' := hn
  unfold StrategyThread.next at hn
  split at hn <;> cases hn
  · next k hpc => exact Or.inl ⟨_, hn', fun x q' hq => .takeFill hpc hq, .noFill hpc⟩
  · next hpc => exact Or.inr (Or.inl ⟨_, hn', fun x q' hq => .takeEvent hpc hq, .noEvent hpc⟩)
  · next o hpc => exact Or.inr (Or.inr ⟨o, _, hn', fun q' hq => .push hpc hq, .full hpc⟩)

theorem GatewayMove.of_work {k : UInt64 → World → Option (GatewayThread z.flightCap × World)}
    {r : GatewayThread z.flightCap × World} (hn : GatewayThread.next z v.gateway = .work k)
    (hk : k tsc v.world = some r) : v.GatewayMove tsc { v with gateway := r.1, world := r.2 } := by
  unfold GatewayThread.next at hn
  split at hn <;> cases hn
  · next hpc =>
    obtain rfl := Option.some.inj hk
    exact .head hpc
  · next k hpc =>
    dsimp only at hk
    split at hk
    · next hrx =>
      obtain rfl := Option.some.inj hk
      exact .noReport hpc hrx
    · next m rx hrx =>
      split at hk
      · next hm =>
        obtain rfl := Option.some.inj hk
        exact .short hpc hrx hm
      · next rep hm =>
        obtain rfl := Option.some.inj hk
        exact .report hpc hrx hm
  · next o hpc =>
    obtain rfl := Option.some.inj hk
    exact .check hpc
  · next o hpc =>
    obtain rfl := Option.some.inj hk
    exact .send hpc

/-- The gateway calls to push a report or to pop an order. -/
theorem GatewayMove.of_call (tsc : UInt64) {own : z.wiring.owner q d = .gateway} {a : d.Arg (z.wiring.Payload q)}
    {k : d.Ret (z.wiring.Payload q) → GatewayThread z.flightCap}
    (hn : GatewayThread.next z v.gateway = .call q d own a k) :
    (∃ rep : ExecReport, ∃ k', GatewayThread.next z v.gateway = .call .fillQ .push rfl rep k' ∧
      (∀ q' : BoundedQueue ExecReport z.fillCap.val.toNat, q'.items = v.fillQ.items ++ [rep] →
        v.GatewayMove tsc { v with gateway := k' true, fillQ := q' }) ∧
      v.GatewayMove tsc { v with gateway := k' false }) ∨
    ∃ k', GatewayThread.next z v.gateway = .call .orderQ .pop rfl () k' ∧
      (∀ x (q' : BoundedQueue OrderRequest z.orderCap.val.toNat), v.orderQ.items = x :: q'.items →
        v.GatewayMove tsc { v with gateway := k' (some x), orderQ := q' }) ∧
      v.GatewayMove tsc { v with gateway := k' none } := by
  have hn' := hn
  unfold GatewayThread.next at hn
  split at hn <;> cases hn
  · next k rep hpc => exact Or.inl ⟨rep, _, hn', fun q' hq => .push hpc hq, .full hpc⟩
  · next hpc => exact Or.inr ⟨_, hn', fun x q' hq => .takeOrder hpc hq, .noOrder hpc⟩

end

/-! ### Every step over plain queues is one of these -/

variable {s t : Stages z} {tsc : UInt64}

theorem feedMove (hs : s.Step (.thread .feed tsc) t) : s.snapshot.FeedMove tsc t.snapshot := by
  cases hs.move with
  | work hn hk => exact FeedMove.of_work (v := s.snapshot) hn hk
  | call hn hr =>
    obtain ⟨ev, k', hn', htrue, hfalse⟩ := FeedMove.of_call (v := s.snapshot) tsc hn
    cases hn.symm.trans hn'
    rcases BoundedQueue.offer_cases s.feedQ ev with ⟨-, hoffer⟩ | ⟨q', -, hitems, hoffer⟩
    · cases hr.symm.trans hoffer
      exact hfalse
    · cases hr.symm.trans hoffer
      exact htrue q' hitems

theorem strategyMove (hs : s.Step (.thread .strategy tsc) t) : s.snapshot.StrategyMove t.snapshot := by
  cases hs.move with
  | work hn hk => exact StrategyMove.of_work (v := s.snapshot) hn hk
  | call hn hr =>
    rcases StrategyMove.of_call (v := s.snapshot) hn with ⟨k', hn', hsome, hnone⟩ | ⟨k', hn', hsome, hnone⟩ |
      ⟨o, k', hn', htrue, hfalse⟩
    · cases hn.symm.trans hn'
      rcases BoundedQueue.poll_cases s.fillQ with ⟨-, hpoll⟩ | ⟨x, q', hitems, hpoll⟩
      · cases hr.symm.trans hpoll
        exact hnone
      · cases hr.symm.trans hpoll
        exact hsome x q' hitems
    · cases hn.symm.trans hn'
      rcases BoundedQueue.poll_cases s.feedQ with ⟨-, hpoll⟩ | ⟨x, q', hitems, hpoll⟩
      · cases hr.symm.trans hpoll
        exact hnone
      · cases hr.symm.trans hpoll
        exact hsome x q' hitems
    · cases hn.symm.trans hn'
      rcases BoundedQueue.offer_cases s.orderQ o with ⟨-, hoffer⟩ | ⟨q', -, hitems, hoffer⟩
      · cases hr.symm.trans hoffer
        exact hfalse
      · cases hr.symm.trans hoffer
        exact htrue q' hitems

theorem gatewayMove (hs : s.Step (.thread .gateway tsc) t) : s.snapshot.GatewayMove tsc t.snapshot := by
  cases hs.move with
  | work hn hk => exact GatewayMove.of_work (v := s.snapshot) hn hk
  | call hn hr =>
    rcases GatewayMove.of_call (v := s.snapshot) tsc hn with ⟨rep, k', hn', htrue, hfalse⟩ |
      ⟨k', hn', hsome, hnone⟩
    · cases hn.symm.trans hn'
      rcases BoundedQueue.offer_cases s.fillQ rep with ⟨-, hoffer⟩ | ⟨q', -, hitems, hoffer⟩
      · cases hr.symm.trans hoffer
        exact hfalse
      · cases hr.symm.trans hoffer
        exact htrue q' hitems
    · cases hn.symm.trans hn'
      rcases BoundedQueue.poll_cases s.orderQ with ⟨-, hpoll⟩ | ⟨x, q', hitems, hpoll⟩
      · cases hr.symm.trans hpoll
        exact hnone
      · cases hr.symm.trans hpoll
        exact hsome x q' hitems

theorem move_of_step {l : Label Stage UInt64 Outside} (hs : s.Step l t) : s.snapshot.Move l t.snapshot := by
  match l with
  | .thread .feed tsc => exact feedMove hs
  | .thread .strategy tsc => exact strategyMove hs
  | .thread .gateway tsc => exact gatewayMove hs
  | .outside x =>
    cases hs.move with
    | outside hx => exact ⟨_, hx, rfl⟩

end Snapshot

end Hft
