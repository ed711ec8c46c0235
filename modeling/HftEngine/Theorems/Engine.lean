import HftEngine.Engine
import HftEngine.Theorems.OrderLoop
import HftEngine.Theorems.OrderGateway
import HftEngine.Theorems.Strategy

/-! The engine refines the order loop: at every moment its queues, its in-flight table and its latch hold exactly
    what the phase of one order says, and each poll is a few events of the loop. -/

namespace Hft.Engine

open Transition

variable {z : EngineSizes} {cfg : EngineConfig} {s t : Engine z} {e : EngineEvent} {a b : OrderLoop}
  {now sendT : UInt64}

/-! ### The relation -/

/-- The concrete state of the loop in each phase. -/
structure Tracks (s : Engine z) (a : OrderLoop) : Prop where
  latch : s.inFlight = a.phase.inFlight
  orderQ : s.orderQ.items = a.phase.unchecked
  fillQ : s.fillQ.items = a.phase.reports
  table : s.gateway.Holds a.phase.working?
  rejected : s.gateway.riskRejected = a.phase.rejections
  last : ∀ o, a.phase.order? = some o → o.orderId = s.strategy.strat.lastOrderId
  reported : ∀ r ∈ a.phase.reports, r.orderId = s.strategy.strat.lastOrderId
  strategyPos : s.position = a.strategyPos
  gatePos : s.gatePosition = a.gatePos
  emitted : s.emitted = a.emitted
  checked : s.checked = a.checked
  sent : s.sent = a.sent

/-- What never changes, and where the datagrams and the kill switch come from. -/
structure Configured (cfg : EngineConfig) (s : Engine z) : Prop where
  orderSize : s.strategy.strat.orderSize = cfg.strategy.orderSize
  limits : s.gateway.risk.limits = (cfg.risk.maxPosition, cfg.risk.maxOrderSize, cfg.cyclesPerToken)
  rx : ∀ m ∈ s.fillRx, m ∈ s.arrived
  killed : s.kill = true → true ∈ s.kills

theorem tracks_start : Tracks (start z cfg) {} where
  latch := rfl
  orderQ := rfl
  fillQ := rfl
  table := OrderGateway.holds_new
  rejected := rfl
  last _ h := by cases h
  reported _ h := by cases h
  strategyPos := rfl
  gatePos := rfl
  emitted := rfl
  checked := rfl
  sent := rfl

theorem configured_start : Configured cfg (start z cfg) where
  orderSize := rfl
  limits := rfl
  rx _ h := by cases h
  killed h := by cases h

theorem Tracks.queued {o : OrderRequest} (h : Tracks s a) (ho : o ∈ s.orderQ.items) : a.phase = .queued o := by
  rw [h.orderQ] at ho
  cases hp : a.phase with
  | queued o' =>
    rw [hp] at ho
    rw [List.mem_singleton.mp ho]
  | idle | working | reported | dropped =>
    rw [hp] at ho
    cases ho

theorem Configured.maxPosition (hc : Configured cfg s) : s.gateway.risk.maxPosition = cfg.risk.maxPosition :=
  congrArg Prod.fst hc.limits

theorem Configured.maxOrderSize (hc : Configured cfg s) : s.gateway.risk.maxOrderSize = cfg.risk.maxOrderSize :=
  congrArg (fun l => l.2.1) hc.limits

theorem Configured.cyclesPerToken (hc : Configured cfg s) : s.gateway.risk.cyclesPerToken = cfg.cyclesPerToken :=
  congrArg (fun l => l.2.2) hc.limits

/-! ### A gateway poll -/

/-- A gateway poll is one event of the loop at most: it takes a queued order through the gate, or the report of the
    working order to the strategy. -/
inductive GatewayMove (s : Engine z) (now : UInt64) (a : OrderLoop) : OrderLoop → Prop
  | pass {o : OrderRequest} (hp : a.phase = .queued o) (hadm : s.gateway.risk.Admits s.kill now o) :
      GatewayMove s now a (a.pass o)
  | drop {o : OrderRequest} (hp : a.phase = .queued o) (hadm : ¬s.gateway.risk.Admits s.kill now o) :
      GatewayMove s now a (a.drop o)
  | report {o : OrderRequest} {r : ExecReport} (hp : a.phase = .working o) (hid : r.orderId = o.orderId)
      (hm : ∃ m ∈ s.fillRx, ExecReport.ofDatagram? m = some r) : GatewayMove s now a (a.report o r)
  | stay (hq : ∀ o, a.phase ≠ .queued o) : GatewayMove s now a a

structure GatewayKept (s t : Engine z) : Prop where
  strategy : t.strategy = s.strategy
  emitted : t.emitted = s.emitted
  rx : ∀ m ∈ t.fillRx, m ∈ s.fillRx
  arrived : t.arrived = s.arrived
  kill : t.kill = s.kill
  kills : t.kills = s.kills
  limits : t.gateway.risk.limits = s.gateway.risk.limits

theorem GatewayKept.configured (h : GatewayKept s t) (hc : Configured cfg s) : Configured cfg t where
  orderSize := by rw [h.strategy]; exact hc.orderSize
  limits := h.limits.trans hc.limits
  rx m hm := by rw [h.arrived]; exact hc.rx m (h.rx m hm)
  killed hk := by rw [h.kills]; exact hc.killed (h.kill ▸ hk)

theorem gatewayPoll?_of_drain (now sendT : UInt64) {g : OrderGateway z.flightCap} {rx : List (List UInt8)}
    {fills : BoundedQueue ExecReport z.fillCap.val.toNat}
    (hd : OrderGateway.drainFills 32 s.gateway s.fillRx s.fillQ = some (g, rx, fills)) :
    s.gatewayPoll? now sendT = some (s.afterGateway (g.pollOrder s.kill now sendT rx s.orderQ fills)) := by
  simp only [gatewayPoll?, OrderGateway.pollOnce, hd, Option.bind_eq_bind, Option.bind_some, Option.pure_def,
    Option.map_some]

theorem Tracks.afterCheck {g : OrderGateway z.flightCap} {rx : List (List UInt8)} {o : OrderRequest}
    {w : Option OrderRequest} {n : UInt64}
    {p : OrderGateway.Polled z.flightCap z.orderCap.val.toNat z.fillCap.val.toNat} (h : Tracks s a)
    (hp : a.phase = .queued o) (hk : OrderGateway.Checked g rx s.fillQ o w n p) (hrisk : g.risk = s.gateway.risk)
    (hrej : g.riskRejected = s.gateway.riskRejected)
    (hb : b = a.pass o ∧ w = some o ∧ n = 0 ∨ b = a.drop o ∧ w = none ∧ n = 1) : Tracks (s.afterGateway p) b := by
  obtain ⟨hlatch, -, hfillQ, -, hrejected, hlast, -, hstrat, hgate, hemitted, hchecked, hsent⟩ := h
  rw [hp] at hlatch hfillQ hrejected hlast
  have hrejections : p.gateway.riskRejected = n := by rw [hk.rejected, hrej, hrejected]; exact UInt64.zero_add n
  have hpos : p.gateway.risk.position = a.gatePos := by rw [hk.position, hrisk]; exact hgate
  have hlog : s.checked ++ p.checked.toList = a.checked ++ [(o, a.gatePos)] := by
    rw [hk.checked, hrisk, hchecked, ← hgate]
    rfl
  have hwire : s.sent ++ p.wire.toList = a.sent ++ w.toList := by rw [hk.wire, hsent]
  have hfills : p.fills.items = [] := by rw [hk.fills]; exact hfillQ
  rcases hb with ⟨rfl, rfl, rfl⟩ | ⟨rfl, rfl, rfl⟩
  · exact ⟨hlatch, hk.orders, hfills, hk.table, hrejections, hlast, fun _ hr => (by cases hr), hstrat, hpos, hemitted,
      hlog, hwire⟩
  · exact ⟨hlatch, hk.orders, hfills, hk.table, hrejections, hlast, fun _ hr => (by cases hr), hstrat, hpos, hemitted,
      hlog, hwire.trans (List.append_nil _)⟩

/-- A queued order goes through the gate or is dropped there; no report can match before. -/
theorem Tracks.gatewayPoll_queued {o : OrderRequest} (h : Tracks s a) (hp : a.phase = .queued o) :
    ∃ t b, s.gatewayPoll? now sendT = some t ∧ GatewayMove s now a b ∧ Tracks t b ∧ GatewayKept s t := by
  have htable := h.table
  have horderQ := h.orderQ
  rw [hp] at htable horderQ
  obtain ⟨g, rx, hdrain, hrx, hnone, hrisk, hrej⟩ := OrderGateway.drainFills_none 32 s.fillRx s.fillQ htable
  have hpoll := gatewayPoll?_of_drain now sendT hdrain
  by_cases hadm : s.gateway.risk.Admits s.kill now o
  · have hpass := OrderGateway.pollOrder_pass sendT rx s.fillQ horderQ (hrisk ▸ hadm) hnone
    exact ⟨_, _, hpoll, .pass hp hadm, h.afterCheck hp hpass hrisk hrej (Or.inl ⟨rfl, rfl, rfl⟩), rfl, rfl,
      fun m hm => hrx m (hpass.rx ▸ hm), rfl, rfl, rfl, hpass.limits.trans (congrArg _ hrisk)⟩
  · have hdrop := OrderGateway.pollOrder_drop sendT rx s.fillQ horderQ (hrisk ▸ hadm) hnone
    exact ⟨_, _, hpoll, .drop hp hadm, h.afterCheck hp hdrop hrisk hrej (Or.inr ⟨rfl, rfl, rfl⟩), rfl, rfl,
      fun m hm => hrx m (hdrop.rx ▸ hm), rfl, rfl, rfl, hdrop.limits.trans (congrArg _ hrisk)⟩

def afterIntake (s : Engine z) (g : OrderGateway z.flightCap) (rx : List (List UInt8))
    (fills : BoundedQueue ExecReport z.fillCap.val.toNat) : Engine z :=
  { s with gateway := g, fillRx := rx, fillQ := fills }

theorem gatewayPoll?_of_intake (now sendT : UInt64) {g : OrderGateway z.flightCap} {rx : List (List UInt8)}
    {fills : BoundedQueue ExecReport z.fillCap.val.toNat}
    (hd : OrderGateway.drainFills 32 s.gateway s.fillRx s.fillQ = some (g, rx, fills)) (ho : s.orderQ.items = []) :
    s.gatewayPoll? now sendT = some (s.afterIntake g rx fills) := by
  rw [gatewayPoll?_of_drain now sendT hd, OrderGateway.pollOrder_empty ho]
  simp [afterGateway, afterIntake]

theorem Tracks.afterIntake_unmatched {g : OrderGateway z.flightCap} {rx : List (List UInt8)} (h : Tracks s a)
    (htable : g.Holds a.phase.working?) (hrisk : g.risk = s.gateway.risk)
    (hrej : g.riskRejected = s.gateway.riskRejected) : Tracks (s.afterIntake g rx s.fillQ) a where
  latch := h.latch
  orderQ := h.orderQ
  fillQ := h.fillQ
  table := htable
  rejected := hrej.trans h.rejected
  last := h.last
  reported := h.reported
  strategyPos := h.strategyPos
  gatePos := (congrArg RiskGate.position hrisk).trans h.gatePos
  emitted := h.emitted
  checked := h.checked
  sent := h.sent

/-- While an order works, at most its report moves on. -/
theorem Tracks.gatewayPoll_working {o : OrderRequest} (h : Tracks s a) (hp : a.phase = .working o) :
    ∃ t b, s.gatewayPoll? now sendT = some t ∧ GatewayMove s now a b ∧ Tracks t b ∧ GatewayKept s t := by
  have hcap : 0 < z.fillCap.val.toNat := UInt64.lt_iff_toNat_lt.mp z.fillCap.pos
  have htable := h.table
  have hfillQ := h.fillQ
  have horderQ := h.orderQ
  rw [hp] at htable hfillQ horderQ
  obtain ⟨g, rx, fills, hdrain, hrx, hrej, hcase⟩ := OrderGateway.drainFills_some 32 s.fillRx htable hcap hfillQ
  have hpoll := gatewayPoll?_of_intake now sendT hdrain horderQ
  rcases hcase with ⟨rfl, hrisk, hholds⟩ | ⟨r, hid, hm, hitems, hnone, hrisk⟩
  · have hstay : ∀ o', a.phase ≠ .queued o' := by simp [hp]
    exact ⟨_, a, hpoll, .stay hstay, h.afterIntake_unmatched (by rwa [hp]) hrisk hrej, rfl, rfl, hrx, rfl, rfl, rfl,
      congrArg RiskGate.limits hrisk⟩
  · obtain ⟨hlatch, -, -, -, hrejected, hlast, -, hstrat, hgate, hemitted, hchecked, hsent⟩ := h
    rw [hp] at hlatch hrejected hlast
    have hlast' : r.orderId = s.strategy.strat.lastOrderId := hid.trans (hlast o rfl)
    have hpos : g.risk.position = a.gatePos + r.signedFill := by
      rw [hrisk, RiskGate.onFill_position, ← hgate]
      rfl
    refine ⟨_, a.report o r, hpoll, .report hp hid hm, ?_, rfl, rfl, hrx, rfl, rfl, rfl, ?_⟩
    · exact ⟨hlatch, horderQ, hitems, hnone, hrej.trans hrejected, hlast,
        fun _ hr => List.mem_singleton.mp hr ▸ hlast', hstrat, hpos, hemitted, hchecked, hsent⟩
    · exact (congrArg RiskGate.limits hrisk).trans RiskGate.onFill_limits

theorem Tracks.gatewayPoll_quiet (h : Tracks s a) (hq : ∀ o, a.phase ≠ .queued o) (hw : a.phase.working? = none) :
    ∃ t b, s.gatewayPoll? now sendT = some t ∧ GatewayMove s now a b ∧ Tracks t b ∧ GatewayKept s t := by
  have htable := h.table
  rw [hw] at htable
  have horderQ : s.orderQ.items = [] := by
    rw [h.orderQ]
    cases hp : a.phase with
    | queued o => exact absurd hp (hq o)
    | idle | working | reported | dropped => rfl
  obtain ⟨g, rx, hdrain, hrx, hnone, hrisk, hrej⟩ := OrderGateway.drainFills_none 32 s.fillRx s.fillQ htable
  have hpoll := gatewayPoll?_of_intake now sendT hdrain horderQ
  exact ⟨_, a, hpoll, .stay hq, h.afterIntake_unmatched (hw ▸ hnone) hrisk hrej, rfl, rfl, hrx, rfl, rfl, rfl,
    congrArg RiskGate.limits hrisk⟩

/-- A gateway poll never waits, and it is at most one event of the loop. -/
theorem Tracks.gatewayPoll (h : Tracks s a) (now sendT : UInt64) :
    ∃ t b, s.gatewayPoll? now sendT = some t ∧ GatewayMove s now a b ∧ Tracks t b ∧ GatewayKept s t := by
  cases hp : a.phase with
  | queued o => exact h.gatewayPoll_queued hp
  | working o => exact h.gatewayPoll_working hp
  | idle | reported | dropped => exact h.gatewayPoll_quiet (by simp [hp]) (by rw [hp]; rfl)

/-! ### A strategy poll -/

structure StrategyKept (s t : Engine z) : Prop where
  gateway : t.gateway = s.gateway
  checked : t.checked = s.checked
  sent : t.sent = s.sent
  fillRx : t.fillRx = s.fillRx
  arrived : t.arrived = s.arrived
  kill : t.kill = s.kill
  kills : t.kills = s.kills
  orderSize : t.strategy.strat.orderSize = s.strategy.strat.orderSize

theorem StrategyKept.configured (h : StrategyKept s t) (hc : Configured cfg s) : Configured cfg t where
  orderSize := h.orderSize.trans hc.orderSize
  limits := by rw [h.gateway]; exact hc.limits
  rx m hm := by rw [h.arrived]; exact hc.rx m (h.fillRx ▸ hm)
  killed hk := by rw [h.kills]; exact hc.killed (h.kill ▸ hk)

def afterFills (s : Engine z) (strat : ImbalanceStrategy z.ticks)
    (fills : BoundedQueue ExecReport z.fillCap.val.toNat) : Engine z :=
  { s with strategy := { s.strategy with strat }, fillQ := fills }

def feedPoll? (s : Engine z) : Option (Engine z) :=
  (StrategyRunner.pollFeed s.strategy s.feedQ s.orderQ s.fillQ).map s.afterStrategy

theorem strategyPoll?_of_drain {strat : ImbalanceStrategy z.ticks} {fills : BoundedQueue ExecReport z.fillCap.val.toNat}
    (hd : StrategyRunner.drainFills 16 s.strategy.strat s.fillQ = (strat, fills)) :
    s.strategyPoll? = (s.afterFills strat fills).feedPoll? := by
  simp only [strategyPoll?, feedPoll?, StrategyRunner.pollOnce, hd]
  rfl

/-- The report in the queue, if any, reaches the strategy and opens the latch. -/
theorem Tracks.fills (h : Tracks s a) :
    ∃ strat fills evs b, StrategyRunner.drainFills 16 s.strategy.strat s.fillQ = (strat, fills) ∧
      Run OrderLoop.Step a evs b ∧ (∀ p ∈ evs, p.2 = .deliver) ∧ Tracks (s.afterFills strat fills) b ∧
      strat.orderSize = s.strategy.strat.orderSize := by
  have hfillQ := h.fillQ
  cases hp : a.phase with
  | idle | queued | working | dropped =>
    rw [hp] at hfillQ
    exact ⟨_, _, [], a, StrategyRunner.drainFills_nil hfillQ, .nil, by simp, h, rfl⟩
  | reported o r =>
    obtain ⟨-, horderQ, -, htable, hrejected, -, -, hstrat, hgate, hemitted, hchecked, hsent⟩ := h
    rw [hp] at hfillQ horderQ htable hrejected
    obtain ⟨fills, hdrain, hitems⟩ := StrategyRunner.drainFills_single (k := 15) hfillQ
    have hpos : (s.strategy.strat.onFill r).position = a.strategyPos + r.signedFill := by
      rw [← hstrat]
      rfl
    refine ⟨_, fills, _, a.deliver r, hdrain, Run.nil.snoc (.deliver hp), by simp, ?_, rfl⟩
    exact ⟨rfl, horderQ, hitems, htable, hrejected, fun _ ho => (by cases ho), fun _ hr => (by cases hr), hpos, hgate,
      hemitted, hchecked, hsent⟩

/-- Market data takes out one order at most, and only from an idle loop. -/
theorem Tracks.feedPoll (h : Tracks s a) :
    ∃ t, s.feedPoll? = some t ∧ StrategyKept s t ∧
      (Tracks t a ∨ ∃ o, a.phase = .idle ∧ OrderLoop.Wants a.strategyPos o ∧
        o.size = s.strategy.strat.orderSize ∧ Tracks t (a.emit o)) := by
  have hcap : 0 < z.orderCap.val.toNat := UInt64.lt_iff_toNat_lt.mp z.orderCap.pos
  have hidle : s.strategy.strat.inFlight = false → a.phase = .idle := fun hfree =>
    Phase.idle_of_inFlight (h.latch.symm.trans hfree)
  have horders : s.strategy.strat.inFlight = false → s.orderQ.items = [] := fun hfree => by
    rw [h.orderQ, hidle hfree]
    rfl
  obtain ⟨p, hpoll, hfills, hcase⟩ := StrategyRunner.pollFeed_cases s.feedQ s.fillQ hcap horders
  refine ⟨s.afterStrategy p, by rw [feedPoll?, hpoll]; rfl, ?_⟩
  rcases hcase with ⟨hnone, hkeep, hkept⟩ | ⟨o, hsome, hitems, hemits⟩
  · refine ⟨⟨rfl, rfl, rfl, rfl, rfl, rfl, rfl, hkept.orderSize⟩, Or.inl ?_⟩
    have hlog : s.emitted ++ p.emitted.toList.map (fun o => (o, p.runner.strat.position)) = a.emitted := by
      rw [hnone, h.emitted]
      exact List.append_nil _
    exact ⟨hkept.inFlight.trans h.latch, (congrArg _ hkeep).trans h.orderQ, (congrArg _ hfills).trans h.fillQ, h.table,
      h.rejected, fun o ho => (h.last o ho).trans hkept.lastOrderId.symm,
      fun r hr => (h.reported r hr).trans hkept.lastOrderId.symm, hkept.position.trans h.strategyPos, h.gatePos, hlog,
      h.checked, h.sent⟩
  · have hp := hidle hemits.free
    obtain ⟨-, -, hfillQ, htable, hrejected, -, -, hstrat, hgate, hemitted, hchecked, hsent⟩ := h
    rw [hp] at hfillQ htable hrejected
    have hlog : s.emitted ++ p.emitted.toList.map (fun o => (o, p.runner.strat.position)) =
        a.emitted ++ [(o, a.strategyPos)] := by
      rw [hsome, hemitted, ← hstrat, hemits.position]
      rfl
    refine ⟨⟨rfl, rfl, rfl, rfl, rfl, rfl, rfl, hemits.orderSize⟩,
      Or.inr ⟨o, hp, hstrat ▸ hemits.wants, hemits.size, ?_⟩⟩
    exact ⟨hemits.latched, hitems, (congrArg _ hfills).trans hfillQ, htable, hrejected,
      fun o' ho' => Option.some.inj ho' ▸ hemits.lastOrderId.symm, fun _ hr => (by cases hr),
      hemits.position.trans hstrat, hgate, hlog, hchecked, hsent⟩

/-- A strategy poll never waits: it delivers a report, takes an order out, both in turn, or does nothing. -/
theorem Tracks.strategyPoll (h : Tracks s a) :
    ∃ t evs b, s.strategyPoll? = some t ∧ StrategyKept s t ∧ Run OrderLoop.Step a evs b ∧ Tracks t b ∧
      ∀ p ∈ evs, p.2 = .deliver ∨ ∃ o, p.2 = .emit o ∧ o.size = s.strategy.strat.orderSize := by
  obtain ⟨strat, fills, evs, b, hdrain, hr, hdeliver, htracks, hsize⟩ := h.fills
  obtain ⟨t, hpoll, hkept, hcase⟩ := htracks.feedPoll
  have hkept' : StrategyKept s t := ⟨hkept.gateway, hkept.checked, hkept.sent, hkept.fillRx, hkept.arrived, hkept.kill,
    hkept.kills, hkept.orderSize.trans hsize⟩
  have hpoll' := (strategyPoll?_of_drain hdrain).trans hpoll
  rcases hcase with hsame | ⟨o, hp, hwants, ho, hemit⟩
  · exact ⟨t, evs, b, hpoll', hkept', hr, hsame, fun p hp => Or.inl (hdeliver p hp)⟩
  · refine ⟨t, _, _, hpoll', hkept', hr.snoc (.emit hp hwants), hemit, fun p hp => ?_⟩
    rcases List.mem_append.mp hp with hp | hp
    · exact Or.inl (hdeliver p hp)
    · rw [List.mem_singleton.mp hp]
      exact Or.inr ⟨o, rfl, ho.trans hsize⟩

/-! ### Any step -/

/-- What market data, a datagram, the kill switch or a stop leaves alone. -/
structure Outside (s t : Engine z) : Prop where
  strategy : t.strategy = s.strategy
  gateway : t.gateway = s.gateway
  orderQ : t.orderQ = s.orderQ
  fillQ : t.fillQ = s.fillQ
  emitted : t.emitted = s.emitted
  checked : t.checked = s.checked
  sent : t.sent = s.sent
  rx : ∀ m ∈ t.fillRx, m ∈ s.fillRx ∨ m ∈ t.arrived
  killed : t.kill = true → s.kill = true ∨ true ∈ t.kills

theorem Outside.tracks (h : Outside s t) (ht : Tracks s a) : Tracks t a := by
  obtain ⟨hstrategy, hgateway, horderQ, hfillQ, hemitted, hchecked, hsent, -, -⟩ := h
  obtain ⟨hlatch, hqueued, hreports, htable, hrejected, hlast, hreported, hstrat, hgate, hlog, hlog', hlog''⟩ := ht
  unfold inFlight position gatePosition at *
  rw [← hstrategy] at hlatch hlast hreported hstrat
  rw [← hgateway] at htable hrejected hgate
  exact ⟨hlatch, horderQ ▸ hqueued, hfillQ ▸ hreports, htable, hrejected, hlast, hreported, hstrat, hgate,
    hemitted.trans hlog, hchecked.trans hlog', hsent.trans hlog''⟩

structure Grows (s t : Engine z) : Prop where
  arrived : ∀ m ∈ s.arrived, m ∈ t.arrived
  kills : ∀ b ∈ s.kills, b ∈ t.kills

theorem Outside.configured (h : Outside s t) (hg : Grows s t) (hc : Configured cfg s) : Configured cfg t where
  orderSize := by rw [h.strategy]; exact hc.orderSize
  limits := by rw [h.gateway]; exact hc.limits
  rx m hm := (h.rx m hm).elim (fun hm => hg.arrived m (hc.rx m hm)) id
  killed hk := (h.killed hk).elim (fun hk => hg.kills _ (hc.killed hk)) id

/-- A step is a poll of one stage, or it comes from outside. -/
theorem step_cases (hs : Step s e t) :
    (e = .strategyPoll ∧ s.strategyPoll? = some t) ∨
    (∃ now sendT, e = .gatewayPoll now sendT ∧ s.gatewayPoll? now sendT = some t) ∨
    ((∀ now sendT, e ≠ .gatewayPoll now sendT) ∧ Outside s t ∧ Grows s t) := by
  cases e with
  | strategyPoll =>
    obtain ⟨-, hs⟩ := Option.ite_none_right_eq_some.mp hs
    exact Or.inl ⟨rfl, hs⟩
  | gatewayPoll now sendT =>
    obtain ⟨-, hs⟩ := Option.ite_none_right_eq_some.mp hs
    exact Or.inr (Or.inl ⟨now, sendT, rfl, hs⟩)
  | md ev =>
    obtain ⟨feedQ, -, rfl⟩ := Option.map_eq_some_iff.mp hs
    exact Or.inr (Or.inr ⟨fun _ _ h => (by cases h), ⟨rfl, rfl, rfl, rfl, rfl, rfl, rfl, fun _ => Or.inl, Or.inl⟩,
      fun _ => id, fun _ => id⟩)
  | datagram m =>
    cases hs
    refine Or.inr (Or.inr ⟨fun _ _ h => (by cases h), ⟨rfl, rfl, rfl, rfl, rfl, rfl, rfl, fun m' hm' => ?_, Or.inl⟩,
      fun _ => List.mem_append_left _, fun _ => id⟩)
    exact (List.mem_append.mp hm').imp id (List.mem_append_right _)
  | setKill b =>
    cases hs
    refine Or.inr (Or.inr ⟨fun _ _ h => (by cases h), ⟨rfl, rfl, rfl, rfl, rfl, rfl, rfl, fun _ => Or.inl, ?_⟩,
      fun _ => id, fun _ => List.mem_append_left _⟩)
    rintro rfl
    exact Or.inr (List.mem_append_right _ (List.mem_singleton_self _))
  | stop =>
    cases hs
    exact Or.inr (Or.inr ⟨fun _ _ h => (by cases h), ⟨rfl, rfl, rfl, rfl, rfl, rfl, rfl, fun _ => Or.inl, Or.inl⟩,
      fun _ => id, fun _ => id⟩)
  | strategyExit | gatewayExit =>
    obtain ⟨-, hs⟩ := Option.ite_none_left_eq_some.mp hs
    cases hs
    exact Or.inr (Or.inr ⟨fun _ _ h => (by cases h), ⟨rfl, rfl, rfl, rfl, rfl, rfl, rfl, fun _ => Or.inl, Or.inl⟩,
      fun _ => id, fun _ => id⟩)

/-! ### Runs -/

/-- What the record of the engine says about an event of the loop. -/
def Recorded (cfg : EngineConfig) (s : Engine z) (a : OrderLoop) : LoopEvent → Prop
  | .emit o => o.size = cfg.strategy.orderSize
  | .pass => OrderLoop.PassesInBand cfg.risk.maxPosition a .pass
  | .drop => ∀ o, a.phase = .queued o → true ∈ s.kills ∨ (o.size = 0 ∨ o.size > cfg.risk.maxOrderSize) ∨
      (a.gatePos + o.signedSize < -cfg.risk.maxPosition ∨ a.gatePos + o.signedSize > cfg.risk.maxPosition) ∨
      cfg.cyclesPerToken ≠ 0
  | .report r => ∃ m ∈ s.arrived, ExecReport.ofDatagram? m = some r
  | .deliver => True

theorem Recorded.mono {ev : LoopEvent} (h : Recorded cfg s a ev) (hg : Grows s t) : Recorded cfg t a ev := by
  cases ev with
  | emit | pass | deliver => exact h
  | drop => exact fun o ho => (h o ho).imp (hg.kills _) id
  | report r =>
    obtain ⟨m, hm, hdec⟩ := h
    exact ⟨m, hg.arrived m hm, hdec⟩

theorem not_admits {o : OrderRequest} (h : Tracks s a) (hc : Configured cfg s)
    (hadm : ¬s.gateway.risk.Admits s.kill now o) : true ∈ s.kills ∨ (o.size = 0 ∨ o.size > cfg.risk.maxOrderSize) ∨
      (a.gatePos + o.signedSize < -cfg.risk.maxPosition ∨ a.gatePos + o.signedSize > cfg.risk.maxPosition) ∨
      cfg.cyclesPerToken ≠ 0 := by
  by_contra hnone
  simp only [not_or, UInt32.not_lt, Int.not_lt, ne_eq, not_not] at hnone
  obtain ⟨hkill, hsize, hband, hrate⟩ := hnone
  have hproj : s.gateway.risk.projected o = a.gatePos + o.signedSize := by rw [← h.gatePos]; rfl
  apply hadm
  unfold RiskGate.Admits
  rw [hproj, hc.maxPosition, hc.maxOrderSize, hc.cyclesPerToken]
  exact ⟨Bool.eq_false_iff.mpr fun hk => hkill (hc.killed hk), hsize, hband, Or.inl hrate⟩

theorem GatewayMove.run (hm : GatewayMove s now a b) (h : Tracks s a) (hc : Configured cfg s) :
    ∃ evs, Run OrderLoop.Step a evs b ∧ ∀ p ∈ evs, Recorded cfg s p.1 p.2 := by
  cases hm with
  | @pass o hp hadm =>
    refine ⟨_, Run.nil.snoc (.pass hp), fun p hmem => ?_⟩
    obtain rfl := List.mem_singleton.mp hmem
    intro o' ho'
    obtain rfl : o = o' := by simpa [hp] using ho'
    have hproj : s.gateway.risk.projected o = a.gatePos + o.signedSize := by rw [← h.gatePos]; rfl
    have hband := hadm.2.2.1
    rwa [hproj, hc.maxPosition] at hband
  | @drop o hp hadm =>
    refine ⟨_, Run.nil.snoc (.drop hp), fun p hmem => ?_⟩
    obtain rfl := List.mem_singleton.mp hmem
    intro o' ho'
    obtain rfl : o = o' := by simpa [hp] using ho'
    exact not_admits h hc hadm
  | @report o r hp hid hm =>
    obtain ⟨m, hm, hdec⟩ := hm
    refine ⟨_, Run.nil.snoc (.report hp hid), fun p hmem => ?_⟩
    obtain rfl := List.mem_singleton.mp hmem
    exact ⟨m, hc.rx m hm, hdec⟩
  | stay => exact ⟨[], .nil, by simp⟩

theorem Tracks.step (h : Tracks s a) (hc : Configured cfg s) (hs : Step s e t) :
    Grows s t ∧ Configured cfg t ∧ ∃ evs b, Run OrderLoop.Step a evs b ∧ Tracks t b ∧
      ∀ p ∈ evs, Recorded cfg t p.1 p.2 := by
  rcases step_cases hs with ⟨rfl, hpoll⟩ | ⟨now, sendT, rfl, hpoll⟩ | ⟨-, hout, hg⟩
  · obtain ⟨t', evs, b, hpoll', hkept, hr, ht, hevs⟩ := h.strategyPoll
    obtain rfl : t' = t := Option.some.inj (hpoll'.symm.trans hpoll)
    refine ⟨⟨fun m hm => hkept.arrived ▸ hm, fun b hb => hkept.kills ▸ hb⟩, hkept.configured hc, evs, b, hr, ht,
      fun p hp => ?_⟩
    rcases hevs p hp with hdeliver | ⟨o, hemit, hsize⟩
    · rw [hdeliver]
      trivial
    · rw [hemit]
      exact hsize.trans hc.orderSize
  · obtain ⟨t', b, hpoll', hmove, ht, hkept⟩ := h.gatewayPoll now sendT
    obtain rfl : t' = t := Option.some.inj (hpoll'.symm.trans hpoll)
    have hg : Grows s t' := ⟨fun m hm => hkept.arrived ▸ hm, fun b hb => hkept.kills ▸ hb⟩
    obtain ⟨evs, hr, hevs⟩ := hmove.run h hc
    exact ⟨hg, hkept.configured hc, evs, b, hr, ht, fun p hp => (hevs p hp).mono hg⟩
  · exact ⟨hg, hout.configured hg hc, [], a, .nil, hout.tracks h, by simp⟩

/-- A run of the loop that a state of the engine comes from. -/
structure Matched (cfg : EngineConfig) (s : Engine z) (evs : List (OrderLoop × LoopEvent)) (a : OrderLoop) : Prop where
  run : Run OrderLoop.Step {} evs a
  tracks : Tracks s a
  configured : Configured cfg s
  recorded : ∀ p ∈ evs, Recorded cfg s p.1 p.2

/-- Every run of the engine is a run of the order loop. -/
theorem run_refines_loop {h : List (Engine z × EngineEvent)} (hr : Run Step (start z cfg) h s) :
    ∃ evs a, Matched cfg s evs a := by
  obtain ⟨evs, a, hloop, ht, hc, hevs⟩ := hr.simulate
    (R := fun s evs a => Tracks s a ∧ Configured cfg s ∧ ∀ p ∈ evs, Recorded cfg s p.1 p.2)
    ⟨tracks_start, configured_start, by simp⟩ fun _ hrel hs => by
      obtain ⟨ht, hc, hevs⟩ := hrel
      obtain ⟨hg, hc', more, b, hmore, ht', hevs'⟩ := ht.step hc hs
      refine ⟨more, b, hmore, ht', hc', fun p hp => ?_⟩
      rcases List.mem_append.mp hp with hp | hp
      · exact (hevs p hp).mono hg
      · exact hevs' p hp
  exact ⟨evs, a, hloop, ht, hc, hevs⟩

theorem reachable_refines_loop (hr : Reachable Step (start z cfg) s) : ∃ evs a, Matched cfg s evs a := by
  obtain ⟨_, hr⟩ := hr
  exact run_refines_loop hr

end Hft.Engine
