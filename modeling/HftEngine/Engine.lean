import HftEngine.Strategy
import HftEngine.OrderGateway

/-! The engine (`engine.hpp`): the strategy and gateway threads with the queues between them, one poll a step, and
    the world outside: market data, datagrams on the fill socket, the kill switch and the stop. -/

namespace Hft

/-- The template arguments of the engine and of its gateway. -/
structure EngineSizes where
  ticks : NumTicks
  feedCap : Capacity
  orderCap : Capacity
  fillCap : Capacity
  flightCap : TableSize

/-- What the engine is constructed with; `cyclesPerToken` comes from the refill rate of the risk limits. -/
structure EngineConfig where
  strategy : StrategyParams
  risk : RiskLimits
  cyclesPerToken : UInt64

structure Engine (z : EngineSizes) where
  strategy : StrategyRunner z.ticks
  gateway : OrderGateway z.flightCap
  feedQ : BoundedQueue MdEvent z.feedCap.val.toNat := .empty
  orderQ : BoundedQueue OrderRequest z.orderCap.val.toNat := .empty
  fillQ : BoundedQueue ExecReport z.fillCap.val.toNat := .empty
  fillRx : List (List UInt8) := []
  kill : Bool := false
  running : Bool := true
  /-- A thread leaves its loop only after `running` is cleared. -/
  strategyAlive : Bool := true
  gatewayAlive : Bool := true
  /-- The orders that the strategy emitted, each with its position then. -/
  emitted : List (OrderRequest × Int) := []
  /-- The orders that the gateway checked, each with the position that the gate used. -/
  checked : List (OrderRequest × Int) := []
  sent : List OrderRequest := []
  arrived : List (List UInt8) := []
  kills : List Bool := []

inductive EngineEvent
  | md (ev : MdEvent)
  | datagram (m : List UInt8)
  | setKill (b : Bool)
  | strategyPoll
  /-- A gateway poll, with the readings of the clock at the check and at the send. -/
  | gatewayPoll (now sendT : UInt64)
  | stop
  | strategyExit
  | gatewayExit
  deriving DecidableEq

namespace Engine

variable {z : EngineSizes}

def start (z : EngineSizes) (cfg : EngineConfig) : Engine z where
  strategy := { strat := ImbalanceStrategy.new z.ticks cfg.strategy }
  gateway := OrderGateway.new z.flightCap cfg.risk cfg.cyclesPerToken

def afterStrategy (s : Engine z) (p : StrategyRunner.Polled z.ticks z.feedCap.val.toNat z.orderCap.val.toNat
    z.fillCap.val.toNat) : Engine z :=
  { s with
    strategy := p.runner
    feedQ := p.feed
    orderQ := p.orders
    fillQ := p.fills
    emitted := s.emitted ++ p.emitted.toList.map fun o => (o, p.runner.strat.position) }

def afterGateway (s : Engine z) (p : OrderGateway.Polled z.flightCap z.orderCap.val.toNat z.fillCap.val.toNat) :
    Engine z :=
  { s with
    gateway := p.gateway
    fillRx := p.rx
    orderQ := p.orders
    fillQ := p.fills
    checked := s.checked ++ p.checked.toList
    sent := s.sent ++ p.wire.toList }

def strategyPoll? (s : Engine z) : Option (Engine z) :=
  (s.strategy.pollOnce s.feedQ s.orderQ s.fillQ).map s.afterStrategy

def gatewayPoll? (s : Engine z) (now sendT : UInt64) : Option (Engine z) :=
  (s.gateway.pollOnce s.kill now sendT s.fillRx s.orderQ s.fillQ).map s.afterGateway

def next? (s : Engine z) : EngineEvent → Option (Engine z)
  | .md ev => (s.feedQ.push? ev).map fun feedQ => { s with feedQ }
  | .datagram m => some { s with fillRx := s.fillRx ++ [m], arrived := s.arrived ++ [m] }
  | .setKill b => some { s with kill := b, kills := s.kills ++ [b] }
  | .strategyPoll => if s.strategyAlive then s.strategyPoll? else none
  | .gatewayPoll now sendT => if s.gatewayAlive then s.gatewayPoll? now sendT else none
  | .stop => some { s with running := false }
  | .strategyExit => if s.running then none else some { s with strategyAlive := false }
  | .gatewayExit => if s.running then none else some { s with gatewayAlive := false }

def Step (s : Engine z) (e : EngineEvent) (t : Engine z) : Prop := s.next? e = some t

/-- The engine after events from the start; `none` where one of them cannot happen. -/
def after? (z : EngineSizes) (cfg : EngineConfig) (events : List EngineEvent) : Option (Engine z) :=
  events.foldlM next? (start z cfg)

def inFlight (s : Engine z) : Bool := s.strategy.strat.inFlight

def position (s : Engine z) : Int := s.strategy.strat.position

def gatePosition (s : Engine z) : Int := s.gateway.risk.position

/-! ### A small engine -/

/-- The smallest tables and queues that the assertions of the source accept. -/
def least : EngineSizes where
  ticks := ⟨4, by decide, by decide⟩
  feedCap := ⟨⟨2, by decide, by decide⟩, by decide⟩
  orderCap := ⟨⟨2, by decide, by decide⟩, by decide⟩
  fillCap := ⟨⟨2, by decide, by decide⟩, by decide⟩
  flightCap := ⟨1, by decide, by decide⟩

/-- Orders of 100 within a bound of 1000, at any rate. -/
def hundreds : EngineConfig where
  strategy := { basePrice := 0, tick := 1, thrNum := 0, orderSize := 100 }
  risk := { maxPosition := 1000, maxOrderSize := 500, burst := 1 }
  cyclesPerToken := 0

/-- Size added at one price, and the strategy's poll of it. -/
def quote (side : Side) (price : Int) (size : UInt32) : List EngineEvent :=
  [.md ⟨{ type := MsgType.kAdd.toByte, side := side.toByte, price, size }, 0⟩, .strategyPoll]

/-- A bid and a smaller ask: the strategy takes out a buy. -/
def buySignal : List EngineEvent := quote .kBuy 1 30 ++ quote .kSell 2 10

/-- The report that fills an order of 100. -/
def filled (id : UInt8) (side : Side) : List UInt8 :=
  [id] ++ List.replicate 27 0 ++ [100, 0, 0, 0, side.toByte] ++ List.replicate 7 0

/-- An order sent, and its fill taken in. -/
def roundTrip (id : UInt8) (side : Side) : List EngineEvent :=
  [.gatewayPoll 0 0, .datagram (filled id side), .gatewayPoll 0 0]

end Engine

end Hft
