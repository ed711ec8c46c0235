import HftEngine.Engine
import HftEngine.FeedHandler
import HftEngine.Lib.Threads

/-! The three stages of the engine as threads (`run` and `poll_once` of each): every access to what the threads share
    is a step of its own, a queue operation, a datagram taken from a socket or put on one, a load of a flag. The reading
    of the clock comes with the step. -/

namespace Hft

open Channel (End)

inductive Stage
  | feed | strategy | gateway
  deriving DecidableEq, Repr

inductive QueueName
  | feedQ | orderQ | fillQ
  deriving DecidableEq, Repr

def QueueName.Payload : QueueName → Type
  | .feedQ => MdEvent
  | .orderQ => OrderRequest
  | .fillQ => ExecReport

def QueueName.owner : QueueName → End → Stage
  | .feedQ, .push => .feed
  | .feedQ, .pop | .orderQ, .push | .fillQ, .pop => .strategy
  | .orderQ, .pop | .fillQ, .push => .gateway

namespace EngineSizes

def capacity (z : EngineSizes) : QueueName → Capacity
  | .feedQ => z.feedCap
  | .orderQ => z.orderCap
  | .fillQ => z.fillCap

def wiring (z : EngineSizes) : Threads.Wiring Stage QueueName where
  Payload := QueueName.Payload
  cap q := (z.capacity q).val.toNat
  owner := QueueName.owner

end EngineSizes

/-- What the threads share besides the queues, with a log of what went on. -/
structure World where
  running : Bool := true
  kill : Bool := false
  feedRx : List (List UInt8) := []
  fillRx : List (List UInt8) := []
  /-- The datagrams that reached each socket. -/
  market : List (List UInt8) := []
  arrived : List (List UInt8) := []
  kills : List Bool := []
  /-- The events that the strategy processed. -/
  seen : List MdEvent := []
  emitted : List (OrderRequest × Int) := []
  checked : List (OrderRequest × Int) := []
  sent : List OrderRequest := []
  /-- The reports that the gateway matched, and those that the strategy took in. -/
  matched : List ExecReport := []
  filled : List ExecReport := []
  deriving DecidableEq

/-! ### The feed handler -/

inductive FeedAt
  /-- At the head of `run`. -/
  | loop
  | recv
  | reading (reader : FeedReader) (arrival : UInt64)
  /-- With the attempts that are left after the next one. -/
  | pushing (ev : MdEvent) (spins : Nat) (reader : FeedReader) (arrival : UInt64)
  | stopped

structure FeedThread where
  pc : FeedAt := .loop
  enqueued : Nat := 0
  received : UInt64 := 0
  pushed : UInt64 := 0
  dropped : UInt64 := 0
  /-- The datagrams that it took, with their clock readings. -/
  arrived : List (List UInt8 × UInt64) := []
  outcomes : List (MdEvent × Bool) := []

namespace FeedThread

def recv (t : FeedThread) (dgram : List UInt8) (arrival : UInt64) : FeedThread :=
  let buf := dgram.take kBufBytes
  { t with
    pc := if buf.length = 0 then .loop else .reading ⟨buf⟩ arrival
    enqueued := 0
    arrived := t.arrived ++ [(dgram, arrival)] }

def settle (t : FeedThread) (ev : MdEvent) (reader : FeedReader) (arrival : UInt64) (ok : Bool) : FeedThread :=
  { t with
    pc := .reading reader arrival
    enqueued := if ok then t.enqueued + 1 else t.enqueued
    pushed := if ok then t.pushed + 1 else t.pushed
    dropped := if ok then t.dropped else t.dropped + 1
    outcomes := t.outcomes ++ [(ev, ok)] }

/-- After an attempt to push. -/
def attempted (t : FeedThread) (ev : MdEvent) (spins : Nat) (reader : FeedReader) (arrival : UInt64) (ok : Bool) :
    FeedThread :=
  match ok, spins with
  | true, _ => t.settle ev reader arrival true
  | false, 0 => t.settle ev reader arrival false
  | false, spins + 1 => { t with pc := .pushing ev spins reader arrival }

def next (z : EngineSizes) (t : FeedThread) : Threads.Next z.wiring World UInt64 .feed FeedThread :=
  match t.pc with
  | .loop => .work fun _ w => some ({ t with pc := if w.running then .recv else .stopped }, w)
  | .recv => .work fun tsc w =>
    match w.feedRx with
    | [] => some ({ t with pc := .loop }, w)
    | d :: rx => some (t.recv d tsc, { w with feedRx := rx })
  | .reading reader arrival => .work fun _ w =>
    if reader.hasNext then
      reader.next.map fun (msg, reader) =>
        ({ t with pc := .pushing { msg, arrivalTsc := arrival } (kSpinBudget - 1) reader arrival,
                  received := t.received + 1 }, w)
    else some ({ t with pc := .loop }, w)
  | .pushing ev spins reader arrival => .call .feedQ .push rfl ev (t.attempted ev spins reader arrival)
  | .stopped => .stop

end FeedThread

/-! ### The strategy -/

/-- `k` counts the rounds of the loop over the fills that are left after this one. -/
inductive StrategyAt
  | loop
  | fills (k : Nat)
  | fill (k : Nat) (r : ExecReport)
  | feed
  | event (ev : MdEvent)
  | pushing (o : OrderRequest)
  | stopped

structure StrategyThread (n : NumTicks) where
  pc : StrategyAt := .loop
  runner : StrategyRunner n

namespace StrategyThread

variable {n : NumTicks}

def afterFill (t : StrategyThread n) (k : Nat) (r : ExecReport) : StrategyThread n where
  pc := match k with
    | 0 => .feed
    | k + 1 => .fills k
  runner := { t.runner with strat := t.runner.strat.onFill r }

/-- `on_md`, up to the push of the order if there is one. -/
def afterEvent (t : StrategyThread n) (ev : MdEvent) (w : World) : StrategyThread n × World :=
  match t.runner.strat.onMd ev with
  | (strat, none) =>
    ({ pc := .loop, runner := { t.runner with strat, processed := t.runner.processed + 1 } },
      { w with seen := w.seen ++ [ev] })
  | (strat, some o) =>
    ({ pc := .pushing o, runner := { t.runner with strat } },
      { w with seen := w.seen ++ [ev], emitted := w.emitted ++ [(o, strat.position)] })

def pushed (t : StrategyThread n) : StrategyThread n where
  pc := .loop
  runner := { t.runner with ordersPushed := t.runner.ordersPushed + 1, processed := t.runner.processed + 1 }

def next (z : EngineSizes) (t : StrategyThread z.ticks) :
    Threads.Next z.wiring World UInt64 .strategy (StrategyThread z.ticks) :=
  match t.pc with
  | .loop => .work fun _ w => some ({ t with pc := if w.running then .fills 15 else .stopped }, w)
  | .fills k => .call .fillQ .pop rfl () fun
    | none => { t with pc := .feed }
    | some r => { t with pc := .fill k r }
  | .fill k r => .work fun _ w => some (t.afterFill k r, { w with filled := w.filled ++ [r] })
  | .feed => .call .feedQ .pop rfl () fun
    | none => { t with pc := .loop }
    | some ev => { t with pc := .event ev }
  | .event ev => .work fun _ w => some (t.afterEvent ev w)
  | .pushing o => .call .orderQ .push rfl o fun
    | true => t.pushed
    | false => t
  | .stopped => .stop

end StrategyThread

/-! ### The order gateway -/

/-- `k` counts the rounds of the loop over the reports that are left after this one. -/
inductive GatewayAt
  | loop
  | recv (k : Nat)
  | report (k : Nat) (r : ExecReport)
  | orders
  | check (o : OrderRequest)
  | send (o : OrderRequest)
  | stopped

/-- The gateway in the loop over the reports, after a round with `k` more to come. -/
def GatewayAt.after : Nat → GatewayAt
  | 0 => .orders
  | k + 1 => .recv k

structure GatewayThread (cap : TableSize) where
  pc : GatewayAt := .loop
  gateway : OrderGateway cap

namespace OrderGateway

variable {cap : TableSize}

/-- The active entry of the order that a report names. -/
def Matches (g : OrderGateway cap) (rep : ExecReport) : Prop :=
  (g.slot rep.orderId).active ∧ (g.slot rep.orderId).orderId = rep.orderId

instance (g : OrderGateway cap) (rep : ExecReport) : Decidable (g.Matches rep) := inferInstanceAs (Decidable (_ ∧ _))

/-- `handle_fill` up to the push, for a report that matches. -/
def release (g : OrderGateway cap) (rep : ExecReport) : OrderGateway cap :=
  { g.setSlot rep.orderId { g.slot rep.orderId with active := false } with
    fillsMatched := g.fillsMatched + 1
    risk := g.risk.onFill rep }

/-- The entry is written and the order counted when it is sent. -/
def record (g : OrderGateway cap) (o : OrderRequest) (sendT : UInt64) : OrderGateway cap :=
  { g.setSlot o.orderId { orderId := o.orderId, sendTsc := sendT, mdTsc := o.mdTimestamp, active := true } with
    sent := g.sent + 1 }

end OrderGateway

namespace GatewayThread

variable {cap : TableSize}

/-- `handle_fill`, up to the push of the report if it matches. -/
def handle (t : GatewayThread cap) (k : Nat) (rep : ExecReport) (w : World) : GatewayThread cap × World :=
  if t.gateway.Matches rep then
    ({ pc := .report k rep, gateway := t.gateway.release rep }, { w with matched := w.matched ++ [rep] })
  else ({ pc := .after k, gateway := { t.gateway with fillsUnmatched := t.gateway.fillsUnmatched + 1 } }, w)

def checked (t : GatewayThread cap) (kill : Bool) (now : UInt64) (o : OrderRequest) : GatewayThread cap :=
  let (risk, rr) := t.gateway.risk.check kill now o
  if rr ≠ .kAccept then
    { pc := .loop, gateway := { t.gateway with risk, riskRejected := t.gateway.riskRejected + 1 } }
  else { pc := .send o, gateway := { t.gateway with risk } }

def next (z : EngineSizes) (t : GatewayThread z.flightCap) :
    Threads.Next z.wiring World UInt64 .gateway (GatewayThread z.flightCap) :=
  match t.pc with
  | .loop => .work fun _ w => some ({ t with pc := if w.running then .recv 31 else .stopped }, w)
  | .recv k => .work fun _ w =>
    match w.fillRx with
    | [] => some ({ t with pc := .orders }, w)
    | m :: rx =>
      match ExecReport.ofDatagram? m with
      | none => some ({ t with pc := .orders }, { w with fillRx := rx })
      | some rep => some (t.handle k rep { w with fillRx := rx })
  | .report k rep => .call .fillQ .push rfl rep fun
    | true => { t with pc := .after k }
    | false => t
  | .orders => .call .orderQ .pop rfl () fun
    | none => { t with pc := .loop }
    | some o => { t with pc := .check o }
  | .check o => .work fun now w =>
    some (t.checked w.kill now o, { w with checked := w.checked ++ [(o, t.gateway.risk.position)] })
  | .send o => .work fun sendT w =>
    some ({ pc := .loop, gateway := t.gateway.record o sendT }, { w with sent := w.sent ++ [o] })
  | .stopped => .stop

end GatewayThread

/-! ### The engine -/

/-- What comes from outside: datagrams on the two sockets, the kill switch and `stop`. -/
inductive Outside
  | market (m : List UInt8)
  | report (m : List UInt8)
  | setKill (b : Bool)
  | stop
  deriving DecidableEq

def World.next? (w : World) : Outside → Option World
  | .market m => some { w with feedRx := w.feedRx ++ [m], market := w.market ++ [m] }
  | .report m => some { w with fillRx := w.fillRx ++ [m], arrived := w.arrived ++ [m] }
  | .setKill b => some { w with kill := b, kills := w.kills ++ [b] }
  | .stop => some { w with running := false }

def Stage.Thread (z : EngineSizes) : Stage → Type
  | .feed => FeedThread
  | .strategy => StrategyThread z.ticks
  | .gateway => GatewayThread z.flightCap

namespace EngineSizes

/-- The code of the three threads. -/
def program (z : EngineSizes) : Threads.Program z.wiring World UInt64 Outside where
  Local := Stage.Thread z
  next
    | .feed => FeedThread.next z
    | .strategy => StrategyThread.next z
    | .gateway => GatewayThread.next z
  outside x w := w.next? x

end EngineSizes

/-- The engine with each queue operation one step. -/
abbrev Stages (z : EngineSizes) : Type := Threads.Net z.program

namespace Stages

variable {z : EngineSizes}

abbrev feed (s : Stages z) : FeedThread := s.threads .feed

abbrev strategy (s : Stages z) : StrategyThread z.ticks := s.threads .strategy

abbrev gateway (s : Stages z) : GatewayThread z.flightCap := s.threads .gateway

abbrev feedQ (s : Stages z) : BoundedQueue MdEvent z.feedCap.val.toNat := s.queue .feedQ

abbrev orderQ (s : Stages z) : BoundedQueue OrderRequest z.orderCap.val.toNat := s.queue .orderQ

abbrev fillQ (s : Stages z) : BoundedQueue ExecReport z.fillCap.val.toNat := s.queue .fillQ

end Stages

namespace EngineSizes

/-- The threads as `start` creates them. -/
def threads (z : EngineSizes) (cfg : EngineConfig) : (t : Stage) → z.program.Local t
  | .feed => ({} : FeedThread)
  | .strategy => ({ runner := { strat := ImbalanceStrategy.new z.ticks cfg.strategy } } : StrategyThread z.ticks)
  | .gateway => ({ gateway := OrderGateway.new z.flightCap cfg.risk cfg.cyclesPerToken } : GatewayThread z.flightCap)

end EngineSizes

def Stages.start (z : EngineSizes) (cfg : EngineConfig) : Stages z := Threads.Net.start z.program (z.threads cfg) {}

end Hft
