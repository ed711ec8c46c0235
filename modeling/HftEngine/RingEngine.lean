import HftEngine.Stages
import HftEngine.SpscQueue

/-! The engine as it runs: the three threads over the lock-free rings, one memory operation, one system call or one load
    of a flag a step, in any order. -/

namespace Hft

namespace EngineSizes

/-- The queues of the engine; every slot starts as a value-initialised payload. -/
def rings (z : EngineSizes) : (q : QueueName) → Channel (z.wiring.Payload q)
  | .feedQ => SpscQueue.channel z.feedCap ({ msg := {}, arrivalTsc := 0 } : MdEvent)
  | .orderQ => SpscQueue.channel z.orderCap ({} : OrderRequest)
  | .fillQ => SpscQueue.channel z.fillCap ({} : ExecReport)

end EngineSizes

abbrev RingEngine (z : EngineSizes) : Type := Threads.Channeled z.program z.rings

namespace RingEngine

variable {z : EngineSizes}

def start (z : EngineSizes) (cfg : EngineConfig) : RingEngine z :=
  Threads.Channeled.start z.program z.rings (z.threads cfg) {}

def Step (f : RingEngine z) (l : Threads.Label Stage UInt64 Outside) (f' : RingEngine z) : Prop :=
  Threads.Channeled.Step f l f'

abbrev feed (f : RingEngine z) : FeedThread := f.threads .feed

abbrev strategy (f : RingEngine z) : StrategyThread z.ticks := f.threads .strategy

abbrev gateway (f : RingEngine z) : GatewayThread z.flightCap := f.threads .gateway

abbrev feedRing (f : RingEngine z) : SpscQueue.System MdEvent z.feedCap := f.channel .feedQ

abbrev orderRing (f : RingEngine z) : SpscQueue.System OrderRequest z.orderCap := f.channel .orderQ

abbrev fillRing (f : RingEngine z) : SpscQueue.System ExecReport z.fillCap := f.channel .fillQ

/-- What a step reads off the clock. -/
def reading : Threads.Label Stage UInt64 Outside → Option UInt64
  | .thread _ tsc => some tsc
  | .outside _ => none

/-- The engine after steps from the start; `none` where one of them cannot happen. -/
def after? (z : EngineSizes) (cfg : EngineConfig) (ls : List (Threads.Label Stage UInt64 Outside)) :
    Option (RingEngine z) :=
  ls.foldlM Threads.Channeled.next? (start z cfg)

/-! ### A small session -/

def steps (t : Stage) (n : Nat) : List (Threads.Label Stage UInt64 Outside) := List.replicate n (.thread t 7)

/-- A bid and a smaller ask. -/
def quotes : List UInt8 :=
  encodeMessage { type := MsgType.kAdd.toByte, side := Side.kBuy.toByte, price := 1, size := 30 } ++
    encodeMessage { type := MsgType.kAdd.toByte, side := Side.kSell.toByte, price := 2, size := 10 }

/-- The quotes reach the strategy, its order goes out, and the fill comes back as far as the gateway. -/
def session : List (Threads.Label Stage UInt64 Outside) :=
  [.outside (.market quotes)] ++ steps .feed 24 ++ steps .strategy 40 ++ steps .gateway 16 ++
    [.outside (.report (Engine.filled 1 .kBuy))] ++ steps .gateway 24

end RingEngine

end Hft
