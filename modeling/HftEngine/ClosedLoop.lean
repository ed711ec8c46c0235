import HftEngine.RingEngine
import HftEngine.Exchange

/-! The engine and the exchange with the three links between them. A link may lose, double or reorder its datagrams, as
    UDP may; each thread, the exchange and the links go on in any order. -/

namespace Hft

inductive Link
  | feed | orders | fills
  deriving DecidableEq, Repr

structure ClosedLoop (z : EngineSizes) (ρ : Type) where
  engine : RingEngine z
  exchange : Exchange ρ
  /-- The datagrams under way on each link. -/
  links : Link → List (List UInt8) := fun _ => []

inductive ClosedEvent
  | thread (t : Stage) (tsc : UInt64)
  /-- A step of the exchange, with its readings of the clock. -/
  | exchange (now now' : UInt64)
  | deliver (l : Link) (i : Nat)
  | lose (l : Link) (i : Nat)
  | copy (l : Link) (i : Nat)
  | setKill (b : Bool)
  | stop
  /-- The exchange is told to stop. -/
  | halt
  deriving DecidableEq

namespace ClosedLoop

variable {z : EngineSizes} {ρ : Type}

def start (z : EngineSizes) (cfg : EngineConfig) (c : SimConfig) (rng : ρ) : ClosedLoop z ρ where
  engine := RingEngine.start z cfg
  exchange := Exchange.new c rng

/-- The links with more datagrams on one of them. -/
def put (links : Link → List (List UInt8)) (l : Link) (ds : List (List UInt8)) : Link → List (List UInt8) :=
  Function.update links l (links l ++ ds)

def outside? (s : ClosedLoop z ρ) (x : Outside) : Option (ClosedLoop z ρ) :=
  (s.engine.next? (.outside x)).map fun engine => { s with engine }

/-- A datagram reaches the socket at the end of its link. -/
def receive? (s : ClosedLoop z ρ) (d : List UInt8) : Link → Option (ClosedLoop z ρ)
  | .feed => s.outside? (.market d)
  | .orders => some { s with exchange := { s.exchange with orderRx := s.exchange.orderRx ++ [d] } }
  | .fills => s.outside? (.report d)

/-- The engine has moved on, and what it sent is on the wire. -/
def withEngine (s : ClosedLoop z ρ) (engine : RingEngine z) : ClosedLoop z ρ :=
  { s with
    engine
    links := put s.links .orders ((engine.world.sent.drop s.engine.world.sent.length).map OrderRequest.datagram) }

def withExchange (s : ClosedLoop z ρ) (exchange : Exchange ρ) : ClosedLoop z ρ :=
  { s with
    exchange
    links := put (put s.links .feed (exchange.quotes.sent.drop s.exchange.quotes.sent.length)) .fills
      ((exchange.fills.drop s.exchange.fills.length).map ExecReport.datagram) }

def next? (draw : ρ → UInt64 × ρ) (s : ClosedLoop z ρ) : ClosedEvent → Option (ClosedLoop z ρ)
  | .thread t tsc => (s.engine.next? (.thread t tsc)).map s.withEngine
  | .exchange now now' => (s.exchange.next? draw now now').map s.withExchange
  | .deliver l i => do
    let d ← (s.links l)[i]?
    { s with links := Function.update s.links l ((s.links l).eraseIdx i) }.receive? d l
  | .lose l i => some { s with links := Function.update s.links l ((s.links l).eraseIdx i) }
  | .copy l i => do
    let d ← (s.links l)[i]?
    return { s with links := put s.links l [d] }
  | .setKill b => s.outside? (.setKill b)
  | .stop => s.outside? .stop
  | .halt => some { s with exchange := { s.exchange with running := false } }

def Step (draw : ρ → UInt64 × ρ) (s : ClosedLoop z ρ) (e : ClosedEvent) (t : ClosedLoop z ρ) : Prop :=
  s.next? draw e = some t

/-- What the engine reads off its clock. -/
def reading : ClosedEvent → Option UInt64
  | .thread _ tsc => some tsc
  | .exchange .. | .deliver .. | .lose .. | .copy .. | .setKill _ | .stop | .halt => none

/-- The system after events from the start; `none` where one of them cannot happen. -/
def after? (z : EngineSizes) (cfg : EngineConfig) (c : SimConfig) (events : List ClosedEvent) :
    Option (ClosedLoop z Rng) :=
  events.foldlM (next? Rng.next) (start z cfg c (Rng.new 0x5EED))

/-! ### Small runs -/

/-- Quotes around 1, two messages a datagram. -/
def quotes : SimConfig := { symbol := 7, batch := 2, basePrice := 1, tick := 1 }

def steps (t : Stage) (n : Nat) : List ClosedEvent := List.replicate n (.thread t 7)

def exchangeSteps (n : Nat) : List ClosedEvent := List.replicate n (.exchange 5 6)

/-- The first quotes and a new bid reach the strategy, and its order is on its way. -/
def opening : List ClosedEvent :=
  exchangeSteps 3 ++ [.deliver .feed 0, .deliver .feed 0] ++ steps .feed 22 ++ steps .strategy 40 ++ steps .feed 22 ++
    steps .strategy 40 ++ steps .gateway 18

/-- The order is filled, and the fill is taken in. -/
def clean : List ClosedEvent :=
  opening ++ [.deliver .orders 0] ++ exchangeSteps 3 ++ [.deliver .fills 0] ++ steps .gateway 30 ++ steps .strategy 24

/-- The order arrives twice and is filled twice, and the second fill overtakes the first. -/
def doubled : List ClosedEvent :=
  opening ++ [.copy .orders 0, .deliver .orders 0, .deliver .orders 0] ++ exchangeSteps 4 ++
    [.copy .fills 1, .deliver .fills 1, .deliver .fills 0, .lose .fills 0] ++ steps .gateway 30 ++ steps .strategy 24

end ClosedLoop

end Hft
