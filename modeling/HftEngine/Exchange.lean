import HftEngine.SimExchange
import HftEngine.Message

/-! The exchange as a process (`run` and `service_orders` of `sim_exchange.hpp`): between two quotes it answers each
    order on its socket with a fill. One datagram received, with its answer, is a step of its own. -/

namespace Hft

open Bytes (toLE)

/-! ### The wire -/

def kOrderSize : Nat := 40

/-- The 40 packed native-endian bytes that orders and reports have in common. -/
def packed (id mdTimestamp : UInt64) (price : Int) (symbol size : UInt32) (side tag : UInt8) (flags : UInt16)
    (pad : UInt32) : List UInt8 :=
  toLE 8 id.toNat ++ (toLE 8 mdTimestamp.toNat ++ (toLE 8 (BitVec.ofInt 64 price).toNat ++ (toLE 4 symbol.toNat ++
    (toLE 4 size.toNat ++ ([side] ++ ([tag] ++ (toLE 2 flags.toNat ++ toLE 4 pad.toNat)))))))

/-- What `send_to` puts on the wire for an order. -/
def OrderRequest.datagram (o : OrderRequest) : List UInt8 :=
  packed o.orderId o.mdTimestamp o.price o.symbol o.size o.side o.action o.flags o.pad

def ExecReport.datagram (r : ExecReport) : List UInt8 :=
  packed r.orderId r.mdTimestamp r.fillPrice r.symbol r.fillSize r.side r.status r.flags r.pad

/-- The order that `try_recv` leaves in its 40-byte buffer, as `ExecReport.ofDatagram?` does for a report. -/
def OrderRequest.ofDatagram? (m : List UInt8) : Option OrderRequest :=
  if m.length < kOrderSize then none
  else some {
    orderId := UInt64.ofNat (leField m 0 8)
    mdTimestamp := UInt64.ofNat (leField m 8 8)
    price := (BitVec.ofNat 64 (leField m 16 8)).toInt
    symbol := UInt32.ofNat (leField m 24 4)
    size := UInt32.ofNat (leField m 28 4)
    side := UInt8.ofNat (leField m 32 1)
    action := UInt8.ofNat (leField m 33 1)
    flags := UInt16.ofNat (leField m 34 2)
    pad := UInt32.ofNat (leField m 36 4) }

/-! ### The process -/

/-- `k` counts the rounds of the loop over the orders that are left after this one. -/
inductive ExchangeAt
  /-- Before the first quotes. -/
  | opening
  /-- At the head of `run`. -/
  | loop
  | quoting
  | serving (k : Nat)
  | stopped
  deriving DecidableEq

structure Exchange (ρ : Type) where
  pc : ExchangeAt := .opening
  running : Bool := true
  quotes : SimExchange ρ
  /-- The datagrams that wait in the order socket. -/
  orderRx : List (List UInt8) := []
  orderCount : UInt64 := 0
  fillCount : UInt64 := 0
  /-- The reports that went out, oldest first. -/
  fills : List ExecReport := []

namespace Exchange

variable {ρ : Type}

def new (c : SimConfig) (rng : ρ) : Exchange ρ where
  quotes := SimExchange.new c rng

/-- The report that answers an order. -/
def fill (o : OrderRequest) : ExecReport where
  orderId := o.orderId
  mdTimestamp := o.mdTimestamp
  fillPrice := o.price
  symbol := o.symbol
  fillSize := o.size
  side := o.side
  status := ExecStatus.kFilled.toByte

/-- One round of `service_orders`; a short datagram is consumed and ends the loop, as an empty socket does. -/
def serve (s : Exchange ρ) (k : Nat) : Exchange ρ :=
  match s.orderRx with
  | [] => { s with pc := .loop }
  | m :: orderRx =>
    match OrderRequest.ofDatagram? m with
    | none => { s with pc := .loop, orderRx }
    | some o =>
      { s with
        pc := match k with
          | 0 => .loop
          | k + 1 => .serving k
        orderRx
        orderCount := s.orderCount + 1
        fillCount := s.fillCount + 1
        fills := s.fills ++ [fill o] }

/-- With the clock readings of the messages that the step emits. -/
def next? (draw : ρ → UInt64 × ρ) (s : Exchange ρ) (now now' : UInt64) : Option (Exchange ρ) :=
  match s.pc with
  | .opening => (s.quotes.start now now').map fun quotes => { s with pc := .loop, quotes }
  | .loop =>
    if s.running then some { s with pc := .quoting } else some { s with pc := .stopped, quotes := s.quotes.flush }
  | .quoting => (s.quotes.step draw now now').map fun quotes => { s with pc := .serving 31, quotes }
  | .serving k => some (s.serve k)
  | .stopped => none

end Exchange

end Hft
