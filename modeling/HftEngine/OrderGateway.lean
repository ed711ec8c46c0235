import HftEngine.RiskGate
import HftEngine.Table
import HftEngine.Lib.BoundedQueue
import Mathlib.Data.Fintype.Basic

/-! The order gateway (`order_gateway.hpp`): order queue, risk gate, in-flight table and fill intake. A poll is
    `none` when its first attempt to push a fill fails, where the source would spin. -/

namespace Hft

structure InFlight where
  orderId : UInt64 := 0
  sendTsc : UInt64 := 0
  mdTsc : UInt64 := 0
  active : Bool := false
  deriving DecidableEq, Repr

structure OrderGateway (cap : TableSize) where
  risk : RiskGate
  inflight : Vector InFlight cap.val.toNat
  sent : UInt64 := 0
  riskRejected : UInt64 := 0
  fillsMatched : UInt64 := 0
  fillsUnmatched : UInt64 := 0

namespace OrderGateway

variable {cap : TableSize} {orderCap fillCap : Nat}

def new (cap : TableSize) (lim : RiskLimits) (cyclesPerToken : UInt64) : OrderGateway cap where
  risk := RiskGate.new lim cyclesPerToken
  inflight := Vector.replicate _ {}

def slot (g : OrderGateway cap) (id : UInt64) : InFlight := g.inflight.get (cap.slot id)

def setSlot (g : OrderGateway cap) (id : UInt64) (e : InFlight) : OrderGateway cap :=
  { g with inflight := g.inflight.set (cap.slot id) e (cap.slot id).isLt }

def activeSlots (g : OrderGateway cap) : Finset (Fin cap.val.toNat) :=
  Finset.univ.filter fun i => (g.inflight.get i).active = true

/-- A report that matches an active entry releases it, moves the gate's position and goes to the strategy. -/
def handleFill (g : OrderGateway cap) (rep : ExecReport) (fills : BoundedQueue ExecReport fillCap) :
    Option (OrderGateway cap × BoundedQueue ExecReport fillCap) :=
  let slot := g.slot rep.orderId
  if slot.active ∧ slot.orderId = rep.orderId then do
    let g := g.setSlot rep.orderId { slot with active := false }
    let fills ← fills.push? rep
    return ({ g with fillsMatched := g.fillsMatched + 1, risk := g.risk.onFill rep }, fills)
  -- Duplicate, stale, or table collision.
  else some ({ g with fillsUnmatched := g.fillsUnmatched + 1 }, fills)

/-- The receive loop with `k` rounds left, over the datagrams that wait in the socket. -/
def drainFills : Nat → OrderGateway cap → List (List UInt8) → BoundedQueue ExecReport fillCap →
    Option (OrderGateway cap × List (List UInt8) × BoundedQueue ExecReport fillCap)
  | 0, g, rx, fills => some (g, rx, fills)
  | _ + 1, g, [], fills => some (g, [], fills)
  | k + 1, g, m :: rx, fills =>
    match ExecReport.ofDatagram? m with
    -- A short datagram is consumed and ends the loop.
    | none => some (g, rx, fills)
    | some rep => do
      let (g, fills) ← g.handleFill rep fills
      drainFills k g rx fills

structure Polled (cap : TableSize) (orderCap fillCap : Nat) where
  gateway : OrderGateway cap
  rx : List (List UInt8)
  orders : BoundedQueue OrderRequest orderCap
  fills : BoundedQueue ExecReport fillCap
  /-- The order that was checked, with the position that the gate used. -/
  checked : Option (OrderRequest × Int)
  wire : Option OrderRequest
  busy : Bool

/-- The outbound part of a poll: at most one order is checked, and sent when it passes. -/
def pollOrder (g : OrderGateway cap) (kill : Bool) (now sendT : UInt64) (rx : List (List UInt8))
    (orders : BoundedQueue OrderRequest orderCap) (fills : BoundedQueue ExecReport fillCap) :
    Polled cap orderCap fillCap :=
  match orders.pop? with
  | none => { gateway := g, rx, orders, fills, checked := none, wire := none, busy := false }
  | some (o, orders) =>
    let (risk, rr) := g.risk.check kill now o
    if rr ≠ .kAccept then
      { gateway := { g with risk, riskRejected := g.riskRejected + 1 }, rx, orders, fills,
        checked := some (o, g.risk.position), wire := none, busy := true }
    else
      let g' := g.setSlot o.orderId { orderId := o.orderId, sendTsc := sendT, mdTsc := o.mdTimestamp, active := true }
      { gateway := { g' with risk, sent := g.sent + 1 }, rx, orders, fills,
        checked := some (o, g.risk.position), wire := some o, busy := true }

/-- Drain inbound fills, then send at most one outbound order. -/
def pollOnce (g : OrderGateway cap) (kill : Bool) (now sendT : UInt64) (rx : List (List UInt8))
    (orders : BoundedQueue OrderRequest orderCap) (fills : BoundedQueue ExecReport fillCap) :
    Option (Polled cap orderCap fillCap) := do
  let (g, rx, fills) ← drainFills 32 g rx fills
  return g.pollOrder kill now sendT rx orders fills

end OrderGateway

end Hft
