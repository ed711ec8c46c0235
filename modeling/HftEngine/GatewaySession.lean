import HftEngine.OrderGateway
import HftEngine.Lib.RequestReply
import HftEngine.Lib.Transition

/-! A gateway that is polled again and again while datagrams arrive, the strategy queues orders and takes fills. The
    session keeps the orders sent and the reports handled, in the order in which they happened. -/

namespace Hft

open RequestReply

/-- One call of `handle_fill`: the report, and the gateway and the fill queue on both sides of it. -/
structure Round (cap : TableSize) (fillCap : Nat) where
  before : OrderGateway cap
  fillsBefore : BoundedQueue ExecReport fillCap
  report : ExecReport
  after : OrderGateway cap
  fillsAfter : BoundedQueue ExecReport fillCap

namespace Round

variable {cap : TableSize} {fillCap : Nat}

/-- The gateway counted the report as matched. -/
def Matched (r : Round cap fillCap) : Prop := r.after.fillsMatched = r.before.fillsMatched + 1

instance (r : Round cap fillCap) : Decidable r.Matched := inferInstanceAs (Decidable (_ = _))

def reportId (r : Round cap fillCap) : UInt64 := r.report.orderId

/-- How far the round moved the position of the gate. -/
def moved (r : Round cap fillCap) : Int := r.after.risk.position - r.before.risk.position

end Round

structure GatewaySession (cap : TableSize) (orderCap fillCap : Nat) where
  gateway : OrderGateway cap
  rx : List (List UInt8) := []
  orders : BoundedQueue OrderRequest orderCap := .empty
  fills : BoundedQueue ExecReport fillCap := .empty
  /-- Every datagram that reached the socket. -/
  arrived : List (List UInt8) := []
  /-- Every order that a poll popped. -/
  popped : List OrderRequest := []
  /-- The orders on the wire and the reports handled. -/
  acts : List (Act OrderRequest (Round cap fillCap)) := []
  /-- The fills that the strategy took. -/
  delivered : List ExecReport := []

namespace GatewaySession

variable {cap : TableSize} {orderCap fillCap : Nat}

inductive Event
  | datagram (m : List UInt8)
  | push (o : OrderRequest)
  | poll (kill : Bool) (now sendT : UInt64)
  | take

def new (cap : TableSize) (orderCap fillCap : Nat) (lim : RiskLimits) (cyclesPerToken : UInt64) :
    GatewaySession cap orderCap fillCap where
  gateway := OrderGateway.new cap lim cyclesPerToken

/-- The calls of `handle_fill` in the receive loop with `k` rounds left. -/
def rounds : Nat → OrderGateway cap → List (List UInt8) → BoundedQueue ExecReport fillCap → List (Round cap fillCap)
  | 0, _, _, _ => []
  | _ + 1, _, [], _ => []
  | k + 1, g, m :: rx, fills =>
    match ExecReport.ofDatagram? m with
    | none => []
    | some rep =>
      match g.handleFill rep fills with
      | none => []
      | some (g', fills') => ⟨g, fills, rep, g', fills'⟩ :: rounds k g' rx fills'

/-- The session after a poll that left `p`. -/
def polled (s : GatewaySession cap orderCap fillCap) (p : OrderGateway.Polled cap orderCap fillCap) :
    GatewaySession cap orderCap fillCap :=
  { s with
    gateway := p.gateway
    rx := p.rx
    orders := p.orders
    fills := p.fills
    popped := s.popped ++ (p.checked.map Prod.fst).toList
    acts := s.acts ++ (rounds 32 s.gateway s.rx s.fills).map .reply ++ p.wire.toList.map .send }

/-- A poll with a full fill queue, where the source waits for the strategy, is no event. -/
def next? (s : GatewaySession cap orderCap fillCap) : Event → Option (GatewaySession cap orderCap fillCap)
  | .datagram m => some { s with rx := s.rx ++ [m], arrived := s.arrived ++ [m] }
  | .push o => do
    let orders ← s.orders.push? o
    return { s with orders }
  | .poll kill now sendT => do
    let p ← s.gateway.pollOnce kill now sendT s.rx s.orders s.fills
    return s.polled p
  | .take => do
    let (r, fills) ← s.fills.pop?
    return { s with fills, delivered := s.delivered ++ [r] }

def Step (s : GatewaySession cap orderCap fillCap) (e : Event) (t : GatewaySession cap orderCap fillCap) : Prop :=
  s.next? e = some t

/-- The reports that matched, in the order in which they were handled. -/
def matched (acts : List (Act OrderRequest (Round cap fillCap))) : List (Round cap fillCap) :=
  (replies acts).filter fun r => decide r.Matched

/-- What should become of the orders and reports of a session: the first report of an order settles it. -/
def desk (s : GatewaySession cap orderCap fillCap) : Book OrderRequest (Round cap fillCap) :=
  book OrderRequest.orderId Round.reportId s.acts

/-- The orders that are sent and unfilled have ids that differ modulo the capacity. -/
def Apart (s : GatewaySession cap orderCap fillCap) : Prop :=
  (s.desk.working.map fun o => o.orderId.toNat % cap.val.toNat).Nodup

instance (s : GatewaySession cap orderCap fillCap) : Decidable s.Apart := inferInstanceAs (Decidable (List.Nodup _))

end GatewaySession

end Hft
