import HftEngine.Engine
import HftEngine.GatewaySession
import Mathlib.Algebra.Ring.Int.Defs
import Mathlib.Algebra.BigOperators.Group.List.Basic

/-! The reports of one order as the wire protocol (`order_msg.hpp`) lays them out, and what a run of the engine makes of
    them: every call of the gateway's `handle_fill` and every call of the strategy's `on_fill`. -/

namespace Hft

/-- A report after which its order is done. -/
def ExecReport.Terminal (r : ExecReport) : Prop :=
  r.status = ExecStatus.kFilled.toByte ∨ r.status = ExecStatus.kCanceled.toByte ∨
    r.status = ExecStatus.kRejected.toByte

instance (r : ExecReport) : Decidable r.Terminal := inferInstanceAs (Decidable (_ ∨ _ ∨ _))

/-- At most one acknowledgement, partial fills, and a terminal report, all of the order and its side, filling at most
    its size. -/
structure LegalReports (o : OrderRequest) (acks partials : List ExecReport) (last : ExecReport) : Prop where
  acks_le : acks.length ≤ 1
  acknowledges : ∀ r ∈ acks, r.status = ExecStatus.kAck.toByte ∧ r.fillSize = 0
  fillsInPart : ∀ r ∈ partials, r.status = ExecStatus.kPartial.toByte
  ends : last.Terminal
  own : ∀ r ∈ acks ++ partials ++ [last], r.orderId = o.orderId ∧ r.side = o.side
  size : ((acks ++ partials ++ [last]).map fun r => r.fillSize.toNat).sum ≤ o.size.toNat

def Legal (o : OrderRequest) (rs : List ExecReport) : Prop :=
  ∃ acks partials last, rs = acks ++ partials ++ [last] ∧ LegalReports o acks partials last

/-- One call of `on_fill`: the report, and the strategy on both sides of it. -/
structure Take (n : NumTicks) where
  before : ImbalanceStrategy n
  report : ExecReport
  after : ImbalanceStrategy n

namespace Take

variable {n : NumTicks}

def reportId (x : Take n) : UInt64 := x.report.orderId

/-- How far the call moved the position of the strategy. -/
def moved (x : Take n) : Int := x.after.position - x.before.position

end Take

/-- The calls of `on_fill` in the fill loop of a strategy poll with `k` rounds left. -/
def StrategyRunner.takes {n : NumTicks} {fillCap : Nat} :
    Nat → ImbalanceStrategy n → BoundedQueue ExecReport fillCap → List (Take n)
  | 0, _, _ => []
  | k + 1, s, fills =>
    match fills.pop? with
    | none => []
    | some (r, fills) => ⟨s, r, s.onFill r⟩ :: takes k (s.onFill r) fills

namespace Engine

variable {z : EngineSizes}

/-- The calls of `handle_fill` in a step. -/
def handled (s : Engine z) : EngineEvent → List (Round z.flightCap z.fillCap.val.toNat)
  | .gatewayPoll _ _ => GatewaySession.rounds 32 s.gateway s.fillRx s.fillQ
  | .md _ | .datagram _ | .setKill _ | .strategyPoll | .stop | .strategyExit | .gatewayExit => []

/-- The calls of `on_fill` in a step. -/
def taken (s : Engine z) : EngineEvent → List (Take z.ticks)
  | .strategyPoll => StrategyRunner.takes 16 s.strategy.strat s.fillQ
  | .md _ | .datagram _ | .setKill _ | .gatewayPoll _ _ | .stop | .strategyExit | .gatewayExit => []

def arrives : EngineEvent → List (List UInt8)
  | .datagram m => [m]
  | .md _ | .setKill _ | .strategyPoll | .gatewayPoll _ _ | .stop | .strategyExit | .gatewayExit => []

def handledIn (h : List (Engine z × EngineEvent)) : List (Round z.flightCap z.fillCap.val.toNat) :=
  h.flatMap fun p => p.1.handled p.2

def takenIn (h : List (Engine z × EngineEvent)) : List (Take z.ticks) := h.flatMap fun p => p.1.taken p.2

/-- The reports of order `id` that wait in the socket or arrive in the run. -/
def reportsOf (id : UInt64) (s : Engine z) (h : List (Engine z × EngineEvent)) : List ExecReport :=
  ((s.fillRx ++ h.flatMap fun p => arrives p.2).filterMap ExecReport.ofDatagram?).filter fun r =>
    decide (r.orderId = id)

/-- How far reports of order `id` moved the position of the gate. -/
def gateMove (id : UInt64) (h : List (Engine z × EngineEvent)) : Int :=
  (((handledIn h).filter fun r => decide (r.reportId = id)).map Round.moved).sum

/-- How far reports of order `id` moved the position of the strategy. -/
def strategyMove (id : UInt64) (h : List (Engine z × EngineEvent)) : Int :=
  (((takenIn h).filter fun x => decide (x.reportId = id)).map Take.moved).sum

/-- No call of `on_fill` opens the latch before the one that brings a terminal report of order `id`. -/
def LatchHeld (id : UInt64) (h : List (Engine z × EngineEvent)) : Prop :=
  ∀ pre x post, takenIn h = pre ++ x :: post → x.after.inFlight = false →
    ∃ y ∈ pre ++ [x], y.reportId = id ∧ y.report.Terminal

/-- Every report of order `id` has been handled by both stages. -/
def Settled (id : UInt64) (s : Engine z) : Prop :=
  (∀ r ∈ s.fillRx.filterMap ExecReport.ofDatagram?, r.orderId ≠ id) ∧ ∀ r ∈ s.fillQ.items, r.orderId ≠ id

instance (id : UInt64) (s : Engine z) : Decidable (s.Settled id) := inferInstanceAs (Decidable (_ ∧ _))

/-- Both positions moved by what the reports fill, and the latch held until the terminal one. -/
structure Accounted (id : UInt64) (rs : List ExecReport) (h : List (Engine z × EngineEvent)) : Prop where
  gate : gateMove id h = (rs.map ExecReport.signedFill).sum
  strategy : strategyMove id h = (rs.map ExecReport.signedFill).sum
  latch : LatchHeld id h

end Engine

end Hft
