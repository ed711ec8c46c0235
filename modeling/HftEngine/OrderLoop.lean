import HftEngine.Message
import HftEngine.Lib.Transition

/-! What the two stages are for: one order at a time goes round a loop from the strategy through the gate to the
    exchange and back, and two ledgers count its fills, the gate's before the strategy's. -/

namespace Hft

/-- Where the order of the loop is. -/
inductive Phase
  | idle
  | queued (o : OrderRequest)
  | working (o : OrderRequest)
  | reported (o : OrderRequest) (r : ExecReport)
  /-- Refused by the gate: no stage holds the order any more. -/
  | dropped (o : OrderRequest)
  deriving DecidableEq

structure OrderLoop where
  phase : Phase := .idle
  strategyPos : Int := 0
  gatePos : Int := 0
  emitted : List (OrderRequest × Int) := []
  checked : List (OrderRequest × Int) := []
  sent : List OrderRequest := []

inductive LoopEvent
  | emit (o : OrderRequest)
  | pass
  | drop
  | report (r : ExecReport)
  | deliver
  deriving DecidableEq

namespace OrderLoop

def emit (a : OrderLoop) (o : OrderRequest) : OrderLoop :=
  { a with phase := .queued o, emitted := a.emitted ++ [(o, a.strategyPos)] }

def pass (a : OrderLoop) (o : OrderRequest) : OrderLoop :=
  { a with phase := .working o, checked := a.checked ++ [(o, a.gatePos)], sent := a.sent ++ [o] }

def drop (a : OrderLoop) (o : OrderRequest) : OrderLoop :=
  { a with phase := .dropped o, checked := a.checked ++ [(o, a.gatePos)] }

def report (a : OrderLoop) (o : OrderRequest) (r : ExecReport) : OrderLoop :=
  { a with phase := .reported o r, gatePos := a.gatePos + r.signedFill }

def deliver (a : OrderLoop) (r : ExecReport) : OrderLoop :=
  { a with phase := .idle, strategyPos := a.strategyPos + r.signedFill }

/-- An order that brings a flat position out and any other position toward flat. -/
def Wants (pos : Int) (o : OrderRequest) : Prop :=
  (o.side = Side.kBuy.toByte → pos ≤ 0) ∧ (o.side ≠ Side.kBuy.toByte → 0 ≤ pos)

inductive Step : OrderLoop → LoopEvent → OrderLoop → Prop
  | emit {a : OrderLoop} {o : OrderRequest} (hp : a.phase = .idle) (hw : Wants a.strategyPos o) :
      Step a (.emit o) (a.emit o)
  | pass {a : OrderLoop} {o : OrderRequest} (hp : a.phase = .queued o) : Step a .pass (a.pass o)
  | drop {a : OrderLoop} {o : OrderRequest} (hp : a.phase = .queued o) : Step a .drop (a.drop o)
  | report {a : OrderLoop} {o : OrderRequest} {r : ExecReport} (hp : a.phase = .working o)
      (hid : r.orderId = o.orderId) : Step a (.report r) (a.report o r)
  | deliver {a : OrderLoop} {o : OrderRequest} {r : ExecReport} (hp : a.phase = .reported o r) :
      Step a .deliver (a.deliver r)

end OrderLoop

end Hft
