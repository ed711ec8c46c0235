import HftEngine.BookView
import HftEngine.Lib.BoundedQueue

/-! The book-imbalance strategy and the runner that drives it (`strategy.hpp`). A poll is `none` when its first
    attempt to push the order fails, where the source would spin. -/

namespace Hft

def kThrDen : Int := 16384

/-- `thrNum` is what the constructor rounds `threshold * kThrDen` to. -/
structure StrategyParams where
  basePrice : Int
  tick : Int
  thrNum : Int
  orderSize : UInt32

structure ImbalanceStrategy (n : NumTicks) where
  book : BookView n
  position : Int := 0
  lastOrderId : UInt64 := 0
  ordersSent : UInt64 := 0
  fillsSeen : UInt64 := 0
  mdSeen : UInt64 := 0
  orderSize : UInt32
  thrNum : Int
  inFlight : Bool := false

namespace ImbalanceStrategy

variable {n : NumTicks}

def new (n : NumTicks) (p : StrategyParams) : ImbalanceStrategy n where
  book := BookView.new n p.basePrice p.tick
  orderSize := p.orderSize
  thrNum := p.thrNum

def diff (s : ImbalanceStrategy n) : Int := s.book.bestBidSize.toNat - s.book.bestAskSize.toNat

def sum (s : ImbalanceStrategy n) : Int := s.book.bestBidSize.toNat + s.book.bestAskSize.toNat

/-- Imbalance over the threshold, flat or short. -/
def wantBuy (s : ImbalanceStrategy n) : Bool := s.diff * kThrDen > s.thrNum * s.sum && s.position ≤ 0

/-- Imbalance under minus the threshold, flat or long. -/
def wantSell (s : ImbalanceStrategy n) : Bool := -(s.diff * kThrDen) > s.thrNum * s.sum && 0 ≤ s.position

def order (s : ImbalanceStrategy n) (ev : MdEvent) : OrderRequest where
  orderId := s.lastOrderId + 1
  mdTimestamp := ev.arrivalTsc
  symbol := ev.msg.symbol
  size := s.orderSize
  side := if s.wantBuy then Side.kBuy.toByte else Side.kSell.toByte
  action := OrderAction.kNew.toByte
  price := if s.wantBuy then s.book.bestBidPrice else s.book.bestAskPrice

def observe (s : ImbalanceStrategy n) (ev : MdEvent) : ImbalanceStrategy n :=
  { s with mdSeen := s.mdSeen + 1, book := s.book.apply ev.msg }

/-- Process one market-data event, with the order that it emits if any. -/
def onMd (s : ImbalanceStrategy n) (ev : MdEvent) : ImbalanceStrategy n × Option OrderRequest :=
  let s := s.observe ev
  if !s.book.twoSided then (s, none)
  else if s.inFlight || !(s.wantBuy || s.wantSell) then (s, none)
  else
    ({ s with lastOrderId := s.lastOrderId + 1, inFlight := true, ordersSent := s.ordersSent + 1 },
      some (s.order ev))

/-- A fill came back: the position moves and the latch opens. -/
def onFill (s : ImbalanceStrategy n) (r : ExecReport) : ImbalanceStrategy n :=
  { s with position := s.position + r.signedFill, inFlight := false, fillsSeen := s.fillsSeen + 1 }

end ImbalanceStrategy

structure StrategyRunner (n : NumTicks) where
  strat : ImbalanceStrategy n
  processed : UInt64 := 0
  ordersPushed : UInt64 := 0

namespace StrategyRunner

variable {n : NumTicks} {feedCap orderCap fillCap : Nat}

structure Polled (n : NumTicks) (feedCap orderCap fillCap : Nat) where
  runner : StrategyRunner n
  feed : BoundedQueue MdEvent feedCap
  orders : BoundedQueue OrderRequest orderCap
  fills : BoundedQueue ExecReport fillCap
  emitted : Option OrderRequest
  busy : Bool

/-- The loop `for (d = 0; d < 16 && fills_->pop(r); ++d)` with `k` rounds left. -/
def drainFills : Nat → ImbalanceStrategy n → BoundedQueue ExecReport fillCap →
    ImbalanceStrategy n × BoundedQueue ExecReport fillCap
  | 0, s, fills => (s, fills)
  | k + 1, s, fills =>
    match fills.pop? with
    | none => (s, fills)
    | some (r, fills) => drainFills k (s.onFill r) fills

/-- The market-data part of a poll: at most one event. -/
def pollFeed (runner : StrategyRunner n) (feed : BoundedQueue MdEvent feedCap)
    (orders : BoundedQueue OrderRequest orderCap) (fills : BoundedQueue ExecReport fillCap) :
    Option (Polled n feedCap orderCap fillCap) :=
  match feed.pop? with
  | none => some { runner, feed, orders, fills, emitted := none, busy := false }
  | some (ev, feed) =>
    match runner.strat.onMd ev with
    | (strat, none) =>
      some { runner := { runner with strat, processed := runner.processed + 1 }, feed, orders, fills,
             emitted := none, busy := true }
    | (strat, some o) => do
      let orders ← orders.push? o
      return { runner := { strat, processed := runner.processed + 1, ordersPushed := runner.ordersPushed + 1 },
               feed, orders, fills, emitted := some o, busy := true }

/-- Process pending fills, then at most one market-data event. -/
def pollOnce (runner : StrategyRunner n) (feed : BoundedQueue MdEvent feedCap)
    (orders : BoundedQueue OrderRequest orderCap) (fills : BoundedQueue ExecReport fillCap) :
    Option (Polled n feedCap orderCap fillCap) :=
  let (strat, fills) := drainFills 16 runner.strat fills
  pollFeed { runner with strat } feed orders fills

end StrategyRunner

end Hft
