import HftEngine.LevelBook
import HftEngine.Strategy
import Mathlib.Data.Rat.Defs
import Mathlib.Order.Bounds.Basic

/-! The strategy on its own, fed with market data and fills in any order, and what it is for: to trade on the imbalance
    of the true top of the book. -/

namespace Hft

/-! ### The trade that the levels call for -/

/-- The best level of each side of a book that has both. -/
structure Touch (A : LevelBook) where
  bid : Int
  ask : Int
  isBid : IsGreatest (A.bids.support : Set Int) bid
  isAsk : IsLeast (A.asks.support : Set Int) ask

namespace Touch

variable {A : LevelBook}

def bidSize (T : Touch A) : Nat := A.bids T.bid

def askSize (T : Touch A) : Nat := A.asks T.ask

end Touch

/-- A side to trade on, and the level whose price the order takes. -/
inductive Calls (thrNum position : Int) (A : LevelBook) : Side → Int → Prop
  | buy (T : Touch A) (hpos : position ≤ 0)
      (h : ((T.bidSize : ℚ) - T.askSize) / (T.bidSize + T.askSize) > thrNum / 2 ^ 14) :
      Calls thrNum position A .kBuy T.bid
  | sell (T : Touch A) (hpos : 0 ≤ position)
      (h : ((T.askSize : ℚ) - T.bidSize) / (T.bidSize + T.askSize) > thrNum / 2 ^ 14) :
      Calls thrNum position A .kSell T.ask

/-! ### Sessions -/

/-- What reaches the strategy. -/
inductive StrategyInput
  | md (ev : MdEvent)
  | fill (r : ExecReport)

namespace StrategyInput

def message? : StrategyInput → Option ItchMessage
  | md ev => some ev.msg
  | fill _ => none

end StrategyInput

/-- The strategy, with the orders that it emitted and the fills that it got, oldest first. -/
structure TradingSession (n : NumTicks) where
  strat : ImbalanceStrategy n
  log : List (OrderRequest ⊕ ExecReport) := []

namespace TradingSession

variable {n : NumTicks}

def next (s : TradingSession n) : StrategyInput → TradingSession n
  | .md ev => { strat := (s.strat.onMd ev).1, log := s.log ++ (s.strat.onMd ev).2.toList.map .inl }
  | .fill r => { strat := s.strat.onFill r, log := s.log ++ [.inr r] }

def run (n : NumTicks) (p : StrategyParams) (ins : List StrategyInput) : TradingSession n :=
  ins.foldl next { strat := .new n p }

def orders (s : TradingSession n) : List OrderRequest := s.log.filterMap Sum.getLeft?

def fills (s : TradingSession n) : List ExecReport := s.log.filterMap Sum.getRight?

/-- The shares that the fills add up to. -/
def net (s : TradingSession n) : Int := (s.fills.map ExecReport.signedFill).sum

/-- The last order has had no fill. -/
def waiting (s : TradingSession n) : Bool := s.log.getLast?.any Sum.isLeft

end TradingSession

noncomputable section

/-- The true levels after a sequence of inputs. -/
def LevelBook.after (p : StrategyParams) (ins : List StrategyInput) : LevelBook :=
  LevelBook.run p.basePrice p.tick (ins.filterMap StrategyInput.message?)

end

end Hft
