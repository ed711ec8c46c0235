import HftEngine.Message
import Mathlib.Data.Int.ModEq

/-! The flat-array order book (`book_view.hpp`): resting size per tick and side, with the best index of
    each side cached. -/

namespace Hft

/-- The template argument of `BookView`: at least four ticks, and a count that fits in `int`. -/
structure NumTicks where
  val : Nat
  four_le : 4 ≤ val
  lt_int : val < 2 ^ 31

/-- `static_cast<int>` of a 64-bit value: the low 32 bits, read as a signed number. -/
def castInt (x : Int) : Int := x.bmod (2 ^ 32)

def kMaxLevelSize : UInt32 := 4294967295

structure BookView (n : NumTicks) where
  bid : Vector UInt32 n.val
  ask : Vector UInt32 n.val
  /-- -1 when there is no bid. -/
  bestBidIdx : Int
  /-- `NumTicks` when there is no ask. -/
  bestAskIdx : Int
  base : Int
  tick : Int
  outOfRange : UInt64

namespace BookView

variable {n : NumTicks}

/-- The constructor: an empty book. -/
def new (n : NumTicks) (basePrice tick : Int) : BookView n where
  bid := Vector.replicate n.val 0
  ask := Vector.replicate n.val 0
  bestBidIdx := -1
  bestAskIdx := n.val
  base := basePrice
  tick := tick
  outOfRange := 0

/-- The division truncates toward zero before the quotient narrows to `int`. -/
def toIndex (b : BookView n) (price : Int) : Int := castInt ((price - b.base).tdiv b.tick)

def priceAt (b : BookView n) (idx : Int) : Int := b.base + idx * b.tick

def arr (b : BookView n) (isBid : Bool) : Vector UInt32 n.val := if isBid then b.bid else b.ask

def setLevel (b : BookView n) (isBid : Bool) (i : Fin n.val) (size : UInt32) : BookView n :=
  if isBid then { b with bid := b.bid.set i size i.isLt } else { b with ask := b.ask.set i size i.isLt }

def onSizeIncreased (b : BookView n) (isBid : Bool) (idx : Int) : BookView n :=
  if isBid then
    if idx > b.bestBidIdx then { b with bestBidIdx := idx } else b
  else
    if idx < b.bestAskIdx then { b with bestAskIdx := idx } else b

/-- The loop `while (j >= 0 && bid_[j] == 0) --j` from `j = k - 1`. -/
def walkDown (v : Vector UInt32 n.val) : (k : Nat) → k ≤ n.val → Int
  | 0, _ => -1
  | k + 1, h => if v[k] = 0 then walkDown v k (Nat.le_of_succ_le h) else k

/-- The loop `while (j < NumTicks && ask_[j] == 0) ++j` with `k` ticks left, `j = NumTicks - k`. -/
def walkUp (v : Vector UInt32 n.val) : (k : Nat) → k ≤ n.val → Int
  | 0, _ => n.val
  | k + 1, h => if v[n.val - (k + 1)] = 0 then walkUp v k (Nat.le_of_succ_le h) else (n.val - (k + 1) : Nat)

/-- The level at `idx` just hit zero: only the best level emptying moves the touch. -/
def onLevelEmptied (b : BookView n) (isBid : Bool) (idx : Fin n.val) : BookView n :=
  if isBid then
    if (idx : Int) ≠ b.bestBidIdx then b
    else { b with bestBidIdx := walkDown b.bid idx (Nat.le_of_lt idx.isLt) }
  else
    if (idx : Int) ≠ b.bestAskIdx then b
    else { b with bestAskIdx := walkUp b.ask (n.val - (idx + 1)) (Nat.sub_le _ _) }

/-- The level after an add: saturated, not wrapped. -/
def addSize (level size : UInt32) : UInt32 :=
  if level > kMaxLevelSize - size then kMaxLevelSize else level + size

def cutSize (level size : UInt32) : UInt32 := if size ≥ level then 0 else level - size

/-- The switch of `apply` for a message of type `t` at an index inside the window. -/
def applyAt (b : BookView n) (t : MsgType) (isBid : Bool) (i : Fin n.val) (size : UInt32) : BookView n :=
  match t with
  | .kAdd =>
    -- A zero-size add must not reach `onSizeIncreased`, which does not consult the size.
    if size = 0 then b
    else (b.setLevel isBid i (addSize ((b.arr isBid).get i) size)).onSizeIncreased isBid i
  | .kExecute | .kCancel =>
    let left := cutSize ((b.arr isBid).get i) size
    if left = 0 then (b.setLevel isBid i left).onLevelEmptied isBid i else b.setLevel isBid i left
  | .kDelete => (b.setLevel isBid i 0).onLevelEmptied isBid i
  | .kTrade | .kUnknown => b

def apply (b : BookView n) (m : ItchMessage) : BookView n :=
  let idx := b.toIndex m.price
  if h : 0 ≤ idx ∧ idx < n.val then
    b.applyAt (msgType m) (m.side == Side.kBuy.toByte) ⟨idx.toNat, by omega⟩ m.size
  else { b with outOfRange := b.outOfRange + 1 }

def applyAll (b : BookView n) (msgs : List ItchMessage) : BookView n := msgs.foldl apply b

/-! ### Top of book -/

def hasBid (b : BookView n) : Bool := 0 ≤ b.bestBidIdx

def hasAsk (b : BookView n) : Bool := b.bestAskIdx < n.val

def twoSided (b : BookView n) : Bool := b.hasBid && b.hasAsk

def bestBidPrice (b : BookView n) : Int := b.priceAt b.bestBidIdx

def bestAskPrice (b : BookView n) : Int := b.priceAt b.bestAskIdx

def bestBidSize (b : BookView n) : UInt32 := if b.hasBid then b.bid[b.bestBidIdx.toNat]?.getD 0 else 0

def bestAskSize (b : BookView n) : UInt32 := if b.hasAsk then b.ask[b.bestAskIdx.toNat]?.getD 0 else 0

/-- Two sizes, their sum and their difference are exact in `double`; `round` rounds the quotient. -/
def imbalance (round : Rat → Rat) (b : BookView n) : Rat :=
  if b.twoSided then
    let bid : Rat := b.bestBidSize.toNat
    let ask : Rat := b.bestAskSize.toNat
    let denom := bid + ask
    if 0 < denom then round ((bid - ask) / denom) else 0
  else 0

def sizeAt (b : BookView n) (side : Side) (price : Int) : UInt32 :=
  let idx := b.toIndex price
  if h : 0 ≤ idx ∧ idx < n.val then (b.arr (side == .kBuy)).get ⟨idx.toNat, by omega⟩ else 0

end BookView

end Hft
