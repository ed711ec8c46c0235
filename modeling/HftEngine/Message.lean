import HftEngine.Lib.Bytes

/-! The messages of the engine: market data (`itch_message.hpp`), orders and execution reports
    (`order_msg.hpp`). Prices and positions are exact integers: a signed overflow is undefined in the source. -/

namespace Hft

/-! ### Market data -/

/-- `MsgType`; a byte that names no enumerator takes the default branch of every switch, as `kUnknown`
    does. -/
inductive MsgType
  | kUnknown | kAdd | kExecute | kCancel | kDelete | kTrade
  deriving DecidableEq, Repr

def MsgType.toByte : MsgType → UInt8
  | .kUnknown => 0
  | .kAdd => 65
  | .kExecute => 69
  | .kCancel => 88
  | .kDelete => 68
  | .kTrade => 80

inductive Side
  | kNone | kBuy | kSell
  deriving DecidableEq, Repr

def Side.toByte : Side → UInt8
  | .kNone => 0
  | .kBuy => 66
  | .kSell => 83

def kPriceScale : Int := 10000

structure ItchMessage where
  timestamp : UInt64 := 0
  price : Int := 0
  symbol : UInt32 := 0
  size : UInt32 := 0
  seq : UInt32 := 0
  type : UInt8 := 0
  side : UInt8 := 0
  flags : UInt16 := 0
  deriving DecidableEq, Repr

/-- `msg_type`: the enumerator that the type byte names. -/
def msgType (m : ItchMessage) : MsgType :=
  if m.type = MsgType.kAdd.toByte then .kAdd
  else if m.type = MsgType.kExecute.toByte then .kExecute
  else if m.type = MsgType.kCancel.toByte then .kCancel
  else if m.type = MsgType.kDelete.toByte then .kDelete
  else if m.type = MsgType.kTrade.toByte then .kTrade
  else .kUnknown

theorem msgType_of_toByte {m : ItchMessage} {t : MsgType} (h : m.type = t.toByte) : msgType m = t := by
  unfold msgType
  rw [h]
  cases t <;> decide

structure MdEvent where
  msg : ItchMessage
  arrivalTsc : UInt64
  deriving DecidableEq, Repr

/-! ### Orders and execution reports -/

inductive OrderAction
  | kNew | kCancel
  deriving DecidableEq, Repr

def OrderAction.toByte : OrderAction → UInt8
  | .kNew => 78
  | .kCancel => 67

inductive ExecStatus
  | kAck | kFilled | kPartial | kRejected | kCanceled
  deriving DecidableEq, Repr

def ExecStatus.toByte : ExecStatus → UInt8
  | .kAck => 65
  | .kFilled => 70
  | .kPartial => 80
  | .kRejected => 82
  | .kCanceled => 88

structure OrderRequest where
  orderId : UInt64 := 0
  mdTimestamp : UInt64 := 0
  price : Int := 0
  symbol : UInt32 := 0
  size : UInt32 := 0
  side : UInt8 := 0
  action : UInt8 := 0
  flags : UInt16 := 0
  pad : UInt32 := 0
  deriving DecidableEq, Repr

structure ExecReport where
  orderId : UInt64 := 0
  mdTimestamp : UInt64 := 0
  fillPrice : Int := 0
  symbol : UInt32 := 0
  fillSize : UInt32 := 0
  side : UInt8 := 0
  status : UInt8 := 0
  flags : UInt16 := 0
  pad : UInt32 := 0
  deriving DecidableEq, Repr

def kExecSize : Nat := 40

/-- Shares with the sign of a side byte: a buy counts up, every other byte counts down. -/
def signedQty (side : UInt8) (size : UInt32) : Int :=
  if side = Side.kBuy.toByte then (size.toNat : Int) else -(size.toNat : Int)

def OrderRequest.signedSize (o : OrderRequest) : Int := signedQty o.side o.size

def ExecReport.signedFill (r : ExecReport) : Int := signedQty r.side r.fillSize

/-- A fill on the side of an order and at most its size moves the position part of the way that the order would. -/
theorem signedFill_between {o : OrderRequest} {r : ExecReport} (hside : r.side = o.side) (hsize : r.fillSize ≤ o.size) :
    min 0 o.signedSize ≤ r.signedFill ∧ r.signedFill ≤ max 0 o.signedSize := by
  have hle := UInt32.le_iff_toNat_le.mp hsize
  unfold ExecReport.signedFill OrderRequest.signedSize signedQty
  rw [hside]
  split <;> omega

/-! ### The wire -/

/-- The unsigned number that `n` native (little-endian) bytes from `off` spell. -/
def leField (m : List UInt8) (off n : Nat) : Nat := Bytes.le ((m.drop off).take n)

/-- The report that `try_recv` leaves in its 40-byte buffer: `recv` cuts a longer datagram to the
    buffer, and a shorter one does not return `kExecSize`. -/
def ExecReport.ofDatagram? (m : List UInt8) : Option ExecReport :=
  if m.length < kExecSize then none
  else some {
    orderId := UInt64.ofNat (leField m 0 8)
    mdTimestamp := UInt64.ofNat (leField m 8 8)
    fillPrice := (BitVec.ofNat 64 (leField m 16 8)).toInt
    symbol := UInt32.ofNat (leField m 24 4)
    fillSize := UInt32.ofNat (leField m 28 4)
    side := UInt8.ofNat (leField m 32 1)
    status := UInt8.ofNat (leField m 33 1)
    flags := UInt16.ofNat (leField m 34 2)
    pad := UInt32.ofNat (leField m 36 4) }

end Hft
