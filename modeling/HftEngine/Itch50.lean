import HftEngine.Message
import Mathlib.Data.List.AList

/-! The Nasdaq TotalView-ITCH 5.0 decoder (`itch50.hpp`): order messages in, level deltas out. A message body
    is a list of bytes; a read outside it, undefined in the source, is `none`. -/

namespace Hft.Itch50

/-! ### Message types and lengths -/

inductive ItchType
  | kSystemEvent | kStockDirectory | kTradingAction | kRegSho | kMarketParticipant | kAddOrder | kAddOrderMpid
  | kOrderExecuted | kOrderExecutedPrice | kOrderCancel | kOrderDelete | kOrderReplace | kTrade
  deriving DecidableEq, Repr

namespace ItchType

def toByte : ItchType → UInt8
  | kSystemEvent => 83
  | kStockDirectory => 82
  | kTradingAction => 72
  | kRegSho => 89
  | kMarketParticipant => 76
  | kAddOrder => 65
  | kAddOrderMpid => 70
  | kOrderExecuted => 69
  | kOrderExecutedPrice => 67
  | kOrderCancel => 88
  | kOrderDelete => 68
  | kOrderReplace => 85
  | kTrade => 80

def length : ItchType → Nat
  | kSystemEvent => 12
  | kStockDirectory => 39
  | kTradingAction => 25
  | kRegSho => 20
  | kMarketParticipant => 26
  | kAddOrder => 36
  | kAddOrderMpid => 40
  | kOrderExecuted => 31
  | kOrderExecutedPrice => 36
  | kOrderCancel => 23
  | kOrderDelete => 19
  | kOrderReplace => 35
  | kTrade => 44

def ofByte? (b : UInt8) : Option ItchType :=
  [kSystemEvent, kStockDirectory, kTradingAction, kRegSho, kMarketParticipant, kAddOrder, kAddOrderMpid,
    kOrderExecuted, kOrderExecutedPrice, kOrderCancel, kOrderDelete, kOrderReplace, kTrade].find?
    fun t => t.toByte == b

end ItchType

/-- Expected body length for a type byte, or 0 when the type is not decoded. -/
def expectedLength (type : UInt8) : Nat :=
  match ItchType.ofByte? type with
  | some t => t.length
  | none => 0

/-! ### Big-endian field readers -/

def be16 (m : List UInt8) (off : Nat) : Option UInt16 := do
  let p0 ← m[off]?
  let p1 ← m[off + 1]?
  return (p0.toUInt16 <<< 8) ||| p1.toUInt16

def be32 (m : List UInt8) (off : Nat) : Option UInt32 := do
  let p0 ← m[off]?
  let p1 ← m[off + 1]?
  let p2 ← m[off + 2]?
  let p3 ← m[off + 3]?
  return (p0.toUInt32 <<< 24) ||| (p1.toUInt32 <<< 16) ||| (p2.toUInt32 <<< 8) ||| p3.toUInt32

/-- The loop `v = (v << 8) | p[i]` over `n` bytes from `off`. -/
def beLoop (m : List UInt8) : (n off : Nat) → UInt64 → Option UInt64
  | 0, _, v => some v
  | n + 1, off, v => do
    let b ← m[off]?
    beLoop m n (off + 1) ((v <<< 8) ||| b.toUInt64)

def be48 (m : List UInt8) (off : Nat) : Option UInt64 := beLoop m 6 off 0

def be64 (m : List UInt8) (off : Nat) : Option UInt64 := beLoop m 8 off 0

structure Header where
  type : UInt8
  stockLocate : UInt16
  trackingNumber : UInt16
  timestampNs : UInt64
  deriving DecidableEq, Repr

def readHeader (m : List UInt8) : Option Header := do
  let type ← m[0]?
  let stockLocate ← be16 m 1
  let trackingNumber ← be16 m 3
  let timestampNs ← be48 m 5
  return { type, stockLocate, trackingNumber, timestampNs }

/-! ### The decoder -/

structure LevelDelta where
  valid : Bool := false
  type : MsgType := .kUnknown
  side : Side := .kBuy
  price : Int := 0
  size : UInt32 := 0
  timestampNs : UInt64 := 0
  stockLocate : UInt16 := 0
  deriving DecidableEq, Repr

structure Order where
  price : Int
  shares : UInt32
  side : Side
  deriving DecidableEq, Repr

structure Stats where
  decoded : UInt64 := 0
  ignored : UInt64 := 0
  malformed : UInt64 := 0
  unknownOrder : UInt64 := 0
  liveOrders : UInt64 := 0
  deriving DecidableEq, Repr

abbrev OrderTable := AList fun _ : UInt64 => Order

structure Decoder where
  orders : OrderTable := ∅
  pending : LevelDelta := {}
  stats : Stats := {}

def kItchPriceDivisor : Int := 10000

/-- ITCH has four implied decimals, the engine `kPriceScale` units. -/
def toEnginePrice (itchPrice : UInt32) : Int := ((itchPrice.toNat : Int) * kPriceScale).tdiv kItchPriceDivisor

namespace Decoder

def countMalformed (d : Decoder) : Decoder := { d with stats.malformed := d.stats.malformed + 1 }

def countIgnored (d : Decoder) : Decoder := { d with stats.ignored := d.stats.ignored + 1 }

def countDecoded (d : Decoder) : Decoder := { d with stats.decoded := d.stats.decoded + 1 }

def countUnknown (d : Decoder) : Decoder := { d with stats.unknownOrder := d.stats.unknownOrder + 1 }

/-- An execution or a cancel: takes at most what remains, and drops the order when nothing does. -/
def reduce (d : Decoder) (ref : UInt64) (shares : UInt32) (type : MsgType) (out : LevelDelta) :
    Decoder × LevelDelta :=
  match d.orders.lookup ref with
  | none => (d.countUnknown, out)
  | some o =>
    let taken := if shares ≥ o.shares then o.shares else shares
    let left := o.shares - taken
    let orders := if left = 0 then d.orders.erase ref else d.orders.insert ref { o with shares := left }
    ({ d with orders }, { out with valid := true, type, side := o.side, price := o.price, size := taken })

/-- Order Delete: removes whatever remains. -/
def delete (d : Decoder) (ref : UInt64) (out : LevelDelta) : Decoder × LevelDelta :=
  match d.orders.lookup ref with
  | none => (d.countUnknown, out)
  | some o =>
    ({ d with orders := d.orders.erase ref },
      { out with valid := true, type := .kCancel, side := o.side, price := o.price, size := o.shares })

/-- Order Replace: the removal is returned and the add is left pending. -/
def replace (d : Decoder) (orig fresh : UInt64) (shares : UInt32) (price : Int) (out : LevelDelta) :
    Decoder × LevelDelta :=
  match d.orders.lookup orig with
  | none =>
    -- The replacement is recorded, on the buy side, so that later messages resolve.
    ({ d.countUnknown with orders := d.orders.insert fresh { price, shares, side := .kBuy } }, out)
  | some old =>
    ({ d with
        orders := (d.orders.erase orig).insert fresh { price, shares, side := old.side }
        pending := { out with valid := true, type := .kAdd, side := old.side, price, size := shares } },
      { out with valid := true, type := .kCancel, side := old.side, price := old.price, size := old.shares })

/-- The switch of `apply` over the types that are decoded. -/
def dispatch (d : Decoder) (t : ItchType) (body : List UInt8) (out : LevelDelta) :
    Option (Decoder × LevelDelta) :=
  match t with
  | .kAddOrder | .kAddOrderMpid => do
    let ref ← be64 body 11
    let sideByte ← body[19]?
    let side := if sideByte = 66 then Side.kBuy else Side.kSell
    let shares ← be32 body 20
    let price := toEnginePrice (← be32 body 32)
    return ({ d with orders := d.orders.insert ref { price, shares, side } },
      { out with valid := true, type := .kAdd, side, price, size := shares })
  | .kOrderExecuted | .kOrderExecutedPrice => do
    return d.reduce (← be64 body 11) (← be32 body 19) .kExecute out
  | .kOrderCancel => do
    return d.reduce (← be64 body 11) (← be32 body 19) .kCancel out
  | .kOrderDelete => do
    return d.delete (← be64 body 11) out
  | .kOrderReplace => do
    let orig ← be64 body 11
    let fresh ← be64 body 19
    let shares ← be32 body 27
    let price := toEnginePrice (← be32 body 31)
    return d.replace orig fresh shares price out
  | .kTrade | .kSystemEvent | .kStockDirectory | .kTradingAction | .kRegSho | .kMarketParticipant => some (d, out)

def countLive (d : Decoder) : Decoder :=
  { d with stats.liveOrders := UInt64.ofNat d.orders.entries.length }

/-- Decode one message body. The delta is invalid for a message that changes no price level. -/
def apply (d : Decoder) (body : List UInt8) : Option (Decoder × LevelDelta) :=
  if body.length = 0 then some (d.countMalformed, {})
  else do
    let h ← readHeader body
    match ItchType.ofByte? h.type with
    | none => some (d.countIgnored, {})
    | some t =>
      if body.length ≠ expectedLength h.type then some (d.countMalformed, {})
      else
        let (d, out) ← d.countDecoded.dispatch t body
          { timestampNs := h.timestampNs, stockLocate := h.stockLocate }
        return (d.countLive, out)

/-- Hands out the pending delta once. -/
def takePending (d : Decoder) : LevelDelta × Decoder := (d.pending, { d with pending := {} })

end Decoder

end Hft.Itch50
