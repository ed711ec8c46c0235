import HftEngine.Itch50
import HftEngine.Lib.Bytes
import Mathlib.Logic.Function.Basic

/-! The order protocol that the decoder (`itch50.hpp`) reads: messages with their fields, the layout of each on the wire
    as the specification gives it, and what a message says about the live orders. -/

namespace Hft.Itch50

open Bytes (toBE)

/-! ### Messages -/

/-- Bytes of a fixed number that the book does not look into. -/
structure Octets (n : Nat) where
  bytes : List UInt8
  length_eq : bytes.length = n

inductive BookSide
  | buy | sell
  deriving DecidableEq, Repr

namespace BookSide

def toByte : BookSide → UInt8
  | buy => 66
  | sell => 83

def toSide : BookSide → Side
  | buy => .kBuy
  | sell => .kSell

end BookSide

inductive Message
  | systemEvent (eventCode : UInt8)
  | stockDirectory (fields : Octets 28)
  | tradingAction (fields : Octets 14)
  | regSho (fields : Octets 9)
  | marketParticipant (fields : Octets 15)
  | addOrder (ref : UInt64) (side : BookSide) (shares : UInt32) (stock : Octets 8) (price : UInt32)
  | addOrderMpid (ref : UInt64) (side : BookSide) (shares : UInt32) (stock : Octets 8) (price : UInt32)
      (mpid : Octets 4)
  | orderExecuted (ref : UInt64) (shares : UInt32) (matchNumber : UInt64)
  | orderExecutedPrice (ref : UInt64) (shares : UInt32) (matchNumber : UInt64) (printable : UInt8) (price : UInt32)
  | orderCancel (ref : UInt64) (shares : UInt32)
  | orderDelete (ref : UInt64)
  | orderReplace (orig fresh : UInt64) (shares price : UInt32)
  | trade (ref : UInt64) (side : UInt8) (shares : UInt32) (stock : Octets 8) (price : UInt32) (matchNumber : UInt64)

namespace Message

def type : Message → ItchType
  | systemEvent _ => .kSystemEvent
  | stockDirectory _ => .kStockDirectory
  | tradingAction _ => .kTradingAction
  | regSho _ => .kRegSho
  | marketParticipant _ => .kMarketParticipant
  | addOrder .. => .kAddOrder
  | addOrderMpid .. => .kAddOrderMpid
  | orderExecuted .. => .kOrderExecuted
  | orderExecutedPrice .. => .kOrderExecutedPrice
  | orderCancel .. => .kOrderCancel
  | orderDelete _ => .kOrderDelete
  | orderReplace .. => .kOrderReplace
  | trade .. => .kTrade

/-- The bytes after the header. -/
def fields : Message → List UInt8
  | systemEvent eventCode => [eventCode]
  | stockDirectory fields => fields.bytes
  | tradingAction fields => fields.bytes
  | regSho fields => fields.bytes
  | marketParticipant fields => fields.bytes
  | addOrder ref side shares stock price =>
    toBE 8 ref.toNat ++ ([side.toByte] ++ (toBE 4 shares.toNat ++ (stock.bytes ++ toBE 4 price.toNat)))
  | addOrderMpid ref side shares stock price mpid =>
    toBE 8 ref.toNat ++
      ([side.toByte] ++ (toBE 4 shares.toNat ++ (stock.bytes ++ (toBE 4 price.toNat ++ mpid.bytes))))
  | orderExecuted ref shares matchNumber => toBE 8 ref.toNat ++ (toBE 4 shares.toNat ++ toBE 8 matchNumber.toNat)
  | orderExecutedPrice ref shares matchNumber printable price =>
    toBE 8 ref.toNat ++ (toBE 4 shares.toNat ++ (toBE 8 matchNumber.toNat ++ ([printable] ++ toBE 4 price.toNat)))
  | orderCancel ref shares => toBE 8 ref.toNat ++ toBE 4 shares.toNat
  | orderDelete ref => toBE 8 ref.toNat
  | orderReplace orig fresh shares price =>
    toBE 8 orig.toNat ++ (toBE 8 fresh.toNat ++ (toBE 4 shares.toNat ++ toBE 4 price.toNat))
  | trade ref side shares stock price matchNumber =>
    toBE 8 ref.toNat ++
      ([side] ++ (toBE 4 shares.toNat ++ (stock.bytes ++ (toBE 4 price.toNat ++ toBE 8 matchNumber.toNat))))

/-- The reference that a message brings. -/
def newRef? : Message → Option UInt64
  | addOrder ref _ _ _ _ | addOrderMpid ref _ _ _ _ _ => some ref
  | orderReplace _ fresh _ _ => some fresh
  | _ => none

/-- The reference that a message replaces. -/
def original? : Message → Option UInt64
  | orderReplace orig _ _ _ => some orig
  | _ => none

/-- The price of the order that a message brings. -/
def newPrice? : Message → Option Int
  | addOrder _ _ _ _ price | addOrderMpid _ _ _ _ price _ | orderReplace _ _ _ price => some price.toNat
  | _ => none

end Message

/-- A message with the fields of its header. -/
structure Packet where
  stockLocate : UInt16
  trackingNumber : UInt16
  timestamp : BitVec 48
  message : Message

namespace Packet

def header (p : Packet) : List UInt8 :=
  [p.message.type.toByte] ++ (toBE 2 p.stockLocate.toNat ++ (toBE 2 p.trackingNumber.toNat ++ toBE 6 p.timestamp.toNat))

def encode (p : Packet) : List UInt8 := p.header ++ p.message.fields

end Packet

/-! ### Live orders -/

abbrev LiveOrders := UInt64 → Option Order

/-- A change of a price level. -/
structure Report where
  type : MsgType
  side : Side
  price : Int
  size : UInt32

/-- The live orders after a message, the change that it reports, and the one that it leaves for later. -/
structure Outcome where
  live : LiveOrders
  report : Option Report := none
  later : Option Report := none

namespace LiveOrders

def add (live : LiveOrders) (ref : UInt64) (side : BookSide) (shares price : UInt32) : Outcome where
  live := Function.update live ref (some ⟨price.toNat, shares, side.toSide⟩)
  report := some ⟨.kAdd, side.toSide, price.toNat, shares⟩

/-- Takes shares off an order, at most all that remain, and the order with the last of them. -/
def cut (live : LiveOrders) (ref : UInt64) (shares : UInt32) (type : MsgType) : Outcome :=
  match live ref with
  | none => { live }
  | some o =>
    { live := Function.update live ref (if shares < o.shares then some { o with shares := o.shares - shares } else none)
      report := some ⟨type, o.side, o.price, min shares o.shares⟩ }

def drop (live : LiveOrders) (ref : UInt64) : Outcome :=
  match live ref with
  | none => { live }
  | some o => { live := Function.update live ref none, report := some ⟨.kCancel, o.side, o.price, o.shares⟩ }

/-- The new order takes the side of the original; without the original it is a buy, and nothing is reported. -/
def replace (live : LiveOrders) (orig fresh : UInt64) (shares price : UInt32) : Outcome :=
  match live orig with
  | none => { live := Function.update live fresh (some ⟨price.toNat, shares, .kBuy⟩) }
  | some o =>
    { live := Function.update (Function.update live orig none) fresh (some ⟨price.toNat, shares, o.side⟩)
      report := some ⟨.kCancel, o.side, o.price, o.shares⟩
      later := some ⟨.kAdd, o.side, price.toNat, shares⟩ }

def step (live : LiveOrders) : Message → Outcome
  | .addOrder ref side shares _ price | .addOrderMpid ref side shares _ price _ => live.add ref side shares price
  | .orderExecuted ref shares _ | .orderExecutedPrice ref shares _ _ _ => live.cut ref shares .kExecute
  | .orderCancel ref shares => live.cut ref shares .kCancel
  | .orderDelete ref => live.drop ref
  | .orderReplace orig fresh shares price => live.replace orig fresh shares price
  | .trade .. | .systemEvent _ | .stockDirectory _ | .tradingAction _ | .regSho _ | .marketParticipant _ => { live }

/-- The live orders after messages, from none. -/
def after (ms : List Message) : LiveOrders := ms.foldl (fun live m => (live.step m).live) fun _ => none

end LiveOrders

/-- The delta that carries a report, or none, under the header of its message. -/
def Packet.delta (p : Packet) : Option Report → LevelDelta
  | none => { timestampNs := UInt64.ofNat p.timestamp.toNat, stockLocate := p.stockLocate }
  | some r =>
    { valid := true, type := r.type, side := r.side, price := r.price, size := r.size,
      timestampNs := UInt64.ofNat p.timestamp.toNat, stockLocate := p.stockLocate }

namespace Decoder

def live (d : Decoder) : LiveOrders := fun ref => d.orders.lookup ref

/-- The decoder holds the outcome of a message: its live orders, and the change for later in place of what was
    pending. -/
structure Follows (d : Decoder) (p : Packet) (d' : Decoder) (out : LevelDelta) : Prop where
  live : d'.live = (d.live.step p.message).live
  delta : out = p.delta (d.live.step p.message).report
  pending : d'.pending =
    if (d.live.step p.message).later.isSome then p.delta (d.live.step p.message).later else d.pending

end Decoder

/-- A body that is an add but for its side byte, which names no side. -/
def OddSide (body : List UInt8) : Prop :=
  (body[0]? = some 65 ∧ body.length = 36 ∨ body[0]? = some 70 ∧ body.length = 40) ∧
  body[19]? ≠ some 66 ∧ body[19]? ≠ some 83

end Hft.Itch50
