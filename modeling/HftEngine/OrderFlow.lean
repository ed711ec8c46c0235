import HftEngine.Replay
import HftEngine.Lib.Tally

/-! What the decoder is for: an order-by-order account of the book. A message body is one event on a table of
    orders, and every share that rests in the table was added to its level and not yet removed from it. -/

namespace Hft.Itch50

/-! ### Order events -/

inductive OrderEvent
  | quiet
  | add (ref : UInt64) (o : Order)
  | cut (ref : UInt64) (shares : UInt32)
  | drop (ref : UInt64)
  | replace (orig fresh : UInt64) (shares : UInt32) (price : Int)
  deriving DecidableEq, Repr

namespace OrderEvent

/-- The event of a body of type `t` and of the length of that type. -/
def ofType? (t : ItchType) (body : List UInt8) : Option OrderEvent :=
  match t with
  | .kAddOrder | .kAddOrderMpid => do
    let ref ← be64 body 11
    let sideByte ← body[19]?
    let shares ← be32 body 20
    let price ← be32 body 32
    return .add ref ⟨toEnginePrice price, shares, if sideByte = 66 then .kBuy else .kSell⟩
  | .kOrderExecuted | .kOrderExecutedPrice | .kOrderCancel => do return .cut (← be64 body 11) (← be32 body 19)
  | .kOrderDelete => do return .drop (← be64 body 11)
  | .kOrderReplace => do
    return .replace (← be64 body 11) (← be64 body 19) (← be32 body 27) (toEnginePrice (← be32 body 31))
  | .kTrade | .kSystemEvent | .kStockDirectory | .kTradingAction | .kRegSho | .kMarketParticipant => some .quiet

/-- The event of a body; a type that is not decoded or a length that disagrees with it says nothing. -/
def ofBody? (body : List UInt8) : Option OrderEvent := do
  let type ← body[0]?
  match ItchType.ofByte? type with
  | none => some .quiet
  | some t => if body.length = t.length then ofType? t body else some .quiet

def newRef? : OrderEvent → Option UInt64
  | add ref _ => some ref
  | replace _ fresh _ _ => some fresh
  | quiet | cut _ _ | drop _ => none

def newPrice? : OrderEvent → Option Int
  | add _ o => some o.price
  | replace _ _ _ price => some price
  | quiet | cut _ _ | drop _ => none

/-- A Replace names a live original. -/
def NamesLive (orders : OrderTable) : OrderEvent → Prop
  | replace orig _ _ _ => orig ∈ orders
  | quiet | add _ _ | cut _ _ | drop _ => True

/-- A Replace names a live original or brings no shares. -/
def Resolves (orders : OrderTable) : OrderEvent → Prop
  | replace orig _ shares _ => orig ∈ orders ∨ shares = 0
  | quiet | add _ _ | cut _ _ | drop _ => True

instance (orders : OrderTable) : DecidablePred (NamesLive orders)
  | replace orig _ _ _ => inferInstanceAs (Decidable (orig ∈ orders))
  | quiet | add _ _ | cut _ _ | drop _ => isTrue trivial

instance (orders : OrderTable) : DecidablePred (Resolves orders)
  | replace orig _ shares _ => inferInstanceAs (Decidable (orig ∈ orders ∨ shares = 0))
  | quiet | add _ _ | cut _ _ | drop _ => isTrue trivial

end OrderEvent

def FreshRef (orders : OrderTable) (body : List UInt8) : Prop :=
  ∀ ref ∈ (OrderEvent.ofBody? body).bind OrderEvent.newRef?, ref ∉ orders

instance (orders : OrderTable) (body : List UInt8) : Decidable (FreshRef orders body) :=
  Option.decidableForallMem _

/-! ### Shares at a level -/

def portion (level : Side → Int → Bool) (side : Side) (price : Int) (shares : UInt32) : Nat :=
  if level side price then shares.toNat else 0

/-- The shares of the live orders that a level covers. -/
def liveIn (orders : OrderTable) (level : Side → Int → Bool) : Nat :=
  Tally.total (fun o => portion level o.side o.price o.shares) orders

def LevelDelta.sizeIn (types : List MsgType) (level : Side → Int → Bool) (delta : LevelDelta) : Nat :=
  if delta.type ∈ types then portion level delta.side delta.price delta.size else 0

def priceLevel (side : Side) (price : Int) (s : Side) (p : Int) : Bool := s == side && p == price

def added (deltas : List LevelDelta) (level : Side → Int → Bool) : Nat :=
  (deltas.map (LevelDelta.sizeIn [.kAdd] level)).sum

def removed (deltas : List LevelDelta) (level : Side → Int → Bool) : Nat :=
  (deltas.map (LevelDelta.sizeIn [.kExecute, .kCancel] level)).sum

/-! ### The decoder and what it emitted -/

/-- A decoder with all the deltas that it emitted so far, in order. -/
structure Feed where
  decoder : Decoder := {}
  emitted : List LevelDelta := []

namespace Feed

def next? (s : Feed) (body : List UInt8) : Option Feed := do
  let (decoder, deltas) ← s.decoder.feed body
  return { decoder, emitted := s.emitted ++ deltas }

def after (s : Feed) (body : List UInt8) : Feed := (s.next? body).getD s

/-- One message of at least a header, whose new reference is fresh. -/
def Step (s : Feed) (body : List UInt8) (t : Feed) : Prop :=
  11 ≤ body.length ∧ FreshRef s.decoder.orders body ∧ s.next? body = some t

/-- The deltas account for every live share, and never remove a share before it was added. -/
structure Balanced (s : Feed) : Prop where
  level : ∀ side price,
    (added s.emitted (priceLevel side price) : Int) - removed s.emitted (priceLevel side price) =
      liveIn s.decoder.orders (priceLevel side price)
  covered : ∀ deltas, deltas <+: s.emitted → ∀ side price,
    removed deltas (priceLevel side price) ≤ added deltas (priceLevel side price)

end Feed

/-! ### One event on the table -/

structure LevelDelta.Moves (delta : LevelDelta) (type : MsgType) (side : Side) (price : Int) (size : UInt32) :
    Prop where
  valid : delta.valid = true
  type : delta.type = type
  side : delta.side = side
  price : delta.price = price
  size : delta.size = size

/-- The table with `left` shares remaining of the order at `ref`. -/
def OrderTable.keep (orders : OrderTable) (ref : UInt64) (o : Order) (left : UInt32) : OrderTable :=
  if left = 0 then orders.erase ref else orders.insert ref { o with shares := left }

/-- What an event does to the table of orders, with the deltas that report it. -/
inductive Effect (orders : OrderTable) : OrderEvent → OrderTable → List LevelDelta → Prop
  | quiet {e : OrderEvent} (he : e.newRef? = none) : Effect orders e orders []
  | add {ref : UInt64} {o : Order} {delta : LevelDelta} (hside : o.side ≠ .kNone)
      (hd : delta.Moves .kAdd o.side o.price o.shares) :
      Effect orders (.add ref o) (orders.insert ref o) [delta]
  | cut {e : OrderEvent} {ref : UInt64} {o : Order} {taken : UInt32} {type : MsgType} {delta : LevelDelta}
      (he : e.newRef? = none) (ho : orders.lookup ref = some o) (htaken : taken ≤ o.shares)
      (htype : type = .kExecute ∨ type = .kCancel) (hd : delta.Moves type o.side o.price taken) :
      Effect orders e (orders.keep ref o (o.shares - taken)) [delta]
  | replace {orig fresh : UInt64} {shares : UInt32} {price : Int} {old : Order} {removal insertion : LevelDelta}
      (ho : orders.lookup orig = some old) (hr : removal.Moves .kCancel old.side old.price old.shares)
      (hi : insertion.Moves .kAdd old.side price shares) :
      Effect orders (.replace orig fresh shares price) ((orders.erase orig).insert fresh ⟨price, shares, old.side⟩)
        [removal, insertion]
  | unknown {orig fresh : UInt64} {shares : UInt32} {price : Int} (ho : orders.lookup orig = none) :
      Effect orders (.replace orig fresh shares price) (orders.insert fresh ⟨price, shares, .kBuy⟩) []

end Hft.Itch50
