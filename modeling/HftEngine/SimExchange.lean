import HftEngine.ItchParser
import HftEngine.Lib.Frames

/-! The simulated exchange (`sim_exchange.hpp`): the walk of the quotes, and the packing of its messages into datagrams.
    A write outside the datagram buffer, undefined in the source, is `none`. The source of the random numbers and the
    clock readings are parameters. -/

namespace Hft

open Frames (Buffer)

/-! ### Random numbers -/

/-- xorshift128+ -/
structure Rng where
  s0 : UInt64
  s1 : UInt64

namespace Rng

def new (seed : UInt64) : Rng where
  s0 := seed ^^^ 0x9E3779B97F4A7C15
  s1 := seed * 0xD1B54A32D192ED03 + 1

def next (r : Rng) : UInt64 × Rng :=
  let x := r.s0 ^^^ (r.s0 <<< 23)
  let y := r.s1
  let s1 := x ^^^ y ^^^ (x >>> 17) ^^^ (y >>> 26)
  (s1 + y, { s0 := y, s1 })

end Rng

section Draws
variable {ρ : Type} (draw : ρ → UInt64 × ρ)

/-- `Rng::range` over any source of numbers. -/
def drawRange (lo hi : UInt32) (rng : ρ) : UInt32 × ρ :=
  let (x, rng) := draw rng
  (lo + (x % (hi - lo + 1).toUInt64).toUInt32, rng)

/-- The size of a quote: now and then a large one. -/
def drawSize (rng : ρ) : UInt32 × ρ :=
  let (large, rng) := drawRange draw 0 15 rng
  if large = 0 then drawRange draw 2000 5000 rng else drawRange draw 100 800 rng

end Draws

/-! ### The exchange -/

def kMaxBatch : Nat := 40

structure SimConfig where
  symbol : UInt32
  batch : Int
  basePrice : Int
  tick : Int

structure SimExchange (ρ : Type) where
  sym : UInt32
  batch : Int
  tick : Int
  rng : ρ
  mid : Int
  bestBid : Int
  bestAsk : Int
  midLo : Int
  midHi : Int
  bidSz : UInt32 := 500
  askSz : UInt32 := 500
  seq : UInt32 := 0
  dgram : Buffer UInt8 (kMaxBatch * kMsgSize) := .replicate _ 0
  dgramMsgs : Nat := 0
  feedCount : UInt64 := 0
  /-- The datagrams that went out, oldest first. -/
  sent : List (List UInt8) := []
  /-- The messages that were encoded, oldest first. -/
  emitted : List ItchMessage := []

namespace SimExchange

variable {ρ : Type}

def new (c : SimConfig) (rng : ρ) : SimExchange ρ where
  sym := c.symbol
  batch := if c.batch < 1 then 1 else if c.batch > kMaxBatch then kMaxBatch else c.batch
  tick := c.tick
  rng := rng
  mid := c.basePrice
  bestBid := c.basePrice - c.tick
  bestAsk := c.basePrice + c.tick
  midLo := c.basePrice - 1500 * c.tick
  midHi := c.basePrice + 1500 * c.tick

def flush (s : SimExchange ρ) : SimExchange ρ :=
  if s.dgramMsgs > 0 then { s with sent := s.sent ++ [s.dgram.front (s.dgramMsgs * kMsgSize)], dgramMsgs := 0 } else s

def message (s : SimExchange ρ) (now : UInt64) (type : MsgType) (side : Side) (px : Int) (size : UInt32) :
    ItchMessage where
  timestamp := now
  price := px
  symbol := s.sym
  size := size
  seq := s.seq
  type := type.toByte
  side := side.toByte

/-- `now` is the clock reading that the message carries. -/
def emit (s : SimExchange ρ) (now : UInt64) (type : MsgType) (side : Side) (px : Int) (size : UInt32) :
    Option (SimExchange ρ) := do
  let m := s.message now type side px size
  let dgram ← s.dgram.write? (s.dgramMsgs * kMsgSize) (encodeMessage m)
  let s := { s with
    seq := s.seq + 1
    dgram
    dgramMsgs := s.dgramMsgs + 1
    feedCount := s.feedCount + 1
    emitted := s.emitted ++ [m] }
  return if (s.dgramMsgs : Int) ≥ s.batch then s.flush else s

/-- A call from outside the walk. -/
inductive Call
  | emit (now : UInt64) (type : MsgType) (side : Side) (px : Int64) (size : UInt32)
  | flush

def call (s : SimExchange ρ) : Call → Option (SimExchange ρ)
  | .emit now type side px size => s.emit now type side px.toInt size
  | .flush => some s.flush

/-- The messages that calls ask for, the first with the sequence number `seq`. -/
def messages (sym : UInt32) : UInt32 → List Call → List ItchMessage
  | _, [] => []
  | seq, .emit now type side px size :: calls =>
    { timestamp := now, price := px.toInt, symbol := sym, size, seq, type := type.toByte, side := side.toByte } ::
      messages sym (seq + 1) calls
  | seq, .flush :: calls => messages sym seq calls

/-- The first quotes, as `run` sends them. -/
def start (s : SimExchange ρ) (now now' : UInt64) : Option (SimExchange ρ) := do
  let s ← s.emit now .kAdd .kBuy s.bestBid s.bidSz
  let s ← s.emit now' .kAdd .kSell s.bestAsk s.askSz
  return s.flush

section Step
variable (draw : ρ → UInt64 × ρ)

/-- The middle after a move of `delta - 1` ticks, reflected at the edges of its band. -/
def moveMid (s : SimExchange ρ) (delta : UInt32) : Int :=
  let mid := s.mid + ((delta.toNat : Int) - 1) * s.tick
  let mid := if mid < s.midLo then s.midLo else mid
  if mid > s.midHi then s.midHi else mid

/-- Delete the old bid, then add the new one. -/
def quoteBid (s : SimExchange ρ) (now now' : UInt64) (spread : Int) : Option (SimExchange ρ) := do
  let s ← s.emit now .kDelete .kBuy s.bestBid s.bidSz
  let (size, rng) := drawSize draw s.rng
  let s := { s with bestBid := s.mid - spread, bidSz := size, rng }
  s.emit now' .kAdd .kBuy s.bestBid s.bidSz

def quoteAsk (s : SimExchange ρ) (now now' : UInt64) (spread : Int) : Option (SimExchange ρ) := do
  let s ← s.emit now .kDelete .kSell s.bestAsk s.askSz
  let (size, rng) := drawSize draw s.rng
  let s := { s with bestAsk := s.mid + spread, askSz := size, rng }
  s.emit now' .kAdd .kSell s.bestAsk s.askSz

def step (s : SimExchange ρ) (now now' : UInt64) : Option (SimExchange ρ) :=
  let (coin, rng) := draw s.rng
  let (delta, rng) := drawRange draw 0 2 rng
  let (cross, rng) := drawRange draw 0 255 rng
  let spread := if cross = 0 then -s.tick else s.tick
  let s := { s with mid := s.moveMid delta, rng }
  if coin &&& 1 ≠ 0 then s.quoteBid draw now now' spread else s.quoteAsk draw now now' spread

end Step

end SimExchange

end Hft
