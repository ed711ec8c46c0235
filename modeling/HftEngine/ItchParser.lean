import HftEngine.Message

/-! The frames of the internal feed (`itch_parser.hpp`): a message and its 32 packed native-endian bytes. A read past
    the end, undefined in the source, is `none`. -/

namespace Hft

open Bytes (toLE)

def kMsgSize : Nat := 32

def encodeMessage (m : ItchMessage) : List UInt8 :=
  toLE 8 m.timestamp.toNat ++ (toLE 8 (BitVec.ofInt 64 m.price).toNat ++ (toLE 4 m.symbol.toNat ++
    (toLE 4 m.size.toNat ++ (toLE 4 m.seq.toNat ++ ([m.type] ++ ([m.side] ++ toLE 2 m.flags.toNat))))))

def parseMessage (src : List UInt8) : Option ItchMessage :=
  if src.length < kMsgSize then none
  else some {
    timestamp := UInt64.ofNat (leField src 0 8)
    price := (BitVec.ofNat 64 (leField src 8 8)).toInt
    symbol := UInt32.ofNat (leField src 16 4)
    size := UInt32.ofNat (leField src 20 4)
    seq := UInt32.ofNat (leField src 24 4)
    type := UInt8.ofNat (leField src 28 1)
    side := UInt8.ofNat (leField src 29 1)
    flags := UInt16.ofNat (leField src 30 2) }

/-- A cursor over back-to-back frames: the bytes from `cur_` to `end_`. -/
structure FeedReader where
  rest : List UInt8

namespace FeedReader

def hasNext (r : FeedReader) : Bool := r.rest.length ≥ kMsgSize

/-- Decode and advance. -/
def next (r : FeedReader) : Option (ItchMessage × FeedReader) := do
  let m ← parseMessage r.rest
  return (m, ⟨r.rest.drop kMsgSize⟩)

end FeedReader

end Hft
