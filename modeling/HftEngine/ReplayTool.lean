import HftEngine.Replay
import HftEngine.BinaryFile

/-! The replay tool (`itch50_replay.cpp`): a whole BinaryFILE through the decoder and into one book, with what it counts
    on the way and the status that it exits with. -/

namespace Hft

open Itch50 (Decoder LevelDelta BinaryFileReader)

/-- Cent ticks: $0 to $655.35. -/
def ReplayTool.kTicks : NumTicks := ⟨65536, by decide, by decide⟩

structure ReplayTool where
  decoder : Decoder
  book : BookView ReplayTool.kTicks
  byType : Vector UInt64 128
  messages : UInt64
  deltas : UInt64
  invariantFailures : UInt64

namespace ReplayTool

def tick : Int := kPriceScale.tdiv 100

def new : ReplayTool where
  decoder := {}
  book := BookView.new kTicks 0 tick
  byType := Vector.replicate 128 0
  messages := 0
  deltas := 0
  invariantFailures := 0

/-- The checks on the book that fail. -/
def failures (round : Rat → Rat) (b : BookView kTicks) : UInt64 :=
  (if b.hasBid ∧ b.bestBidSize = 0 then 1 else 0) + (if b.hasAsk ∧ b.bestAskSize = 0 then 1 else 0) +
    if -1 ≤ b.imbalance round ∧ b.imbalance round ≤ 1 then 0 else 1

/-- The body of the inner loop. -/
def delta (round : Rat → Rat) (t : ReplayTool) (d : LevelDelta) : ReplayTool :=
  { t with
    deltas := t.deltas + 1
    book := t.book.apply d.toMessage
    invariantFailures := t.invariantFailures + failures round (t.book.apply d.toMessage) }

def countType (t : ReplayTool) (type : UInt8) : ReplayTool :=
  if h : type.toNat < 128 then
    { t with byType := t.byType.set type.toNat (t.byType[type.toNat] + 1), messages := t.messages + 1 }
  else { t with messages := t.messages + 1 }

/-- The body of the outer loop. -/
def message (round : Rat → Rat) (t : ReplayTool) (body : List UInt8) : Option ReplayTool := do
  let type ← body[0]?
  let (decoder, deltas) ← t.decoder.feed body
  return deltas.foldl (delta round) { t.countType type with decoder }

def run (round : Rat → Rat) (data : List UInt8) : Option ReplayTool :=
  (BinaryFileReader.readBodies data).foldlM (message round) new

end ReplayTool

end Hft
