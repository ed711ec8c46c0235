import HftEngine.Itch50
import HftEngine.BookView

/-! The replay loop (`itch50_replay.cpp`): each message body goes through the decoder, and every delta it
    gives, the pending one included, goes to one book. -/

namespace Hft

namespace Itch50

/-- The loop `for (d = apply(..); d.valid; d = take_pending())` from `delta`: the deltas its body sees. -/
def Decoder.drain (d : Decoder) (delta : LevelDelta) : Decoder × List LevelDelta :=
  if delta.valid then
    let rest := d.takePending.2.drain d.takePending.1
    (rest.1, delta :: rest.2)
  else (d, [])
termination_by delta.valid.toNat + d.pending.valid.toNat
decreasing_by simp_all [Decoder.takePending]

/-- One message body: the deltas that the loop hands to its consumer. -/
def Decoder.feed (d : Decoder) (body : List UInt8) : Option (Decoder × List LevelDelta) := do
  let (d, out) ← d.apply body
  return d.drain out

def LevelDelta.toMessage (delta : LevelDelta) : ItchMessage where
  type := delta.type.toByte
  side := delta.side.toByte
  price := delta.price
  size := delta.size
  timestamp := delta.timestampNs

end Itch50

structure Replay (n : NumTicks) where
  decoder : Itch50.Decoder
  book : BookView n

namespace Replay

variable {n : NumTicks}

def new (n : NumTicks) (basePrice tick : Int) : Replay n := ⟨{}, BookView.new n basePrice tick⟩

def step (r : Replay n) (body : List UInt8) : Option (Replay n) := do
  let (decoder, deltas) ← r.decoder.feed body
  return { decoder, book := r.book.applyAll (deltas.map (·.toMessage)) }

/-- The state after messages, in order; `none` where one of them is read outside its body. -/
def run (r : Replay n) (bodies : List (List UInt8)) : Option (Replay n) := bodies.foldlM step r

end Replay

end Hft
