import HftEngine.BookView
import HftEngine.ItchParser
import Mathlib.Algebra.Ring.Int.Defs

/-! The fuzz targets (`fuzz_book.cpp`, `fuzz_itch.cpp`): arbitrary bytes as a stream of messages, and what each target
    requires on the way. -/

namespace Hft

/-- How a target can end but with 0. -/
inductive Fault
  | undefined
  | trap (what : String)
  deriving DecidableEq, Repr

def require (condition : Bool) (what : String) : Except Fault Unit :=
  if condition then return () else throw (.trap what)

namespace FuzzBook

def kTicks : NumTicks := ⟨1024, by decide, by decide⟩

/-- `price_from_double(90.00)`. -/
def base : Int := 900000

def tick : Int := kPriceScale.tdiv 100

def book : BookView kTicks := BookView.new kTicks base tick

/-- What the target requires of the book after a message. -/
def check (round : Rat → Rat) (b : BookView kTicks) : Except Fault Unit := do
  if b.hasBid then
    require (0 < b.bestBidSize) "best bid has zero size"
    require (b.sizeAt .kBuy b.bestBidPrice == b.bestBidSize) "best bid size disagrees with size_at"
  if b.hasAsk then
    require (0 < b.bestAskSize) "best ask has zero size"
    require (b.sizeAt .kSell b.bestAskPrice == b.bestAskSize) "best ask size disagrees with size_at"
  require (-1 ≤ b.imbalance round ∧ b.imbalance round ≤ 1) "imbalance outside [-1, 1]"
  if b.hasBid then
    require (base ≤ b.bestBidPrice ∧ b.bestBidPrice < base + kTicks.val * tick) "best bid price outside the book window"
  if b.hasAsk then
    require (base ≤ b.bestAskPrice ∧ b.bestAskPrice < base + kTicks.val * tick) "best ask price outside the book window"

/-- One round of the loop. -/
def step (round : Rat → Rat) (data : List UInt8) (b : BookView kTicks) (i : Nat) :
    Except Fault (BookView kTicks) :=
  match parseMessage (data.drop (i * kMsgSize)) with
  | none => throw .undefined
  | some m =>
    -- The subtraction of `to_index` overflows.
    if m.price - base < -2 ^ 63 then throw .undefined
    else do
      check round (b.apply m)
      return b.apply m

def testOneInput (round : Rat → Rat) (data : List UInt8) : Except Fault Unit := do
  let _ ← (List.range (data.length / kMsgSize)).foldlM (step round data) book

end FuzzBook

namespace FuzzItch

theorem length_next {r r' : FeedReader} {m : ItchMessage} (h : r.next = some (m, r')) :
    r'.rest.length < r.rest.length := by
  obtain ⟨m', hm, h⟩ := Option.bind_eq_some_iff.mp h
  obtain ⟨hlen, -⟩ := Option.ite_none_left_eq_some.mp hm
  cases h
  have : kMsgSize = 32 := rfl
  rw [List.length_drop]
  omega

/-- The loop `while (reader.has_next())` over a buffer of `size` bytes, with `seen` messages so far. -/
def loop (size : Nat) (r : FeedReader) (seen : Nat) : Except Fault Nat :=
  if r.hasNext then
    match _h : r.next with
    | none => throw .undefined
    | some (_, r') =>
      if size < seen + 1 then throw (.trap "reader produced more messages than input bytes")
      else loop size r' (seen + 1)
  else return seen
termination_by r.rest.length
decreasing_by exact length_next _h

def testOneInput (data : List UInt8) : Except Fault Unit := do
  let seen ← loop data.length ⟨data⟩ 0
  require (seen == data.length / kMsgSize)
    ("reader yielded " ++ toString seen ++ " messages, expected " ++ toString (data.length / kMsgSize))

end FuzzItch

end Hft
