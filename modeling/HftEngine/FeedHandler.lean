import HftEngine.ItchParser
import HftEngine.Lib.BoundedQueue
import HftEngine.Lib.Frames

/-! The feed handler (`feed_handler.hpp`), one memory operation a step, so that the consumer may pop between any two
    attempts to push. An attempt may be refused whether or not the queue is full. -/

namespace Hft

def kMaxMsgsPerDatagram : Nat := 64

def kBufBytes : Nat := kMaxMsgsPerDatagram * kMsgSize

def kSpinBudget : Nat := 2 ^ 16

/-- Where `poll_once` is. -/
inductive FeedPc
  | idle
  | reading (reader : FeedReader) (arrival : UInt64)
  /-- With the attempts that are left. -/
  | pushing (ev : MdEvent) (spins : Nat) (reader : FeedReader) (arrival : UInt64)

structure FeedHandler (cap : Nat) where
  out : BoundedQueue MdEvent cap := .empty
  pc : FeedPc := .idle
  /-- What `poll_once` returns. -/
  enqueued : Nat := 0
  received : UInt64 := 0
  pushed : UInt64 := 0
  dropped : UInt64 := 0
  /-- The datagrams that came in, with their clock readings, oldest first. -/
  arrived : List (List UInt8 × UInt64) := []
  /-- The events that were parsed, and whether each was pushed. -/
  outcomes : List (MdEvent × Bool) := []
  /-- The events that the consumer has popped. -/
  taken : List MdEvent := []

inductive FeedAction
  | recv (dgram : List UInt8) (arrival : UInt64)
  | next
  | push (ok : Bool)
  | pop

/-- The datagrams that a sequence of steps takes from the socket. -/
def FeedAction.datagrams (acts : List FeedAction) : List (List UInt8 × UInt64) :=
  acts.filterMap fun
    | .recv dgram arrival => some (dgram, arrival)
    | .next | .push _ | .pop => none

namespace FeedHandler

variable {cap : Nat}

/-- `recv` leaves what fits in the buffer. -/
def recv (h : FeedHandler cap) (dgram : List UInt8) (arrival : UInt64) : FeedHandler cap :=
  let buf := dgram.take kBufBytes
  { h with
    pc := if buf.length = 0 then .idle else .reading ⟨buf⟩ arrival
    enqueued := 0
    arrived := h.arrived ++ [(dgram, arrival)] }

def settle (h : FeedHandler cap) (ev : MdEvent) (reader : FeedReader) (arrival : UInt64) (ok : Bool) :
    FeedHandler cap :=
  { h with
    pc := .reading reader arrival
    enqueued := if ok then h.enqueued + 1 else h.enqueued
    pushed := if ok then h.pushed + 1 else h.pushed
    dropped := if ok then h.dropped else h.dropped + 1
    outcomes := h.outcomes ++ [(ev, ok)] }

def next? (h : FeedHandler cap) (a : FeedAction) : Option (FeedHandler cap) :=
  match a, h.pc with
  | .recv dgram arrival, .idle => some (h.recv dgram arrival)
  | .next, .reading reader arrival =>
    if reader.hasNext then do
      let (msg, reader) ← reader.next
      return { h with
        pc := .pushing { msg, arrivalTsc := arrival } kSpinBudget reader arrival
        received := h.received + 1 }
    else some { h with pc := .idle }
  | .push true, .pushing ev (_ + 1) reader arrival => do
    let out ← h.out.push? ev
    return { h.settle ev reader arrival true with out }
  | .push false, .pushing ev (spins + 1) reader arrival =>
    if spins = 0 then some (h.settle ev reader arrival false)
    else some { h with pc := .pushing ev spins reader arrival }
  | .pop, _ => do
    let (ev, out) ← h.out.pop?
    return { h with out, taken := h.taken ++ [ev] }
  | _, _ => none

/-! ### What the handler makes of a datagram -/

/-- The events in the whole frames of a buffer. -/
def events (buf : List UInt8) (arrival : UInt64) : List MdEvent :=
  (Frames.frames kMsgSize buf).filterMap fun f => (parseMessage f).map fun msg => { msg, arrivalTsc := arrival }

/-- What went on the queue, the events that were taken off first. -/
def put (h : FeedHandler cap) : List MdEvent := h.taken ++ h.out.items

end FeedHandler

end Hft
