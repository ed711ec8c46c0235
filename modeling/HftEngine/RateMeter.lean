import HftEngine.RiskGate
import HftEngine.Lib.TokenBucket
import HftEngine.Lib.Transition
import Mathlib.Data.Nat.ModEq

/-! The rate limiter of the risk gate against the clock: the gate, the last clock reading, and the readings at which it
    accepted an order. -/

namespace Hft

/-- The depth of the token bucket. -/
def RiskLimits.depth (lim : RiskLimits) : Nat := max lim.burst.toNat 1

structure RateMeter where
  gate : RiskGate
  clock : UInt64 := 0
  passed : List UInt64 := []

namespace RateMeter

inductive Event
  | check (kill : Bool) (now : UInt64) (o : OrderRequest)
  | fill (r : ExecReport)
  | setPosition (p : Int)

def new (lim : RiskLimits) (cyclesPerToken : UInt64) : RateMeter := { gate := RiskGate.new lim cyclesPerToken }

/-- A check reads a clock that does not run backward, and an order that passes does not wrap the arrival time. -/
def Timely (s : RateMeter) (kill : Bool) (now : UInt64) (o : OrderRequest) : Prop :=
  s.clock ≤ now ∧
    (s.gate.Admits kill now o → max now.toNat s.gate.tat.toNat + s.gate.cyclesPerToken.toNat < 2 ^ 64)

instance (s : RateMeter) (kill : Bool) (now : UInt64) (o : OrderRequest) : Decidable (s.Timely kill now o) :=
  inferInstanceAs (Decidable (_ ∧ (_ → _)))

def checked (s : RateMeter) (kill : Bool) (now : UInt64) (o : OrderRequest) : RateMeter where
  gate := (s.gate.check kill now o).1
  clock := now
  passed := if (s.gate.check kill now o).2 = .kAccept then s.passed ++ [now] else s.passed

def next? (s : RateMeter) : Event → Option RateMeter
  | .check kill now o => if s.Timely kill now o then some (s.checked kill now o) else none
  | .fill r => some { s with gate := s.gate.onFill r }
  | .setPosition p => some { s with gate := s.gate.setPosition p }

def Step (s : RateMeter) (e : Event) (t : RateMeter) : Prop := s.next? e = some t

def times (s : RateMeter) : List Nat := s.passed.map UInt64.toNat

/-- In every window of clock values at most the depth of the bucket and its refill were accepted. -/
def Windowed (lim : RiskLimits) (s : RateMeter) : Prop :=
  TokenBucket.Bounded lim.depth s.gate.cyclesPerToken.toNat s.times

/-- An order that passes finds the arrival time at least one token short of the tolerance. -/
def Paced (s : RateMeter) : Event → Prop
  | .check kill now o => s.gate.Admits kill now o →
      s.gate.tat.toNat + s.gate.cyclesPerToken.toNat ≤ now.toNat + s.gate.tau.toNat
  | .fill _ | .setPosition _ => True

instance (s : RateMeter) : DecidablePred s.Paced
  | .check _ _ _ => inferInstanceAs (Decidable (_ → _))
  | .fill _ | .setPosition _ => isTrue trivial

/-- The clock values of the checks of a run. -/
def attempts (h : List (RateMeter × Event)) : List Nat :=
  h.filterMap fun p =>
    match p.2 with
    | .check _ now _ => some now.toNat
    | .fill _ | .setPosition _ => none

end RateMeter

end Hft
