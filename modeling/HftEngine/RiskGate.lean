import HftEngine.Message

/-! The pre-trade risk gate (`risk_gate.hpp`). The kill switch and the clock are read outside the gate, so a check
    takes their values. -/

namespace Hft

inductive RiskResult
  | kAccept | kKillSwitch | kOrderSizeLimit | kPositionLimit | kRateLimit
  deriving DecidableEq, Repr

/-- The limits that are integers; the refill rate enters the gate as `cyclesPerToken`. -/
structure RiskLimits where
  maxPosition : Int
  maxOrderSize : UInt32
  burst : UInt32
  deriving DecidableEq, Repr

structure RiskGate where
  position : Int := 0
  maxPosition : Int
  maxOrderSize : UInt32
  cyclesPerToken : UInt64
  tau : UInt64
  tat : UInt64 := 0
  accepted : UInt64 := 0
  rejKill : UInt64 := 0
  rejSize : UInt64 := 0
  rejPos : UInt64 := 0
  rejRate : UInt64 := 0
  deriving DecidableEq, Repr

namespace RiskGate

/-- The constructor. `cyclesPerToken` is what it computes in floating point from `max_orders_per_sec` and the clock
    rate: 0 when the rate is unlimited. -/
def new (lim : RiskLimits) (cyclesPerToken : UInt64) : RiskGate where
  maxPosition := lim.maxPosition
  maxOrderSize := lim.maxOrderSize
  cyclesPerToken := cyclesPerToken
  tau := cyclesPerToken * (if lim.burst ≠ 0 then lim.burst else 1).toUInt64

/-- The position if the order fills in full. -/
def projected (g : RiskGate) (o : OrderRequest) : Int := g.position + o.signedSize

/-- The earliest time at which the rate limiter lets an order pass. -/
def earliest (g : RiskGate) : UInt64 := if g.tat > g.tau then g.tat - g.tau else 0

/-- The arrival time that an order which passes at `now` leaves. -/
def nextTat (g : RiskGate) (now : UInt64) : UInt64 := (if now > g.tat then now else g.tat) + g.cyclesPerToken

/-- The hot-path check: kill switch, order size, position limit, rate limit. -/
def check (g : RiskGate) (kill : Bool) (now : UInt64) (o : OrderRequest) : RiskGate × RiskResult :=
  if kill then ({ g with rejKill := g.rejKill + 1 }, .kKillSwitch)
  else if o.size = 0 ∨ o.size > g.maxOrderSize then ({ g with rejSize := g.rejSize + 1 }, .kOrderSizeLimit)
  else if g.projected o > g.maxPosition ∨ g.projected o < -g.maxPosition then
    ({ g with rejPos := g.rejPos + 1 }, .kPositionLimit)
  else if g.cyclesPerToken ≠ 0 then
    if now < g.earliest then ({ g with rejRate := g.rejRate + 1 }, .kRateLimit)
    -- A token is consumed only by an order that passes every other check.
    else ({ g with tat := g.nextTat now, accepted := g.accepted + 1 }, .kAccept)
  else ({ g with accepted := g.accepted + 1 }, .kAccept)

def allow (g : RiskGate) (kill : Bool) (now : UInt64) (o : OrderRequest) : RiskGate × Bool :=
  let (g', r) := g.check kill now o
  (g', r == .kAccept)

def onFill (g : RiskGate) (r : ExecReport) : RiskGate := { g with position := g.position + r.signedFill }

def setPosition (g : RiskGate) (p : Int) : RiskGate := { g with position := p }

/-- The limits of the gate, which no operation changes. -/
def limits (g : RiskGate) : Int × UInt32 × UInt64 := (g.maxPosition, g.maxOrderSize, g.cyclesPerToken)

def Admits (g : RiskGate) (kill : Bool) (now : UInt64) (o : OrderRequest) : Prop :=
  kill = false ∧ (o.size ≠ 0 ∧ o.size ≤ g.maxOrderSize) ∧
  (-g.maxPosition ≤ g.projected o ∧ g.projected o ≤ g.maxPosition) ∧ (g.cyclesPerToken = 0 ∨ g.earliest ≤ now)

instance (g : RiskGate) (kill : Bool) (now : UInt64) (o : OrderRequest) : Decidable (g.Admits kill now o) :=
  inferInstanceAs (Decidable (_ ∧ _ ∧ _ ∧ _))

section
variable {g : RiskGate} {kill : Bool} {now : UInt64} {o : OrderRequest} {r : ExecReport}

/-- A check accepts exactly the orders that pass all four tests. -/
theorem check_accept : (g.check kill now o).2 = .kAccept ↔ g.Admits kill now o := by
  unfold check Admits
  split_ifs with hkill hsize hpos hrate hnow
  · simp [hkill]
  · have : ¬(o.size ≠ 0 ∧ o.size ≤ g.maxOrderSize) := fun h => hsize.elim h.1 (UInt32.not_lt.mpr h.2)
    simp [this]
  · have : ¬(-g.maxPosition ≤ g.projected o ∧ g.projected o ≤ g.maxPosition) := by omega
    simp [this]
  · have : ¬g.earliest ≤ now := UInt64.not_le.mpr hnow
    simp [hrate, this]
  · simp only [not_or, UInt32.not_lt] at hsize
    simp only [true_iff]
    exact ⟨by simpa using hkill, hsize, by omega, Or.inr (UInt64.not_lt.mp hnow)⟩
  · simp only [not_or, UInt32.not_lt] at hsize
    simp only [true_iff]
    exact ⟨by simpa using hkill, hsize, by omega, Or.inl (by simpa using hrate)⟩

@[simp] theorem check_position : (g.check kill now o).1.position = g.position := by
  unfold check
  split_ifs <;> rfl

@[simp] theorem check_limits : (g.check kill now o).1.limits = g.limits := by
  unfold check
  split_ifs <;> rfl

@[simp] theorem onFill_position : (g.onFill r).position = g.position + r.signedFill := rfl
@[simp] theorem onFill_limits : (g.onFill r).limits = g.limits := rfl

@[simp] theorem check_maxPosition : (g.check kill now o).1.maxPosition = g.maxPosition :=
  congrArg Prod.fst check_limits

@[simp] theorem onFill_maxPosition : (g.onFill r).maxPosition = g.maxPosition := rfl

end

end RiskGate

end Hft
