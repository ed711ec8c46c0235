import HftEngine.BookView
import HftEngine.Lib.LevelMap

/-! What the order book is for: two finite maps from tick keys to resting size, with no array, no window
    and no cached best. -/

namespace Hft

/-- The tick that a price falls in: `⌊(price - base) / tick⌋`. -/
def tickKey (base tick price : Int) : Int := (price - base) / tick

structure LevelBook where
  bids : Int →₀ Nat
  asks : Int →₀ Nat

namespace LevelBook

def side (A : LevelBook) (isBid : Bool) : Int →₀ Nat := if isBid then A.bids else A.asks

noncomputable section

def empty : LevelBook := ⟨0, 0⟩

def setSide (A : LevelBook) (isBid : Bool) (m : Int →₀ Nat) : LevelBook :=
  if isBid then { A with bids := m } else { A with asks := m }

/-- The effect of a message on the level at `k` of its side. -/
def update (t : MsgType) (m : Int →₀ Nat) (k : Int) (q : Nat) : Int →₀ Nat :=
  match t with
  | .kAdd => LevelMap.deposit (2 ^ 32 - 1) m k q
  | .kExecute | .kCancel => LevelMap.withdraw m k q
  | .kDelete => LevelMap.clear m k
  | .kTrade | .kUnknown => m

def step (A : LevelBook) (t : MsgType) (isBid : Bool) (k : Int) (q : Nat) : LevelBook :=
  A.setSide isBid (update t (A.side isBid) k q)

def apply (base tick : Int) (A : LevelBook) (m : ItchMessage) : LevelBook :=
  A.step (msgType m) (m.side == Side.kBuy.toByte) (tickKey base tick m.price) m.size.toNat

def run (base tick : Int) (msgs : List ItchMessage) : LevelBook := msgs.foldl (apply base tick) empty

end

variable {A : LevelBook} {m : Int →₀ Nat} {s s' : Bool}

@[simp] theorem side_empty : empty.side s = 0 := by cases s <;> rfl

@[simp] theorem side_setSide_self : (A.setSide s m).side s = m := by cases s <;> rfl

theorem side_setSide_ne (h : s' ≠ s) : (A.setSide s m).side s' = A.side s' := by
  cases s <;> cases s' <;> first | rfl | exact absurd rfl h

end LevelBook

end Hft
