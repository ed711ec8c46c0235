import HftEngine.Strategy
import HftEngine.OrderLoop

/-! What one poll of the strategy does: it takes at most one order out, only with the latch open, and on the side
    that its position allows. -/

namespace Hft

variable {n : NumTicks} {feedCap orderCap fillCap : Nat}

namespace ImbalanceStrategy

variable {s t : ImbalanceStrategy n} {o : OrderRequest} {ev : MdEvent}

structure Kept (s t : ImbalanceStrategy n) : Prop where
  position : t.position = s.position
  inFlight : t.inFlight = s.inFlight
  lastOrderId : t.lastOrderId = s.lastOrderId
  orderSize : t.orderSize = s.orderSize

/-- An order taken out: the latch closes behind it. -/
structure Emits (s t : ImbalanceStrategy n) (o : OrderRequest) : Prop where
  free : s.inFlight = false
  latched : t.inFlight = true
  position : t.position = s.position
  orderSize : t.orderSize = s.orderSize
  lastOrderId : t.lastOrderId = o.orderId
  size : o.size = s.orderSize
  wants : OrderLoop.Wants s.position o

theorem observe_kept : s.Kept (s.observe ev) := ⟨rfl, rfl, rfl, rfl⟩

theorem order_wants (h : s.wantBuy || s.wantSell) : OrderLoop.Wants s.position (s.order ev) := by
  unfold OrderLoop.Wants order
  dsimp only
  cases hbuy : s.wantBuy with
  | true =>
    simp only [wantBuy, Bool.and_eq_true, decide_eq_true_eq] at hbuy
    exact ⟨fun _ => hbuy.2, fun hne => absurd rfl hne⟩
  | false =>
    have hsell : s.wantSell = true := by simpa [hbuy] using h
    simp only [wantSell, Bool.and_eq_true, decide_eq_true_eq] at hsell
    exact ⟨fun heq => absurd heq (by decide), fun _ => hsell.2⟩

theorem onMd_cases (s : ImbalanceStrategy n) (ev : MdEvent) :
    (∃ t, s.onMd ev = (t, none) ∧ s.Kept t) ∨ ∃ t o, s.onMd ev = (t, some o) ∧ s.Emits t o := by
  unfold onMd
  dsimp only
  split
  · exact Or.inl ⟨_, rfl, observe_kept⟩
  · split
    · exact Or.inl ⟨_, rfl, observe_kept⟩
    · next hgate =>
      simp only [Bool.or_eq_true, Bool.not_eq_true', Bool.or_eq_false_iff, not_or, Bool.not_eq_true] at hgate
      have hwant : (s.observe ev).wantBuy || (s.observe ev).wantSell := by
        by_contra hnone
        exact hgate.2 (by simpa using hnone)
      exact Or.inr ⟨_, _, rfl, hgate.1, rfl, rfl, rfl, rfl, rfl, order_wants hwant⟩

end ImbalanceStrategy

namespace StrategyRunner

variable {runner : StrategyRunner n} {s : ImbalanceStrategy n} {feed : BoundedQueue MdEvent feedCap}
  {orders : BoundedQueue OrderRequest orderCap} {fills : BoundedQueue ExecReport fillCap} {r : ExecReport} {k : Nat}

theorem drainFills_nil (hf : fills.items = []) : drainFills k s fills = (s, fills) := by
  cases k with
  | zero => rfl
  | succ k =>
    unfold drainFills
    rw [BoundedQueue.pop?_eq_none.mpr hf]

theorem drainFills_single (hf : fills.items = [r]) :
    ∃ fills', drainFills (k + 1) s fills = (s.onFill r, fills') ∧ fills'.items = [] := by
  have hpop : fills.pop? = some (r, ⟨[], Nat.zero_le _⟩) := BoundedQueue.pop?_eq_some.mpr hf
  refine ⟨⟨[], Nat.zero_le _⟩, ?_, rfl⟩
  unfold drainFills
  rw [hpop]
  exact drainFills_nil rfl

/-- With the order queue empty whenever the latch is open, the market-data part never waits. -/
theorem pollFeed_cases (feed : BoundedQueue MdEvent feedCap) (fills : BoundedQueue ExecReport fillCap)
    (hcap : 0 < orderCap) (horders : runner.strat.inFlight = false → orders.items = []) :
    ∃ p, pollFeed runner feed orders fills = some p ∧ p.fills = fills ∧
      (p.emitted = none ∧ p.orders = orders ∧ runner.strat.Kept p.runner.strat ∨
       ∃ o, p.emitted = some o ∧ p.orders.items = [o] ∧ runner.strat.Emits p.runner.strat o) := by
  unfold pollFeed
  cases feed.pop? with
  | none => exact ⟨_, rfl, rfl, Or.inl ⟨rfl, rfl, rfl, rfl, rfl, rfl⟩⟩
  | some next =>
    obtain ⟨ev, feed'⟩ := next
    rcases runner.strat.onMd_cases ev with ⟨t, hmd, hkept⟩ | ⟨t, o, hmd, hemits⟩
    · simp only [hmd]
      exact ⟨_, rfl, rfl, Or.inl ⟨rfl, rfl, hkept⟩⟩
    · obtain ⟨orders', hpush, hitems⟩ := BoundedQueue.push?_of_nil hcap (horders hemits.free) o
      simp only [hmd, hpush]
      exact ⟨_, rfl, rfl, Or.inr ⟨o, rfl, hitems, hemits⟩⟩

end StrategyRunner

end Hft
