import HftEngine.RingEngine
import HftEngine.Lib.Linearized
import HftEngine.Lib.OwnSteps
import HftEngine.Theorems.RingChannel
import HftEngine.Theorems.Stages

/-! The engine over its rings refines the engine over plain queues, and with it the order loop. -/

namespace Hft

open Channel (End Calls)
open Transition

namespace EngineSizes

variable {z : EngineSizes}

def linearizable (z : EngineSizes) : (q : QueueName) → (z.rings q).Linearizable (z.wiring.cap q)
  | .feedQ => SpscQueue.linearizable z.feedCap _
  | .orderQ => SpscQueue.linearizable z.orderCap _
  | .fillQ => SpscQueue.linearizable z.fillCap _

def waitFree (z : EngineSizes) : (q : QueueName) → (z.rings q).WaitFree 6
  | .feedQ => SpscQueue.waitFree z.feedCap _
  | .orderQ => SpscQueue.waitFree z.orderCap _
  | .fillQ => SpscQueue.waitFree z.fillCap _

/-! ### What a call under way leaves alone -/

variable {calls : (q : QueueName) → Calls (z.wiring.Payload q)}

/-- A call of the strategy changes its place and its counts of pushed orders, and no more. -/
theorem strategy_of_call {t : StrategyThread z.ticks} {q : QueueName} {d : End} {own : z.wiring.owner q d = .strategy}
    {a : d.Arg (z.wiring.Payload q)} {k : d.Ret (z.wiring.Payload q) → StrategyThread z.ticks}
    (hn : StrategyThread.next z t = .call q d own a k) (r : d.Ret (z.wiring.Payload q)) :
    (k r).runner.strat = t.runner.strat := by
  unfold StrategyThread.next at hn
  split at hn <;> cases hn
  · cases r <;> rfl
  · cases r <;> rfl
  · cases r <;> rfl

theorem gateway_of_call {t : GatewayThread z.flightCap} {q : QueueName} {d : End} {own : z.wiring.owner q d = .gateway}
    {a : d.Arg (z.wiring.Payload q)} {k : d.Ret (z.wiring.Payload q) → GatewayThread z.flightCap}
    (hn : GatewayThread.next z t = .call q d own a k) (r : d.Ret (z.wiring.Payload q)) :
    (k r).gateway = t.gateway := by
  unfold GatewayThread.next at hn
  split at hn <;> cases hn
  · cases r <;> rfl
  · cases r <;> rfl

/-- Past its call the strategy is at another place with the same data. -/
theorem ahead_strategy (t : StrategyThread z.ticks) :
    (Threads.ahead z.program calls .strategy t : StrategyThread z.ticks).runner.strat = t.runner.strat := by
  rcases Threads.ahead_cases calls (P := z.program) (t := .strategy) t with h | ⟨q, d, own, a, k, r, hn, h⟩
  · rw [h]
  · rw [h]
    exact strategy_of_call hn r

theorem ahead_gateway (t : GatewayThread z.flightCap) :
    (Threads.ahead z.program calls .gateway t : GatewayThread z.flightCap).gateway = t.gateway := by
  rcases Threads.ahead_cases calls (P := z.program) (t := .gateway) t with h | ⟨q, d, own, a, k, r, hn, h⟩
  · rw [h]
  · rw [h]
    exact gateway_of_call hn r

end EngineSizes

namespace RingEngine

variable {z : EngineSizes} {cfg : EngineConfig} {f : RingEngine z}

/-! ### Refinement -/

/-- What the engine over plain queues tells of the engine over the rings: everything outside the threads, the data of
    the strategy and of the gateway, and the values in each ring. -/
structure Refines (f : RingEngine z) (s : Stages z) : Prop where
  world : f.world = s.world
  strat : f.strategy.runner.strat = s.strategy.runner.strat
  gateway : f.gateway.gateway = s.gateway.gateway
  feedRing : f.feedRing.Holds s.feedQ
  orderRing : f.orderRing.Holds s.orderQ
  fillRing : f.fillRing.Holds s.fillQ

theorem refines_of_stands {s : Stages z} {calls : (q : QueueName) → Calls (z.wiring.Payload q)}
    (h : Threads.Stands z.linearizable f s calls) : Refines f s where
  world := h.world.symm
  strat := by
    have ht := h.threads .strategy
    unfold RingEngine.strategy Stages.strategy
    rw [ht]
    exact (EngineSizes.ahead_strategy _).symm
  gateway := by
    have ht := h.threads .gateway
    unfold RingEngine.gateway Stages.gateway
    rw [ht]
    exact (EngineSizes.ahead_gateway _).symm
  feedRing := SpscQueue.System.Stands.holds (h.holds .feedQ)
  orderRing := SpscQueue.System.Stands.holds (h.holds .orderQ)
  fillRing := SpscQueue.System.Stands.holds (h.holds .fillQ)

theorem refined_of_reachable (hr : Reachable Step (start z cfg) f) :
    ∃ (s : Stages z) (evs : List (OrderLoop × LoopEvent)) (a : OrderLoop),
      Reachable Threads.Net.Step (Stages.start z cfg) s ∧ Refines f s ∧ Snapshot.Matched cfg s.snapshot evs a := by
  obtain ⟨s, calls, hreach, hstands, -⟩ := Threads.stands_of_reachable z.linearizable hr
  obtain ⟨evs, a, hmatched⟩ := Snapshot.matched_of_reachable hreach
  exact ⟨s, evs, a, hreach, refines_of_stands hstands, hmatched⟩

theorem session_total : ∃ f, after? Engine.least Engine.hundreds session = some f ∧ f.world.seen.length = 2 ∧
    f.world.matched.length = 1 ∧ Reachable Step (start Engine.least Engine.hundreds) f := by
  have hsome : ((after? Engine.least Engine.hundreds session).map fun f =>
      (f.world.seen.length, f.world.matched.length)) = some (2, 1) := by decide +kernel
  obtain ⟨f, hf, hlen⟩ := Option.map_eq_some_iff.mp hsome
  exact ⟨f, hf, congrArg Prod.fst hlen, congrArg Prod.snd hlen, Reachable.of_foldlM hf⟩

/-- What the strategy and the gate know of each other: the gate checks the orders in the turn of their emission, each at
    the position at which it was emitted, and is one behind at most; where the latch is open nothing was refused, and
    both have booked the same. -/
structure LedgersMeet (f : RingEngine z) : Prop where
  inTurn : f.world.checked <+: f.world.emitted
  oneBehind : f.world.emitted.length ≤ f.world.checked.length + 1
  open_of_idle : f.strategy.runner.strat.inFlight = false → f.world.checked = f.world.emitted ∧
    f.gateway.gateway.riskRejected = 0 ∧ f.gateway.gateway.risk.position = f.strategy.runner.strat.position

/-- However the memory operations of the threads interleave, neither ledger runs away from the other. -/
theorem ledgers_meet (hr : Reachable Step (start z cfg) f) : LedgersMeet f := by
  obtain ⟨s, evs, a, -, href, hm⟩ := refined_of_reachable hr
  have hledger := (OrderLoop.ledger_of_run hm.run).2
  have hchecked : f.world.checked = a.checked := (congrArg World.checked href.world).trans hm.tracks.checked
  have hemitted : f.world.emitted = a.emitted := (congrArg World.emitted href.world).trans hm.tracks.emitted
  constructor
  · rw [hchecked, hemitted]
    exact ⟨_, hledger.logged.symm⟩
  · rw [hchecked, hemitted, hledger.logged, List.length_append, List.length_map]
    exact Nat.add_le_add_left a.phase.length_unchecked _
  · intro hopen
    rw [href.strat] at hopen
    have hp : a.phase = .idle := Phase.idle_of_inFlight (hm.tracks.latch.symm.trans hopen)
    refine ⟨?_, ?_, ?_⟩
    · rw [hchecked, hemitted, hledger.logged, hp]
      exact (List.append_nil _).symm
    · rw [href.gateway, show s.gateway.gateway.riskRejected = _ from hm.tracks.rejected, hp]
      rfl
    · rw [href.gateway, href.strat, show s.gateway.gateway.risk.position = _ from hm.tracks.gatePos,
        show s.strategy.runner.strat.position = _ from hm.tracks.strategyPos]
      exact hledger.pos_eq (by rw [hp]; rfl)

theorem ledgers_meet_session :
    ∃ f, after? Engine.least Engine.hundreds session = some f ∧ f.world.matched.length = 1 ∧ LedgersMeet f := by
  obtain ⟨f, hf, -, hmatched, hr⟩ := session_total
  exact ⟨f, hf, hmatched, ledgers_meet hr⟩

/-! ### No push of an order or a report is refused -/

theorem next_pushing {t : StrategyThread z.ticks} {o : OrderRequest} (hpc : t.pc = .pushing o) :
    ∃ k, StrategyThread.next z t = .call .orderQ .push rfl o k := by
  simp only [StrategyThread.next, hpc]
  exact ⟨_, rfl⟩

theorem pushing_of_next {t : StrategyThread z.ticks} {o : OrderRequest} {k : Bool → StrategyThread z.ticks}
    (hn : StrategyThread.next z t = .call .orderQ .push rfl o k) : t.pc = .pushing o := by
  unfold StrategyThread.next at hn
  split at hn <;> cases hn
  assumption

theorem next_report {t : GatewayThread z.flightCap} {i : Nat} {r : ExecReport} (hpc : t.pc = .report i r) :
    ∃ k, GatewayThread.next z t = .call .fillQ .push rfl r k := by
  simp only [GatewayThread.next, hpc]
  exact ⟨_, rfl⟩

theorem report_of_next {t : GatewayThread z.flightCap} {r : ExecReport} {k : Bool → GatewayThread z.flightCap}
    (hn : GatewayThread.next z t = .call .fillQ .push rfl r k) : ∃ i, t.pc = .report i r := by
  unfold GatewayThread.next at hn
  split at hn <;> cases hn
  exact ⟨_, by assumption⟩

/-- A push into an empty queue is taken. -/
theorem offer_of_nil {α : Type} {cap : Capacity} {q : BoundedQueue α cap.val.toNat} {x : α} (hq : q.items = []) :
    (q.offer x).1 = true := by
  have hcap : 0 < cap.val.toNat := UInt64.lt_iff_toNat_lt.mp cap.pos
  obtain ⟨q', hoffer, -⟩ := BoundedQueue.offer_of_room (q := q) (x := x) (by rw [hq]; exact hcap)
  rw [hoffer]

theorem order_push_ne_false (hr : Reachable Step (start z cfg) f) {o : OrderRequest}
    (hpc : f.strategy.pc = .pushing o) : (f.orderRing.op .push o).2 ≠ some false := by
  intro hret
  obtain ⟨k, hn⟩ := next_pushing hpc
  have hcall : z.program.next (z.wiring.owner .orderQ .push) (f.threads (z.wiring.owner .orderQ .push)) =
      .call .orderQ .push rfl o k := hn
  obtain ⟨s, k', hreach, hn', hfalse⟩ := Threads.answers_of_ret z.linearizable hr hcall hret
  obtain ⟨evs, a, hmatched⟩ := Snapshot.matched_of_reachable hreach
  have hempty := hmatched.tracks.orderQ_empty (pushing_of_next hn')
  exact Bool.false_ne_true (hfalse.trans (offer_of_nil hempty))

theorem report_push_ne_false (hr : Reachable Step (start z cfg) f) {i : Nat} {r : ExecReport}
    (hpc : f.gateway.pc = .report i r) : (f.fillRing.op .push r).2 ≠ some false := by
  intro hret
  obtain ⟨k, hn⟩ := next_report hpc
  have hcall : z.program.next (z.wiring.owner .fillQ .push) (f.threads (z.wiring.owner .fillQ .push)) =
      .call .fillQ .push rfl r k := hn
  obtain ⟨s, k', hreach, hn', hfalse⟩ := Threads.answers_of_ret z.linearizable hr hcall hret
  obtain ⟨evs, a, hmatched⟩ := Snapshot.matched_of_reachable hreach
  obtain ⟨i', hpc'⟩ := report_of_next hn'
  exact Bool.false_ne_true (hfalse.trans (offer_of_nil (hmatched.tracks.fillQ_empty hpc')))

theorem fullAt_step {l : Threads.Label Stage UInt64 Outside} {f' : RingEngine z}
    (hr : Reachable Step (start z cfg) f) (hs : f.Step l f') :
    f'.orderRing.fullAt = f.orderRing.fullAt ∧ f'.fillRing.fullAt = f.fillRing.fullAt := by
  have call : ∀ {q d a t own k}, z.program.next t (f.threads t) = .call q d own a k →
      let channel := Function.update f.channel q ((z.rings q).op (f.channel q) d a).1
      (channel .orderQ : SpscQueue.System OrderRequest z.orderCap).fullAt = f.orderRing.fullAt ∧
        (channel .fillQ : SpscQueue.System ExecReport z.fillCap).fullAt = f.fillRing.fullAt := by
    intro q d a t own k hn
    subst own
    cases q with
    | feedQ => exact ⟨rfl, rfl⟩
    | orderQ =>
      cases d with
      | push =>
        have hne := order_push_ne_false hr (pushing_of_next hn)
        exact ⟨((SpscQueue.fullAt_push f.orderRing a).resolve_right fun h => hne h.choose_spec.2).1, rfl⟩
      | pop => exact ⟨SpscQueue.fullAt_pop f.orderRing, rfl⟩
    | fillQ =>
      cases d with
      | push =>
        obtain ⟨i, hpc⟩ := report_of_next hn
        have hne := report_push_ne_false hr hpc
        exact ⟨rfl, ((SpscQueue.fullAt_push f.fillRing a).resolve_right fun h => hne h.choose_spec.2).1⟩
      | pop => exact ⟨rfl, SpscQueue.fullAt_pop f.fillRing⟩
  cases hs.move with
  | work | outside => exact ⟨rfl, rfl⟩
  | op hn => exact call hn
  | ret hn => exact call hn

theorem fullAt_nil (hr : Reachable Step (start z cfg) f) : f.orderRing.fullAt = [] ∧ f.fillRing.fullAt = [] := by
  have hboth := hr.invariant
    (I := fun f : RingEngine z => Reachable Step (start z cfg) f ∧ f.orderRing.fullAt = [] ∧ f.fillRing.fullAt = [])
    ⟨.refl, rfl, rfl⟩ fun hi hs => by
      obtain ⟨hr, horder, hfill⟩ := hi
      obtain ⟨horder', hfill'⟩ := fullAt_step hr hs
      exact ⟨hr.next hs, horder'.trans horder, hfill'.trans hfill⟩
  exact hboth.2

theorem fullAt_nil_session :
    ∃ f, after? Engine.least Engine.hundreds session = some f ∧ f.world.matched.length = 1 ∧
      f.orderRing.fullAt = [] ∧ f.fillRing.fullAt = [] := by
  obtain ⟨f, hf, -, hmatched, hr⟩ := session_total
  exact ⟨f, hf, hmatched, fullAt_nil hr⟩

/-! ### The engine over its rings, part by part -/

/-- A snapshot of the threads and the world as they are, with the values in each ring as its queue. -/
structure Shows (f : RingEngine z) (v : Snapshot z) : Prop where
  feed : v.feed = f.feed
  strategy : v.strategy = f.strategy
  gateway : v.gateway = f.gateway
  world : v.world = f.world
  feedRing : f.feedRing.Holds v.feedQ
  orderRing : f.orderRing.Holds v.orderQ
  fillRing : f.fillRing.Holds v.fillQ

theorem shows_start : Shows (start z cfg) (Stages.start z cfg).snapshot := ⟨rfl, rfl, rfl, rfl, rfl, rfl, rfl⟩

theorem inv_of_reachable (hr : Reachable Step (start z cfg) f) :
    f.feedRing.Inv ∧ f.orderRing.Inv ∧ f.fillRing.Inv := by
  obtain ⟨s, calls, -, hst, -⟩ := Threads.stands_of_reachable z.linearizable hr
  exact ⟨SpscQueue.System.Stands.inv (hst.holds .feedQ), SpscQueue.System.Stands.inv (hst.holds .orderQ),
    SpscQueue.System.Stands.inv (hst.holds .fillQ)⟩

/-- The push under way on a ring is the one that its thread makes. -/
theorem feedRing_of (hr : Reachable Step (start z cfg) f) {ev : MdEvent} {k : Bool → FeedThread}
    (hn : FeedThread.next z f.feed = .call .feedQ .push rfl ev k) : f.feedRing.pushCall.Of ev := by
  obtain ⟨s, calls, -, hst, -⟩ := Threads.stands_of_reachable z.linearizable hr
  have hcall : z.program.next (z.wiring.owner .feedQ .push) (f.threads (z.wiring.owner .feedQ .push)) =
      .call .feedQ .push rfl ev k := hn
  have hof := hst.of_arg hcall
  rwa [SpscQueue.System.Stands.calls (hst.holds .feedQ)] at hof

theorem orderRing_of (hr : Reachable Step (start z cfg) f) {o : OrderRequest} {k : Bool → StrategyThread z.ticks}
    (hn : StrategyThread.next z f.strategy = .call .orderQ .push rfl o k) : f.orderRing.pushCall.Of o := by
  obtain ⟨s, calls, -, hst, -⟩ := Threads.stands_of_reachable z.linearizable hr
  have hcall : z.program.next (z.wiring.owner .orderQ .push) (f.threads (z.wiring.owner .orderQ .push)) =
      .call .orderQ .push rfl o k := hn
  have hof := hst.of_arg hcall
  rwa [SpscQueue.System.Stands.calls (hst.holds .orderQ)] at hof

theorem fillRing_of (hr : Reachable Step (start z cfg) f) {rep : ExecReport} {k : Bool → GatewayThread z.flightCap}
    (hn : GatewayThread.next z f.gateway = .call .fillQ .push rfl rep k) : f.fillRing.pushCall.Of rep := by
  obtain ⟨s, calls, -, hst, -⟩ := Threads.stands_of_reachable z.linearizable hr
  have hcall : z.program.next (z.wiring.owner .fillQ .push) (f.threads (z.wiring.owner .fillQ .push)) =
      .call .fillQ .push rfl rep k := hn
  have hof := hst.of_arg hcall
  rwa [SpscQueue.System.Stands.calls (hst.holds .fillQ)] at hof

section
variable {v : Snapshot z} {tsc : UInt64} {q : QueueName} {d : End}

theorem shows_feed_call {own : z.wiring.owner q d = .feed} {a : d.Arg (z.wiring.Payload q)}
    {k : d.Ret (z.wiring.Payload q) → z.program.Local .feed} (hr : Reachable Step (start z cfg) f) (hv : Shows f v)
    (hn : z.program.next .feed (f.threads .feed) = .call q d own a k) :
    ∃ v', Shows (f.afterOp .feed q d a k) v' ∧ (v' = v ∨ v.FeedMove tsc v') := by
  obtain ⟨hinv, -, -⟩ := inv_of_reachable hr
  have hmoves : FeedThread.next z f.feed = .call q d own a k := hn
  rw [← hv.feed] at hmoves
  obtain ⟨ev, k', hn', htrue, hfalse⟩ := Snapshot.FeedMove.of_call tsc hmoves
  have heffect := fun hn : FeedThread.next z f.feed = .call .feedQ .push rfl ev k' =>
    SpscQueue.System.push_effect hinv hv.feedRing (feedRing_of hr hn)
  obtain ⟨hfeed, hstrategy, hgateway, hworld, hfeedRing, horderRing, hfillRing⟩ := hv
  rw [hfeed] at hn'
  cases hret : ((z.rings q).op (f.channel q) d a).2 with
  | none =>
    rw [Threads.Channeled.afterOp_none k hret]
    cases hn.symm.trans hn'
    rcases heffect hn with ⟨-, hholds⟩ | ⟨hsome, -⟩
    · exact ⟨v, ⟨hfeed, hstrategy, hgateway, hworld, hholds, horderRing, hfillRing⟩, Or.inl rfl⟩
    · cases hret.symm.trans hsome
  | some ok =>
    rw [Threads.Channeled.afterOp_some k hret]
    cases hn.symm.trans hn'
    rcases heffect hn with ⟨hne, hholds⟩ | ⟨hsome, q', hholds, hitems⟩
    · cases ok with
      | true => exact absurd hret hne
      | false =>
        exact ⟨{ v with feed := k' false }, ⟨rfl, hstrategy, hgateway, hworld, hholds, horderRing, hfillRing⟩,
          Or.inr hfalse⟩
    · cases hret.symm.trans hsome
      exact ⟨{ v with feed := k' true, feedQ := q' },
        ⟨rfl, hstrategy, hgateway, hworld, hholds, horderRing, hfillRing⟩, Or.inr (htrue q' hitems)⟩

theorem shows_strategy_call {own : z.wiring.owner q d = .strategy} {a : d.Arg (z.wiring.Payload q)}
    {k : d.Ret (z.wiring.Payload q) → z.program.Local .strategy} (hr : Reachable Step (start z cfg) f)
    (hv : Shows f v) (hn : z.program.next .strategy (f.threads .strategy) = .call q d own a k) :
    ∃ v', Shows (f.afterOp .strategy q d a k) v' ∧ (v' = v ∨ v.StrategyMove v') := by
  obtain ⟨hinvFeed, hinvOrder, hinvFill⟩ := inv_of_reachable hr
  have hmoves : StrategyThread.next z f.strategy = .call q d own a k := hn
  rw [← hv.strategy] at hmoves
  have hcases := Snapshot.StrategyMove.of_call hmoves
  have heffectFill := SpscQueue.System.pop_effect hinvFill hv.fillRing
  have heffectFeed := SpscQueue.System.pop_effect hinvFeed hv.feedRing
  have heffectOrder := fun o k' hn =>
    SpscQueue.System.push_effect hinvOrder hv.orderRing (orderRing_of (o := o) (k := k') hr hn)
  obtain ⟨hfeed, hstrategy, hgateway, hworld, hfeedRing, horderRing, hfillRing⟩ := hv
  rw [hstrategy] at hcases
  cases hret : ((z.rings q).op (f.channel q) d a).2 with
  | none =>
    rw [Threads.Channeled.afterOp_none k hret]
    rcases hcases with ⟨k', hn', -, -⟩ | ⟨k', hn', -, -⟩ | ⟨o, k', hn', -, -⟩
    · cases hn.symm.trans hn'
      rcases heffectFill with ⟨-, hholds⟩ | ⟨x, q', hsome, -⟩
      · exact ⟨v, ⟨hfeed, hstrategy, hgateway, hworld, hfeedRing, horderRing, hholds⟩, Or.inl rfl⟩
      · cases hret.symm.trans hsome
    · cases hn.symm.trans hn'
      rcases heffectFeed with ⟨-, hholds⟩ | ⟨x, q', hsome, -⟩
      · exact ⟨v, ⟨hfeed, hstrategy, hgateway, hworld, hholds, horderRing, hfillRing⟩, Or.inl rfl⟩
      · cases hret.symm.trans hsome
    · cases hn.symm.trans hn'
      rcases heffectOrder o _ hn with ⟨-, hholds⟩ | ⟨hsome, -⟩
      · exact ⟨v, ⟨hfeed, hstrategy, hgateway, hworld, hfeedRing, hholds, hfillRing⟩, Or.inl rfl⟩
      · cases hret.symm.trans hsome
  | some r =>
    rw [Threads.Channeled.afterOp_some k hret]
    rcases hcases with ⟨k', hn', hsome', hnone⟩ | ⟨k', hn', hsome', hnone⟩ | ⟨o, k', hn', htrue, hfalse⟩
    · cases hn.symm.trans hn'
      rcases heffectFill with ⟨hne, hholds⟩ | ⟨x, q', hsome, hholds, hitems⟩
      · cases r with
        | some x => exact absurd hret (hne x)
        | none =>
          exact ⟨{ v with strategy := k' none }, ⟨hfeed, rfl, hgateway, hworld, hfeedRing, horderRing, hholds⟩,
            Or.inr hnone⟩
      · cases hret.symm.trans hsome
        exact ⟨{ v with strategy := k' (some x), fillQ := q' },
          ⟨hfeed, rfl, hgateway, hworld, hfeedRing, horderRing, hholds⟩, Or.inr (hsome' x q' hitems)⟩
    · cases hn.symm.trans hn'
      rcases heffectFeed with ⟨hne, hholds⟩ | ⟨x, q', hsome, hholds, hitems⟩
      · cases r with
        | some x => exact absurd hret (hne x)
        | none =>
          exact ⟨{ v with strategy := k' none }, ⟨hfeed, rfl, hgateway, hworld, hholds, horderRing, hfillRing⟩,
            Or.inr hnone⟩
      · cases hret.symm.trans hsome
        exact ⟨{ v with strategy := k' (some x), feedQ := q' },
          ⟨hfeed, rfl, hgateway, hworld, hholds, horderRing, hfillRing⟩, Or.inr (hsome' x q' hitems)⟩
    · cases hn.symm.trans hn'
      rcases heffectOrder o _ hn with ⟨hne, hholds⟩ | ⟨hsome, q', hholds, hitems⟩
      · cases r with
        | true => exact absurd hret hne
        | false =>
          exact ⟨{ v with strategy := k' false }, ⟨hfeed, rfl, hgateway, hworld, hfeedRing, hholds, hfillRing⟩,
            Or.inr hfalse⟩
      · cases hret.symm.trans hsome
        exact ⟨{ v with strategy := k' true, orderQ := q' },
          ⟨hfeed, rfl, hgateway, hworld, hfeedRing, hholds, hfillRing⟩, Or.inr (htrue q' hitems)⟩

theorem shows_gateway_call {own : z.wiring.owner q d = .gateway} {a : d.Arg (z.wiring.Payload q)}
    {k : d.Ret (z.wiring.Payload q) → z.program.Local .gateway} (hr : Reachable Step (start z cfg) f)
    (hv : Shows f v) (hn : z.program.next .gateway (f.threads .gateway) = .call q d own a k) :
    ∃ v', Shows (f.afterOp .gateway q d a k) v' ∧ (v' = v ∨ v.GatewayMove tsc v') := by
  obtain ⟨-, hinvOrder, hinvFill⟩ := inv_of_reachable hr
  have hmoves : GatewayThread.next z f.gateway = .call q d own a k := hn
  rw [← hv.gateway] at hmoves
  have hcases := Snapshot.GatewayMove.of_call tsc hmoves
  have heffectOrder := SpscQueue.System.pop_effect hinvOrder hv.orderRing
  have heffectFill := fun rep k' (hn : GatewayThread.next z f.gateway = .call .fillQ .push rfl rep k') =>
    SpscQueue.System.push_effect hinvFill hv.fillRing (fillRing_of hr hn)
  obtain ⟨hfeed, hstrategy, hgateway, hworld, hfeedRing, horderRing, hfillRing⟩ := hv
  rw [hgateway] at hcases
  cases hret : ((z.rings q).op (f.channel q) d a).2 with
  | none =>
    rw [Threads.Channeled.afterOp_none k hret]
    rcases hcases with ⟨rep, k', hn', -, -⟩ | ⟨k', hn', -, -⟩
    · cases hn.symm.trans hn'
      rcases heffectFill rep _ hn with ⟨-, hholds⟩ | ⟨hsome, -⟩
      · exact ⟨v, ⟨hfeed, hstrategy, hgateway, hworld, hfeedRing, horderRing, hholds⟩, Or.inl rfl⟩
      · cases hret.symm.trans hsome
    · cases hn.symm.trans hn'
      rcases heffectOrder with ⟨-, hholds⟩ | ⟨x, q', hsome, -⟩
      · exact ⟨v, ⟨hfeed, hstrategy, hgateway, hworld, hfeedRing, hholds, hfillRing⟩, Or.inl rfl⟩
      · cases hret.symm.trans hsome
  | some r =>
    rw [Threads.Channeled.afterOp_some k hret]
    rcases hcases with ⟨rep, k', hn', htrue, hfalse⟩ | ⟨k', hn', hsome', hnone⟩
    · cases hn.symm.trans hn'
      rcases heffectFill rep _ hn with ⟨hne, hholds⟩ | ⟨hsome, q', hholds, hitems⟩
      · cases r with
        | true => exact absurd hret hne
        | false =>
          exact ⟨{ v with gateway := k' false }, ⟨hfeed, hstrategy, rfl, hworld, hfeedRing, horderRing, hholds⟩,
            Or.inr hfalse⟩
      · cases hret.symm.trans hsome
        exact ⟨{ v with gateway := k' true, fillQ := q' },
          ⟨hfeed, hstrategy, rfl, hworld, hfeedRing, horderRing, hholds⟩, Or.inr (htrue q' hitems)⟩
    · cases hn.symm.trans hn'
      rcases heffectOrder with ⟨hne, hholds⟩ | ⟨x, q', hsome, hholds, hitems⟩
      · cases r with
        | some x => exact absurd hret (hne x)
        | none =>
          exact ⟨{ v with gateway := k' none }, ⟨hfeed, hstrategy, rfl, hworld, hfeedRing, hholds, hfillRing⟩,
            Or.inr hnone⟩
      · cases hret.symm.trans hsome
        exact ⟨{ v with gateway := k' (some x), orderQ := q' },
          ⟨hfeed, hstrategy, rfl, hworld, hfeedRing, hholds, hfillRing⟩, Or.inr (hsome' x q' hitems)⟩

/-- A step over the rings is no change for the snapshot or one of its moves. -/
theorem shows_step {l : Threads.Label Stage UInt64 Outside} {f' : RingEngine z}
    (hr : Reachable Step (start z cfg) f) (hv : Shows f v) (hs : f.Step l f') :
    ∃ v', Shows f' v' ∧ (v' = v ∨ v.Move l v') := by
  match l with
  | .outside x =>
    cases hs.move with
    | @outside x world hx =>
      obtain ⟨hfeed, hstrategy, hgateway, hworld, hfeedRing, horderRing, hfillRing⟩ := hv
      exact ⟨{ v with world }, ⟨hfeed, hstrategy, hgateway, rfl, hfeedRing, horderRing, hfillRing⟩,
        Or.inr ⟨world, hworld ▸ hx, rfl⟩⟩
  | .thread t tsc =>
    cases hn : z.program.next t (f.threads t) with
    | stop =>
      simp only [Step, Threads.Channeled.Step, Threads.Channeled.next?, hn] at hs
      cases hs
    | call q d own a k =>
      rw [Threads.Channeled.Step.eq_afterOp hs hn]
      cases t with
      | feed => exact shows_feed_call hr hv hn
      | strategy => exact shows_strategy_call hr hv hn
      | gateway => exact shows_gateway_call hr hv hn
    | work k =>
      obtain ⟨r, hk, rfl⟩ := Threads.Channeled.Step.of_work hs hn
      obtain ⟨hfeed, hstrategy, hgateway, hworld, hfeedRing, horderRing, hfillRing⟩ := hv
      rw [← hworld] at hk
      cases t with
      | feed =>
        have hn' : FeedThread.next z f.feed = .work k := hn
        rw [← hfeed] at hn'
        exact ⟨{ v with feed := r.1, world := r.2 },
          ⟨rfl, hstrategy, hgateway, rfl, hfeedRing, horderRing, hfillRing⟩, Or.inr (.of_work hn' hk)⟩
      | strategy =>
        have hn' : StrategyThread.next z f.strategy = .work k := hn
        rw [← hstrategy] at hn'
        exact ⟨{ v with strategy := r.1, world := r.2 },
          ⟨hfeed, rfl, hgateway, rfl, hfeedRing, horderRing, hfillRing⟩, Or.inr (.of_work hn' hk)⟩
      | gateway =>
        have hn' : GatewayThread.next z f.gateway = .work k := hn
        rw [← hgateway] at hn'
        exact ⟨{ v with gateway := r.1, world := r.2 },
          ⟨hfeed, hstrategy, rfl, rfl, hfeedRing, horderRing, hfillRing⟩, Or.inr (.of_work hn' hk)⟩

/-- What the moves of a snapshot keep holds of the engine over its rings. -/
theorem invariant {I : Snapshot z → Prop} (init : I (Stages.start z cfg).snapshot)
    (kept : ∀ {v l v'}, I v → v.Move l v' → I v') (hr : Reachable Step (start z cfg) f) : ∃ v, Shows f v ∧ I v := by
  have hboth := hr.invariant
    (I := fun f : RingEngine z => Reachable Step (start z cfg) f ∧ ∃ v, Shows f v ∧ I v)
    ⟨.refl, _, shows_start, init⟩ fun hi hs => by
      obtain ⟨hr, v, hv, hi⟩ := hi
      obtain ⟨v', hv', hmove⟩ := shows_step hr hv hs
      refine ⟨hr.next hs, v', hv', ?_⟩
      rcases hmove with rfl | hmove
      · exact hi
      · exact kept hi hmove
  exact hboth.2

end

end RingEngine

end Hft
