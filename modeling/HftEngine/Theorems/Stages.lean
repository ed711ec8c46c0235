import HftEngine.Theorems.StageMoves
import HftEngine.Theorems.OrderLoop
import HftEngine.Theorems.OrderGateway
import HftEngine.Theorems.Strategy

/-! The threads of the engine refine the order loop, however their steps interleave: the order under way is in one
    queue or in the hand of one thread, and so is its report. -/

namespace Hft

/-! ### What a thread has in its hand -/

def StrategyAt.heldOrders : StrategyAt → List OrderRequest
  | .pushing o => [o]
  | .loop | .fills _ | .fill _ _ | .feed | .event _ | .stopped => []

def StrategyAt.heldReports : StrategyAt → List ExecReport
  | .fill _ r => [r]
  | .loop | .fills _ | .feed | .event _ | .pushing _ | .stopped => []

def GatewayAt.heldOrders : GatewayAt → List OrderRequest
  | .check o => [o]
  | .loop | .recv _ | .report _ _ | .orders | .send _ | .stopped => []

def GatewayAt.heldReports : GatewayAt → List ExecReport
  | .report _ r => [r]
  | .loop | .recv _ | .orders | .check _ | .send _ | .stopped => []

/-- An order that passed the gate and is not on the wire yet. -/
def GatewayAt.sending : GatewayAt → List OrderRequest
  | .send o => [o]
  | .loop | .recv _ | .report _ _ | .orders | .check _ | .stopped => []

/-- The order whose entry in the table is active. -/
def GatewayAt.tabled : GatewayAt → Phase → Option OrderRequest
  | .send _, _ => none
  | .loop, p | .recv _, p | .report _ _, p | .orders, p | .check _, p | .stopped, p => p.working?

theorem StrategyThread.afterEvent_cases {n : NumTicks} (t : StrategyThread n) (ev : MdEvent) (w : World) :
    (∃ strat, t.runner.strat.Kept strat ∧ t.afterEvent ev w =
      ({ pc := .loop, runner := { t.runner with strat, processed := t.runner.processed + 1 } },
        { w with seen := w.seen ++ [ev] })) ∨
    ∃ strat o, t.runner.strat.Emits strat o ∧ t.afterEvent ev w =
      ({ pc := .pushing o, runner := { t.runner with strat } },
        { w with seen := w.seen ++ [ev], emitted := w.emitted ++ [(o, strat.position)] }) := by
  unfold StrategyThread.afterEvent
  rcases t.runner.strat.onMd_cases ev with ⟨strat, hmd, hkept⟩ | ⟨strat, o, hmd, hemits⟩
  · rw [hmd]
    exact Or.inl ⟨strat, hkept, rfl⟩
  · rw [hmd]
    exact Or.inr ⟨strat, o, hemits, rfl⟩

namespace Snapshot

open Transition
open Threads (Label)

variable {z : EngineSizes} {cfg : EngineConfig} {v v' : Snapshot z} {a b : OrderLoop} {tsc : UInt64}

/-! ### The relation -/

structure Tracks (v : Snapshot z) (a : OrderLoop) : Prop where
  latch : v.strategy.runner.strat.inFlight = a.phase.inFlight
  orders : v.gateway.pc.heldOrders ++ v.orderQ.items ++ v.strategy.pc.heldOrders = a.phase.unchecked
  reports : v.strategy.pc.heldReports ++ v.fillQ.items ++ v.gateway.pc.heldReports = a.phase.reports
  table : v.gateway.gateway.Holds (v.gateway.pc.tabled a.phase)
  sending : ∀ o, v.gateway.pc = .send o → a.phase = .working o
  rejected : v.gateway.gateway.riskRejected = a.phase.rejections
  strategyPos : v.strategy.runner.strat.position = a.strategyPos
  gatePos : v.gateway.gateway.risk.position = a.gatePos
  emitted : v.world.emitted = a.emitted
  checked : v.world.checked = a.checked
  sent : v.world.sent ++ v.gateway.pc.sending = a.sent

/-- What never changes, and where the datagrams and the kill switch come from. -/
structure Configured (cfg : EngineConfig) (v : Snapshot z) : Prop where
  orderSize : v.strategy.runner.strat.orderSize = cfg.strategy.orderSize
  limits : v.gateway.gateway.risk.limits = (cfg.risk.maxPosition, cfg.risk.maxOrderSize, cfg.cyclesPerToken)
  rx : ∀ m ∈ v.world.fillRx, m ∈ v.world.arrived
  killed : v.world.kill = true → true ∈ v.world.kills

theorem tracks_start : Tracks (Stages.start z cfg).snapshot {} where
  latch := rfl
  orders := rfl
  reports := rfl
  table := OrderGateway.holds_new
  sending _ h := by cases h
  rejected := rfl
  strategyPos := rfl
  gatePos := rfl
  emitted := rfl
  checked := rfl
  sent := rfl

theorem configured_start : Configured cfg (Stages.start z cfg).snapshot where
  orderSize := rfl
  limits := rfl
  rx _ h := by cases h
  killed h := by cases h

/-! ### One order -/

theorem Tracks.queued {o : OrderRequest} (h : Tracks v a)
    (ho : o ∈ v.gateway.pc.heldOrders ++ v.orderQ.items ++ v.strategy.pc.heldOrders) : a.phase = .queued o := by
  rw [h.orders] at ho
  cases hp : a.phase with
  | queued o' =>
    rw [hp] at ho
    rw [List.mem_singleton.mp ho]
  | idle | working | reported | dropped =>
    rw [hp] at ho
    cases ho

theorem Tracks.reported {r : ExecReport} (h : Tracks v a)
    (hr : r ∈ v.strategy.pc.heldReports ++ v.fillQ.items ++ v.gateway.pc.heldReports) :
    ∃ o, a.phase = .reported o r := by
  rw [h.reports] at hr
  cases hp : a.phase with
  | reported o r' =>
    rw [hp] at hr
    rw [List.mem_singleton.mp hr]
    exact ⟨o, rfl⟩
  | idle | queued | working | dropped =>
    rw [hp] at hr
    cases hr

/-- No push of an order finds the queue full. -/
theorem Tracks.orderQ_empty {o : OrderRequest} (h : Tracks v a) (hpc : v.strategy.pc = .pushing o) :
    v.orderQ.items = [] := by
  have horders := h.orders
  have hp := h.queued (o := o) (by simp [hpc, StrategyAt.heldOrders])
  rw [hp, hpc] at horders
  have hlen := congrArg List.length horders
  simp only [StrategyAt.heldOrders, Phase.unchecked, List.length_append, List.length_singleton] at hlen
  exact List.length_eq_zero_iff.mp (by omega)

theorem Tracks.fillQ_empty {k : Nat} {r : ExecReport} (h : Tracks v a) (hpc : v.gateway.pc = .report k r) :
    v.fillQ.items = [] := by
  have hreports := h.reports
  obtain ⟨o, hp⟩ := h.reported (r := r) (by simp [hpc, GatewayAt.heldReports])
  rw [hp, hpc] at hreports
  have hlen := congrArg List.length hreports
  simp only [GatewayAt.heldReports, Phase.reports, List.length_append, List.length_singleton] at hlen
  exact List.length_eq_zero_iff.mp (by omega)

/-! ### A move of the strategy -/

theorem heldOrders_head (running : Bool) :
    (if running then .fills 15 else .stopped : StrategyAt).heldOrders = [] ∧
      (if running then .fills 15 else .stopped : StrategyAt).heldReports = [] := by
  cases running <;> exact ⟨rfl, rfl⟩

/-- Another place with the same order and report in the hand. -/
theorem Tracks.strategy_at (h : Tracks v a) (pc : StrategyAt) (ho : pc.heldOrders = v.strategy.pc.heldOrders)
    (hr : pc.heldReports = v.strategy.pc.heldReports) :
    Tracks { v with strategy := { v.strategy with pc } } a := by
  refine { h with orders := ?_, reports := ?_ }
  · exact (congrArg (v.gateway.pc.heldOrders ++ v.orderQ.items ++ ·) ho).trans h.orders
  · exact (congrArg (· ++ v.fillQ.items ++ v.gateway.pc.heldReports) hr).trans h.reports

/-- The report in the hand reaches the strategy and opens the latch. -/
theorem Tracks.fill {k : Nat} {r : ExecReport} (h : Tracks v a) (hpc : v.strategy.pc = .fill k r) :
    ∃ o, a.phase = .reported o r ∧
      Tracks { v with
        strategy := v.strategy.afterFill k r
        world := { v.world with filled := v.world.filled ++ [r] } } (a.deliver r) := by
  obtain ⟨o, hp⟩ := h.reported (r := r) (by simp [hpc, StrategyAt.heldReports])
  obtain ⟨hlatch, horders, hreports, htable, hsending, hrejected, hstrat, hgate, hemitted, hchecked, hsent⟩ := h
  rw [hp] at horders hreports htable hrejected
  rw [hpc] at horders hreports
  have hnone : v.fillQ.items ++ v.gateway.pc.heldReports = [] := by
    have hlen := congrArg List.length hreports
    simp only [StrategyAt.heldReports, Phase.reports, List.length_append, List.length_singleton] at hlen
    exact List.length_eq_zero_iff.mp (by rw [List.length_append]; omega)
  have hhand : (v.strategy.afterFill k r).pc.heldOrders = [] ∧ (v.strategy.afterFill k r).pc.heldReports = [] := by
    cases k <;> exact ⟨rfl, rfl⟩
  have hpos : (v.strategy.runner.strat.onFill r).position = a.strategyPos + r.signedFill := by
    rw [← hstrat]
    rfl
  refine ⟨o, hp, rfl, ?_, ?_, ?_, fun o' hs => ?_, hrejected, hpos, hgate, hemitted, hchecked, hsent⟩
  · simp only [hhand.1]
    exact horders
  · simp only [hhand.2, List.nil_append]
    exact hnone
  · cases hg : v.gateway.pc <;> rw [hg] at htable <;> exact htable
  · have hw := hsending o' hs
    rw [hp] at hw
    cases hw

/-- Market data takes an order out only where the loop is idle. -/
theorem Tracks.event {ev : MdEvent} (h : Tracks v a) (hpc : v.strategy.pc = .event ev)
    (hv : v' = { v with
      strategy := (v.strategy.afterEvent ev v.world).1
      world := (v.strategy.afterEvent ev v.world).2 }) :
    Tracks v' a ∨ ∃ o, a.phase = .idle ∧ OrderLoop.Wants a.strategyPos o ∧
      o.size = v.strategy.runner.strat.orderSize ∧ Tracks v' (a.emit o) := by
  obtain ⟨hlatch, horders, hreports, htable, hsending, hrejected, hstrat, hgate, hemitted, hchecked, hsent⟩ := h
  rcases v.strategy.afterEvent_cases ev v.world with ⟨strat, hkept, heq⟩ | ⟨strat, o, hemits, heq⟩
  · rw [heq] at hv
    subst hv
    rw [hpc] at horders hreports
    exact Or.inl ⟨hkept.inFlight.trans hlatch, horders, hreports, htable, hsending, hrejected,
      hkept.position.trans hstrat, hgate, hemitted, hchecked, hsent⟩
  · have hp : a.phase = .idle := Phase.idle_of_inFlight (hlatch.symm.trans hemits.free)
    rw [heq] at hv
    subst hv
    rw [hp] at horders hreports htable hrejected
    rw [hpc] at horders hreports
    have hnone : v.gateway.pc.heldOrders ++ v.orderQ.items = [] := (List.append_nil _).symm.trans horders
    have horders' : v.gateway.pc.heldOrders ++ v.orderQ.items ++ [o] = [o] := congrArg (· ++ [o]) hnone
    have htable' : v.gateway.gateway.Holds (v.gateway.pc.tabled (a.emit o).phase) := by
      cases hg : v.gateway.pc <;> rw [hg] at htable <;> exact htable
    have hemitted' : v.world.emitted ++ [(o, strat.position)] = a.emitted ++ [(o, a.strategyPos)] := by
      rw [hemitted, hemits.position, hstrat]
    refine Or.inr ⟨o, hp, hstrat ▸ hemits.wants, hemits.size, hemits.latched, horders', hreports, htable',
      fun o' hs => ?_, hrejected, hemits.position.trans hstrat, hgate, hemitted', hchecked, hsent⟩
    have hw := hsending o' hs
    rw [hp] at hw
    cases hw

/-- What a move of the strategy leaves alone. -/
structure StrategyKept (v v' : Snapshot z) : Prop where
  gateway : v'.gateway = v.gateway
  fillRx : v'.world.fillRx = v.world.fillRx
  arrived : v'.world.arrived = v.world.arrived
  kill : v'.world.kill = v.world.kill
  kills : v'.world.kills = v.world.kills
  orderSize : v'.strategy.runner.strat.orderSize = v.strategy.runner.strat.orderSize

theorem StrategyMove.kept (hm : v.StrategyMove v') : StrategyKept v v' := by
  cases hm with
  | head | noFill | takeFill | fill | noEvent | takeEvent | push | full => exact ⟨rfl, rfl, rfl, rfl, rfl, rfl⟩
  | @event ev hpc =>
    rcases v.strategy.afterEvent_cases ev v.world with ⟨strat, hkept, heq⟩ | ⟨strat, o, hemits, heq⟩
    · simp only [heq]
      exact ⟨rfl, rfl, rfl, rfl, rfl, hkept.orderSize⟩
    · simp only [heq]
      exact ⟨rfl, rfl, rfl, rfl, rfl, hemits.orderSize⟩

/-- A move of the strategy is one event of the loop at most: it takes an order out or delivers a report. -/
theorem Tracks.strategyMove (h : Tracks v a) (hm : v.StrategyMove v') :
    ∃ evs b, Run OrderLoop.Step a evs b ∧ Tracks v' b ∧
      ∀ p ∈ evs, p.2 = .deliver ∨ ∃ o, p.2 = .emit o ∧ o.size = v.strategy.runner.strat.orderSize := by
  have same : Tracks v' a → ∃ evs b, Run OrderLoop.Step a evs b ∧ Tracks v' b ∧
      ∀ p ∈ evs, p.2 = .deliver ∨ ∃ o, p.2 = .emit o ∧ o.size = v.strategy.runner.strat.orderSize :=
    fun h => ⟨[], a, .nil, h, by simp⟩
  cases hm with
  | head hpc =>
    have hhead := heldOrders_head v.world.running
    exact same (h.strategy_at _ (by rw [hpc, hhead.1]; rfl) (by rw [hpc, hhead.2]; rfl))
  | noFill hpc => exact same (h.strategy_at _ (by rw [hpc]; rfl) (by rw [hpc]; rfl))
  | @takeFill k r q hpc hq =>
    have horders := h.orders
    have hreports := h.reports
    rw [hpc] at horders hreports
    rw [hq] at hreports
    exact same { h with orders := horders, reports := hreports }
  | fill hpc =>
    obtain ⟨o, hp, ht⟩ := h.fill hpc
    exact ⟨_, _, Run.nil.snoc (.deliver hp), ht, by simp⟩
  | noEvent hpc => exact same (h.strategy_at _ (by rw [hpc]; rfl) (by rw [hpc]; rfl))
  | takeEvent hpc hq =>
    have horders := h.orders
    have hreports := h.reports
    rw [hpc] at horders hreports
    exact same { h with orders := horders, reports := hreports }
  | event hpc =>
    rcases h.event hpc rfl with ht | ⟨o, hp, hwants, hsize, ht⟩
    · exact same ht
    · exact ⟨_, _, Run.nil.snoc (.emit hp hwants), ht, by simp [hsize]⟩
  | @push o q hpc hq =>
    have horders := h.orders
    have hreports := h.reports
    rw [hpc] at horders hreports
    refine same { h with orders := ?_, reports := hreports }
    rw [← horders]
    simp [StrategyThread.pushed, StrategyAt.heldOrders, hq]
  | full => exact same h

/-! ### A move of the gateway -/

/-- A place of the gateway with nothing in the hand. -/
structure Bare (pc : GatewayAt) : Prop where
  orders : pc.heldOrders = []
  reports : pc.heldReports = []
  sending : pc.sending = []
  not_send : ∀ o, pc ≠ .send o
  tabled : ∀ p, pc.tabled p = p.working?

theorem bare_after (k : Nat) : Bare (.after k) := by
  cases k <;> exact ⟨rfl, rfl, rfl, nofun, fun _ => rfl⟩

theorem bare_head (running : Bool) : Bare (if running then .recv 31 else .stopped) := by
  cases running <;> exact ⟨rfl, rfl, rfl, nofun, fun _ => rfl⟩

/-- The gateway goes from one bare place to another, with the same ledger and the same table. -/
theorem Tracks.bare (h : Tracks v a) (hb : Bare v.gateway.pc) {pc : GatewayAt} (hb' : Bare pc)
    {g : OrderGateway z.flightCap} (hi : g.inflight = v.gateway.gateway.inflight)
    (hrej : g.riskRejected = v.gateway.gateway.riskRejected) (hrisk : g.risk = v.gateway.gateway.risk)
    {rx : List (List UInt8)} :
    Tracks { v with gateway := { pc, gateway := g }, world := { v.world with fillRx := rx } } a := by
  obtain ⟨hlatch, horders, hreports, htable, hsending, hrejected, hstrat, hgate, hemitted, hchecked, hsent⟩ := h
  rw [hb.orders] at horders
  rw [hb.reports] at hreports
  rw [hb.tabled] at htable
  rw [hb.sending] at hsent
  refine ⟨hlatch, ?_, ?_, ?_, fun o hs => absurd hs (hb'.not_send o), hrej.trans hrejected, hstrat,
    (congrArg RiskGate.position hrisk).trans hgate, hemitted, hchecked, ?_⟩
  · rw [hb'.orders]
    exact horders
  · rw [hb'.reports]
    exact hreports
  · rw [hb'.tabled]
    exact htable.congr hi
  · rw [hb'.sending]
    exact hsent

/-- A move of the gateway is one event of the loop at most: it takes an order through the gate, or the report of the
    working order in. -/
inductive LoopMove (v : Snapshot z) (now : UInt64) (a : OrderLoop) : OrderLoop → Prop
  | pass {o : OrderRequest} (hp : a.phase = .queued o) (hadm : v.gateway.gateway.risk.Admits v.world.kill now o) :
      LoopMove v now a (a.pass o)
  | drop {o : OrderRequest} (hp : a.phase = .queued o) (hadm : ¬v.gateway.gateway.risk.Admits v.world.kill now o) :
      LoopMove v now a (a.drop o)
  | report {o : OrderRequest} {r : ExecReport} (hp : a.phase = .working o) (hid : r.orderId = o.orderId)
      (hm : ∃ m ∈ v.world.fillRx, ExecReport.ofDatagram? m = some r) : LoopMove v now a (a.report o r)
  | stay : LoopMove v now a a

/-- A report meets the entry of the working order or none. -/
theorem Tracks.handle {k : Nat} {m : List UInt8} {rx : List (List UInt8)} {rep : ExecReport} (h : Tracks v a)
    (hpc : v.gateway.pc = .recv k) (hrx : v.world.fillRx = m :: rx) (hm : ExecReport.ofDatagram? m = some rep) :
    ∃ b, LoopMove v tsc a b ∧
      Tracks { v with
        gateway := (v.gateway.handle k rep { v.world with fillRx := rx }).1
        world := (v.gateway.handle k rep { v.world with fillRx := rx }).2 } b := by
  have hbare : Bare v.gateway.pc := by
    rw [hpc]
    exact ⟨rfl, rfl, rfl, nofun, fun _ => rfl⟩
  unfold GatewayThread.handle
  by_cases hmatch : v.gateway.gateway.Matches rep
  · rw [if_pos hmatch]
    obtain ⟨hlatch, horders, hreports, htable, -, hrejected, hstrat, hgate, hemitted, hchecked, hsent⟩ := h
    rw [hbare.tabled] at htable
    rw [hbare.sending] at hsent
    obtain ⟨o, hw, hslot⟩ := htable.active (z.flightCap.slot rep.orderId) hmatch.1
    have hp : a.phase = .working o := by
      cases hp : a.phase with
      | working o' =>
        rw [hp] at hw
        rw [Option.some.inj hw]
      | idle | queued | reported | dropped =>
        rw [hp] at hw
        cases hw
    rw [hp] at htable horders hreports hrejected
    have hid : rep.orderId = o.orderId := by
      have hentry := (htable.entry o rfl).2
      have hrep := hmatch.2
      unfold OrderGateway.slot at hentry hrep
      rw [hslot, hentry] at hrep
      exact hrep.symm
    have hreleased : (v.gateway.gateway.release rep).Holds none := by
      have hset := htable.release (e := { v.gateway.gateway.slot rep.orderId with active := false }) rfl
      rw [← hid] at hset
      exact hset.congr rfl
    rw [hbare.orders] at horders
    rw [hbare.reports, List.append_nil] at hreports
    have hreports' : v.strategy.pc.heldReports ++ v.fillQ.items ++ [rep] = [rep] := congrArg (· ++ [rep]) hreports
    have hpos : (v.gateway.gateway.release rep).risk.position = a.gatePos + rep.signedFill := by
      rw [← hgate]
      rfl
    exact ⟨_, .report hp hid ⟨m, by rw [hrx]; exact List.mem_cons_self, hm⟩, hlatch.trans (by rw [hp]; rfl), horders,
      hreports', hreleased, nofun, hrejected, hstrat, hpos, hemitted, hchecked, hsent⟩
  · rw [if_neg hmatch]
    exact ⟨a, .stay, h.bare (g := { v.gateway.gateway with fillsUnmatched := v.gateway.gateway.fillsUnmatched + 1 })
      hbare (bare_after k) rfl rfl rfl⟩

/-- The order in the hand goes through the gate or is dropped there. -/
theorem Tracks.check {o : OrderRequest} (h : Tracks v a) (hpc : v.gateway.pc = .check o) :
    ∃ b, LoopMove v tsc a b ∧
      Tracks { v with
        gateway := v.gateway.checked v.world.kill tsc o
        world := { v.world with checked := v.world.checked ++ [(o, v.gateway.gateway.risk.position)] } } b := by
  have hp := h.queued (o := o) (by simp [hpc, GatewayAt.heldOrders])
  obtain ⟨hlatch, horders, hreports, htable, -, hrejected, hstrat, hgate, hemitted, hchecked, hsent⟩ := h
  rw [hp] at hlatch horders hreports htable hrejected
  rw [hpc] at horders hreports htable hsent
  have hnone : v.orderQ.items ++ v.strategy.pc.heldOrders = [] := by
    have hlen := congrArg List.length horders
    simp only [GatewayAt.heldOrders, Phase.unchecked, List.length_append, List.length_singleton] at hlen
    exact List.length_eq_zero_iff.mp (by rw [List.length_append]; omega)
  have hlog : v.world.checked ++ [(o, v.gateway.gateway.risk.position)] = a.checked ++ [(o, a.gatePos)] := by
    rw [hchecked, hgate]
  by_cases hadm : v.gateway.gateway.risk.Admits v.world.kill tsc o
  · have heq : v.gateway.checked v.world.kill tsc o = { pc := .send o, gateway := { v.gateway.gateway with
        risk := (v.gateway.gateway.risk.check v.world.kill tsc o).1 } } :=
      if_neg fun hne => hne (RiskGate.check_accept.mpr hadm)
    rw [heq]
    have hpos : (v.gateway.gateway.risk.check v.world.kill tsc o).1.position = a.gatePos :=
      RiskGate.check_position.trans hgate
    have hwire : v.world.sent ++ [o] = a.sent ++ [o] := congrArg (· ++ [o]) ((List.append_nil _).symm.trans hsent)
    have hsend : ∀ o', GatewayAt.send o = .send o' → (a.pass o).phase = .working o' := by
      rintro o' ⟨⟩
      rfl
    exact ⟨_, .pass hp hadm, hlatch, hnone, hreports, htable.congr rfl, hsend, hrejected, hstrat, hpos, hemitted, hlog,
      hwire⟩
  · have heq : v.gateway.checked v.world.kill tsc o = { pc := .loop, gateway := { v.gateway.gateway with
        risk := (v.gateway.gateway.risk.check v.world.kill tsc o).1
        riskRejected := v.gateway.gateway.riskRejected + 1 } } :=
      if_pos fun hacc => hadm (RiskGate.check_accept.mp hacc)
    rw [heq]
    have hpos : (v.gateway.gateway.risk.check v.world.kill tsc o).1.position = a.gatePos :=
      RiskGate.check_position.trans hgate
    have hrej : v.gateway.gateway.riskRejected + 1 = 1 := by rw [hrejected]; rfl
    exact ⟨_, .drop hp hadm, hlatch, hnone, hreports, htable.congr rfl, fun _ hloop => GatewayAt.noConfusion hloop,
      hrej, hstrat, hpos, hemitted, hlog, hsent⟩

theorem Tracks.gatewayMove (h : Tracks v a) (hm : v.GatewayMove tsc v') : ∃ b, LoopMove v tsc a b ∧ Tracks v' b := by
  have bare : ∀ {pc : GatewayAt}, v.gateway.pc = pc → pc.heldOrders = [] → pc.heldReports = [] → pc.sending = [] →
      (∀ o, pc ≠ .send o) → (∀ p, pc.tabled p = p.working?) → Bare v.gateway.pc := by
    rintro pc rfl h₁ h₂ h₃ h₄ h₅
    exact ⟨h₁, h₂, h₃, h₄, h₅⟩
  have hbare : Bare .orders := ⟨rfl, rfl, rfl, nofun, fun _ => rfl⟩
  cases hm with
  | head hpc =>
    exact ⟨a, .stay, h.bare (bare hpc rfl rfl rfl nofun fun _ => rfl) (bare_head _) rfl rfl rfl⟩
  | noReport hpc hrx =>
    exact ⟨a, .stay, h.bare (bare hpc rfl rfl rfl nofun fun _ => rfl) hbare rfl rfl rfl⟩
  | short hpc hrx hm =>
    exact ⟨a, .stay, h.bare (bare hpc rfl rfl rfl nofun fun _ => rfl) hbare rfl rfl rfl⟩
  | report hpc hrx hm => exact h.handle hpc hrx hm
  | @push k rep q hpc hq =>
    obtain ⟨hlatch, horders, hreports, htable, hsending, hrejected, hstrat, hgate, hemitted, hchecked, hsent⟩ := h
    have hafter := bare_after k
    rw [hpc] at horders hreports htable hsent
    refine ⟨a, .stay, hlatch, ?_, ?_, ?_, fun o hs => absurd hs (hafter.not_send o), hrejected, hstrat, hgate, hemitted,
      hchecked, ?_⟩
    · rw [hafter.orders]
      exact horders
    · rw [hafter.reports, hq, List.append_nil, ← List.append_assoc]
      exact hreports
    · rw [hafter.tabled]
      exact htable
    · rw [hafter.sending]
      exact hsent
  | full => exact ⟨a, .stay, h⟩
  | noOrder hpc =>
    exact ⟨a, .stay, h.bare (bare hpc rfl rfl rfl nofun fun _ => rfl)
      (⟨rfl, rfl, rfl, nofun, fun _ => rfl⟩ : Bare .loop) rfl rfl rfl⟩
  | @takeOrder o q hpc hq =>
    obtain ⟨hlatch, horders, hreports, htable, hsending, hrejected, hstrat, hgate, hemitted, hchecked, hsent⟩ := h
    rw [hpc] at horders hreports htable hsent
    rw [hq] at horders
    exact ⟨a, .stay, hlatch, horders, hreports, htable, nofun, hrejected, hstrat, hgate, hemitted, hchecked, hsent⟩
  | check hpc => exact h.check hpc
  | @send o hpc =>
    obtain ⟨hlatch, horders, hreports, htable, hsending, hrejected, hstrat, hgate, hemitted, hchecked, hsent⟩ := h
    have hp := hsending o hpc
    rw [hpc] at horders hreports htable hsent
    have htable' : (v.gateway.gateway.record o tsc).Holds a.phase.working? := by
      rw [hp]
      exact (htable.record tsc).congr rfl
    exact ⟨a, .stay, hlatch, horders, hreports, htable', nofun, hrejected, hstrat, hgate, hemitted, hchecked,
      (List.append_nil _).trans hsent⟩

/-- What a move of the gateway leaves alone. -/
structure GatewayKept (v v' : Snapshot z) : Prop where
  strategy : v'.strategy = v.strategy
  rx : ∀ m ∈ v'.world.fillRx, m ∈ v.world.fillRx
  arrived : v'.world.arrived = v.world.arrived
  kill : v'.world.kill = v.world.kill
  kills : v'.world.kills = v.world.kills
  limits : v'.gateway.gateway.risk.limits = v.gateway.gateway.risk.limits

theorem GatewayMove.kept (hm : v.GatewayMove tsc v') : GatewayKept v v' := by
  cases hm with
  | head | noReport | push | full | noOrder | takeOrder | send => exact ⟨rfl, fun _ => id, rfl, rfl, rfl, rfl⟩
  | short hpc hrx hm => exact ⟨rfl, fun x hx => hrx ▸ List.mem_cons_of_mem _ hx, rfl, rfl, rfl, rfl⟩
  | @report k m rx rep hpc hrx hm =>
    unfold GatewayThread.handle
    split <;> exact ⟨rfl, fun x hx => hrx ▸ List.mem_cons_of_mem _ hx, rfl, rfl, rfl, rfl⟩
  | @check o hpc =>
    refine ⟨rfl, fun _ => id, rfl, rfl, rfl, ?_⟩
    unfold GatewayThread.checked
    dsimp only
    split <;> exact RiskGate.check_limits

/-! ### Any move -/

/-- What a move of the feed handler leaves alone. -/
structure FeedKept (v v' : Snapshot z) : Prop where
  strategy : v'.strategy = v.strategy
  gateway : v'.gateway = v.gateway
  orderQ : v'.orderQ = v.orderQ
  fillQ : v'.fillQ = v.fillQ
  world : ∃ rx, v'.world = { v.world with feedRx := rx }

theorem FeedMove.kept (hm : v.FeedMove tsc v') : FeedKept v v' := by
  cases hm with
  | head | quiet | next | last | push | full => exact ⟨rfl, rfl, rfl, rfl, v.world.feedRx, rfl⟩
  | @recv d rx hpc hrx => exact ⟨rfl, rfl, rfl, rfl, rx, rfl⟩

theorem FeedKept.tracks (hk : FeedKept v v') (h : Tracks v a) : Tracks v' a := by
  obtain ⟨hlatch, horders, hreports, htable, hsending, hrejected, hstrat, hgate, hemitted, hchecked, hsent⟩ := h
  obtain ⟨hstrategy, hgateway, horderQ, hfillQ, rx, hworld⟩ := hk
  rw [← hstrategy] at hlatch horders hreports hstrat
  rw [← hgateway] at horders hreports htable hsending hrejected hgate hsent
  rw [← horderQ] at horders
  rw [← hfillQ] at hreports
  refine ⟨hlatch, horders, hreports, htable, hsending, hrejected, hstrat, hgate, ?_, ?_, ?_⟩
  · rw [hworld]
    exact hemitted
  · rw [hworld]
    exact hchecked
  · rw [hworld]
    exact hsent

/-- What the record of the engine says about an event of the loop. -/
def Recorded (cfg : EngineConfig) (w : World) (a : OrderLoop) : LoopEvent → Prop
  | .emit o => o.size = cfg.strategy.orderSize
  | .pass => OrderLoop.PassesInBand cfg.risk.maxPosition a .pass
  | .drop => ∀ o, a.phase = .queued o → true ∈ w.kills ∨ (o.size = 0 ∨ o.size > cfg.risk.maxOrderSize) ∨
      (a.gatePos + o.signedSize < -cfg.risk.maxPosition ∨ a.gatePos + o.signedSize > cfg.risk.maxPosition) ∨
      cfg.cyclesPerToken ≠ 0
  | .report r => ∃ m ∈ w.arrived, ExecReport.ofDatagram? m = some r
  | .deliver => True

structure Grows (w w' : World) : Prop where
  arrived : ∀ m ∈ w.arrived, m ∈ w'.arrived
  kills : ∀ b ∈ w.kills, b ∈ w'.kills

theorem Recorded.mono {w w' : World} {ev : LoopEvent} (h : Recorded cfg w a ev) (hg : Grows w w') :
    Recorded cfg w' a ev := by
  cases ev with
  | emit | pass | deliver => exact h
  | drop => exact fun o ho => (h o ho).imp (hg.kills _) id
  | report r =>
    obtain ⟨m, hm, hdec⟩ := h
    exact ⟨m, hg.arrived m hm, hdec⟩

theorem not_admits {o : OrderRequest} (h : Tracks v a) (hc : Configured cfg v)
    (hadm : ¬v.gateway.gateway.risk.Admits v.world.kill tsc o) :
    true ∈ v.world.kills ∨ (o.size = 0 ∨ o.size > cfg.risk.maxOrderSize) ∨
      (a.gatePos + o.signedSize < -cfg.risk.maxPosition ∨ a.gatePos + o.signedSize > cfg.risk.maxPosition) ∨
      cfg.cyclesPerToken ≠ 0 := by
  obtain ⟨hmax, hsizes, hcycles⟩ : v.gateway.gateway.risk.maxPosition = cfg.risk.maxPosition ∧
      v.gateway.gateway.risk.maxOrderSize = cfg.risk.maxOrderSize ∧
      v.gateway.gateway.risk.cyclesPerToken = cfg.cyclesPerToken := by simpa [RiskGate.limits] using hc.limits
  have hproj : v.gateway.gateway.risk.projected o = a.gatePos + o.signedSize := by rw [← h.gatePos]; rfl
  by_contra hnone
  simp only [not_or, UInt32.not_lt, Int.not_lt, ne_eq, not_not] at hnone
  obtain ⟨hkill, hsize, hband, hrate⟩ := hnone
  apply hadm
  unfold RiskGate.Admits
  rw [hproj, hmax, hsizes, hcycles]
  exact ⟨Bool.eq_false_iff.mpr fun hk => hkill (hc.killed hk), hsize, hband, Or.inl hrate⟩

theorem LoopMove.run (hm : LoopMove v tsc a b) (h : Tracks v a) (hc : Configured cfg v) :
    ∃ evs, Run OrderLoop.Step a evs b ∧ ∀ p ∈ evs, Recorded cfg v.world p.1 p.2 := by
  cases hm with
  | @pass o hp hadm =>
    refine ⟨_, Run.nil.snoc (.pass hp), fun p hmem => ?_⟩
    obtain rfl := List.mem_singleton.mp hmem
    intro o' ho'
    obtain rfl : o = o' := by simpa [hp] using ho'
    have hproj : v.gateway.gateway.risk.projected o = a.gatePos + o.signedSize := by rw [← h.gatePos]; rfl
    have hband := hadm.2.2.1
    have hmax : v.gateway.gateway.risk.maxPosition = cfg.risk.maxPosition := congrArg Prod.fst hc.limits
    rwa [hproj, hmax] at hband
  | @drop o hp hadm =>
    refine ⟨_, Run.nil.snoc (.drop hp), fun p hmem => ?_⟩
    obtain rfl := List.mem_singleton.mp hmem
    intro o' ho'
    obtain rfl : o = o' := by simpa [hp] using ho'
    exact not_admits h hc hadm
  | @report o r hp hid hm =>
    obtain ⟨m, hm, hdec⟩ := hm
    refine ⟨_, Run.nil.snoc (.report hp hid), fun p hmem => ?_⟩
    obtain rfl := List.mem_singleton.mp hmem
    exact ⟨m, hc.rx m hm, hdec⟩
  | stay => exact ⟨[], .nil, by simp⟩

theorem Tracks.move {l : Label Stage UInt64 Outside} (h : Tracks v a) (hc : Configured cfg v) (hm : v.Move l v') :
    Grows v.world v'.world ∧ Configured cfg v' ∧ ∃ evs b, Run OrderLoop.Step a evs b ∧ Tracks v' b ∧
      ∀ p ∈ evs, Recorded cfg v'.world p.1 p.2 := by
  match l with
  | .thread .feed tsc =>
    have hk := FeedMove.kept hm
    obtain ⟨rx, hworld⟩ := hk.world
    have hg : Grows v.world v'.world := by rw [hworld]; exact ⟨fun _ => id, fun _ => id⟩
    refine ⟨hg, ⟨?_, ?_, ?_, ?_⟩, [], a, .nil, hk.tracks h, by simp⟩
    · rw [hk.strategy]
      exact hc.orderSize
    · rw [hk.gateway]
      exact hc.limits
    · rw [hworld]
      exact hc.rx
    · rw [hworld]
      exact hc.killed
  | .thread .strategy tsc =>
    have hk := StrategyMove.kept hm
    obtain ⟨evs, b, hr, ht, hevs⟩ := h.strategyMove hm
    refine ⟨⟨fun m hm => hk.arrived ▸ hm, fun b hb => hk.kills ▸ hb⟩, ⟨hk.orderSize.trans hc.orderSize, ?_, ?_, ?_⟩,
      evs, b, hr, ht, fun p hp => ?_⟩
    · rw [hk.gateway]
      exact hc.limits
    · rw [hk.fillRx, hk.arrived]
      exact hc.rx
    · rw [hk.kill, hk.kills]
      exact hc.killed
    · rcases hevs p hp with hdeliver | ⟨o, hemit, hsize⟩
      · rw [hdeliver]
        trivial
      · rw [hemit]
        exact hsize.trans hc.orderSize
  | .thread .gateway tsc =>
    have hk := GatewayMove.kept hm
    obtain ⟨b, hmove, ht⟩ := h.gatewayMove hm
    have hg : Grows v.world v'.world := ⟨fun m hm => hk.arrived ▸ hm, fun b hb => hk.kills ▸ hb⟩
    obtain ⟨evs, hr, hevs⟩ := hmove.run h hc
    refine ⟨hg, ⟨?_, hk.limits.trans hc.limits, fun m hm => ?_, ?_⟩, evs, b, hr, ht, fun p hp => (hevs p hp).mono hg⟩
    · rw [hk.strategy]
      exact hc.orderSize
    · rw [hk.arrived]
      exact hc.rx m (hk.rx m hm)
    · rw [hk.kill, hk.kills]
      exact hc.killed
  | .outside x =>
    obtain ⟨w, hw, rfl⟩ := hm
    have same : ∀ {w' : World}, w'.emitted = v.world.emitted → w'.checked = v.world.checked → w'.sent = v.world.sent →
        Tracks { v with world := w' } a := fun he hk hs =>
      { h with emitted := he.trans h.emitted, checked := hk.trans h.checked,
               sent := (congrArg (· ++ _) hs).trans h.sent }
    cases x with
    | market m =>
      cases hw
      exact ⟨⟨fun _ => id, fun _ => id⟩, { hc with }, [], a, .nil, same rfl rfl rfl, by simp⟩
    | report m =>
      cases hw
      refine ⟨⟨fun _ => List.mem_append_left _, fun _ => id⟩, { hc with rx := fun m' hm' => ?_ }, [], a, .nil,
        same rfl rfl rfl, by simp⟩
      exact (List.mem_append.mp hm').elim (fun hm' => List.mem_append_left _ (hc.rx m' hm')) (List.mem_append_right _)
    | setKill b =>
      cases hw
      refine ⟨⟨fun _ => id, fun _ => List.mem_append_left _⟩, { hc with killed := ?_ }, [], a, .nil,
        same rfl rfl rfl, by simp⟩
      rintro rfl
      exact List.mem_append_right _ (List.mem_singleton_self _)
    | stop =>
      cases hw
      exact ⟨⟨fun _ => id, fun _ => id⟩, { hc with }, [], a, .nil, same rfl rfl rfl, by simp⟩

/-! ### Runs -/

/-- A run of the loop that a state of the threads comes from. -/
structure Matched (cfg : EngineConfig) (v : Snapshot z) (evs : List (OrderLoop × LoopEvent)) (a : OrderLoop) :
    Prop where
  run : Run OrderLoop.Step {} evs a
  tracks : Tracks v a
  configured : Configured cfg v
  recorded : ∀ p ∈ evs, Recorded cfg v.world p.1 p.2

theorem matched_start : Matched cfg (Stages.start z cfg).snapshot [] {} where
  run := .nil
  tracks := tracks_start
  configured := configured_start
  recorded := by simp

theorem Matched.move {l : Label Stage UInt64 Outside} {evs : List (OrderLoop × LoopEvent)} (h : Matched cfg v evs a)
    (hm : v.Move l v') : ∃ evs' b, Matched cfg v' evs' b := by
  obtain ⟨hrun, ht, hc, hevs⟩ := h
  obtain ⟨hg, hc', more, b, hmore, ht', hevs'⟩ := ht.move hc hm
  refine ⟨evs ++ more, b, hrun.append hmore, ht', hc', fun p hp => ?_⟩
  rcases List.mem_append.mp hp with hp | hp
  · exact (hevs p hp).mono hg
  · exact hevs' p hp

/-- However the three threads interleave, they go through a run of the order loop. -/
theorem matched_of_reachable {s : Stages z} (hr : Reachable Threads.Net.Step (Stages.start z cfg) s) :
    ∃ evs a, Matched cfg s.snapshot evs a :=
  hr.invariant (I := fun s : Stages z => ∃ evs a, Matched cfg s.snapshot evs a) ⟨[], {}, matched_start⟩ fun hi hs => by
    obtain ⟨evs, a, hmatched⟩ := hi
    exact hmatched.move (move_of_step hs)

end Snapshot

end Hft
