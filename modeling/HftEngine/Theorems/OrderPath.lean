import HftEngine.Theorems.MarketPath
import Mathlib.Algebra.Ring.Int.Defs

/-! The way of an order from the strategy to the wire, and of its report back: on any run of the threads an order or a
    report is in one place at a time, and the counters and the positions of the two stages are told by the logs. -/

namespace Hft

open Transition
open Threads (Label)

namespace ImbalanceStrategy

variable {n : NumTicks}

/-- An event leaves the fills alone, and takes out at most one order, under the next id. -/
theorem onMd_counts (s : ImbalanceStrategy n) (ev : MdEvent) :
    (s.onMd ev).1.position = s.position ∧ (s.onMd ev).1.fillsSeen = s.fillsSeen ∧
      ((s.onMd ev).2 = none ∧ (s.onMd ev).1.lastOrderId = s.lastOrderId ∧ (s.onMd ev).1.ordersSent = s.ordersSent ∨
        ∃ o, (s.onMd ev).2 = some o ∧ o.orderId = s.lastOrderId + 1 ∧
          (s.onMd ev).1.lastOrderId = s.lastOrderId + 1 ∧ (s.onMd ev).1.ordersSent = s.ordersSent + 1) := by
  unfold onMd
  dsimp only
  split_ifs
  · exact ⟨rfl, rfl, Or.inl ⟨rfl, rfl, rfl⟩⟩
  · exact ⟨rfl, rfl, Or.inl ⟨rfl, rfl, rfl⟩⟩
  · exact ⟨rfl, rfl, Or.inr ⟨_, rfl, rfl, rfl, rfl⟩⟩

end ImbalanceStrategy

namespace RiskGate

/-- The orders refused, whatever the reason. -/
def refused (g : RiskGate) : UInt64 := g.rejKill + g.rejSize + g.rejPos + g.rejRate

/-- Every check counts its order once. -/
theorem check_counts (g : RiskGate) (kill : Bool) (now : UInt64) (o : OrderRequest) :
    (g.check kill now o).2 = .kAccept ∧ (g.check kill now o).1.accepted = g.accepted + 1 ∧
        (g.check kill now o).1.refused = g.refused ∨
      (g.check kill now o).2 ≠ .kAccept ∧ (g.check kill now o).1.accepted = g.accepted ∧
        (g.check kill now o).1.refused = g.refused + 1 := by
  unfold check refused
  split_ifs
  · exact Or.inr ⟨by simp, rfl, by dsimp only; ac_rfl⟩
  · exact Or.inr ⟨by simp, rfl, by dsimp only; ac_rfl⟩
  · exact Or.inr ⟨by simp, rfl, by dsimp only; ac_rfl⟩
  · exact Or.inr ⟨by simp, rfl, by dsimp only; ac_rfl⟩
  · exact Or.inl ⟨rfl, rfl, rfl⟩
  · exact Or.inl ⟨rfl, rfl, rfl⟩

end RiskGate

namespace Snapshot

variable {z : EngineSizes} {cfg : EngineConfig} {v v' : Snapshot z} {tsc : UInt64}

/-! ### Orders -/

/-- Every order that was emitted, where it is and what became of it. -/
structure OrderPath (v : Snapshot z) : Prop where
  orders : v.world.emitted.map Prod.fst =
    v.world.checked.map Prod.fst ++ (v.gateway.pc.heldOrders ++ v.orderQ.items ++ v.strategy.pc.heldOrders)
  ids : v.world.emitted.map (fun e => e.1.orderId) =
    (List.range v.world.emitted.length).map fun k => UInt64.ofNat (k + 1)
  lastOrderId : v.strategy.runner.strat.lastOrderId = UInt64.ofNat v.world.emitted.length
  ordersSent : v.strategy.runner.strat.ordersSent = UInt64.ofNat v.world.emitted.length
  pushed : v.strategy.runner.ordersPushed + v.strategy.pc.uncounted = UInt64.ofNat v.world.emitted.length
  /-- The wire gets the orders that passed the gate, in order. -/
  wire : (v.world.sent ++ v.gateway.pc.sending).Sublist (v.world.checked.map Prod.fst)
  accepted : v.gateway.gateway.risk.accepted = UInt64.ofNat (v.world.sent ++ v.gateway.pc.sending).length
  rejected : v.gateway.gateway.riskRejected = v.gateway.gateway.risk.refused
  checked : v.gateway.gateway.risk.accepted + v.gateway.gateway.risk.refused = UInt64.ofNat v.world.checked.length
  sent : v.gateway.gateway.sent = UInt64.ofNat v.world.sent.length

theorem orderPath_start : OrderPath (Stages.start z cfg).snapshot where
  orders := rfl
  ids := rfl
  lastOrderId := rfl
  ordersSent := rfl
  pushed := rfl
  wire := List.Sublist.refl _
  accepted := rfl
  rejected := rfl
  checked := rfl
  sent := rfl

/-- Another place of the strategy, with the same order in the hand. -/
theorem OrderPath.strategy_at (h : OrderPath v) {t : StrategyThread z.ticks} {w : World}
    {q : BoundedQueue MdEvent z.feedCap.val.toNat} {r : BoundedQueue ExecReport z.fillCap.val.toNat}
    (hheld : t.pc.heldOrders = v.strategy.pc.heldOrders)
    (hlast : t.runner.strat.lastOrderId = v.strategy.runner.strat.lastOrderId)
    (hsent : t.runner.strat.ordersSent = v.strategy.runner.strat.ordersSent)
    (hpushed : t.runner.ordersPushed + t.pc.uncounted = v.strategy.runner.ordersPushed + v.strategy.pc.uncounted)
    (he : w.emitted = v.world.emitted) (hk : w.checked = v.world.checked) (hs : w.sent = v.world.sent) :
    OrderPath { v with strategy := t, world := w, feedQ := q, fillQ := r } := by
  obtain ⟨horders, hids, hlast', hsent', hpushed', hwire, haccepted, hrejected, hchecked, hcount⟩ := h
  constructor <;> dsimp only <;> try rw [he]
  · rw [hk, hheld]
    exact horders
  · exact hids
  · exact hlast.trans hlast'
  · exact hsent.trans hsent'
  · exact hpushed.trans hpushed'
  · rw [hk, hs]
    exact hwire
  · rw [hs]
    exact haccepted
  · exact hrejected
  · rw [hk]
    exact hchecked
  · rw [hs]
    exact hcount

theorem ids_snoc {es : List (OrderRequest × Int)} {o : OrderRequest} {pos : Int}
    (h : es.map (fun e => e.1.orderId) = (List.range es.length).map fun k => UInt64.ofNat (k + 1))
    (ho : o.orderId = UInt64.ofNat es.length + 1) :
    (es ++ [(o, pos)]).map (fun e => e.1.orderId) =
      (List.range (es ++ [(o, pos)]).length).map fun k => UInt64.ofNat (k + 1) := by
  rw [List.map_append, h, List.length_append, List.length_singleton, List.range_succ, List.map_append,
    List.map_singleton, List.map_singleton, ho, UInt64.ofNat_add]
  rfl

theorem OrderPath.event (h : OrderPath v) {ev : MdEvent} (hpc : v.strategy.pc = .event ev) :
    OrderPath { v with
      strategy := (v.strategy.afterEvent ev v.world).1
      world := (v.strategy.afterEvent ev v.world).2 } := by
  obtain ⟨horders, hids, hlast, hsent, hpushed, hwire, haccepted, hrejected, hchecked, hcount⟩ := h
  obtain ⟨-, -, hcounts⟩ := v.strategy.runner.strat.onMd_counts ev
  unfold StrategyThread.afterEvent
  cases hmd : v.strategy.runner.strat.onMd ev with
  | mk strat out =>
    rw [hmd] at hcounts
    rw [hpc] at horders hpushed
    rcases hcounts with ⟨hnone, hid, hsent'⟩ | ⟨o, hsome, ho, hid, hsent'⟩
    · obtain rfl : out = none := hnone
      exact ⟨horders, hids, hid.trans hlast, hsent'.trans hsent, hpushed, hwire, haccepted, hrejected, hchecked, hcount⟩
    · obtain rfl : out = some o := hsome
      have hlength : UInt64.ofNat (v.world.emitted ++ [(o, strat.position)]).length =
          UInt64.ofNat v.world.emitted.length + 1 := by
        rw [List.length_append, UInt64.ofNat_add]
        rfl
      refine ⟨?_, ids_snoc hids (hlast ▸ ho), ?_, ?_, ?_, hwire, haccepted, hrejected, hchecked, hcount⟩
      · show (v.world.emitted ++ [(o, strat.position)]).map Prod.fst = _ ++ (_ ++ [o])
        rw [List.map_append, horders, List.append_assoc, StrategyAt.heldOrders, List.append_nil]
        rfl
      · exact hid.trans (by rw [hlast, hlength])
      · exact hsent'.trans (by rw [hsent, hlength])
      · show v.strategy.runner.ordersPushed + 1 = _
        rw [hlength, ← hpushed]
        exact congrArg (· + 1) (UInt64.add_zero _).symm

theorem OrderPath.strategyMove (h : OrderPath v) (hm : v.StrategyMove v') : OrderPath v' := by
  cases hm with
  | head hpc =>
    have hhead := heldOrders_head v.world.running
    have huncounted := heldEvents_head v.world.running
    exact h.strategy_at (hhead.1.trans (by rw [hpc]; rfl)) rfl rfl (by rw [huncounted.2, hpc]; rfl) rfl rfl rfl
  | noFill hpc => exact h.strategy_at (by rw [hpc]; rfl) rfl rfl (by rw [hpc]; rfl) rfl rfl rfl
  | takeFill hpc hq => exact h.strategy_at (by rw [hpc]; rfl) rfl rfl (by rw [hpc]; rfl) rfl rfl rfl
  | @fill k r hpc =>
    have hafter := heldEvents_afterFill v.strategy k r
    exact h.strategy_at (by rw [hpc]; cases k <;> rfl) rfl rfl (by rw [hafter.2, hpc]; rfl) rfl rfl rfl
  | noEvent hpc => exact h.strategy_at (by rw [hpc]; rfl) rfl rfl (by rw [hpc]; rfl) rfl rfl rfl
  | takeEvent hpc hq => exact h.strategy_at (by rw [hpc]; rfl) rfl rfl (by rw [hpc]; rfl) rfl rfl rfl
  | event hpc => exact h.event hpc
  | @push o q hpc hq =>
    obtain ⟨horders, hids, hlast, hsent, hpushed, hwire, haccepted, hrejected, hchecked, hcount⟩ := h
    rw [hpc] at horders hpushed
    refine ⟨?_, hids, hlast, hsent, ?_, hwire, haccepted, hrejected, hchecked, hcount⟩
    · rw [horders]
      show _ ++ (_ ++ v.orderQ.items ++ [o]) = _ ++ (_ ++ q.items ++ [])
      rw [hq, List.append_nil, List.append_assoc _ _ [o]]
    · exact (UInt64.add_zero _).trans hpushed
  | full => exact h

/-- Another place of the gateway, with the same orders behind it. -/
theorem OrderPath.gateway_at (h : OrderPath v) {pc : GatewayAt} {g : OrderGateway z.flightCap} {w : World}
    {q : BoundedQueue ExecReport z.fillCap.val.toNat} (hheld : pc.heldOrders = v.gateway.pc.heldOrders)
    (hsending : pc.sending = v.gateway.pc.sending) (hrej : g.riskRejected = v.gateway.gateway.riskRejected)
    (hacc : g.risk.accepted = v.gateway.gateway.risk.accepted) (href : g.risk.refused = v.gateway.gateway.risk.refused)
    (hcount : g.sent = v.gateway.gateway.sent) (he : w.emitted = v.world.emitted) (hk : w.checked = v.world.checked)
    (hs : w.sent = v.world.sent) :
    OrderPath { v with gateway := { pc, gateway := g }, world := w, fillQ := q } := by
  obtain ⟨horders, hids, hlast, hsent, hpushed, hwire, haccepted, hrejected, hchecked, hcount'⟩ := h
  constructor <;> dsimp only <;> try rw [he]
  · rw [hk, hheld]
    exact horders
  · exact hids
  · exact hlast
  · exact hsent
  · exact hpushed
  · rw [hk, hs, hsending]
    exact hwire
  · rw [hs, hsending, hacc]
    exact haccepted
  · rw [hrej, href]
    exact hrejected
  · rw [hk, hacc, href]
    exact hchecked
  · rw [hs, hcount]
    exact hcount'

theorem heldOrders_after (k : Nat) : (GatewayAt.after k).heldOrders = [] ∧ (GatewayAt.after k).sending = [] :=
  ⟨(bare_after k).orders, (bare_after k).sending⟩

theorem heldOrders_gatewayHead (running : Bool) :
    (if running then .recv 31 else .stopped : GatewayAt).heldOrders = [] ∧
      (if running then .recv 31 else .stopped : GatewayAt).sending = [] :=
  ⟨(bare_head running).orders, (bare_head running).sending⟩

/-- The order in the hand is counted, and goes on to the wire if it passed. -/
theorem OrderPath.check (h : OrderPath v) {o : OrderRequest} (hpc : v.gateway.pc = .check o) :
    OrderPath { v with
      gateway := v.gateway.checked v.world.kill tsc o
      world := { v.world with checked := v.world.checked ++ [(o, v.gateway.gateway.risk.position)] } } := by
  obtain ⟨horders, hids, hlast, hsent, hpushed, hwire, haccepted, hrejected, hchecked, hcount⟩ := h
  rw [hpc] at horders hwire haccepted
  rw [GatewayAt.sending, List.append_nil] at hwire haccepted
  have horders' : v.world.emitted.map Prod.fst =
      (v.world.checked ++ [(o, v.gateway.gateway.risk.position)]).map Prod.fst ++
        ([] ++ v.orderQ.items ++ v.strategy.pc.heldOrders) := by
    rw [horders, List.map_append, List.append_assoc (v.world.checked.map Prod.fst)]
    rfl
  have hlength : UInt64.ofNat (v.world.checked ++ [(o, v.gateway.gateway.risk.position)]).length =
      UInt64.ofNat v.world.checked.length + 1 := by
    rw [List.length_append, UInt64.ofNat_add]
    rfl
  have hmap : (v.world.checked ++ [(o, v.gateway.gateway.risk.position)]).map Prod.fst =
      v.world.checked.map Prod.fst ++ [o] := by
    rw [List.map_append]
    rfl
  unfold GatewayThread.checked
  dsimp only
  rcases v.gateway.gateway.risk.check_counts v.world.kill tsc o with ⟨hacc, hone, hsame⟩ | ⟨hrej, hsame, hone⟩
  · rw [if_neg (by simp [hacc])]
    refine ⟨horders', hids, hlast, hsent, hpushed, ?_, ?_, hrejected.trans hsame.symm, ?_, hcount⟩
    · show (v.world.sent ++ [o]).Sublist _
      rw [hmap]
      exact hwire.append (List.Sublist.refl _)
    · show (v.gateway.gateway.risk.check v.world.kill tsc o).1.accepted = UInt64.ofNat (v.world.sent ++ [o]).length
      rw [hone, haccepted, List.length_append, UInt64.ofNat_add]
      rfl
    · dsimp only
      rw [hone, hsame, hlength, ← hchecked]
      ac_rfl
  · rw [if_pos hrej]
    refine ⟨horders', hids, hlast, hsent, hpushed, ?_, ?_, ?_, ?_, hcount⟩
    · show (v.world.sent ++ []).Sublist _
      rw [hmap, List.append_nil]
      exact hwire.trans (List.sublist_append_left _ _)
    · show (v.gateway.gateway.risk.check v.world.kill tsc o).1.accepted = UInt64.ofNat (v.world.sent ++ []).length
      rw [hsame, haccepted, List.append_nil]
    · dsimp only
      rw [hone, hrejected]
    · dsimp only
      rw [hone, hsame, hlength, ← hchecked]
      ac_rfl

theorem OrderPath.gatewayMove (h : OrderPath v) (hm : v.GatewayMove tsc v') : OrderPath v' := by
  cases hm with
  | head hpc =>
    have hhead := heldOrders_gatewayHead v.world.running
    exact h.gateway_at (hhead.1.trans (by rw [hpc]; rfl)) (hhead.2.trans (by rw [hpc]; rfl)) rfl rfl rfl rfl rfl rfl rfl
  | noReport hpc hrx | short hpc hrx hm | noOrder hpc =>
    exact h.gateway_at (by rw [hpc]; rfl) (by rw [hpc]; rfl) rfl rfl rfl rfl rfl rfl rfl
  | @report k m rx rep hpc hrx hm =>
    have hafter := heldOrders_after k
    unfold GatewayThread.handle
    split
    · exact h.gateway_at (by rw [hpc]; rfl) (by rw [hpc]; rfl) rfl rfl rfl rfl rfl rfl rfl
    · exact h.gateway_at (hafter.1.trans (by rw [hpc]; rfl)) (hafter.2.trans (by rw [hpc]; rfl)) rfl rfl rfl rfl rfl
        rfl rfl
  | @push k rep q hpc hq =>
    have hafter := heldOrders_after k
    exact h.gateway_at (hafter.1.trans (by rw [hpc]; rfl)) (hafter.2.trans (by rw [hpc]; rfl)) rfl rfl rfl rfl rfl rfl
      rfl
  | full => exact h
  | @takeOrder o q hpc hq =>
    obtain ⟨horders, hids, hlast, hsent, hpushed, hwire, haccepted, hrejected, hchecked, hcount⟩ := h
    rw [hpc] at horders hwire haccepted
    rw [hq] at horders
    exact ⟨horders, hids, hlast, hsent, hpushed, hwire, haccepted, hrejected, hchecked, hcount⟩
  | check hpc => exact h.check hpc
  | @send o hpc =>
    obtain ⟨horders, hids, hlast, hsent, hpushed, hwire, haccepted, hrejected, hchecked, hcount⟩ := h
    rw [hpc] at horders hwire haccepted
    refine ⟨horders, hids, hlast, hsent, hpushed, ?_, ?_, hrejected, hchecked, ?_⟩
    · show ((v.world.sent ++ [o]) ++ []).Sublist _
      rw [List.append_nil]
      exact hwire
    · show v.gateway.gateway.risk.accepted = UInt64.ofNat ((v.world.sent ++ [o]) ++ []).length
      rw [List.append_nil]
      exact haccepted
    · show v.gateway.gateway.sent + 1 = UInt64.ofNat (v.world.sent ++ [o]).length
      rw [hcount, List.length_append, UInt64.ofNat_add]
      rfl

theorem OrderPath.move {l : Label Stage UInt64 Outside} (h : OrderPath v) (hm : v.Move l v') : OrderPath v' := by
  match l with
  | .thread .feed _ =>
    cases hm with
    | head | quiet | next | last | push | full | recv => exact { h with }
  | .thread .strategy _ => exact h.strategyMove hm
  | .thread .gateway _ => exact h.gatewayMove hm
  | .outside x =>
    obtain ⟨w, hw, rfl⟩ := hm
    cases x <;> cases hw <;> exact { h with }

/-! ### Reports -/

/-- Every report that matched an order, where it is and what it did to the two positions. -/
structure FillPath (v : Snapshot z) : Prop where
  reports : v.world.matched =
    v.world.filled ++ (v.strategy.pc.heldReports ++ v.fillQ.items ++ v.gateway.pc.heldReports)
  fillsSeen : v.strategy.runner.strat.fillsSeen = UInt64.ofNat v.world.filled.length
  position : v.strategy.runner.strat.position = (v.world.filled.map ExecReport.signedFill).sum
  fillsMatched : v.gateway.gateway.fillsMatched = UInt64.ofNat v.world.matched.length
  gatePosition : v.gateway.gateway.risk.position = (v.world.matched.map ExecReport.signedFill).sum
  /-- Of the datagrams that the gateway took, those as long as a report matched or not. -/
  intake : ∃ taken, v.world.arrived = taken ++ v.world.fillRx ∧
    v.world.matched.Sublist (taken.filterMap ExecReport.ofDatagram?) ∧
    v.gateway.gateway.fillsMatched + v.gateway.gateway.fillsUnmatched =
      UInt64.ofNat (taken.filterMap ExecReport.ofDatagram?).length

theorem fillPath_start : FillPath (Stages.start z cfg).snapshot where
  reports := rfl
  fillsSeen := rfl
  position := rfl
  fillsMatched := rfl
  gatePosition := rfl
  intake := ⟨[], rfl, List.Sublist.refl _, rfl⟩

/-- Another place of the strategy, with the same report in the hand. -/
theorem FillPath.strategy_at (h : FillPath v) {t : StrategyThread z.ticks} {w : World}
    {q : BoundedQueue MdEvent z.feedCap.val.toNat} {r : BoundedQueue OrderRequest z.orderCap.val.toNat}
    (hheld : t.pc.heldReports = v.strategy.pc.heldReports)
    (hseen : t.runner.strat.fillsSeen = v.strategy.runner.strat.fillsSeen)
    (hpos : t.runner.strat.position = v.strategy.runner.strat.position) (hm : w.matched = v.world.matched)
    (hf : w.filled = v.world.filled) (ha : w.arrived = v.world.arrived) (hrx : w.fillRx = v.world.fillRx) :
    FillPath { v with strategy := t, world := w, feedQ := q, orderQ := r } := by
  obtain ⟨hreports, hfillsSeen, hposition, hmatched, hgate, hintake⟩ := h
  constructor <;> dsimp only
  · rw [hm, hf, hheld]
    exact hreports
  · rw [hseen, hf]
    exact hfillsSeen
  · rw [hpos, hf]
    exact hposition
  · rw [hm]
    exact hmatched
  · rw [hm]
    exact hgate
  · rw [ha, hrx, hm]
    exact hintake

theorem sum_signedFill_snoc (rs : List ExecReport) (r : ExecReport) :
    ((rs ++ [r]).map ExecReport.signedFill).sum = (rs.map ExecReport.signedFill).sum + r.signedFill := by
  rw [List.map_append, List.sum_append, List.map_singleton, List.sum_singleton]

/-- The report in the hand reaches the strategy. -/
theorem FillPath.fill (h : FillPath v) {k : Nat} {r : ExecReport} (hpc : v.strategy.pc = .fill k r) :
    FillPath { v with
      strategy := v.strategy.afterFill k r
      world := { v.world with filled := v.world.filled ++ [r] } } := by
  obtain ⟨hreports, hfillsSeen, hposition, hmatched, hgate, hintake⟩ := h
  rw [hpc] at hreports
  refine ⟨?_, ?_, ?_, hmatched, hgate, hintake⟩
  · have hhand : (v.strategy.afterFill k r).pc.heldReports = [] := by cases k <;> rfl
    show v.world.matched = (v.world.filled ++ [r]) ++ ((v.strategy.afterFill k r).pc.heldReports ++ _ ++ _)
    rw [hhand, List.append_assoc]
    exact hreports
  · show v.strategy.runner.strat.fillsSeen + 1 = UInt64.ofNat (v.world.filled ++ [r]).length
    rw [hfillsSeen, List.length_append, UInt64.ofNat_add]
    rfl
  · show v.strategy.runner.strat.position + r.signedFill = _
    rw [hposition, sum_signedFill_snoc]

theorem FillPath.strategyMove (h : FillPath v) (hm : v.StrategyMove v') : FillPath v' := by
  cases hm with
  | head hpc =>
    have hhead := heldOrders_head v.world.running
    exact h.strategy_at (hhead.2.trans (by rw [hpc]; rfl)) rfl rfl rfl rfl rfl rfl
  | noFill hpc => exact h.strategy_at (by rw [hpc]; rfl) rfl rfl rfl rfl rfl rfl
  | takeFill hpc hq =>
    obtain ⟨hreports, hfillsSeen, hposition, hmatched, hgate, hintake⟩ := h
    rw [hpc, hq] at hreports
    exact ⟨hreports, hfillsSeen, hposition, hmatched, hgate, hintake⟩
  | fill hpc => exact h.fill hpc
  | noEvent hpc => exact h.strategy_at (by rw [hpc]; rfl) rfl rfl rfl rfl rfl rfl
  | takeEvent hpc hq => exact h.strategy_at (by rw [hpc]; rfl) rfl rfl rfl rfl rfl rfl
  | @event ev hpc =>
    obtain ⟨hpos, hseen, -⟩ := v.strategy.runner.strat.onMd_counts ev
    unfold StrategyThread.afterEvent
    cases hmd : v.strategy.runner.strat.onMd ev with
    | mk strat out =>
      rw [hmd] at hpos hseen
      cases out <;> exact h.strategy_at (by rw [hpc]; rfl) hseen hpos rfl rfl rfl rfl
  | push hpc hq => exact h.strategy_at (by rw [hpc]; rfl) rfl rfl rfl rfl rfl rfl
  | full => exact h

/-- Another place of the gateway, with the same report in the hand and the same datagrams behind it. -/
theorem FillPath.gateway_at (h : FillPath v) {pc : GatewayAt} {g : OrderGateway z.flightCap} {w : World}
    {q : BoundedQueue OrderRequest z.orderCap.val.toNat} (hheld : pc.heldReports = v.gateway.pc.heldReports)
    (hcount : g.fillsMatched = v.gateway.gateway.fillsMatched)
    (hother : g.fillsUnmatched = v.gateway.gateway.fillsUnmatched)
    (hpos : g.risk.position = v.gateway.gateway.risk.position) (hm : w.matched = v.world.matched)
    (hf : w.filled = v.world.filled) (ha : w.arrived = v.world.arrived) (hrx : w.fillRx = v.world.fillRx) :
    FillPath { v with gateway := { pc, gateway := g }, world := w, orderQ := q } := by
  obtain ⟨hreports, hfillsSeen, hposition, hmatched, hgate, hintake⟩ := h
  constructor <;> dsimp only
  · rw [hm, hf, hheld]
    exact hreports
  · rw [hf]
    exact hfillsSeen
  · rw [hf]
    exact hposition
  · rw [hcount, hm]
    exact hmatched
  · rw [hpos, hm]
    exact hgate
  · rw [ha, hrx, hm, hcount, hother]
    exact hintake

/-- The gateway takes the next report, which matches or does not. -/
theorem FillPath.handle (h : FillPath v) {k : Nat} {m : List UInt8} {rx : List (List UInt8)} {rep : ExecReport}
    (hpc : v.gateway.pc = .recv k) (hrx : v.world.fillRx = m :: rx) (hm : ExecReport.ofDatagram? m = some rep) :
    FillPath { v with
      gateway := (v.gateway.handle k rep { v.world with fillRx := rx }).1
      world := (v.gateway.handle k rep { v.world with fillRx := rx }).2 } := by
  obtain ⟨hreports, hfillsSeen, hposition, hmatched, hgate, taken, harrived, hsub, hcount⟩ := h
  rw [hpc, GatewayAt.heldReports, List.append_nil] at hreports
  have harrived' : v.world.arrived = (taken ++ [m]) ++ rx := by
    rw [harrived, hrx, List.append_assoc]
    rfl
  have htaken : (taken ++ [m]).filterMap ExecReport.ofDatagram? = taken.filterMap ExecReport.ofDatagram? ++ [rep] := by
    rw [List.filterMap_append, List.filterMap_cons_some hm]
    rfl
  have hlength : UInt64.ofNat ((taken ++ [m]).filterMap ExecReport.ofDatagram?).length =
      v.gateway.gateway.fillsMatched + v.gateway.gateway.fillsUnmatched + 1 := by
    rw [htaken, List.length_append, UInt64.ofNat_add, ← hcount]
    rfl
  unfold GatewayThread.handle
  split
  · refine ⟨?_, hfillsSeen, hposition, ?_, ?_, taken ++ [m], harrived', ?_, ?_⟩
    · show v.world.matched ++ [rep] = v.world.filled ++ (_ ++ [rep])
      rw [hreports, List.append_assoc]
    · show v.gateway.gateway.fillsMatched + 1 = UInt64.ofNat (v.world.matched ++ [rep]).length
      rw [hmatched, List.length_append, UInt64.ofNat_add]
      rfl
    · show v.gateway.gateway.risk.position + rep.signedFill = _
      rw [hgate, sum_signedFill_snoc]
    · rw [htaken]
      exact hsub.append (List.Sublist.refl _)
    · rw [hlength]
      show v.gateway.gateway.fillsMatched + 1 + v.gateway.gateway.fillsUnmatched = _
      ac_rfl
  · refine ⟨?_, hfillsSeen, hposition, hmatched, hgate, taken ++ [m], harrived', ?_, ?_⟩
    · show v.world.matched = v.world.filled ++ (_ ++ (GatewayAt.after k).heldReports)
      rw [(bare_after k).reports, List.append_nil]
      exact hreports
    · rw [htaken]
      exact hsub.trans (List.sublist_append_left _ _)
    · rw [hlength]
      exact (UInt64.add_assoc _ _ _).symm

theorem FillPath.gatewayMove (h : FillPath v) (hm : v.GatewayMove tsc v') : FillPath v' := by
  cases hm with
  | head hpc =>
    exact h.gateway_at ((bare_head v.world.running).reports.trans (by rw [hpc]; rfl)) rfl rfl rfl rfl rfl rfl rfl
  | noReport hpc hrx | noOrder hpc | takeOrder hpc hq | send hpc =>
    exact h.gateway_at (by rw [hpc]; rfl) rfl rfl rfl rfl rfl rfl rfl
  | @short k m rx hpc hrx hm =>
    obtain ⟨hreports, hfillsSeen, hposition, hmatched, hgate, taken, harrived, hsub, hcount⟩ := h
    rw [hpc] at hreports
    have htaken : (taken ++ [m]).filterMap ExecReport.ofDatagram? = taken.filterMap ExecReport.ofDatagram? := by
      rw [List.filterMap_append, List.filterMap_cons_none hm]
      exact List.append_nil _
    refine ⟨hreports, hfillsSeen, hposition, hmatched, hgate, taken ++ [m], ?_, htaken ▸ hsub, htaken ▸ hcount⟩
    rw [harrived, hrx, List.append_assoc]
    rfl
  | report hpc hrx hm => exact h.handle hpc hrx hm
  | @push k rep q hpc hq =>
    obtain ⟨hreports, hfillsSeen, hposition, hmatched, hgate, hintake⟩ := h
    rw [hpc] at hreports
    refine ⟨?_, hfillsSeen, hposition, hmatched, hgate, hintake⟩
    rw [hreports]
    show _ = v.world.filled ++ (_ ++ q.items ++ (GatewayAt.after k).heldReports)
    rw [(bare_after k).reports, hq, List.append_nil, List.append_assoc v.strategy.pc.heldReports]
    rfl
  | full => exact h
  | @check o hpc =>
    unfold GatewayThread.checked
    dsimp only
    split
    · exact h.gateway_at (by rw [hpc]; rfl) rfl rfl RiskGate.check_position rfl rfl rfl rfl
    · exact h.gateway_at (by rw [hpc]; rfl) rfl rfl RiskGate.check_position rfl rfl rfl rfl

theorem FillPath.move {l : Label Stage UInt64 Outside} (h : FillPath v) (hm : v.Move l v') : FillPath v' := by
  match l with
  | .thread .feed _ =>
    cases hm with
    | head | quiet | next | last | push | full | recv => exact { h with }
  | .thread .strategy _ => exact h.strategyMove hm
  | .thread .gateway _ => exact h.gatewayMove hm
  | .outside x =>
    obtain ⟨w, hw, rfl⟩ := hm
    cases x with
    | market m | setKill b | stop =>
      cases hw
      exact { h with }
    | report m =>
      cases hw
      obtain ⟨taken, harrived, hsub, hcount⟩ := h.intake
      refine { h with intake := ⟨taken, ?_, hsub, hcount⟩ }
      show v.world.arrived ++ [m] = taken ++ (v.world.fillRx ++ [m])
      rw [harrived, List.append_assoc]

/-! ### All of it -/

/-- The paths of the data, the orders and the reports, and the run of the order loop that the threads went through. -/
structure Sound (cfg : EngineConfig) (v : Snapshot z) : Prop where
  market : MarketPath cfg v
  orders : OrderPath v
  fills : FillPath v
  loop : ∃ evs a, Matched cfg v evs a

theorem sound_start : Sound cfg (Stages.start z cfg).snapshot where
  market := marketPath_start
  orders := orderPath_start
  fills := fillPath_start
  loop := ⟨[], {}, matched_start⟩

theorem Sound.move {l : Label Stage UInt64 Outside} (h : Sound cfg v) (hm : v.Move l v') : Sound cfg v' where
  market := h.market.move hm
  orders := h.orders.move hm
  fills := h.fills.move hm
  loop := by
    obtain ⟨evs, a, hmatched⟩ := h.loop
    exact hmatched.move hm

/-- At most one order waits for the gate, and at most one report for the strategy. -/
theorem Tracks.single {a : OrderLoop} (h : Tracks v a) :
    (v.gateway.pc.heldOrders ++ v.orderQ.items ++ v.strategy.pc.heldOrders).length ≤ 1 ∧
      (v.strategy.pc.heldReports ++ v.fillQ.items ++ v.gateway.pc.heldReports).length ≤ 1 := by
  rw [h.orders, h.reports]
  exact ⟨a.phase.length_unchecked, a.phase.length_reports⟩

end Snapshot

namespace RingEngine

variable {z : EngineSizes} {cfg : EngineConfig} {f : RingEngine z}

theorem sound_of_reachable (hr : Reachable Step (start z cfg) f) : ∃ v, Shows f v ∧ v.Sound cfg :=
  invariant Snapshot.sound_start (fun h hm => h.move hm) hr

/-- No order is lost, doubled or reordered between the strategy and the wire but for those that the gate refuses, and
    the counters of the strategy, the gate and the gateway agree with the logs. -/
theorem order_flow_conserved (hr : Reachable Step (start z cfg) f) :
    ∃ v, Shows f v ∧ v.OrderPath ∧
      (v.gateway.pc.heldOrders ++ v.orderQ.items ++ v.strategy.pc.heldOrders).length ≤ 1 := by
  obtain ⟨v, hv, hs⟩ := sound_of_reachable hr
  obtain ⟨evs, a, hmatched⟩ := hs.loop
  exact ⟨v, hv, hs.orders, hmatched.tracks.single.1⟩

theorem order_flow_conserved_session :
    ∃ f, after? Engine.least Engine.hundreds session = some f ∧ f.world.matched.length = 1 ∧
      ∃ v, Shows f v ∧ v.OrderPath ∧
        (v.gateway.pc.heldOrders ++ v.orderQ.items ++ v.strategy.pc.heldOrders).length ≤ 1 := by
  obtain ⟨f, hf, -, hmatched, hr⟩ := session_total
  exact ⟨f, hf, hmatched, order_flow_conserved hr⟩

/-- The gate and the strategy book the same reports in the same order: the gate is ahead by the report on its way, and
    each position is the sum of what was booked. -/
theorem fill_flow_conserved (hr : Reachable Step (start z cfg) f) :
    ∃ v, Shows f v ∧ v.FillPath ∧
      (v.strategy.pc.heldReports ++ v.fillQ.items ++ v.gateway.pc.heldReports).length ≤ 1 ∧
      f.gateway.gateway.risk.position = f.strategy.runner.strat.position +
        ((v.strategy.pc.heldReports ++ v.fillQ.items ++ v.gateway.pc.heldReports).map ExecReport.signedFill).sum := by
  obtain ⟨v, hv, hs⟩ := sound_of_reachable hr
  obtain ⟨evs, a, hmatched⟩ := hs.loop
  refine ⟨v, hv, hs.fills, hmatched.tracks.single.2, ?_⟩
  rw [← hv.gateway, ← hv.strategy, hs.fills.gatePosition, hs.fills.position, ← List.sum_append, ← List.map_append,
    ← hs.fills.reports]

theorem fill_flow_conserved_session :
    ∃ f, after? Engine.least Engine.hundreds session = some f ∧ f.world.matched.length = 1 ∧
      ∃ v, Shows f v ∧ v.FillPath ∧
        (v.strategy.pc.heldReports ++ v.fillQ.items ++ v.gateway.pc.heldReports).length ≤ 1 ∧
        f.gateway.gateway.risk.position = f.strategy.runner.strat.position +
          ((v.strategy.pc.heldReports ++ v.fillQ.items ++ v.gateway.pc.heldReports).map ExecReport.signedFill).sum := by
  obtain ⟨f, hf, -, hmatched, hr⟩ := session_total
  exact ⟨f, hf, hmatched, fill_flow_conserved hr⟩

end RingEngine

end Hft
