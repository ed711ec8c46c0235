import HftEngine.Theorems.OrderPath
import HftEngine.Theorems.TradingSession

/-! The strategy thread among the others: it goes through a session on its own, fed with the events and the reports that
    it took in, and so its orders follow the levels of the book. -/

namespace Hft

open Transition
open BookView (InWindow)
open Threads (Label)

namespace StrategyInput

def event? : StrategyInput → Option MdEvent
  | md ev => some ev
  | fill _ => none

def report? : StrategyInput → Option ExecReport
  | md _ => none
  | fill r => some r

end StrategyInput

section
variable {n : NumTicks} {p : StrategyParams} {ins : List StrategyInput}

theorem run_snoc (ins : List StrategyInput) (i : StrategyInput) :
    TradingSession.run n p (ins ++ [i]) = (TradingSession.run n p ins).next i := by
  rw [TradingSession.run, List.foldl_append]
  rfl

theorem orders_next_md (s : TradingSession n) (ev : MdEvent) :
    (s.next (.md ev)).orders = s.orders ++ (s.strat.onMd ev).2.toList := by
  unfold TradingSession.orders TradingSession.next
  cases hout : (s.strat.onMd ev).2 with
  | none => simp [hout]
  | some o => simp [hout, List.filterMap_append]

theorem orders_next_fill (s : TradingSession n) (r : ExecReport) : (s.next (.fill r)).orders = s.orders := by
  unfold TradingSession.orders TradingSession.next
  rw [List.filterMap_append]
  exact List.append_nil _

/-- An order of a session comes from one event of it. -/
theorem mem_orders_run {o : OrderRequest} (ho : o ∈ (TradingSession.run n p ins).orders) :
    ∃ before ev, before ++ [.md ev] <+: ins ∧ ((TradingSession.run n p before).strat.onMd ev).2 = some o := by
  induction ins using List.reverseRecOn with
  | nil => cases ho
  | append_singleton ins i ih =>
    have hgrow : ∀ {l : List StrategyInput}, l <+: ins → l <+: ins ++ [i] := fun h => h.trans (List.prefix_append _ _)
    rw [run_snoc] at ho
    cases i with
    | fill r =>
      rw [orders_next_fill] at ho
      obtain ⟨before, ev, hbefore, hsome⟩ := ih ho
      exact ⟨before, ev, hgrow hbefore, hsome⟩
    | md ev =>
      rw [orders_next_md] at ho
      rcases List.mem_append.mp ho with ho | ho
      · obtain ⟨before, ev, hbefore, hsome⟩ := ih ho
        exact ⟨before, ev, hgrow hbefore, hsome⟩
      · exact ⟨ins, ev, List.prefix_refl _, Option.mem_toList.mp ho⟩

end

namespace Snapshot

variable {z : EngineSizes} {cfg : EngineConfig} {v v' : Snapshot z} {tsc : UInt64} {ins : List StrategyInput}

/-- The strategy thread is where a session on the inputs is. -/
structure InSession (cfg : EngineConfig) (ins : List StrategyInput) (v : Snapshot z) : Prop where
  seen : ins.filterMap StrategyInput.event? = v.world.seen
  filled : ins.filterMap StrategyInput.report? = v.world.filled
  strat : v.strategy.runner.strat = (TradingSession.run z.ticks cfg.strategy ins).strat
  emitted : v.world.emitted.map Prod.fst = (TradingSession.run z.ticks cfg.strategy ins).orders

theorem inSession_start : InSession cfg [] (Stages.start z cfg).snapshot := ⟨rfl, rfl, rfl, rfl⟩

/-- A move that takes nothing in leaves the session where it is. -/
theorem InSession.congr (h : InSession cfg ins v) (hseen : v'.world.seen = v.world.seen)
    (hfilled : v'.world.filled = v.world.filled) (hstrat : v'.strategy.runner.strat = v.strategy.runner.strat)
    (hemitted : v'.world.emitted = v.world.emitted) : InSession cfg ins v' where
  seen := h.seen.trans hseen.symm
  filled := h.filled.trans hfilled.symm
  strat := hstrat.trans h.strat
  emitted := (congrArg _ hemitted).trans h.emitted

theorem InSession.fill (h : InSession cfg ins v) (k : Nat) (r : ExecReport) :
    InSession cfg (ins ++ [.fill r]) { v with
      strategy := v.strategy.afterFill k r
      world := { v.world with filled := v.world.filled ++ [r] } } where
  seen := by
    rw [List.filterMap_append, h.seen]
    exact List.append_nil _
  filled := by
    rw [List.filterMap_append, h.filled]
    rfl
  strat := by
    rw [run_snoc, TradingSession.next, ← h.strat]
    rfl
  emitted := by
    rw [run_snoc, orders_next_fill]
    exact h.emitted

theorem InSession.event (h : InSession cfg ins v) (ev : MdEvent) :
    InSession cfg (ins ++ [.md ev]) { v with
      strategy := (v.strategy.afterEvent ev v.world).1
      world := (v.strategy.afterEvent ev v.world).2 } := by
  obtain ⟨hseen, hfilled, hstrat, hemitted⟩ := h
  have hseen' : (ins ++ [StrategyInput.md ev]).filterMap StrategyInput.event? = v.world.seen ++ [ev] := by
    rw [List.filterMap_append, hseen]
    rfl
  have hfilled' : (ins ++ [StrategyInput.md ev]).filterMap StrategyInput.report? = v.world.filled := by
    rw [List.filterMap_append, hfilled]
    exact List.append_nil _
  have hnext : (TradingSession.run z.ticks cfg.strategy (ins ++ [.md ev])).strat =
      (v.strategy.runner.strat.onMd ev).1 := by
    rw [run_snoc, hstrat]
    rfl
  have horders : (TradingSession.run z.ticks cfg.strategy (ins ++ [.md ev])).orders =
      v.world.emitted.map Prod.fst ++ (v.strategy.runner.strat.onMd ev).2.toList := by
    rw [run_snoc, orders_next_md, ← hstrat, hemitted]
  unfold StrategyThread.afterEvent
  cases hmd : v.strategy.runner.strat.onMd ev with
  | mk strat out =>
    rw [hmd] at hnext horders
    cases out with
    | none => exact ⟨hseen', hfilled', hnext.symm, (horders.trans (List.append_nil _)).symm⟩
    | some o =>
      refine ⟨hseen', hfilled', hnext.symm, ?_⟩
      rw [horders]
      exact List.map_append

theorem InSession.move {l : Label Stage UInt64 Outside} (h : InSession cfg ins v) (hm : v.Move l v') :
    ∃ ins', InSession cfg ins' v' := by
  match l with
  | .thread .feed _ =>
    cases hm with
    | head | quiet | next | last | push | full | recv => exact ⟨ins, h.congr rfl rfl rfl rfl⟩
  | .thread .strategy _ =>
    cases hm with
    | head | noFill | takeFill | noEvent | takeEvent | push | full => exact ⟨ins, h.congr rfl rfl rfl rfl⟩
    | fill => exact ⟨_, h.fill _ _⟩
    | event => exact ⟨_, h.event _⟩
  | .thread .gateway _ =>
    cases hm with
    | head | noReport | short | push | full | noOrder | takeOrder | check | send => exact ⟨ins, h.congr rfl rfl rfl rfl⟩
    | report =>
      unfold GatewayThread.handle
      split <;> exact ⟨ins, h.congr rfl rfl rfl rfl⟩
  | .outside x =>
    obtain ⟨w, hw, rfl⟩ := hm
    cases x <;> cases hw <;> exact ⟨ins, h.congr rfl rfl rfl rfl⟩

end Snapshot

namespace RingEngine

variable {z : EngineSizes} {cfg : EngineConfig} {f : RingEngine z}

/-- The strategy trades on the imbalance of the levels that the events it took in make, at the position that the reports
    it took in make, however the threads interleave. -/
theorem orders_follow_levels (hthr : 0 ≤ cfg.strategy.thrNum) (hone : cfg.strategy.thrNum ≤ 2 ^ 14)
    (hr : Reachable Step (start z cfg) f)
    (hin : ∀ ev ∈ f.world.seen, InWindow z.ticks cfg.strategy.basePrice cfg.strategy.tick ev.msg.price) :
    ∃ ins, ins.filterMap StrategyInput.event? = f.world.seen ∧ ins.filterMap StrategyInput.report? = f.world.filled ∧
      f.strategy.runner.strat = (TradingSession.run z.ticks cfg.strategy ins).strat ∧
      f.world.emitted.map Prod.fst = (TradingSession.run z.ticks cfg.strategy ins).orders ∧
      (∀ before ev, before ++ [.md ev] <+: ins →
        Decides cfg.strategy (TradingSession.run z.ticks cfg.strategy before) ev
          (LevelBook.after cfg.strategy (before ++ [.md ev]))) ∧
      ∀ o ∈ f.world.emitted.map Prod.fst, ∃ before ev, before ++ [.md ev] <+: ins ∧
        ((TradingSession.run z.ticks cfg.strategy before).strat.onMd ev).2 = some o := by
  obtain ⟨v, hv, ins, hseen, hfilled, hstrat, hemitted⟩ := invariant
    (I := fun v : Snapshot z => ∃ ins, v.InSession cfg ins) ⟨[], Snapshot.inSession_start⟩
    (fun hi hm => by
      obtain ⟨ins, hins⟩ := hi
      exact hins.move hm) hr
  rw [hv.world] at hseen hfilled hemitted
  rw [hv.strategy] at hstrat
  refine ⟨ins, hseen, hfilled, hstrat, hemitted, fun before ev hbefore => ?_,
    fun o ho => mem_orders_run (hemitted ▸ ho)⟩
  have hwindow : ∀ i ∈ ins, InWindowInput z.ticks cfg.strategy i := by
    intro i hi m hm
    cases i with
    | fill r => cases hm
    | md ev =>
      obtain rfl := Option.some_inj.mp hm
      exact hin ev (hseen ▸ List.mem_filterMap.mpr ⟨.md ev, hi, rfl⟩)
  have hev : StrategyInput.md ev ∈ ins := hbefore.subset (List.mem_append_right _ (List.mem_singleton_self _))
  refine (ledger_run fun i hi => ?_).decides hthr hone (hwindow _ hev _ rfl)
  exact hwindow i (hbefore.subset (List.mem_append_left _ hi))

theorem orders_follow_levels_session :
    ∃ f, after? Engine.least Engine.hundreds session = some f ∧ f.world.emitted.length = 1 ∧
      ∃ ins, ins.filterMap StrategyInput.event? = f.world.seen ∧
        f.world.emitted.map Prod.fst = (TradingSession.run Engine.least.ticks Engine.hundreds.strategy ins).orders := by
  have hsome : ((after? Engine.least Engine.hundreds session).map fun f =>
      (f.world.emitted.length, f.world.seen.map fun ev => ev.msg.price)) = some (1, [1, 2]) := by decide +kernel
  obtain ⟨f, hf, hdata⟩ := Option.map_eq_some_iff.mp hsome
  have hprices : ∀ ev ∈ f.world.seen, InWindow Engine.least.ticks 0 1 ev.msg.price := by
    intro ev hev
    have hmem : ev.msg.price ∈ [1, 2] := by
      have hmap : f.world.seen.map (fun ev => ev.msg.price) = [1, 2] := congrArg Prod.snd hdata
      rw [← hmap]
      exact List.mem_map_of_mem hev
    have hall : ∀ price ∈ ([1, 2] : List Int), InWindow Engine.least.ticks 0 1 price := by decide
    exact hall _ hmem
  obtain ⟨ins, hseen, -, -, hemitted, -⟩ :=
    orders_follow_levels (by decide) (by decide) (Reachable.of_foldlM hf) hprices
  exact ⟨f, hf, congrArg Prod.fst hdata, ins, hseen, hemitted⟩

end RingEngine

end Hft
