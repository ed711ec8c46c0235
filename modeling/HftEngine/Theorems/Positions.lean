import HftEngine.Theorems.Engine

/-! The two positions, the strategy's and the gate's: they differ by the fills on the way, and an exchange that fills
    what was ordered keeps both within one order of zero, so that the gate refuses nothing under normal limits. -/

namespace Hft.Engine

open Transition

variable {z : EngineSizes} {cfg : EngineConfig} {s : Engine z} {a : OrderLoop}
  {evs : List (OrderLoop × LoopEvent)}

/-! ### The two ledgers -/

/-- The gate is ahead of the strategy by the fills in the queue, and it checks the orders in turn, each at the position
    at which the strategy emitted it. -/
theorem ledgers_agree (hr : Reachable Step (start z cfg) s) :
    s.gatePosition = s.position + (s.fillQ.items.map ExecReport.signedFill).sum ∧ s.checked <+: s.emitted := by
  obtain ⟨_, a, hloop, ht, -⟩ := reachable_refines_loop hr
  have hledger := (OrderLoop.ledger_of_run hloop).2
  constructor
  · rw [ht.gatePos, ht.strategyPos, ht.fillQ, Phase.sum_reports]
    exact hledger.gate
  · rw [ht.checked, ht.emitted]
    exact ⟨_, hledger.logged.symm⟩

theorem ledgers_agree_filled :
    ∃ s, after? least hundreds (buySignal ++ roundTrip 1 .kBuy) = some s ∧
      (s.position, s.gatePosition) = (0, 100) ∧
      (s.gatePosition = s.position + (s.fillQ.items.map ExecReport.signedFill).sum ∧ s.checked <+: s.emitted) := by
  have hrun : (after? least hundreds (buySignal ++ roundTrip 1 .kBuy)).map
      (fun s => (s.position, s.gatePosition)) = some (0, 100) := by decide
  obtain ⟨s, hs, hpos⟩ := Option.map_eq_some_iff.mp hrun
  exact ⟨s, hs, hpos, ledgers_agree (Reachable.of_foldlM hs)⟩

/-! ### A compliant exchange -/

def reports (s : Engine z) : List ExecReport := s.arrived.filterMap ExecReport.ofDatagram?

/-- A report for an order that was sent carries the side of the order and at most its size. -/
def Compliant (s : Engine z) : Prop :=
  ∀ r ∈ s.reports, ∀ o ∈ s.sent, r.orderId = o.orderId → r.side = o.side ∧ r.fillSize ≤ o.size

instance (s : Engine z) : Decidable (Compliant s) :=
  inferInstanceAs (Decidable (∀ r ∈ s.reports, ∀ o ∈ s.sent, _ → _ ∧ _))

def FillsInFull (s : Engine z) : Prop :=
  ∀ r ∈ s.reports, ∀ o ∈ s.sent, r.orderId = o.orderId → r.fillSize = o.size

theorem Matched.report {b : OrderLoop} {r : ExecReport} {o : OrderRequest} (hm : Matched cfg s evs a)
    (hp : (b, LoopEvent.report r) ∈ evs) (ho : b.phase = .working o) :
    r ∈ s.reports ∧ o ∈ s.sent ∧ r.orderId = o.orderId := by
  obtain ⟨m, harrived, hdec⟩ := hm.recorded _ hp
  refine ⟨List.mem_filterMap.mpr ⟨m, harrived, hdec⟩, ?_, ?_⟩
  · rw [hm.tracks.sent]
    exact OrderLoop.working_sent hm.run _ hp o ho
  · obtain ⟨-, u, hs⟩ := hm.run.history _ hp
    cases hs with
    | report ho' hid =>
      cases ho'.symm.trans ho
      exact hid

theorem Compliant.complies (hcomp : Compliant s) (hm : Matched cfg s evs a) :
    ∀ p ∈ evs, OrderLoop.Complies p.1 p.2 := by
  rintro ⟨b, ev⟩ hp
  cases ev with
  | emit | pass | drop | deliver => trivial
  | report r =>
    intro o ho
    obtain ⟨hr, hsent, hid⟩ := hm.report hp ho
    exact hcomp r hr o hsent hid

theorem FillsInFull.fillsFull (hfull : FillsInFull s) (hm : Matched cfg s evs a) :
    ∀ p ∈ evs, OrderLoop.FillsFull p.1 p.2 := by
  rintro ⟨b, ev⟩ hp
  cases ev with
  | emit | pass | drop | deliver => trivial
  | report r =>
    intro o ho
    obtain ⟨hr, hsent, hid⟩ := hm.report hp ho
    exact hfull r hr o hsent hid

theorem Recorded.emitsSize {ev : LoopEvent} (h : Recorded cfg s a ev) :
    OrderLoop.EmitsSize cfg.strategy.orderSize.toNat ev := by
  cases ev with
  | emit o => exact congrArg UInt32.toNat h
  | pass | drop | report | deliver => trivial

theorem Recorded.passesInBand {ev : LoopEvent} (h : Recorded cfg s a ev) :
    OrderLoop.PassesInBand cfg.risk.maxPosition a ev := by
  cases ev with
  | pass => exact h
  | emit | drop | report | deliver => trivial

/-! ### The bounds -/

theorem Matched.within (hm : Matched cfg s evs a) (hcomp : Compliant s) :
    (∀ p ∈ evs, OrderLoop.Within cfg.strategy.orderSize.toNat p.1) ∧
      OrderLoop.Within cfg.strategy.orderSize.toNat a :=
  OrderLoop.within_of_run hm.run fun p hp => ⟨(hm.recorded p hp).emitsSize, hcomp.complies hm p hp⟩

/-- With a compliant exchange both positions lie within one order of zero, and the gate's lies in its band; when
    reports fill in full, both are short one order, flat or long one order. -/
theorem positions_bounded (hmax : 0 ≤ cfg.risk.maxPosition) (hr : Reachable Step (start z cfg) s)
    (hcomp : Compliant s) :
    let n : Int := cfg.strategy.orderSize.toNat
    (-n ≤ s.position ∧ s.position ≤ n) ∧ (-n ≤ s.gatePosition ∧ s.gatePosition ≤ n) ∧
    (-cfg.risk.maxPosition ≤ s.gatePosition ∧ s.gatePosition ≤ cfg.risk.maxPosition) ∧
    (FillsInFull s → (s.position = -n ∨ s.position = 0 ∨ s.position = n) ∧
      (s.gatePosition = -n ∨ s.gatePosition = 0 ∨ s.gatePosition = n)) := by
  intro n
  obtain ⟨evs, a, hm⟩ := reachable_refines_loop hr
  have hcomplies := hcomp.complies hm
  have hband := OrderLoop.gateInBand_of_run hmax hm.run fun p hp => ⟨(hm.recorded p hp).passesInBand, hcomplies p hp⟩
  rw [hm.tracks.strategyPos, hm.tracks.gatePos]
  refine ⟨(hm.within hcomp).2.strategy, (hm.within hcomp).2.gate, hband.gate, fun hfull => ?_⟩
  have hfills := hfull.fillsFull hm
  exact OrderLoop.oneOrder_of_run hm.run fun p hp => ⟨(hm.recorded p hp).emitsSize, hcomplies p hp, hfills p hp⟩

theorem positions_bounded_filled :
    ∃ s, after? least hundreds (buySignal ++ roundTrip 1 .kBuy ++ [.strategyPoll]) = some s ∧
      Compliant s ∧ s.position = 100 ∧
      ((-100 ≤ s.position ∧ s.position ≤ 100) ∧ (-100 ≤ s.gatePosition ∧ s.gatePosition ≤ 100) ∧
       (-1000 ≤ s.gatePosition ∧ s.gatePosition ≤ 1000) ∧
       (FillsInFull s → (s.position = -100 ∨ s.position = 0 ∨ s.position = 100) ∧
         (s.gatePosition = -100 ∨ s.gatePosition = 0 ∨ s.gatePosition = 100))) := by
  have hrun : (after? least hundreds (buySignal ++ roundTrip 1 .kBuy ++ [.strategyPoll])).map
      (fun s => (s.position, decide (Compliant s))) = some (100, true) := by decide
  obtain ⟨s, hs, hstate⟩ := Option.map_eq_some_iff.mp hrun
  obtain ⟨hpos, hcomp⟩ := Prod.mk.inj hstate
  have hcomp := of_decide_eq_true hcomp
  exact ⟨s, hs, hcomp, hpos, positions_bounded (by decide) (Reachable.of_foldlM hs) hcomp⟩

/-- Under normal limits no reason is left to drop an order: its full fill stays within one order of zero. -/
theorem Matched.ne_drop (hm : Matched cfg s evs a) (hcomp : Compliant s) (hpos : 0 < cfg.strategy.orderSize)
    (hsize : cfg.strategy.orderSize ≤ cfg.risk.maxOrderSize)
    (hmax : (cfg.strategy.orderSize.toNat : Int) ≤ cfg.risk.maxPosition) (hrate : cfg.cyclesPerToken = 0)
    (hkill : true ∉ s.kills) : ∀ p ∈ evs, p.2 ≠ .drop := by
  rintro ⟨b, ev⟩ hp rfl
  have hwithin := (hm.within hcomp).1 _ hp
  have hcause : Recorded cfg s b .drop := hm.recorded _ hp
  obtain ⟨-, u, hs⟩ := hm.run.history _ hp
  cases hs with
  | @drop o ho =>
    have hlen : o.size = cfg.strategy.orderSize := UInt32.toNat_inj.mp (hwithin.order o (by rw [ho]; rfl))
    have hproj : -(cfg.strategy.orderSize.toNat : Int) ≤ b.gatePos + o.signedSize ∧
        b.gatePos + o.signedSize ≤ cfg.strategy.orderSize.toNat :=
      hwithin.projected ((OrderLoop.ledger_of_run hm.run).1 _ hp) ho
    rcases hcause o ho with hkilled | hzero | hband | hrated
    · exact hkill hkilled
    · rw [hlen] at hzero
      exact hzero.elim (UInt32.ne_of_lt hpos).symm (UInt32.not_lt.mpr hsize)
    · omega
    · exact hrated hrate

/-- Under normal limits the gate refuses no order: every order emitted was sent, or waits for the gate. -/
theorem no_rejections (hpos : 0 < cfg.strategy.orderSize) (hsize : cfg.strategy.orderSize ≤ cfg.risk.maxOrderSize)
    (hmax : (cfg.strategy.orderSize.toNat : Int) ≤ cfg.risk.maxPosition) (hrate : cfg.cyclesPerToken = 0)
    (hr : Reachable Step (start z cfg) s) (hkill : true ∉ s.kills) (hcomp : Compliant s) :
    s.gateway.riskRejected = 0 ∧ s.emitted.map Prod.fst = s.sent ++ s.orderQ.items := by
  obtain ⟨evs, a, hm⟩ := reachable_refines_loop hr
  have hundropped := OrderLoop.undropped_of_run hm.run (hm.ne_drop hcomp hpos hsize hmax hrate hkill)
  have hlogged := (OrderLoop.ledger_of_run hm.run).2.logged
  constructor
  · rw [hm.tracks.rejected]
    cases hp : a.phase with
    | dropped o => exact absurd hp (hundropped.phase o)
    | idle | queued | working | reported => rfl
  · rw [hm.tracks.emitted, hm.tracks.sent, hm.tracks.orderQ, hlogged, List.map_append, hundropped.sent, List.map_map]
    exact congrArg _ (List.map_id _)

theorem no_rejections_filled :
    ∃ s, after? least hundreds (buySignal ++ roundTrip 1 .kBuy ++ quote .kSell 2 90) = some s ∧
      s.emitted.length = 2 ∧
      (s.gateway.riskRejected = 0 ∧ s.emitted.map Prod.fst = s.sent ++ s.orderQ.items) := by
  have hrun : (after? least hundreds (buySignal ++ roundTrip 1 .kBuy ++ quote .kSell 2 90)).map
      (fun s => (s.emitted.length, s.kills, decide (Compliant s))) = some (2, [], true) := by decide
  obtain ⟨s, hs, hstate⟩ := Option.map_eq_some_iff.mp hrun
  simp only [Prod.mk.injEq, decide_eq_true_eq] at hstate
  obtain ⟨htwo, hkills, hcomp⟩ := hstate
  exact ⟨s, hs, htwo,
    no_rejections (by decide) (by decide) (by decide) rfl (Reachable.of_foldlM hs) (by simp [hkills]) hcomp⟩

end Hft.Engine
