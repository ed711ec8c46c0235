import HftEngine.Theorems.Engine
import Mathlib.Data.Finset.Card

/-! The in-flight latch of the strategy: at most one order is anywhere in the loop, so that no push waits; and what
    the latch waits for exists exactly as long as the gate refuses no order. -/

namespace Hft.Engine

open Transition

variable {z : EngineSizes} {cfg : EngineConfig} {s t : Engine z} {e : EngineEvent} {a : OrderLoop}
  {h : List (Engine z × EngineEvent)}

/-! ### One order in the loop -/

def tokens (s : Engine z) : Nat := s.orderQ.items.length + s.gateway.activeSlots.card + s.fillQ.items.length

theorem Tracks.tokens_eq (h : Tracks s a) :
    s.tokens = a.phase.unchecked.length + a.phase.working?.toList.length + a.phase.reports.length := by
  have hcard : s.gateway.activeSlots.card = a.phase.working?.toList.length := by
    have htable := h.table
    cases hw : a.phase.working? with
    | none =>
      rw [hw] at htable
      rw [htable.activeSlots_none]
      rfl
    | some o =>
      rw [hw] at htable
      rw [htable.activeSlots_some]
      rfl
  rw [tokens, h.orderQ, h.fillQ, hcard]

theorem Tracks.tokens_le_one (h : Tracks s a) : s.tokens ≤ 1 := by
  rw [h.tokens_eq]
  cases a.phase with
  | idle | dropped => exact Nat.zero_le _
  | queued | working | reported => exact Nat.le_refl _

theorem Tracks.tokens_of_open (h : Tracks s a) (hopen : s.inFlight = false) : s.tokens = 0 := by
  rw [h.tokens_eq, Phase.idle_of_inFlight (h.latch.symm.trans hopen)]
  rfl

/-- While an order waits for the gate, no report matches and no entry is active. -/
theorem Tracks.slot_free {o : OrderRequest} (h : Tracks s a) (ho : o ∈ s.orderQ.items)
    {g : OrderGateway z.flightCap} {rx : List (List UInt8)} {fills : BoundedQueue ExecReport z.fillCap.val.toNat}
    (hd : OrderGateway.drainFills 32 s.gateway s.fillRx s.fillQ = some (g, rx, fills)) :
    (g.slot o.orderId).active = false := by
  have htable := h.table
  rw [h.queued ho] at htable
  obtain ⟨g', rx', hdrain, -, hnone, -⟩ := OrderGateway.drainFills_none 32 s.fillRx s.fillQ htable
  obtain ⟨rfl, -⟩ := Prod.mk.inj (Option.some.inj (hdrain.symm.trans hd))
  refine Bool.eq_false_iff.mpr fun hactive => ?_
  obtain ⟨_, hsome, -⟩ := hnone.active _ hactive
  cases hsome

/-- At most one order is anywhere in the loop, and none with the latch open. Both polls push at once whatever the
    capacities, and an order that goes out takes a free entry of the in-flight table. -/
theorem one_order_in_loop (hr : Reachable Step (start z cfg) s) :
    s.tokens ≤ 1 ∧ (s.inFlight = false → s.tokens = 0) ∧
    (∃ t, s.strategyPoll? = some t) ∧ (∀ now sendT, ∃ t, s.gatewayPoll? now sendT = some t) ∧
    ∀ o ∈ s.orderQ.items, ∀ g rx fills,
      OrderGateway.drainFills 32 s.gateway s.fillRx s.fillQ = some (g, rx, fills) →
      (g.slot o.orderId).active = false := by
  obtain ⟨_, a, hm⟩ := reachable_refines_loop hr
  have ht := hm.tracks
  obtain ⟨t, _, _, hpoll, -⟩ := ht.strategyPoll
  refine ⟨ht.tokens_le_one, ht.tokens_of_open, ⟨t, hpoll⟩, fun now sendT => ?_, fun o ho g rx fills => ht.slot_free ho⟩
  obtain ⟨t, _, hpoll, -⟩ := ht.gatewayPoll now sendT
  exact ⟨t, hpoll⟩

theorem one_order_in_loop_buy :
    ∃ s, after? least hundreds (buySignal ++ [.datagram (List.replicate 40 0), .gatewayPoll 0 0]) = some s ∧
      s.sent.length = 1 ∧
      (s.tokens ≤ 1 ∧ (s.inFlight = false → s.tokens = 0) ∧
       (∃ t, s.strategyPoll? = some t) ∧ (∀ now sendT, ∃ t, s.gatewayPoll? now sendT = some t) ∧
       ∀ o ∈ s.orderQ.items, ∀ g rx fills,
         OrderGateway.drainFills 32 s.gateway s.fillRx s.fillQ = some (g, rx, fills) →
         (g.slot o.orderId).active = false) := by
  have hrun : (after? least hundreds (buySignal ++ [.datagram (List.replicate 40 0), .gatewayPoll 0 0])).map
      (fun s => s.sent.length) = some 1 := by decide
  obtain ⟨s, hs, hsent⟩ := Option.map_eq_some_iff.mp hrun
  exact ⟨s, hs, hsent, one_order_in_loop (Reachable.of_foldlM hs)⟩

/-! ### What the latch waits for -/

/-- With the latch closed, the last order is in the order queue, or has an active entry in the in-flight table, or has
    its report in the fill queue. -/
def Backed (s : Engine z) : Prop :=
  s.inFlight = true →
    (∃ o ∈ s.orderQ.items, o.orderId = s.strategy.strat.lastOrderId) ∨
    (∃ i, (s.gateway.inflight.get i).active = true ∧
      (s.gateway.inflight.get i).orderId = s.strategy.strat.lastOrderId) ∨
    ∃ r ∈ s.fillQ.items, r.orderId = s.strategy.strat.lastOrderId

/-- A gateway poll that finds an order finds one that the gate admits. -/
def Clears (s : Engine z) : EngineEvent → Prop
  | .gatewayPoll now _ => ∀ o ∈ s.orderQ.items, s.gateway.risk.Admits s.kill now o
  | .md _ | .datagram _ | .setKill _ | .strategyPoll | .stop | .strategyExit | .gatewayExit => True

/-- Only a dropped order leaves the latch waiting for nothing. -/
theorem Tracks.backed_iff (h : Tracks s a) : Backed s ↔ ∀ o, a.phase ≠ .dropped o := by
  obtain ⟨hlatch, horderQ, hfillQ, htable, -, hlast, hreported, -⟩ := h
  unfold Backed
  cases hp : a.phase with
  | idle =>
    rw [hp] at hlatch
    simp [hlatch, Phase.inFlight]
  | queued o =>
    rw [hp] at horderQ hlast
    simp [horderQ, Phase.unchecked, hlast o rfl]
  | working o =>
    rw [hp] at htable hlast
    have hentry := htable.entry o rfl
    simp only [ne_eq, reduceCtorEq, not_false_eq_true, implies_true, iff_true]
    exact fun _ => Or.inr (Or.inl ⟨_, hentry.1, hentry.2.trans (hlast o rfl)⟩)
  | reported o r =>
    rw [hp] at hfillQ hreported
    simp [hfillQ, Phase.reports, hreported r (List.mem_singleton_self r)]
  | dropped o =>
    rw [hp] at hlatch horderQ hfillQ htable
    refine ⟨fun hbacked => ?_, fun hne => absurd rfl (hne o)⟩
    rcases hbacked hlatch with ⟨o', ho', -⟩ | ⟨i, hactive, -⟩ | ⟨r, hr, -⟩
    · rw [horderQ] at ho'
      cases ho'
    · obtain ⟨_, hnone, -⟩ := htable.active i hactive
      cases hnone
    · rw [hfillQ] at hr
      cases hr

theorem Tracks.step_clears (h : Tracks s a) (ha : ∀ o, a.phase ≠ .dropped o) (hc : Clears s e) (hs : Step s e t) :
    ∃ b, Tracks t b ∧ ∀ o, b.phase ≠ .dropped o := by
  rcases step_cases hs with ⟨rfl, hpoll⟩ | ⟨now, sendT, rfl, hpoll⟩ | ⟨-, hout, -⟩
  · obtain ⟨t', evs, b, hpoll', -, hr, ht, hevs⟩ := h.strategyPoll
    obtain rfl : t' = t := Option.some.inj (hpoll'.symm.trans hpoll)
    refine ⟨b, ht, OrderLoop.phase_ne_dropped hr ha fun p hp hdrop => ?_⟩
    rcases hevs p hp with hdeliver | ⟨o, hemit, -⟩
    · cases hdrop.symm.trans hdeliver
    · cases hdrop.symm.trans hemit
  · obtain ⟨t', b, hpoll', hmove, ht, -⟩ := h.gatewayPoll now sendT
    obtain rfl : t' = t := Option.some.inj (hpoll'.symm.trans hpoll)
    refine ⟨b, ht, fun o ho => ?_⟩
    cases hmove with
    | pass | report => cases ho
    | stay => exact ha o ho
    | @drop o' hp hadm =>
      refine hadm (hc o' ?_)
      rw [h.orderQ, hp]
      exact List.mem_singleton_self o'
  · exact ⟨a, hout.tracks h, ha⟩

theorem Tracks.step_not_clears (h : Tracks s a) (hc : ¬Clears s e) (hs : Step s e t) :
    ∃ b o, Tracks t b ∧ b.phase = .dropped o := by
  rcases step_cases hs with ⟨rfl, -⟩ | ⟨now, sendT, rfl, hpoll⟩ | ⟨hne, -⟩
  · exact absurd trivial hc
  · obtain ⟨o, ho, hadm⟩ : ∃ o ∈ s.orderQ.items, ¬s.gateway.risk.Admits s.kill now o := by
      simpa only [Clears, not_forall, exists_prop] using hc
    have hp := h.queued ho
    obtain ⟨t', b, hpoll', hmove, ht, -⟩ := h.gatewayPoll now sendT
    obtain rfl : t' = t := Option.some.inj (hpoll'.symm.trans hpoll)
    refine ⟨b, o, ht, ?_⟩
    cases hmove with
    | @pass o' hp' hadm' =>
      obtain rfl : o' = o := by simpa [hp'] using hp
      exact absurd hadm' hadm
    | @drop o' hp' =>
      obtain rfl : o' = o := by simpa [hp'] using hp
      rfl
    | report hp' => cases hp'.symm.trans hp
    | stay hq => exact absurd hp (hq o)
  · cases e with
    | gatewayPoll now sendT => exact absurd rfl (hne now sendT)
    | md | datagram | setKill | strategyPoll | stop | strategyExit | gatewayExit => exact absurd trivial hc

/-- In a run the latch always waits for an order that some stage holds, exactly when the gate admits every order that
    reaches it. -/
theorem backed_iff_clears (hr : Run Step (start z cfg) h s) :
    ((∀ p ∈ h, Backed p.1) ∧ Backed s) ↔ ∀ p ∈ h, Clears p.1 p.2 := by
  refine hr.exact (tracks_start.backed_iff.mpr fun o ho => by cases ho) ?_ ?_
  · intro t e u hreach hbacked hclears hs
    obtain ⟨_, a, hm⟩ := reachable_refines_loop hreach
    obtain ⟨b, hu, hb⟩ := hm.tracks.step_clears (hm.tracks.backed_iff.mp hbacked) hclears hs
    exact hu.backed_iff.mpr hb
  · intro t e u hreach _ hclears hs hbacked
    obtain ⟨_, a, hm⟩ := reachable_refines_loop hreach
    obtain ⟨b, o, hu, hb⟩ := hm.tracks.step_not_clears hclears hs
    exact hu.backed_iff.mp hbacked o hb

theorem backed_iff_clears_buy :
    ∃ h, ∃ s : Engine least, Run Step (start least hundreds) h s ∧
      h.map Prod.snd = buySignal ++ [.gatewayPoll 0 0] ∧ s.inFlight = true ∧
      (((∀ p ∈ h, Backed p.1) ∧ Backed s) ↔ ∀ p ∈ h, Clears p.1 p.2) := by
  have hrun : (after? least hundreds (buySignal ++ [.gatewayPoll 0 0])).map inFlight = some true := by decide
  obtain ⟨s, hs, hclosed⟩ := Option.map_eq_some_iff.mp hrun
  obtain ⟨h, hr, hevents⟩ := Run.of_foldlM hs
  exact ⟨h, s, hr, hevents, hclosed, backed_iff_clears hr⟩

theorem not_backed (hclosed : s.inFlight = true) (htokens : s.tokens = 0) : ¬Backed s := by
  unfold tokens at htokens
  have horders : s.orderQ.items = [] := List.length_eq_zero_iff.mp (by omega)
  have hactive : s.gateway.activeSlots = ∅ := Finset.card_eq_zero.mp (by omega)
  have hfills : s.fillQ.items = [] := List.length_eq_zero_iff.mp (by omega)
  intro hbacked
  rcases hbacked hclosed with ⟨o, ho, -⟩ | ⟨i, hi, -⟩ | ⟨r, hr, -⟩
  · rw [horders] at ho
    cases ho
  · exact Finset.filter_eq_empty_iff.mp hactive (Finset.mem_univ i) hi
  · rw [hfills] at hr
    cases hr

/-- Once the latch waits for nothing it stays closed, and no order is emitted any more. -/
theorem stuck_of_not_backed (hr : Reachable Step (start z cfg) s) (hn : ¬Backed s) (hr' : Reachable Step s t) :
    t.inFlight = true ∧ t.emitted = s.emitted ∧ ¬Backed t := by
  obtain ⟨_, a, -, ht, hc, -⟩ := reachable_refines_loop hr
  obtain ⟨o, hp⟩ : ∃ o, a.phase = .dropped o := by
    by_contra hnone
    exact hn (ht.backed_iff.mpr fun o ho => hnone ⟨o, ho⟩)
  have hstays : Tracks t a ∧ Configured cfg t := by
    refine hr'.invariant (I := fun u => Tracks u a ∧ Configured cfg u) ⟨ht, hc⟩ fun hi hs => ?_
    obtain ⟨-, hc', _, b, hloop, ht', -⟩ := hi.1.step hi.2 hs
    exact ⟨OrderLoop.eq_of_dropped hp hloop ▸ ht', hc'⟩
  refine ⟨?_, hstays.1.emitted.trans ht.emitted.symm, fun hb => hstays.1.backed_iff.mp hb o hp⟩
  rw [hstays.1.latch, hp]
  rfl

/-- An order refused under the kill switch leaves the strategy stuck, also after the switch is released. -/
theorem stuck_of_not_backed_killed :
    let later : List EngineEvent := [.setKill false] ++ quote .kBuy 1 1 ++ [.gatewayPoll 0 0]
    ∃ s t : Engine least, after? least hundreds (buySignal ++ [.setKill true, .gatewayPoll 0 0]) = some s ∧
      later.foldlM next? s = some t ∧ (t.inFlight = true ∧ t.emitted = s.emitted ∧ ¬Backed t) := by
  intro later
  have hrun : ((after? least hundreds (buySignal ++ [.setKill true, .gatewayPoll 0 0])).bind fun s =>
      (later.foldlM next? s).map fun _ => (s.inFlight, s.tokens)) = some (true, 0) := by decide +kernel
  obtain ⟨s, hs, hrest⟩ := Option.bind_eq_some_iff.mp hrun
  obtain ⟨t, ht, hstate⟩ := Option.map_eq_some_iff.mp hrest
  obtain ⟨hclosed, htokens⟩ := Prod.mk.inj hstate
  exact ⟨s, t, hs, ht,
    stuck_of_not_backed (Reachable.of_foldlM hs) (not_backed hclosed htokens) (Reachable.of_foldlM ht)⟩

/-- One order in a thousand cycles: the third at once is refused, and long after nothing has moved. -/
theorem rate_limited_order_unbacked :
    ∃ s, after? least { hundreds with cyclesPerToken := 1000 } (buySignal ++ roundTrip 1 .kBuy ++ quote .kSell 2 90 ++
        roundTrip 2 .kSell ++ quote .kBuy 1 900 ++ [.gatewayPoll 0 0] ++ quote .kBuy 1 1 ++
        [.gatewayPoll 1000000 1000000]) = some s ∧
      Reachable Step (start least { hundreds with cyclesPerToken := 1000 }) s ∧ s.sent.length = 2 ∧
      s.inFlight = true ∧ s.tokens = 0 ∧ ¬Backed s := by
  have hrun : (after? least { hundreds with cyclesPerToken := 1000 } (buySignal ++ roundTrip 1 .kBuy ++
      quote .kSell 2 90 ++ roundTrip 2 .kSell ++ quote .kBuy 1 900 ++ [.gatewayPoll 0 0] ++ quote .kBuy 1 1 ++
      [.gatewayPoll 1000000 1000000])).map (fun s => (s.sent.length, s.inFlight, s.tokens)) = some (2, true, 0) := by
    decide +kernel
  obtain ⟨s, hs, hstate⟩ := Option.map_eq_some_iff.mp hrun
  simp only [Prod.mk.injEq] at hstate
  obtain ⟨hsent, hclosed, htokens⟩ := hstate
  exact ⟨s, hs, Reachable.of_foldlM hs, hsent, hclosed, htokens, not_backed hclosed htokens⟩

end Hft.Engine
