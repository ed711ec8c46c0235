import HftEngine.Lib.Clock
import HftEngine.Theorems.StrategyPath
import HftEngine.Theorems.ClosedLoop

/-! The latency tags. An order carries the reading of the clock at which the datagram with its event arrived, and the
    exchange hands the tag back in the report. Where the clock does not go back no latency that the engine takes is the
    difference of a reading and a later one, which would wrap. -/

namespace Hft

open Transition
open Threads (Label)

/-! ### Whose tag an order carries -/

theorem FeedHandler.arrivalTsc_of_mem {buf : List UInt8} {arrival : UInt64} {ev : MdEvent}
    (h : ev ∈ FeedHandler.events buf arrival) : ev.arrivalTsc = arrival := by
  obtain ⟨f, -, hf⟩ := List.mem_filterMap.mp h
  obtain ⟨m, -, rfl⟩ := Option.map_eq_some_iff.mp hf
  rfl

theorem ImbalanceStrategy.onMd_tags {n : NumTicks} {s : ImbalanceStrategy n} {ev : MdEvent} {o : OrderRequest}
    (h : (s.onMd ev).2 = some o) : o.mdTimestamp = ev.arrivalTsc ∧ o.symbol = ev.msg.symbol := by
  unfold ImbalanceStrategy.onMd at h
  dsimp only at h
  split_ifs at h
  cases h
  exact ⟨rfl, rfl⟩

/-- A datagram that arrived, and an event in it. -/
def Arrived (arrived : List (List UInt8 × UInt64)) (ev : MdEvent) : Prop :=
  ∃ d ∈ arrived, ev ∈ FeedHandler.events (d.1.take kBufBytes) d.2

theorem Arrived.tag {arrived : List (List UInt8 × UInt64)} {ev : MdEvent} (h : Arrived arrived ev) :
    ev.arrivalTsc ∈ arrived.map Prod.snd := by
  obtain ⟨d, hd, hev⟩ := h
  exact List.mem_map.mpr ⟨d, hd, (FeedHandler.arrivalTsc_of_mem hev).symm⟩

namespace Snapshot

variable {z : EngineSizes} {cfg : EngineConfig} {v : Snapshot z}

theorem MarketPath.seen_arrived (h : MarketPath cfg v) : ∀ ev ∈ v.world.seen, Arrived v.feed.arrived ev := by
  intro ev hev
  have hput : ev ∈ v.handler.put := List.mem_append_left _ (List.mem_append_left _ hev)
  rw [h.counts.put] at hput
  obtain ⟨o, ho, rfl⟩ := List.mem_map.mp hput
  have hframes : o.1 ∈ v.handler.arrived.flatMap fun d => FeedHandler.events (d.1.take kBufBytes) d.2 := by
    rw [h.counts.frames]
    exact List.mem_append_left _ (List.mem_map_of_mem (List.mem_of_mem_filter ho))
  exact List.mem_flatMap.mp hframes

theorem InSession.emitted_seen {ins : List StrategyInput} (h : InSession cfg ins v) :
    ∀ o ∈ v.world.emitted.map Prod.fst, ∃ ev ∈ v.world.seen,
      o.mdTimestamp = ev.arrivalTsc ∧ o.symbol = ev.msg.symbol := by
  intro o ho
  rw [h.emitted] at ho
  obtain ⟨before, ev, hbefore, hsome⟩ := mem_orders_run ho
  have hev : StrategyInput.md ev ∈ ins := hbefore.subset (List.mem_append_right _ (List.mem_singleton_self _))
  exact ⟨ev, h.seen ▸ List.mem_filterMap.mpr ⟨.md ev, hev, rfl⟩, ImbalanceStrategy.onMd_tags hsome⟩

/-- The order on its way out is one of the strategy's. -/
theorem OrderPath.sending_emitted (h : OrderPath v) : ∀ o ∈ v.world.sent ++ v.gateway.pc.sending,
    o ∈ v.world.emitted.map Prod.fst := fun o ho => by
  rw [h.orders]
  exact List.mem_append_left _ (h.wire.subset ho)

end Snapshot

/-! ### What the threads hold of the clock -/

/-- The reading that the feed handler took for the datagram in its hand. -/
def FeedAt.arrival? : FeedAt → Option UInt64
  | .reading _ arrival | .pushing _ _ _ arrival => some arrival
  | .loop | .recv | .stopped => none

structure FeedThread.Stamped (t : FeedThread) (now : UInt64) : Prop where
  arrived : ∀ d ∈ t.arrived, d.2 ≤ now
  hand : ∀ arrival ∈ t.pc.arrival?, arrival ∈ t.arrived.map Prod.snd

structure GatewayThread.Stamped {cap : TableSize} (t : GatewayThread cap) (now : UInt64) : Prop where
  entries : ∀ i, (t.gateway.inflight.get i).mdTsc ≤ (t.gateway.inflight.get i).sendTsc ∧
    (t.gateway.inflight.get i).sendTsc ≤ now

namespace FeedThread

variable {z : EngineSizes} {t : FeedThread} {now now' : UInt64}

theorem Stamped.mono (h : t.Stamped now) (hle : now ≤ now') : t.Stamped now' :=
  ⟨fun d hd => UInt64.le_trans (h.arrived d hd) hle, h.hand⟩

theorem Stamped.recv (h : t.Stamped now) (d : List UInt8) : (t.recv d now).Stamped now := by
  refine ⟨fun x hx => ?_, fun arrival ha => ?_⟩
  · rcases List.mem_append.mp hx with hx | hx
    · exact h.arrived x hx
    · exact List.mem_singleton.mp hx ▸ UInt64.le_refl _
  · have hlast : now ∈ (t.arrived ++ [(d, now)]).map Prod.snd :=
      List.mem_map.mpr ⟨(d, now), List.mem_append_right _ (List.mem_singleton_self _), rfl⟩
    unfold FeedThread.recv at ha
    dsimp only at ha
    split at ha
    · cases ha
    · cases ha
      exact hlast

theorem Stamped.work (h : t.Stamped now) (hle : now ≤ now') {w : World}
    {k : UInt64 → World → Option (FeedThread × World)} {r : FeedThread × World} (hn : t.next z = .work k)
    (hk : k now' w = some r) : r.1.Stamped now' := by
  have hmono := h.mono hle
  have hand := h.hand
  unfold FeedThread.next at hn
  split at hn <;> cases hn <;> dsimp only at hk
  · obtain rfl := Option.some.inj hk
    refine { hmono with hand := fun arrival ha => ?_ }
    cases hrun : w.running <;> simp [hrun, FeedAt.arrival?] at ha
  · split at hk
    · obtain rfl := Option.some.inj hk
      exact { hmono with hand := fun _ ha => by cases ha }
    · obtain rfl := Option.some.inj hk
      exact hmono.recv _
  · next hpc =>
    rw [hpc] at hand
    split at hk
    · obtain ⟨_, -, rfl⟩ := Option.map_eq_some_iff.mp hk
      exact { hmono with hand }
    · obtain rfl := Option.some.inj hk
      exact { hmono with hand := fun _ ha => by cases ha }

theorem Stamped.call (h : t.Stamped now) {q : QueueName} {d : Channel.End} {own : z.wiring.owner q d = .feed}
    {a : d.Arg (z.wiring.Payload q)} {k : d.Ret (z.wiring.Payload q) → FeedThread} (hn : t.next z = .call q d own a k)
    (r : d.Ret (z.wiring.Payload q)) : (k r).Stamped now := by
  have hand := h.hand
  unfold FeedThread.next at hn
  split at hn
  case h_4 ev spins reader arrival hpc =>
    cases hn
    rw [hpc] at hand
    cases r with
    | true => exact { h with hand }
    | false => cases spins <;> exact { h with hand }
  all_goals cases hn

end FeedThread

namespace GatewayThread

variable {z : EngineSizes} {cap : TableSize} {t : GatewayThread cap} {now now' : UInt64}

theorem Stamped.mono (h : t.Stamped now) (hle : now ≤ now') : t.Stamped now' :=
  ⟨fun i => ⟨(h.entries i).1, UInt64.le_trans (h.entries i).2 hle⟩⟩

/-- Another entry whose readings are in order. -/
theorem Stamped.setSlot (h : t.Stamped now) {pc : GatewayAt} {g : OrderGateway cap} {id : UInt64} {e : InFlight}
    (hg : g.inflight = (t.gateway.setSlot id e).inflight) (hmd : e.mdTsc ≤ e.sendTsc) (hsend : e.sendTsc ≤ now) :
    Stamped { pc, gateway := g } now where
  entries i := by
    dsimp only
    rw [hg]
    by_cases hi : i = cap.slot id
    · subst hi
      have hself : (t.gateway.setSlot id e).inflight.get (cap.slot id) = e := OrderGateway.slot_setSlot
      rw [hself]
      exact ⟨hmd, hsend⟩
    · rw [OrderGateway.get_setSlot_ne hi]
      exact h.entries i

theorem Stamped.work {t : GatewayThread z.flightCap} (h : t.Stamped now) (hle : now ≤ now') {w : World}
    {k : UInt64 → World → Option (GatewayThread z.flightCap × World)} {r : GatewayThread z.flightCap × World}
    (hn : t.next z = .work k) (hk : k now' w = some r) (hsend : ∀ o, t.pc = .send o → o.mdTimestamp ≤ now) :
    r.1.Stamped now' := by
  have hmono := h.mono hle
  unfold GatewayThread.next at hn
  split at hn <;> cases hn <;> dsimp only at hk
  · obtain rfl := Option.some.inj hk
    exact ⟨hmono.entries⟩
  · split at hk
    · obtain rfl := Option.some.inj hk
      exact ⟨hmono.entries⟩
    · split at hk
      · obtain rfl := Option.some.inj hk
        exact ⟨hmono.entries⟩
      · obtain rfl := Option.some.inj hk
        unfold handle
        split
        · next rep _ _ =>
          have hslot := hmono.entries (z.flightCap.slot rep.orderId)
          exact hmono.setSlot rfl hslot.1 hslot.2
        · exact ⟨hmono.entries⟩
  · obtain rfl := Option.some.inj hk
    unfold checked
    dsimp only
    split <;> exact ⟨hmono.entries⟩
  · next hpc =>
    obtain rfl := Option.some.inj hk
    exact hmono.setSlot rfl (UInt64.le_trans (hsend _ hpc) hle) (UInt64.le_refl _)

theorem Stamped.call {t : GatewayThread z.flightCap} (h : t.Stamped now) {q : QueueName} {d : Channel.End}
    {own : z.wiring.owner q d = .gateway} {a : d.Arg (z.wiring.Payload q)}
    {k : d.Ret (z.wiring.Payload q) → GatewayThread z.flightCap} (hn : t.next z = .call q d own a k)
    (r : d.Ret (z.wiring.Payload q)) : (k r).Stamped now := by
  unfold GatewayThread.next at hn
  split at hn <;> cases hn <;> cases r <;> exact ⟨h.entries⟩

end GatewayThread

namespace RingEngine

variable {z : EngineSizes} {cfg : EngineConfig} {f f' : RingEngine z}

/-- The event that an order answers, and the datagram that brought it. -/
def Tagged (f : RingEngine z) (o : OrderRequest) : Prop :=
  ∃ ev ∈ f.world.seen, Arrived f.feed.arrived ev ∧ o.mdTimestamp = ev.arrivalTsc ∧ o.symbol = ev.msg.symbol

theorem tagged_of_reachable (hr : Reachable Step (start z cfg) f) :
    (∀ o ∈ f.world.emitted.map Prod.fst, Tagged f o) ∧
      ∀ o ∈ f.world.sent ++ f.gateway.pc.sending, o ∈ f.world.emitted.map Prod.fst := by
  obtain ⟨v, hv, hs, ins, hins⟩ := invariant
    (I := fun v : Snapshot z => v.Sound cfg ∧ ∃ ins, v.InSession cfg ins)
    ⟨Snapshot.sound_start, [], Snapshot.inSession_start⟩
    (fun hi hm => by
      obtain ⟨hs, ins, hins⟩ := hi
      exact ⟨hs.move hm, hins.move hm⟩) hr
  have harrived := hs.market.seen_arrived
  have hemitted := hins.emitted_seen
  have hsending := hs.orders.sending_emitted
  rw [hv.world, hv.feed] at harrived
  rw [hv.world] at hemitted hsending
  rw [hv.gateway] at hsending
  refine ⟨fun o ho => ?_, hsending⟩
  obtain ⟨ev, hev, htag⟩ := hemitted o ho
  exact ⟨ev, hev, harrived ev hev, htag⟩

structure Stamped (f : RingEngine z) (now : UInt64) : Prop where
  feed : f.feed.Stamped now
  gateway : f.gateway.Stamped now

theorem Stamped.emitted_le {now : UInt64} (h : Stamped f now) (hr : Reachable Step (start z cfg) f) {o : OrderRequest}
    (ho : o ∈ f.world.emitted.map Prod.fst) : o.mdTimestamp ≤ now := by
  obtain ⟨ev, -, harrived, htag, -⟩ := (tagged_of_reachable hr).1 o ho
  obtain ⟨d, hd, hd'⟩ := List.mem_map.mp harrived.tag
  exact htag ▸ hd' ▸ h.feed.arrived d hd

theorem Stamped.sending {now : UInt64} (h : Stamped f now) (hr : Reachable Step (start z cfg) f) :
    ∀ o, f.gateway.pc = .send o → o.mdTimestamp ≤ now := by
  intro o hpc
  have hmem : o ∈ f.world.sent ++ f.gateway.pc.sending := by
    rw [hpc]
    exact List.mem_append_right _ (List.mem_singleton_self o)
  exact h.emitted_le hr ((tagged_of_reachable hr).2 o hmem)

theorem Stamped.step {now now' : UInt64} {l : Label Stage UInt64 Outside} (h : Stamped f now)
    (hr : Reachable Step (start z cfg) f) (hs : Clocked Step reading (f, now) l (f', now')) : Stamped f' now' := by
  obtain ⟨hstep, hle, hlast⟩ := hs
  have hsend := h.sending hr
  obtain ⟨hfeed, hgateway⟩ := h
  cases Threads.Channeled.Step.move hstep with
  | @work t e k r hn hk =>
    obtain rfl : now' = e := hlast
    have hnow : now ≤ now' := hle _ rfl
    cases t with
    | feed => exact ⟨hfeed.work hnow hn hk, hgateway.mono hnow⟩
    | strategy => exact ⟨hfeed.mono hnow, hgateway.mono hnow⟩
    | gateway => exact ⟨hfeed.mono hnow, hgateway.work hnow hn hk hsend⟩
  | @op t e q d own a k hn hr =>
    obtain rfl : now' = e := hlast
    exact ⟨hfeed.mono (hle _ rfl), hgateway.mono (hle _ rfl)⟩
  | @ret t e q d own a k r hn hr =>
    obtain rfl : now' = e := hlast
    have hnow : now ≤ now' := hle _ rfl
    cases t with
    | feed => exact ⟨(hfeed.mono hnow).call hn r, hgateway.mono hnow⟩
    | strategy => exact ⟨hfeed.mono hnow, hgateway.mono hnow⟩
    | gateway => exact ⟨hfeed.mono hnow, (hgateway.mono hnow).call hn r⟩
  | outside =>
    obtain rfl : now' = now := hlast
    exact ⟨hfeed, hgateway⟩

theorem stamped_of_reachable {c now : UInt64} (hr : Reachable (Clocked Step reading) (start z cfg, c) (f, now)) :
    Reachable Step (start z cfg) f ∧ Stamped f now := by
  refine hr.invariant (I := fun s : RingEngine z × UInt64 => Reachable Step (start z cfg) s.1 ∧ Stamped s.1 s.2)
    ⟨.refl, ⟨⟨(fun _ hd => by cases hd), (fun _ ha => by cases ha)⟩, ⟨fun i => ?_⟩⟩⟩ fun hi hs => ?_
  · have hentry : (start z cfg).gateway.gateway.inflight.get i = {} := Table.get_replicate
    rw [hentry]
    exact ⟨UInt64.le_refl _, UInt64.zero_le⟩
  · obtain ⟨hr, hstamped⟩ := hi
    exact ⟨hr.next hs.1, hstamped.step hr hs⟩

/-- What is about to be subtracted from a reading of the clock. -/
structure Timely (f : RingEngine z) (now : UInt64) : Prop where
  orders : ∀ o ∈ f.world.emitted.map Prod.fst, Tagged f o
  arrived : ∀ d ∈ f.feed.arrived, d.2 ≤ now
  pushing : ∀ arrival ∈ f.feed.pc.arrival?, arrival ≤ now
  sending : ∀ o, f.gateway.pc = .send o → o.mdTimestamp ≤ now
  sent : ∀ o ∈ f.world.sent, o.mdTimestamp ≤ now
  entries : ∀ i, (f.gateway.gateway.inflight.get i).mdTsc ≤ (f.gateway.gateway.inflight.get i).sendTsc ∧
    (f.gateway.gateway.inflight.get i).sendTsc ≤ now

theorem Stamped.timely {now : UInt64} (h : Stamped f now) (hr : Reachable Step (start z cfg) f) : Timely f now := by
  obtain ⟨htagged, hsending⟩ := tagged_of_reachable hr
  refine ⟨htagged, h.feed.arrived, fun arrival ha => ?_, h.sending hr, fun o ho => ?_, h.gateway.entries⟩
  · obtain ⟨d, hd, rfl⟩ := List.mem_map.mp (h.feed.hand arrival ha)
    exact h.feed.arrived d hd
  · exact h.emitted_le hr (hsending o (List.mem_append_left _ ho))

end RingEngine

namespace ClosedLoop

variable {z : EngineSizes} {ρ : Type} {cfg : EngineConfig} {c : SimConfig} {rng : ρ} {draw : ρ → UInt64 × ρ}
  {s : ClosedLoop z ρ} {tsc now : UInt64}

/-! ### Around the loop -/

/-- The clock of the engine: the exchange reads one of its own. -/
theorem engine_clocked (hr : Reachable (Clocked (Step draw) reading) (start z cfg c rng, tsc) (s, now)) :
    Reachable (Clocked RingEngine.Step RingEngine.reading) (RingEngine.start z cfg, tsc) (s.engine, now) := by
  refine hr.invariant (I := fun s : ClosedLoop z ρ × UInt64 =>
    Reachable (Clocked RingEngine.Step RingEngine.reading) (RingEngine.start z cfg, tsc) (s.1.engine, s.2)) .refl
    fun {s e t} hi hs => ?_
  obtain ⟨hstep, hle, hlast⟩ := hs
  rcases hstep.move.engine with ⟨hsame, hnone⟩ | ⟨l, hl, hread⟩
  · rw [hnone] at hlast
    rw [hsame, hlast]
    exact hi
  · exact hi.next ⟨hl, hread ▸ hle, hread ▸ hlast⟩

/-- A report that the gateway takes in carries the id and the tag of an order that was sent. -/
theorem Authentic.tags (h : Authentic s) {r : ExecReport}
    (hr : r ∈ s.engine.world.arrived.filterMap ExecReport.ofDatagram?) :
    ∃ o ∈ s.engine.world.sent, r.orderId = o.orderId ∧ r.mdTimestamp = o.mdTimestamp := by
  obtain ⟨m, harrived, hdec⟩ := List.mem_filterMap.mp hr
  obtain ⟨r', hr', rfl⟩ := h.arrived m harrived
  obtain ⟨o, ho, rfl⟩ := h.answers r' hr'
  have hback := ExecReport.ofDatagram?_datagram (Exchange.fill o.onWire) []
  rw [List.append_nil, hdec] at hback
  obtain rfl := Option.some.inj hback
  exact ⟨o, ho, rfl, rfl⟩

/-- The tag comes back with the report, so that neither a round trip wraps around. -/
theorem round_trips_never_wrap (hr : Reachable (Clocked (Step draw) reading) (start z cfg c rng, tsc) (s, now)) :
    RingEngine.Timely s.engine now ∧
      ∀ r ∈ s.engine.world.matched, ∃ o ∈ s.engine.world.sent, r.orderId = o.orderId ∧
        r.mdTimestamp = o.mdTimestamp ∧ RingEngine.Tagged s.engine o ∧ r.mdTimestamp ≤ now := by
  obtain ⟨hreach, hstamped⟩ := RingEngine.stamped_of_reachable (engine_clocked hr)
  have htimely := hstamped.timely hreach
  refine ⟨htimely, fun r hmatched => ?_⟩
  obtain ⟨v, hv, hs⟩ := RingEngine.sound_of_reachable hreach
  obtain ⟨taken, harrived, hsub, -⟩ := hs.fills.intake
  rw [hv.world] at harrived hsub
  have hdec : r ∈ s.engine.world.arrived.filterMap ExecReport.ofDatagram? := by
    rw [harrived, List.filterMap_append]
    exact List.mem_append_left _ (hsub.subset hmatched)
  obtain ⟨o, ho, hid, htag⟩ := (authentic_of_reachable hr.of_clocked).tags hdec
  have hemitted := (RingEngine.tagged_of_reachable hreach).2 o (List.mem_append_left _ ho)
  exact ⟨o, ho, hid, htag, htimely.orders o hemitted, htag ▸ htimely.sent o ho⟩

theorem round_trips_never_wrap_clean : ∃ s, after? Engine.least Engine.hundreds quotes clean = some s ∧
    s.engine.world.matched.length = 1 ∧ ∃ now, RingEngine.Timely s.engine now ∧
      ∀ r ∈ s.engine.world.matched, ∃ o ∈ s.engine.world.sent, r.orderId = o.orderId ∧
        r.mdTimestamp = o.mdTimestamp ∧ RingEngine.Tagged s.engine o ∧ r.mdTimestamp ≤ now := by
  have hsome : ((after? Engine.least Engine.hundreds quotes clean).map fun s => s.engine.world.matched.length) =
      some 1 := by decide +kernel
  obtain ⟨s, hs, hmatched⟩ := Option.map_eq_some_iff.mp hsome
  have hsorted : ((0 : UInt64) :: clean.filterMap reading).Pairwise (· ≤ ·) := by decide +kernel
  obtain ⟨now, -, hr⟩ := Reachable.clocked_of_foldlM hs hsorted
  exact ⟨s, hs, hmatched, now, round_trips_never_wrap hr⟩

end ClosedLoop

end Hft
