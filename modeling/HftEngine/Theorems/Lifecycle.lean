import HftEngine.Lifecycle
import HftEngine.Theorems.Engine
import HftEngine.Theorems.GatewaySession

/-! What becomes of the reports of an order: the first one that the gateway handles is matched, whatever its status,
    opens the latch and is the only one that counts. -/

namespace Hft

open Transition

/-! ### Legal sequences -/

section
variable {o : OrderRequest}

theorem Legal.ne_nil {rs : List ExecReport} (hl : Legal o rs) : rs ≠ [] := by
  obtain ⟨acks, partials, last, rfl, -⟩ := hl
  simp

/-- A legal sequence that opens with a terminal report has no other. -/
theorem Legal.length_of_terminal {r : ExecReport} {rest : List ExecReport} (hl : Legal o (r :: rest)) :
    r.Terminal ↔ (r :: rest).length = 1 := by
  obtain ⟨acks, partials, last, heq, hreports⟩ := hl
  constructor
  · intro hterm
    have hnotAck : r ∉ acks := fun hr => by
      have hstatus := (hreports.acknowledges r hr).1
      unfold ExecReport.Terminal at hterm
      rw [hstatus] at hterm
      exact absurd hterm (by decide)
    have hnotPartial : r ∉ partials := fun hr => by
      have hstatus := hreports.fillsInPart r hr
      unfold ExecReport.Terminal at hterm
      rw [hstatus] at hterm
      exact absurd hterm (by decide)
    cases acks with
    | cons a acks =>
      obtain ⟨rfl, -⟩ := List.cons.inj heq
      exact absurd List.mem_cons_self hnotAck
    | nil =>
      cases partials with
      | cons p partials =>
        obtain ⟨rfl, -⟩ := List.cons.inj heq
        exact absurd List.mem_cons_self hnotPartial
      | nil => rw [heq]; rfl
  · intro hlen
    have hnil : acks ++ partials = [] := by
      have := congrArg List.length heq
      rw [hlen, List.length_append, List.length_singleton] at this
      exact List.length_eq_zero_iff.mp (by omega)
    rw [hnil] at heq
    obtain ⟨rfl, -⟩ := List.cons.inj heq
    exact hreports.ends

end

/-! ### The fill loop of the strategy -/

namespace StrategyRunner

variable {n : NumTicks} {fillCap k : Nat} {s t : ImbalanceStrategy n} {fills fills' : BoundedQueue ExecReport fillCap}

theorem takes_of_drainFills (hd : drainFills k s fills = (t, fills')) :
    (∀ x ∈ takes k s fills, x.after = x.before.onFill x.report) ∧
    fills.items = (takes k s fills).map Take.report ++ fills'.items ∧ (takes k s fills = [] → t = s) := by
  induction k generalizing s fills with
  | zero =>
    cases hd
    exact ⟨by simp [takes], by simp [takes], fun _ => rfl⟩
  | succ k ih =>
    cases hpop : fills.pop? with
    | none =>
      simp only [drainFills, hpop] at hd
      cases hd
      exact ⟨by simp [takes, hpop], by simp [takes, hpop], fun _ => rfl⟩
    | some next =>
      obtain ⟨r, rest⟩ := next
      simp only [drainFills, hpop] at hd
      obtain ⟨hall, hitems, -⟩ := ih hd
      have htakes : takes (k + 1) s fills = ⟨s, r, s.onFill r⟩ :: takes k (s.onFill r) rest := by simp [takes, hpop]
      rw [htakes]
      refine ⟨fun x hx => ?_, ?_, fun h => by cases h⟩
      · rcases List.mem_cons.mp hx with rfl | hx
        · rfl
        · exact hall x hx
      · rw [BoundedQueue.pop?_eq_some.mp hpop, hitems]
        rfl

theorem pollFeed_fills {feedCap orderCap : Nat} {runner : StrategyRunner n} {feed : BoundedQueue MdEvent feedCap}
    {orders : BoundedQueue OrderRequest orderCap} {p : Polled n feedCap orderCap fillCap}
    (h : pollFeed runner feed orders fills = some p) : p.fills = fills := by
  unfold pollFeed at h
  split at h
  · cases h
    rfl
  · split at h
    · cases h
      rfl
    · obtain ⟨_, -, hp⟩ := Option.bind_eq_some_iff.mp h
      cases hp
      rfl

/-- Market data never opens the latch. -/
theorem pollFeed_inFlight {feedCap orderCap : Nat} {runner : StrategyRunner n} {feed : BoundedQueue MdEvent feedCap}
    {orders : BoundedQueue OrderRequest orderCap} {p : Polled n feedCap orderCap fillCap}
    (h : pollFeed runner feed orders fills = some p) (hclosed : runner.strat.inFlight = true) :
    p.runner.strat.inFlight = true := by
  unfold pollFeed at h
  cases hpop : feed.pop? with
  | none =>
    simp only [hpop] at h
    cases h
    exact hclosed
  | some next =>
    obtain ⟨ev, feed'⟩ := next
    rcases runner.strat.onMd_cases ev with ⟨t, hmd, hkept⟩ | ⟨t, o, hmd, hemits⟩
    · simp only [hpop, hmd] at h
      cases h
      exact hkept.inFlight.trans hclosed
    · exact absurd (hemits.free.symm.trans hclosed) Bool.false_ne_true

end StrategyRunner

namespace Engine

open GatewaySession (Genuine rounds rounds_of_drainFills drainFills_invariant)

variable {z : EngineSizes} {cfg : EngineConfig} {s t u : Engine z} {e : EngineEvent} {a : OrderLoop}
  {h : List (Engine z × EngineEvent)} {id : UInt64} {now sendT : UInt64} {o : OrderRequest}

/-! ### Reports through the engine -/

theorem gatewayPoll?_inv (hp : s.gatewayPoll? now sendT = some t) :
    ∃ g rx fills, OrderGateway.drainFills 32 s.gateway s.fillRx s.fillQ = some (g, rx, fills) ∧ t.fillRx = rx ∧
      t.fillQ = fills := by
  obtain ⟨p, hpoll, rfl⟩ := Option.map_eq_some_iff.mp hp
  obtain ⟨⟨g, rx, fills⟩, hd, hp⟩ := Option.bind_eq_some_iff.mp hpoll
  obtain ⟨hrx, hfills, -⟩ := OrderGateway.pollOrder_cases (Option.some.inj hp)
  exact ⟨g, rx, fills, hd, hrx, hfills⟩

/-- A report goes from the socket through `handle_fill`, and when it matches through the fill queue to `on_fill`. -/
structure Flows (handled : List (Round z.flightCap z.fillCap.val.toNat)) (taken : List (Take z.ticks))
    (arrived : List (List UInt8)) (s t : Engine z) : Prop where
  genuine : ∀ r ∈ handled, Genuine r
  calls : ∀ x ∈ taken, x.after = x.before.onFill x.report
  fifo : s.fillQ.items ++ (handled.filter fun r => decide r.Matched).map Round.report =
    taken.map Take.report ++ t.fillQ.items
  intake : (s.fillRx ++ arrived).filterMap ExecReport.ofDatagram? =
    handled.map Round.report ++ t.fillRx.filterMap ExecReport.ofDatagram?

theorem flows_of_eq {arrived : List (List UInt8)} (hfills : t.fillQ = s.fillQ) (hrx : t.fillRx = s.fillRx ++ arrived) :
    Flows [] [] arrived s t where
  genuine r hr := by cases hr
  calls x hx := by cases hx
  fifo := by
    rw [hfills]
    exact List.append_nil _
  intake := by
    rw [hrx]
    rfl

theorem flows_of_step (hs : Step s e t) : Flows (s.handled e) (s.taken e) (arrives e) s t := by
  cases e with
  | gatewayPoll now sendT =>
    obtain ⟨-, hs⟩ := Option.ite_none_right_eq_some.mp hs
    obtain ⟨g, rx, fills, hd, hrx, hfills⟩ := gatewayPoll?_inv hs
    obtain ⟨hgenuine, hitems, hintake⟩ := rounds_of_drainFills hd
    refine ⟨hgenuine, fun x hx => (by cases hx), ?_, ?_⟩
    · rw [hfills, hitems]
      rfl
    · rw [hrx, arrives, List.append_nil, hintake]
      rfl
  | strategyPoll =>
    obtain ⟨-, hs⟩ := Option.ite_none_right_eq_some.mp hs
    obtain ⟨p, hp, rfl⟩ := Option.map_eq_some_iff.mp hs
    obtain ⟨⟨strat, fills⟩, hd⟩ : ∃ next, StrategyRunner.drainFills 16 s.strategy.strat s.fillQ = next := ⟨_, rfl⟩
    obtain ⟨hcalls, hitems, -⟩ := StrategyRunner.takes_of_drainFills hd
    simp only [StrategyRunner.pollOnce, hd] at hp
    have hfills : p.fills = fills := StrategyRunner.pollFeed_fills hp
    refine ⟨fun r hr => (by cases hr), hcalls, ?_, ?_⟩
    · show s.fillQ.items ++ [] = _ ++ p.fills.items
      rw [List.append_nil, hfills, hitems]
      rfl
    · rw [arrives, List.append_nil]
      rfl
  | md ev =>
    obtain ⟨feedQ, -, rfl⟩ := Option.map_eq_some_iff.mp hs
    exact flows_of_eq rfl (List.append_nil _).symm
  | datagram m =>
    cases hs
    exact flows_of_eq rfl rfl
  | setKill | stop =>
    cases hs
    exact flows_of_eq rfl (List.append_nil _).symm
  | strategyExit | gatewayExit =>
    obtain ⟨-, hs⟩ := Option.ite_none_left_eq_some.mp hs
    cases hs
    exact flows_of_eq rfl (List.append_nil _).symm

/-- Only a call of `on_fill` opens the latch. -/
theorem inFlight_of_not_taken (hs : Step s e t) (hclosed : s.inFlight = true) (hnone : s.taken e = []) :
    t.inFlight = true := by
  rcases step_cases hs with ⟨rfl, hpoll⟩ | ⟨now, sendT, rfl, hpoll⟩ | ⟨-, hout, -⟩
  · obtain ⟨p, hp, rfl⟩ := Option.map_eq_some_iff.mp hpoll
    obtain ⟨⟨strat, fills⟩, hd⟩ : ∃ next, StrategyRunner.drainFills 16 s.strategy.strat s.fillQ = next := ⟨_, rfl⟩
    have hkept := (StrategyRunner.takes_of_drainFills hd).2.2 hnone
    simp only [StrategyRunner.pollOnce, hd, hkept] at hp
    exact StrategyRunner.pollFeed_inFlight hp hclosed
  · obtain ⟨p, -, rfl⟩ := Option.map_eq_some_iff.mp hpoll
    exact hclosed
  · unfold inFlight
    rw [hout.strategy]
    exact hclosed

theorem inFlight_of_run (hr : Run Step s h t) (hclosed : s.inFlight = true) (hnone : takenIn h = []) :
    t.inFlight = true := by
  induction hr with
  | nil => exact hclosed
  | @snoc h t u e hr hs ih =>
    obtain ⟨hbefore, hlast⟩ := List.append_eq_nil_iff.mp ((List.flatMap_append ..).symm.trans hnone)
    exact inFlight_of_not_taken hs (ih hbefore) (by simpa using hlast)

theorem Flows.trans {handled handled' : List (Round z.flightCap z.fillCap.val.toNat)}
    {taken taken' : List (Take z.ticks)} {arrived arrived' : List (List UInt8)} (hf : Flows handled taken arrived s t)
    (hf' : Flows handled' taken' arrived' t u) :
    Flows (handled ++ handled') (taken ++ taken') (arrived ++ arrived') s u where
  genuine r hr := (List.mem_append.mp hr).elim (hf.genuine r) (hf'.genuine r)
  calls x hx := (List.mem_append.mp hx).elim (hf.calls x) (hf'.calls x)
  fifo := by
    rw [List.filter_append, List.map_append, ← List.append_assoc, hf.fifo, List.append_assoc, hf'.fifo,
      List.map_append, List.append_assoc]
  intake := by
    rw [← List.append_assoc, List.filterMap_append, hf.intake, List.append_assoc, ← List.filterMap_append, hf'.intake,
      List.map_append, List.append_assoc]

theorem flows_of_run (hr : Run Step u h s) :
    Flows (handledIn h) (takenIn h) (h.flatMap fun p => arrives p.2) u s := by
  induction hr with
  | nil => exact flows_of_eq rfl (List.append_nil _).symm
  | snoc _ hs ih =>
    unfold handledIn takenIn at *
    simpa using ih.trans (flows_of_step hs)

/-! ### The first report of an order -/

/-- Round `r` handles the first report of order `id`, and it is the first that matches at all. -/
structure Leads (id : UInt64) (r : Round z.flightCap z.fillCap.val.toNat)
    (rs : List (Round z.flightCap z.fillCap.val.toNat)) : Prop where
  own : ∃ rest, (rs.filter fun r => decide (r.reportId = id)) = r :: rest
  matched : ∃ rest, (rs.filter fun r => decide r.Matched) = r :: rest

theorem Leads.append {r : Round z.flightCap z.fillCap.val.toNat} {rs rs' : List (Round z.flightCap z.fillCap.val.toNat)}
    (hl : Leads id r rs) : Leads id r (rs ++ rs') := by
  obtain ⟨⟨rest, hown⟩, rest', hmatched⟩ := hl
  exact ⟨⟨_, by rw [List.filter_append, hown, List.cons_append]⟩,
    _, by rw [List.filter_append, hmatched, List.cons_append]⟩

/-- None of the rounds handles a report of order `id` or matches. -/
structure Silent (id : UInt64) (rs : List (Round z.flightCap z.fillCap.val.toNat)) : Prop where
  own : (rs.filter fun r => decide (r.reportId = id)) = []
  matched : (rs.filter fun r => decide r.Matched) = []

theorem Silent.append_silent {rs rs' : List (Round z.flightCap z.fillCap.val.toNat)} (hq : Silent id rs)
    (hq' : Silent id rs') : Silent id (rs ++ rs') :=
  ⟨by rw [List.filter_append, hq.own, hq'.own]; rfl, by rw [List.filter_append, hq.matched, hq'.matched]; rfl⟩

theorem Silent.append_leads {r : Round z.flightCap z.fillCap.val.toNat}
    {rs rs' : List (Round z.flightCap z.fillCap.val.toNat)} (hq : Silent id rs) (hl : Leads id r rs') :
    Leads id r (rs ++ rs') := by
  obtain ⟨⟨rest, hown⟩, rest', hmatched⟩ := hl
  exact ⟨⟨rest, by rw [List.filter_append, hq.own, hown]; rfl⟩,
    rest', by rw [List.filter_append, hq.matched, hmatched]; rfl⟩

/-- While one order works, a round matches exactly the reports of that order. -/
theorem round_of_working {r : Round z.flightCap z.fillCap.val.toNat} (hg : r.before.Holds (some o)) (hr : Genuine r) :
    (r.reportId = o.orderId ∧ r.Matched) ∨ (r.reportId ≠ o.orderId ∧ ¬r.Matched ∧ r.after.Holds (some o)) := by
  by_cases hid : r.reportId = o.orderId
  · refine Or.inl ⟨hid, hr.test.mpr ?_⟩
    rw [hid]
    exact hg.entry o rfl
  · have hskip := OrderGateway.handleFill_unmatched r.report r.fillsBefore hg fun o' ho' => by
      cases ho'
      exact hid
    obtain ⟨hafter, -⟩ := Prod.mk.inj (Option.some.inj (hr.handled.symm.trans hskip))
    refine Or.inr ⟨hid, fun hm => ?_, hg.congr (by rw [hafter])⟩
    have hcount : r.after.fillsMatched = r.before.fillsMatched + 1 := hm
    rw [hafter] at hcount
    exact GatewaySession.ne_add_one _ hcount

theorem rounds_of_working {g g' : OrderGateway z.flightCap} {rx rx' : List (List UInt8)}
    {fills fills' : BoundedQueue ExecReport z.fillCap.val.toNat} {k : Nat} (hg : g.Holds (some o))
    (hd : OrderGateway.drainFills k g rx fills = some (g', rx', fills')) :
    (Silent o.orderId (rounds k g rx fills) ∧ g'.Holds (some o)) ∨
      ∃ r, Leads o.orderId r (rounds k g rx fills) := by
  refine drainFills_invariant (b := [])
    (I := fun rs g => (Silent o.orderId rs ∧ g.Holds (some o)) ∨ ∃ r, Leads o.orderId r rs) hd
    (Or.inl ⟨⟨rfl, rfl⟩, hg⟩) ?_
  rintro rs r (⟨hq, hbefore⟩ | ⟨r', hl⟩) hr
  · rcases round_of_working hbefore hr with ⟨hid, hm⟩ | ⟨hid, hm, hafter⟩
    · have hl : Leads o.orderId r [r] := ⟨⟨[], by simp [hid]⟩, [], by simp [hm]⟩
      exact Or.inr ⟨r, hq.append_leads hl⟩
    · have hq' : Silent o.orderId [r] := ⟨by simp [hid], by simp [hm]⟩
      exact Or.inl ⟨hq.append_silent hq', hafter⟩
  · exact Or.inr ⟨r', hl.append⟩

/-- A step while an order works: nothing of it is handled and it still works, or its first report is matched. -/
theorem Tracks.step_working (ht : Tracks s a) (hp : a.phase = .working o) (hs : Step s e t) :
    (Silent o.orderId (s.handled e) ∧ Tracks t a) ∨ ∃ r, Leads o.orderId r (s.handled e) := by
  have hflows := flows_of_step hs
  rcases step_cases hs with ⟨rfl, hpoll⟩ | ⟨now, sendT, rfl, hpoll⟩ | ⟨hne, hout, -⟩
  · obtain ⟨t', evs, b, hpoll', -, hr, ht', hevs⟩ := ht.strategyPoll
    obtain rfl : t' = t := Option.some.inj (hpoll'.symm.trans hpoll)
    have hb : b = a := OrderLoop.eq_of_working hp hr fun p hp r hreport => by
      rcases hevs p hp with hdeliver | ⟨o', hemit, -⟩
      · cases hdeliver.symm.trans hreport
      · cases hemit.symm.trans hreport
    exact Or.inl ⟨⟨rfl, rfl⟩, hb ▸ ht'⟩
  · obtain ⟨g, rx, fills, hd, -, -⟩ := gatewayPoll?_inv hpoll
    have htable := ht.table
    rw [hp] at htable
    rcases rounds_of_working htable hd with ⟨hq, -⟩ | hl
    · obtain ⟨t', b, hpoll', hmove, ht', -⟩ := ht.gatewayPoll now sendT
      obtain rfl : t' = t := Option.some.inj (hpoll'.symm.trans hpoll)
      refine Or.inl ⟨hq, ?_⟩
      cases hmove with
      | pass hp' | drop hp' => cases hp'.symm.trans hp
      | stay => exact ht'
      | @report o' r hp' =>
        -- The report would be on the fill queue, yet no round matched.
        have hfifo := hflows.fifo
        rw [ht.fillQ, hp, ht'.fillQ, handled, hq.matched] at hfifo
        cases hfifo
    · exact Or.inr hl
  · refine Or.inl ⟨?_, hout.tracks ht⟩
    cases e with
    | gatewayPoll now sendT => exact absurd rfl (hne now sendT)
    | md | datagram | setKill | strategyPoll | stop | strategyExit | gatewayExit => exact ⟨rfl, rfl⟩

theorem run_of_working (ht : Tracks u a) (hp : a.phase = .working o) (hr : Run Step u h s) :
    (Silent o.orderId (handledIn h) ∧ Tracks s a) ∨ ∃ r, Leads o.orderId r (handledIn h) := by
  induction hr with
  | nil => exact Or.inl ⟨⟨rfl, rfl⟩, ht⟩
  | @snoc h s t e _ hs ih =>
    have hsnoc : handledIn (h ++ [(s, e)]) = handledIn h ++ s.handled e := by simp [handledIn]
    rw [hsnoc]
    rcases ih with ⟨hq, ht⟩ | ⟨r, hl⟩
    · rcases ht.step_working hp hs with ⟨hq', ht'⟩ | ⟨r, hl⟩
      · exact Or.inl ⟨hq.append_silent hq', ht'⟩
      · exact Or.inr ⟨r, hq.append_leads hl⟩
    · exact Or.inr ⟨r, hl.append⟩

/-! ### The whole sequence -/

/-- The gateway poll that puts an order on the wire leaves it working. -/
theorem working_of_sent (hu : Reachable Step (start z cfg) t) (hs : Step t (.gatewayPoll now sendT) u)
    (ho : u.sent = t.sent ++ [o]) : ∃ a, Tracks u a ∧ a.phase = .working o := by
  obtain ⟨_, a, hm⟩ := reachable_refines_loop hu
  obtain ⟨-, hpoll⟩ := Option.ite_none_right_eq_some.mp hs
  obtain ⟨u', b, hpoll', hmove, ht, -⟩ := hm.tracks.gatewayPoll now sendT
  obtain rfl : u' = u := Option.some.inj (hpoll'.symm.trans hpoll)
  rw [ht.sent, hm.tracks.sent] at ho
  refine ⟨b, ht, ?_⟩
  cases hmove with
  | @pass o' hp =>
    obtain rfl : o' = o := List.singleton_inj.mp (List.append_cancel_left ho)
    rfl
  | drop | report | stay => exact absurd (congrArg List.length ho) (by simp [OrderLoop.drop, OrderLoop.report])

theorem filter_reportId (rs : List (Round z.flightCap z.fillCap.val.toNat)) :
    (rs.map Round.report).filter (fun r => decide (r.orderId = id)) =
      (rs.filter fun r => decide (r.reportId = id)).map Round.report := by
  rw [List.filter_map]
  rfl

theorem filter_none {l : List ExecReport} (hl : ∀ r ∈ l, r.orderId ≠ id) :
    l.filter (fun r => decide (r.orderId = id)) = [] :=
  List.filter_eq_nil_iff.mpr fun r hr h => hl r hr (of_decide_eq_true h)

/-- The reports that arrive for an order are the reports of it that are handled. -/
theorem reportsOf_eq (hr : Run Step u h s) (hdone : Settled id s) :
    reportsOf id u h = ((handledIn h).filter fun r => decide (r.reportId = id)).map Round.report := by
  rw [reportsOf, (flows_of_run hr).intake, List.filter_append, filter_none hdone.1, List.append_nil, filter_reportId]

/-- The strategy takes the reports of an order that matched. -/
theorem taken_eq (hr : Run Step u h s) (hempty : u.fillQ.items = []) (hdone : Settled id s) :
    ((takenIn h).filter fun x => decide (x.reportId = id)).map Take.report =
      (((handledIn h).filter fun r => decide (r.reportId = id)).filter fun r => decide r.Matched).map Round.report := by
  have hfifo := congrArg (List.filter fun r : ExecReport => decide (r.orderId = id)) (flows_of_run hr).fifo
  rw [hempty, List.nil_append, List.filter_append, filter_none hdone.2, List.append_nil, filter_reportId,
    List.filter_comm, List.filter_map] at hfifo
  exact hfifo.symm

/-- Both stages count a legal sequence of reports in full, with the latch held to its end, exactly when the sequence is
    its terminal report alone; and the latch, closed when the order is sent, is open in no state before the first call
    of `on_fill`. -/
theorem accounted_iff_single (hu : Reachable Step (start z cfg) t) (hs : Step t (.gatewayPoll now sendT) u)
    (ho : u.sent = t.sent ++ [o]) (hr : Run Step u h s) (hlegal : Legal o (reportsOf o.orderId u h))
    (hdone : Settled o.orderId s) :
    (Accounted o.orderId (reportsOf o.orderId u h) h ↔ (reportsOf o.orderId u h).length = 1) ∧
      ∀ h' v, Run Step u h' v → takenIn h' = [] → v.inFlight = true := by
  obtain ⟨a, ht, hp⟩ := working_of_sent hu hs ho
  have hclosed : u.inFlight = true := by rw [ht.latch, hp]; rfl
  refine ⟨?_, fun h' v hv hnone => inFlight_of_run hv hclosed hnone⟩
  have hempty : u.fillQ.items = [] := by rw [ht.fillQ, hp]; rfl
  have hflows := flows_of_run hr
  have hreports := reportsOf_eq hr hdone
  have htaken := taken_eq hr hempty hdone
  obtain ⟨r, ⟨rest, hown⟩, more, hmatched⟩ : ∃ r, Leads o.orderId r (handledIn h) := by
    refine (run_of_working ht hp hr).resolve_left fun hq => hlegal.ne_nil ?_
    rw [hreports, hq.1.own]
    rfl
  rw [hown] at hreports htaken
  rw [hreports] at hlegal ⊢
  have hlegal : Legal o (r.report :: rest.map Round.report) := hlegal
  have hrown : r ∈ handledIn h ∧ r.reportId = o.orderId := by
    have hmem : r ∈ (handledIn h).filter fun r => decide (r.reportId = o.orderId) := by simp [hown]
    simpa using hmem
  have hrm : r.Matched := by
    have hmem : r ∈ (handledIn h).filter fun r => decide r.Matched := by simp [hmatched]
    simpa using (List.mem_filter.mp hmem).2
  -- What matched first is what the strategy took first.
  obtain ⟨x, xs, hx⟩ : ∃ x xs, takenIn h = x :: xs := by
    refine List.exists_cons_of_ne_nil fun hnil => ?_
    have hfifo := hflows.fifo
    rw [hempty, hmatched, hnil] at hfifo
    have hmem : r.report ∈ s.fillQ.items := by
      have hfifo : _ = s.fillQ.items := hfifo
      rw [← hfifo]
      exact List.mem_cons_self
    exact hdone.2 r.report hmem hrown.2
  have hxr : x.report = r.report := by
    have hfifo := hflows.fifo
    rw [hempty, hmatched, hx] at hfifo
    exact (List.cons.inj hfifo).1.symm
  have hxafter : x.after = x.before.onFill x.report := hflows.calls x (by rw [hx]; exact List.mem_cons_self)
  constructor
  · intro hacc
    obtain ⟨y, hy, -, hterm⟩ := hacc.latch [] x xs hx (by rw [hxafter]; rfl)
    obtain rfl := List.mem_singleton.mp hy
    rw [hxr] at hterm
    exact hlegal.length_of_terminal.mp hterm
  · intro hlen
    have hterm : r.report.Terminal := hlegal.length_of_terminal.mpr hlen
    obtain rfl : rest = [] := by
      rw [List.map_cons, List.length_cons, List.length_map] at hlen
      exact List.length_eq_zero_iff.mp (by omega)
    have hsum : (([r].map Round.report).map ExecReport.signedFill).sum = r.report.signedFill := by simp
    have hkeep : ([r].filter fun r => decide r.Matched) = [r] := by simp [hrm]
    rw [hkeep] at htaken
    obtain ⟨y, hy, hyr⟩ : ∃ y, ((takenIn h).filter fun x => decide (x.reportId = o.orderId)) = [y] ∧
        y.report = r.report := List.map_eq_singleton_iff.mp htaken
    have hyafter : y.after = y.before.onFill y.report := by
      have hmem : y ∈ (takenIn h).filter fun x => decide (x.reportId = o.orderId) := by simp [hy]
      exact hflows.calls y (List.mem_filter.mp hmem).1
    refine ⟨?_, ?_, fun pre w post hsplit _ => ⟨x, ?_, ?_, ?_⟩⟩
    · rw [gateMove, hown, hsum, List.map_singleton, List.sum_singleton]
      exact (hflows.genuine r hrown.1).moved_of_matched hrm
    · rw [strategyMove, hy, hsum, List.map_singleton, List.sum_singleton, ← hyr, Take.moved, hyafter]
      show y.before.position + y.report.signedFill - y.before.position = _
      omega
    · rw [hx] at hsplit
      cases pre with
      | nil => exact List.mem_singleton.mpr (List.cons.inj hsplit).1
      | cons v pre => rw [(List.cons.inj hsplit).1]; exact List.mem_cons_self
    · rw [Take.reportId, hxr]
      exact hrown.2
    · rwa [hxr]

/-- The order of `buySignal`. -/
def firstBuy : OrderRequest :=
  { orderId := 1, price := 1, size := 100, side := Side.kBuy.toByte, action := OrderAction.kNew.toByte }

def reportOf (status : ExecStatus) (size : UInt32) : ExecReport :=
  { orderId := 1, fillSize := size, side := Side.kBuy.toByte, status := status.toByte }

def wireOf (status : ExecStatus) (size : UInt8) : List UInt8 :=
  [1] ++ List.replicate 27 0 ++ [size, 0, 0, 0, Side.kBuy.toByte, status.toByte] ++ List.replicate 6 0

theorem accounted_iff_single_filled :
    ∃ t u s : Engine least, ∃ h, Reachable Step (start least hundreds) t ∧ Step t (.gatewayPoll 0 0) u ∧
      u.sent = t.sent ++ [firstBuy] ∧ Run Step u h s ∧ reportsOf 1 u h = [reportOf .kFilled 100] ∧
      (Accounted 1 (reportsOf 1 u h) h ↔ (reportsOf 1 u h).length = 1) ∧
      ∀ h' v, Run Step u h' v → takenIn h' = [] → v.inFlight = true := by
  let events : List EngineEvent := [.datagram (wireOf .kFilled 100), .gatewayPoll 0 0, .strategyPoll]
  have hrun : ((after? least hundreds buySignal).bind fun t => (t.next? (.gatewayPoll 0 0)).bind fun u =>
      (events.foldlM next? u).map fun s => (reportsOf 1 u (history next? events u),
        decide (u.sent = t.sent ++ [firstBuy] ∧ Settled 1 s))) = some ([reportOf .kFilled 100], true) := by
    decide +kernel
  obtain ⟨t, ht, hrun⟩ := Option.bind_eq_some_iff.mp hrun
  obtain ⟨u, hu, hrun⟩ := Option.bind_eq_some_iff.mp hrun
  obtain ⟨s, hs, hstate⟩ := Option.map_eq_some_iff.mp hrun
  simp only [Prod.mk.injEq, decide_eq_true_eq] at hstate
  obtain ⟨hreports, hsent, hdone⟩ := hstate
  have hr := (Run.history_of_foldlM hs).1
  have hlegal : Legal firstBuy (reportsOf firstBuy.orderId u (history next? events u)) :=
    ⟨[], [], _, hreports, by decide, by simp, by simp, by decide, by decide, by decide⟩
  exact ⟨t, u, s, _, Reachable.of_foldlM ht, hu, hsent, hr, hreports,
    accounted_iff_single (Reachable.of_foldlM ht) hu hsent hr hlegal hdone⟩

/-- An acknowledgement takes the place of the fill that follows it: the fill of 100 moves no position, and the latch
    opens on the acknowledgement. -/
theorem acknowledged_fill_lost :
    ∃ t u s : Engine least, ∃ h, Reachable Step (start least hundreds) t ∧ Step t (.gatewayPoll 0 0) u ∧
      u.sent = t.sent ++ [firstBuy] ∧ Run Step u h s ∧
      reportsOf 1 u h = [reportOf .kAck 0, reportOf .kFilled 100] ∧ Legal firstBuy (reportsOf 1 u h) ∧ Settled 1 s ∧
      gateMove 1 h = 0 ∧ strategyMove 1 h = 0 ∧ ¬LatchHeld 1 h ∧ ¬Accounted 1 (reportsOf 1 u h) h := by
  let events : List EngineEvent := [.datagram (wireOf .kAck 0), .gatewayPoll 0 0, .strategyPoll,
    .datagram (wireOf .kFilled 100), .gatewayPoll 0 0, .strategyPoll]
  have hrun : ((after? least hundreds buySignal).bind fun t => (t.next? (.gatewayPoll 0 0)).bind fun u =>
      (events.foldlM next? u).map fun s => (reportsOf 1 u (history next? events u),
        (takenIn (history next? events u)).map fun x => (x.after.inFlight, decide x.report.Terminal),
        [gateMove 1 (history next? events u), strategyMove 1 (history next? events u)],
        decide (u.sent = t.sent ++ [firstBuy] ∧ Settled 1 s))) =
      some ([reportOf .kAck 0, reportOf .kFilled 100], [(false, false)], [0, 0], true) := by decide +kernel
  obtain ⟨t, ht, hrun⟩ := Option.bind_eq_some_iff.mp hrun
  obtain ⟨u, hu, hrun⟩ := Option.bind_eq_some_iff.mp hrun
  obtain ⟨s, hs, hstate⟩ := Option.map_eq_some_iff.mp hrun
  simp only [Prod.mk.injEq, List.cons.injEq, decide_eq_true_eq] at hstate
  obtain ⟨hreports, htaken, ⟨hgate, hstrategy, -⟩, hsent, hdone⟩ := hstate
  obtain ⟨x, hx, hxstate⟩ := List.map_eq_singleton_iff.mp htaken
  obtain ⟨hopen, hterm⟩ := Prod.mk.inj hxstate
  have hlegal : Legal firstBuy (reportsOf 1 u (history next? events u)) :=
    ⟨[reportOf .kAck 0], [], _, hreports, by decide, by decide, by simp, by decide, by decide, by decide⟩
  refine ⟨t, u, s, _, Reachable.of_foldlM ht, hu, hsent, (Run.history_of_foldlM hs).1, hreports,
    hlegal, hdone, hgate, hstrategy, fun hheld => ?_, fun hacc => ?_⟩
  · obtain ⟨y, hy, -, hy'⟩ := hheld [] x [] hx hopen
    obtain rfl := List.mem_singleton.mp hy
    exact of_decide_eq_false hterm hy'
  · have hsum := hacc.gate
    rw [hreports, hgate] at hsum
    exact absurd hsum (by decide)

end Engine

end Hft
