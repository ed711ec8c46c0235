import HftEngine.Theorems.ClosedLoop

/-! Links that deliver each order and each report once: the order that the strategy waits for, or its report, is in
    exactly one place between the two processes, and every order is answered once. The feed may lose, double and reorder
    all it likes. -/

namespace Hft

open Transition
open Threads (Label)

/-! ### The table of the gateway -/

namespace OrderGateway

variable {cap : TableSize} {g : OrderGateway cap} {w : Option OrderRequest} {rep : ExecReport} {o : OrderRequest}

theorem Holds.eq_none (h : g.Holds none) (hw : g.Holds w) : w = none := by
  cases w with
  | none => rfl
  | some o =>
    obtain ⟨_, hnone, -⟩ := h.active _ (hw.entry o rfl).1
    cases hnone

theorem Holds.length_eq {w' : Option OrderRequest} (h : g.Holds w) (h' : g.Holds w') :
    w.toList.length = w'.toList.length := by
  cases w with
  | none => rw [h.eq_none h']
  | some o =>
    cases w' with
    | none => cases h'.eq_none h
    | some o' => rfl

/-- The table has the entry of the working order and no other. -/
theorem Holds.matches_iff (h : g.Holds w) : g.Matches rep ↔ ∃ o, w = some o ∧ rep.orderId = o.orderId := by
  constructor
  · rintro ⟨hactive, hrep⟩
    obtain ⟨o, hw, hslot⟩ := h.active (cap.slot rep.orderId) hactive
    refine ⟨o, hw, ?_⟩
    have hentry := (h.entry o hw).2
    unfold slot at hrep hentry
    rw [hslot, hentry] at hrep
    exact hrep.symm
  · rintro ⟨o, hw, hid⟩
    unfold Matches
    rw [hid]
    exact h.entry o hw

theorem Holds.after_release (h : g.Holds (some o)) (hid : rep.orderId = o.orderId) : (g.release rep).Holds none := by
  have hset := h.release (e := { g.slot rep.orderId with active := false }) rfl
  rw [← hid] at hset
  exact hset.congr rfl

end OrderGateway

/-- An order in flight is in one phase only. -/
theorem Phase.one_place (p : Phase) :
    p.unchecked.length + p.working?.toList.length + p.reports.length + p.rejections.toNat =
      if p.inFlight then 1 else 0 := by
  cases p <;> rfl

namespace Snapshot

variable {z : EngineSizes} {v v' : Snapshot z} {a : OrderLoop} {w : Option OrderRequest} {t : Stage} {tsc : UInt64}

/-- The working order is about to be sent, or the table has its entry. -/
theorem Tracks.working (h : Tracks v a) (hw : v.gateway.gateway.Holds w) :
    v.gateway.pc.sending.length + w.toList.length = a.phase.working?.toList.length := by
  have htable := h.table
  cases hpc : v.gateway.pc with
  | send o =>
    rw [hpc] at htable
    rw [htable.eq_none hw, h.sending o hpc]
    rfl
  | loop | recv | report | orders | check | stopped =>
    rw [hpc] at htable
    exact (Nat.zero_add _).trans (hw.length_eq htable)

/-- What a thread does to the table of the gateway, to its socket and to the wire. -/
inductive TableMove (v v' : Snapshot z) : Option OrderRequest → Prop
  | stay {w : Option OrderRequest} (hw : v'.gateway.gateway.Holds w) (hrx : v'.world.fillRx = v.world.fillRx)
      (hsent : v'.world.sent = v.world.sent) (hmatched : v'.world.matched = v.world.matched)
      (hun : v'.gateway.gateway.fillsUnmatched = v.gateway.gateway.fillsUnmatched) : TableMove v v' w
  | send {o : OrderRequest} (hw : v'.gateway.gateway.Holds (some o)) (hrx : v'.world.fillRx = v.world.fillRx)
      (hsent : v'.world.sent = v.world.sent ++ [o]) (hmatched : v'.world.matched = v.world.matched)
      (hun : v'.gateway.gateway.fillsUnmatched = v.gateway.gateway.fillsUnmatched) : TableMove v v' none
  | report {o : OrderRequest} {m : List UInt8} {rep : ExecReport} (hw : v'.gateway.gateway.Holds none)
      (hrx : v.world.fillRx = m :: v'.world.fillRx) (hm : ExecReport.ofDatagram? m = some rep)
      (hid : rep.orderId = o.orderId) (hsent : v'.world.sent = v.world.sent)
      (hmatched : v'.world.matched = v.world.matched ++ [rep])
      (hun : v'.gateway.gateway.fillsUnmatched = v.gateway.gateway.fillsUnmatched) : TableMove v v' (some o)
  | stray {w : Option OrderRequest} {m : List UInt8} {rx : List (List UInt8)} (hrx : v.world.fillRx = m :: rx)
      (hm : ∀ rep, ExecReport.ofDatagram? m = some rep → ∀ o, w = some o → rep.orderId ≠ o.orderId) :
      TableMove v v' w

theorem Move.tableMove (hm : v.Move (.thread t tsc) v') (h : Tracks v a) (hw : v.gateway.gateway.Holds w) :
    TableMove v v' w := by
  cases t with
  | feed =>
    have hk := FeedMove.kept hm
    obtain ⟨rx, hworld⟩ := hk.world
    refine .stay (hk.gateway ▸ hw) ?_ ?_ ?_ (by rw [hk.gateway]) <;> rw [hworld]
  | strategy =>
    cases hm with
    | head | noFill | takeFill | fill | noEvent | takeEvent | push | full => exact .stay hw rfl rfl rfl rfl
    | @event ev hpc =>
      rcases v.strategy.afterEvent_cases ev v.world with ⟨strat, -, heq⟩ | ⟨strat, o, -, heq⟩
      · simp only [heq]
        exact .stay hw rfl rfl rfl rfl
      · simp only [heq]
        exact .stay hw rfl rfl rfl rfl
  | gateway =>
    cases hm with
    | head | noReport | push | full | noOrder | takeOrder => exact .stay hw rfl rfl rfl rfl
    | short hpc hrx hm => exact .stray hrx fun rep hrep => by cases hm.symm.trans hrep
    | @report k m rx rep hpc hrx hm =>
      unfold GatewayThread.handle
      by_cases hmatch : v.gateway.gateway.Matches rep
      · obtain ⟨o, rfl, hid⟩ := hw.matches_iff.mp hmatch
        rw [if_pos hmatch]
        exact .report (hw.after_release hid) hrx hm hid rfl rfl rfl
      · refine .stray hrx fun rep' hrep' o ho hid => hmatch ?_
        cases hm.symm.trans hrep'
        exact hw.matches_iff.mpr ⟨o, ho, hid⟩
    | @check o hpc =>
      unfold GatewayThread.checked
      dsimp only
      split
      · exact .stay (hw.congr rfl) rfl rfl rfl rfl
      · exact .stay (hw.congr rfl) rfl rfl rfl rfl
    | @send o hpc =>
      have htable := h.table
      rw [hpc] at htable
      obtain rfl := htable.eq_none hw
      exact .send ((hw.record tsc).congr rfl) rfl rfl rfl rfl

end Snapshot

/-! ### One datagram away -/

/-- An order or a report is neither lost nor doubled. -/
def ClosedEvent.Exact : ClosedEvent → Prop
  | .lose l _ | .copy l _ => l = .feed
  | .thread _ _ | .exchange _ _ | .deliver _ _ | .setKill _ | .stop | .halt => True

instance : DecidablePred ClosedEvent.Exact
  | .lose l _ | .copy l _ => inferInstanceAs (Decidable (l = .feed))
  | .thread _ _ | .exchange _ _ | .deliver _ _ | .setKill _ | .stop | .halt => inferInstanceAs (Decidable True)

/-- The report that answers an order, as it reaches the gateway. -/
def OrderRequest.answer (o : OrderRequest) : ExecReport := (Exchange.fill o.onWire).onWire

theorem OrderRequest.ofDatagram?_fill (o : OrderRequest) :
    ExecReport.ofDatagram? (Exchange.fill o.onWire).datagram = some o.answer := by
  have hdec := ExecReport.ofDatagram?_datagram (Exchange.fill o.onWire) []
  rwa [List.append_nil] at hdec

namespace ClosedLoop

variable {z : EngineSizes} {ρ : Type} {draw : ρ → UInt64 × ρ} {cfg : EngineConfig} {c : SimConfig} {rng : ρ}
  {s t : ClosedLoop z ρ} {e : ClosedEvent} {w : Option OrderRequest}

def ordersAway (s : ClosedLoop z ρ) : List (List UInt8) := s.links .orders ++ s.exchange.orderRx

def reportsAway (s : ClosedLoop z ρ) : List (List UInt8) := s.links .fills ++ s.engine.world.fillRx

/-- What is under way for the order that the gateway waits for: the order or its report. -/
inductive Away (s : ClosedLoop z ρ) : Option OrderRequest → Prop
  | none (ho : s.ordersAway = []) (hr : s.reportsAway = []) : Away s none
  | order {o : OrderRequest} (ho : s.ordersAway = [o.datagram]) (hr : s.reportsAway = []) : Away s (some o)
  | report {o : OrderRequest} (ho : s.ordersAway = []) (hr : s.reportsAway = [(Exchange.fill o.onWire).datagram]) :
      Away s (some o)

theorem Away.congr (h : Away s w) (ho : t.ordersAway = s.ordersAway) (hr : t.reportsAway = s.reportsAway) :
    Away t w := by
  cases h with
  | none ho' hr' => exact .none (ho.trans ho') (hr.trans hr')
  | order ho' hr' => exact .order (ho.trans ho') (hr.trans hr')
  | report ho' hr' => exact .report (ho.trans ho') (hr.trans hr')

theorem Away.length (h : Away s w) : s.ordersAway.length + s.reportsAway.length = w.toList.length := by
  cases h with
  | none ho hr | order ho hr | report ho hr =>
    rw [ho, hr]
    rfl

/-- The only datagram of a link and the socket behind it moves on to the socket. -/
theorem delivered {xs rx : List (List UInt8)} {d x : List UInt8} {i : Nat} (hd : xs[i]? = some d)
    (h : xs ++ rx = [x]) : xs.eraseIdx i ++ (rx ++ [d]) = [x] := by
  match xs with
  | [] => cases hd
  | y :: ys =>
    obtain ⟨rfl, hnil⟩ := List.cons.inj h
    obtain ⟨rfl, rfl⟩ := List.append_eq_nil_iff.mp hnil
    match i with
    | 0 =>
      cases hd
      rfl
    | i + 1 => cases hd

theorem ne_nil_of_getElem? {xs rx : List (List UInt8)} {d : List UInt8} {i : Nat} (hd : xs[i]? = some d) :
    xs ++ rx ≠ [] := by
  rintro hnil
  rw [(List.append_eq_nil_iff.mp hnil).1] at hd
  cases hd

theorem Away.deliverOrder {i : Nat} {d : List UInt8} (h : Away s w) (hd : (s.links .orders)[i]? = some d)
    (ho : t.ordersAway = (s.links .orders).eraseIdx i ++ (s.exchange.orderRx ++ [d]))
    (hr : t.reportsAway = s.reportsAway) : Away t w := by
  cases h with
  | none ho' | report ho' => exact absurd ho' (ne_nil_of_getElem? hd)
  | order ho' hr' => exact .order (ho.trans (delivered hd ho')) (hr.trans hr')

theorem Away.deliverReport {i : Nat} {d : List UInt8} (h : Away s w) (hd : (s.links .fills)[i]? = some d)
    (ho : t.ordersAway = s.ordersAway)
    (hr : t.reportsAway = (s.links .fills).eraseIdx i ++ (s.engine.world.fillRx ++ [d])) : Away t w := by
  cases h with
  | none _ hr' | order _ hr' => exact absurd hr' (ne_nil_of_getElem? hd)
  | report ho' hr' => exact .report (ho.trans ho') (hr.trans (delivered hd hr'))

/-- The exchange answers the order that is away. -/
theorem Away.exchange {exchange : Exchange ρ} (h : Away s w) (he : Exchange.Effect s.exchange exchange) :
    Away (s.withExchange exchange) w := by
  have hreports : ∀ {more}, exchange.fills = s.exchange.fills ++ more → (s.withExchange exchange).reportsAway =
      s.links .fills ++ more.map ExecReport.datagram ++ s.engine.world.fillRx := fun hmore =>
    congrArg (· ++ s.engine.world.fillRx) (withExchange_fills hmore)
  have head : ∀ {m : List UInt8}, s.exchange.orderRx = m :: exchange.orderRx → ∃ o, w = some o ∧ m = o.datagram ∧
      s.links .orders ++ exchange.orderRx = [] ∧ s.reportsAway = [] := by
    intro m hrx
    cases h with
    | none ho | report ho => cases (List.append_eq_nil_iff.mp ho).2.symm.trans hrx
    | @order o ho hr =>
      unfold ordersAway at ho
      rw [hrx] at ho
      match hlink : s.links .orders with
      | [] =>
        rw [hlink] at ho
        obtain ⟨rfl, hnil⟩ := List.cons.inj ho
        exact ⟨o, rfl, rfl, hnil, hr⟩
      | d :: ds =>
        rw [hlink] at ho
        cases (List.append_eq_nil_iff.mp (List.cons.inj ho).2).2
  cases he with
  | quotes hrx hf _ =>
    refine h.congr (congrArg (s.links .orders ++ ·) hrx) ((hreports (hf.trans (List.append_nil _).symm)).trans ?_)
    rw [List.map_nil, List.append_nil]
    rfl
  | skip hrx hm _ _ =>
    obtain ⟨o, rfl, rfl, -, -⟩ := head hrx
    have hdec := OrderRequest.ofDatagram?_datagram o []
    rw [List.append_nil, hm] at hdec
    cases hdec
  | @fill m o' hrx hm hf _ =>
    obtain ⟨o, rfl, rfl, hnil, hr⟩ := head hrx
    have hdec := OrderRequest.ofDatagram?_datagram o []
    rw [List.append_nil, hm] at hdec
    obtain rfl := Option.some.inj hdec
    refine .report hnil ((hreports hf).trans ?_)
    obtain ⟨hlink, hsocket⟩ := List.append_eq_nil_iff.mp hr
    rw [hlink, hsocket]
    rfl

/-! ### The whole -/

/-- The engine as a snapshot tells it, with the order that its gateway waits for. -/
structure Awaits (cfg : EngineConfig) (s : ClosedLoop z ρ) (v : Snapshot z) (w : Option OrderRequest) : Prop where
  shows : RingEngine.Shows s.engine v
  sound : v.Sound cfg
  holds : v.gateway.gateway.Holds w
  away : Away s w
  unmatched : v.gateway.gateway.fillsUnmatched = 0
  answered : v.world.sent.map OrderRequest.answer = v.world.matched ++ w.toList.map OrderRequest.answer

theorem awaits_start : Awaits cfg (start z cfg c rng) (Stages.start z cfg).snapshot none where
  shows := RingEngine.shows_start
  sound := Snapshot.sound_start
  holds := OrderGateway.holds_new
  away := .none rfl rfl
  unmatched := rfl
  answered := rfl

theorem Awaits.thread {v v' : Snapshot z} {engine : RingEngine z} (h : Awaits cfg s v w)
    (hv : RingEngine.Shows engine v') (hsound' : v'.Sound cfg) (hm : Snapshot.TableMove v v' w) :
    ∃ w', Awaits cfg (s.withEngine engine) v' w' := by
  obtain ⟨hshows, -, hholds, haway, hunmatched, hanswered⟩ := h
  have horders : ∀ {more}, v'.world.sent = v.world.sent ++ more → (s.withEngine engine).ordersAway =
      s.links .orders ++ more.map OrderRequest.datagram ++ s.exchange.orderRx := fun hmore =>
    congrArg (· ++ s.exchange.orderRx) (withEngine_orders (by rw [← hv.world, ← hshows.world, hmore]))
  have hreports : (s.withEngine engine).reportsAway = s.links .fills ++ v'.world.fillRx := by
    rw [hv.world]
    rfl
  have hreports' : s.reportsAway = s.links .fills ++ v.world.fillRx := by
    rw [hshows.world]
    rfl
  cases hm with
  | stay hw hrx hsent hmatch hun =>
    refine ⟨_, hv, hsound', hw, haway.congr ((horders (hsent.trans (List.append_nil _).symm)).trans ?_) ?_,
      hun.trans hunmatched, ?_⟩
    · rw [List.map_nil, List.append_nil]
      rfl
    · rw [hreports, hrx, hreports']
    · rw [hsent, hmatch]
      exact hanswered
  | @send o hw hrx hsent hmatch hun =>
    refine ⟨some o, hv, hsound', hw, ?_, hun.trans hunmatched, ?_⟩
    · cases haway with
      | none ho hr =>
        obtain ⟨hlink, hsocket⟩ := List.append_eq_nil_iff.mp ho
        refine .order ((horders hsent).trans ?_) (hreports.trans ?_)
        · rw [hlink, hsocket]
          rfl
        · rw [hrx, ← hreports']
          exact hr
    · rw [hsent, List.map_append, hanswered, hmatch]
      simp
  | @report o m rep hw hrx hm _ hsent hmatch hun =>
    have hhead : s.ordersAway = [] ∧ s.links .fills ++ v'.world.fillRx = [] ∧
        m = (Exchange.fill o.onWire).datagram := by
      cases haway with
      | order _ hr =>
        rw [hreports', hrx] at hr
        simp at hr
      | report ho hr =>
        rw [hreports', hrx] at hr
        match hlink : s.links .fills with
        | [] =>
          rw [hlink] at hr
          obtain ⟨hm, hnil⟩ := List.cons.inj hr
          exact ⟨ho, hnil, hm⟩
        | d :: ds =>
          rw [hlink] at hr
          cases (List.append_eq_nil_iff.mp (List.cons.inj hr).2).2
    obtain ⟨ho, hnil, rfl⟩ := hhead
    obtain rfl := Option.some.inj (hm.symm.trans o.ofDatagram?_fill)
    refine ⟨none, hv, hsound', hw, .none ?_ (hreports.trans hnil), hun.trans hunmatched, ?_⟩
    · refine (horders (hsent.trans (List.append_nil _).symm)).trans ?_
      rw [List.map_nil, List.append_nil]
      exact ho
    · rw [hsent, hmatch, hanswered]
      simp
  | @stray _ m rx hrx hm =>
    -- the only report that can be in the socket is the one that the table waits for
    have hmem : m ∈ s.reportsAway := by
      rw [hreports', hrx]
      simp
    cases haway with
    | none _ hr | order _ hr =>
      rw [hr] at hmem
      cases hmem
    | @report o _ hr =>
      rw [hr] at hmem
      obtain rfl := List.mem_singleton.mp hmem
      exact absurd rfl (hm _ o.ofDatagram?_fill o rfl)

/-- What comes from outside leaves the gateway and the two logs alone. -/
theorem Awaits.outside {v : Snapshot z} {x : Outside} (h : Awaits cfg s v w)
    (hr : Reachable RingEngine.Step (RingEngine.start z cfg) s.engine) (hs : s.engine.Step (.outside x) t.engine)
    (haway : Away t w) : ∃ v' w', Awaits cfg t v' w' := by
  obtain ⟨hshows, hsound, hholds, -, hunmatched, hanswered⟩ := h
  obtain ⟨v', hv', hmove⟩ := RingEngine.shows_step hr hshows hs
  rcases hmove with rfl | hmove
  · exact ⟨_, w, hv', hsound, hholds, haway, hunmatched, hanswered⟩
  · have hsound' := hsound.move hmove
    obtain ⟨world, hworld, rfl⟩ := hmove
    cases x <;> cases hworld <;> exact ⟨_, w, hv', hsound', hholds, haway, hunmatched, hanswered⟩

theorem Awaits.move {v : Snapshot z} (h : Awaits cfg s v w)
    (hr : Reachable RingEngine.Step (RingEngine.start z cfg) s.engine) (he : e.Exact) (hm : s.Move draw e t) :
    ∃ v' w', Awaits cfg t v' w' := by
  have haway := h.away
  cases hm with
  | @thread st tsc engine hs =>
    obtain ⟨v', hv', hmove⟩ := RingEngine.shows_step hr h.shows hs
    rcases hmove with rfl | hmove
    · exact ⟨_, h.thread hv' h.sound (.stay h.holds rfl rfl rfl rfl)⟩
    · obtain ⟨evs, a, hmatched⟩ := h.sound.loop
      exact ⟨v', h.thread hv' (h.sound.move hmove) (hmove.tableMove hmatched.tracks h.holds)⟩
  | exchange hs => exact ⟨v, w, { h with away := haway.exchange (Exchange.effect_of_next hs) }⟩
  | @market i d hd => exact h.outside hr (x := .market d) rfl (haway.congr rfl rfl)
  | @order i d hd => exact ⟨v, w, { h with away := haway.deliverOrder hd rfl rfl }⟩
  | @fill i d hd => exact h.outside hr (x := .report d) rfl (haway.deliverReport hd rfl rfl)
  | lose =>
    cases he
    exact ⟨v, w, { h with away := haway.congr rfl rfl }⟩
  | copy hd =>
    cases he
    exact ⟨v, w, { h with away := haway.congr rfl rfl }⟩
  | @setKill b => exact h.outside hr (x := .setKill b) rfl (haway.congr rfl rfl)
  | stop => exact h.outside hr (x := .stop) rfl (haway.congr rfl rfl)
  | halt => exact ⟨v, w, { h with away := haway.congr rfl rfl }⟩

theorem awaits_of_run {h : List (ClosedLoop z ρ × ClosedEvent)} (hr : Run (Step draw) (start z cfg c rng) h s)
    (hexact : ∀ p ∈ h, p.2.Exact) : ∃ v w, Awaits cfg s v w := by
  have hboth := hr.invariant
    (I := fun s => Reachable RingEngine.Step (RingEngine.start z cfg) s.engine ∧ ∃ v w, Awaits cfg s v w)
    (C := fun _ e => e.Exact) ⟨.refl, _, _, awaits_start⟩ (fun hi he hs => by
      obtain ⟨hr, v, w, hi⟩ := hi
      exact ⟨hs.move.reachable hr, hi.move hr he hs.move⟩) hexact
  exact hboth.2.2

/-! ### Results -/

theorem clean_total : ∃ s h, after? Engine.least Engine.hundreds quotes clean = some s ∧
    s.engine.world.matched.length = 1 ∧ s.engine.strategy.runner.strat.inFlight = false ∧
    Run (Step Rng.next) (start Engine.least Engine.hundreds quotes (Rng.new 0x5EED)) h s ∧ ∀ p ∈ h, p.2.Exact := by
  have hrun : ((after? Engine.least Engine.hundreds quotes clean).map fun s =>
      (s.engine.world.matched.length, s.engine.strategy.runner.strat.inFlight)) = some (1, false) := by decide +kernel
  obtain ⟨s, hs, hstate⟩ := Option.map_eq_some_iff.mp hrun
  obtain ⟨hmatched, hfree⟩ := Prod.mk.inj hstate
  obtain ⟨h, hr, hlabels⟩ := Run.of_foldlM hs
  have hexact : ∀ e ∈ clean, e.Exact := by decide +kernel
  exact ⟨s, h, hs, hmatched, hfree, hr, fun p hp => hexact _ (hlabels ▸ List.mem_map_of_mem hp)⟩

/-- Every report that reaches the gateway finds its order, and the orders sent are answered once and in turn: all but
    the one that is away, if one is. -/
theorem answered_exactly_once {h : List (ClosedLoop z ρ × ClosedEvent)}
    (hr : Run (Step draw) (start z cfg c rng) h s) (hexact : ∀ p ∈ h, p.2.Exact) :
    s.engine.gateway.gateway.fillsUnmatched = 0 ∧
      s.engine.world.matched <+: s.engine.world.sent.map OrderRequest.answer ∧
      s.engine.world.sent.length = s.engine.world.matched.length + (s.ordersAway.length + s.reportsAway.length) := by
  obtain ⟨v, w, hi⟩ := awaits_of_run hr hexact
  rw [← hi.shows.gateway, ← hi.shows.world]
  refine ⟨hi.unmatched, ⟨_, hi.answered.symm⟩, ?_⟩
  have hlength := congrArg List.length hi.answered
  simpa [hi.away.length] using hlength

theorem answered_exactly_once_clean :
    ∃ s, after? Engine.least Engine.hundreds quotes clean = some s ∧ s.engine.world.matched.length = 1 ∧
      (s.engine.gateway.gateway.fillsUnmatched = 0 ∧
        s.engine.world.matched <+: s.engine.world.sent.map OrderRequest.answer ∧
        s.engine.world.sent.length = s.engine.world.matched.length + (s.ordersAway.length + s.reportsAway.length)) := by
  obtain ⟨s, h, hs, hmatched, -, hr, hexact⟩ := clean_total
  exact ⟨s, hs, hmatched, answered_exactly_once hr hexact⟩

/-- While the strategy waits, the order that it waits for, or the report on it, is in exactly one place, unless the gate
    refused it; and nothing is anywhere while it does not wait. -/
theorem one_token {h : List (ClosedLoop z ρ × ClosedEvent)} (hr : Run (Step draw) (start z cfg c rng) h s)
    (hexact : ∀ p ∈ h, p.2.Exact) :
    ∃ v, RingEngine.Shows s.engine v ∧
      (v.gateway.pc.heldOrders ++ v.orderQ.items ++ v.strategy.pc.heldOrders).length + v.gateway.pc.sending.length +
          (s.ordersAway.length + s.reportsAway.length) +
          (v.strategy.pc.heldReports ++ v.fillQ.items ++ v.gateway.pc.heldReports).length +
          s.engine.gateway.gateway.riskRejected.toNat =
        if s.engine.strategy.runner.strat.inFlight then 1 else 0 := by
  obtain ⟨v, w, hi⟩ := awaits_of_run hr hexact
  obtain ⟨evs, a, hmatched⟩ := hi.sound.loop
  have ht := hmatched.tracks
  refine ⟨v, hi.shows, ?_⟩
  rw [← hi.shows.gateway, ← hi.shows.strategy, hi.away.length, ht.orders, ht.reports, ht.rejected, ht.latch]
  have hplace := a.phase.one_place
  have hworking := ht.working hi.holds
  omega

theorem one_token_clean :
    ∃ s, after? Engine.least Engine.hundreds quotes clean = some s ∧
      s.engine.strategy.runner.strat.inFlight = false ∧
      ∃ v, RingEngine.Shows s.engine v ∧
        (v.gateway.pc.heldOrders ++ v.orderQ.items ++ v.strategy.pc.heldOrders).length + v.gateway.pc.sending.length +
            (s.ordersAway.length + s.reportsAway.length) +
            (v.strategy.pc.heldReports ++ v.fillQ.items ++ v.gateway.pc.heldReports).length +
            s.engine.gateway.gateway.riskRejected.toNat =
          if s.engine.strategy.runner.strat.inFlight then 1 else 0 := by
  obtain ⟨s, h, hs, -, hfree, hr, hexact⟩ := clean_total
  exact ⟨s, hs, hfree, one_token hr hexact⟩

end ClosedLoop

end Hft
