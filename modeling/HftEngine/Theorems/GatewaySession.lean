import HftEngine.GatewaySession
import HftEngine.Theorems.OrderGateway
import Mathlib.Data.Finset.Card
import Mathlib.Data.Finset.Dedup

/-! Exactly-once fill matching: while the orders at work have slots of their own, the in-flight table is the desk that
    settles each order with the first report of its id. -/

namespace Hft.GatewaySession

open RequestReply Transition

variable {cap : TableSize} {orderCap fillCap k : Nat} {g g' : OrderGateway cap} {rep : ExecReport}
  {fills fills' : BoundedQueue ExecReport fillCap} {rx rx' : List (List UInt8)}
  {d : Book OrderRequest (Round cap fillCap)} {acts : List (Act OrderRequest (Round cap fillCap))}
  {s t : GatewaySession cap orderCap fillCap} {e : Event}

/-! ### The table and the desk -/

/-- The active entries are the orders at work, and the counters count what the desk did. -/
structure Tracks (g : OrderGateway cap) (d : Book OrderRequest (Round cap fillCap)) : Prop where
  entry : ∀ o ∈ d.working, (g.slot o.orderId).active = true ∧ (g.slot o.orderId).orderId = o.orderId
  active : ∀ i, (g.inflight.get i).active = true → ∃ o ∈ d.working, i = cap.slot o.orderId
  matched : g.fillsMatched = UInt64.ofNat d.settled.length
  unmatched : g.fillsUnmatched = UInt64.ofNat d.stray.length

theorem tracks_new {lim : RiskLimits} {cyclesPerToken : UInt64} :
    Tracks (OrderGateway.new cap lim cyclesPerToken) ({} : Book OrderRequest (Round cap fillCap)) where
  entry _ h := by cases h
  active i h := by simp [OrderGateway.new] at h
  matched := rfl
  unmatched := rfl

/-- The test of `handle_fill` finds exactly the ids of the orders at work. -/
theorem Tracks.slot_iff (ht : Tracks g d) (id : UInt64) :
    ((g.slot id).active = true ∧ (g.slot id).orderId = id) ↔ ∃ o ∈ d.working, o.orderId = id := by
  constructor
  · rintro ⟨hactive, hid⟩
    obtain ⟨o, ho, hslot⟩ := ht.active (cap.slot id) hactive
    have hentry := (ht.entry o ho).2
    unfold OrderGateway.slot at hid hentry
    rw [hslot] at hid
    exact ⟨o, ho, hentry.symm.trans hid⟩
  · rintro ⟨o, ho, rfl⟩
    exact ht.entry o ho

/-- Orders at work with one slot have one id. -/
theorem Tracks.orderId_eq (ht : Tracks g d) {o o' : OrderRequest} (ho : o ∈ d.working) (ho' : o' ∈ d.working)
    (hslot : cap.slot o.orderId = cap.slot o'.orderId) : o.orderId = o'.orderId := by
  have h := (ht.entry o ho).2
  have h' := (ht.entry o' ho').2
  unfold OrderGateway.slot at h h'
  rw [hslot] at h
  exact h.symm.trans h'

theorem active_setSlot {id : UInt64} {e : InFlight} (he : e.active = false) (i : Fin cap.val.toNat) :
    ((g.setSlot id e).inflight.get i).active = true ↔ i ≠ cap.slot id ∧ (g.inflight.get i).active = true := by
  by_cases hi : i = cap.slot id
  · subst hi
    have hself : (g.setSlot id e).inflight.get (cap.slot id) = e := OrderGateway.slot_setSlot
    simp [hself, he]
  · rw [OrderGateway.get_setSlot_ne hi]
    simp [hi]

theorem ne_add_one (x : UInt64) : x ≠ x + 1 := by
  intro h
  have := congrArg UInt64.toNat h
  rw [UInt64.toNat_add] at this
  have : (1 : UInt64).toNat = 1 := rfl
  have := x.toNat_lt
  omega

theorem ofNat_succ (n : Nat) : UInt64.ofNat n + 1 = UInt64.ofNat (n + 1) := (UInt64.ofNat_add n 1).symm

/-- What a round of the receive loop is: a call of `handle_fill` that leaves everything but one counter alone when the
    report does not match. -/
structure Genuine (r : Round cap fillCap) : Prop where
  handled : r.before.handleFill r.report r.fillsBefore = some (r.after, r.fillsAfter)
  test : r.Matched ↔ (r.before.slot r.reportId).active = true ∧ (r.before.slot r.reportId).orderId = r.reportId
  matched : r.Matched →
    r.after = { r.before.setSlot r.reportId { r.before.slot r.reportId with active := false } with
      fillsMatched := r.before.fillsMatched + 1, risk := r.before.risk.onFill r.report } ∧
    r.fillsAfter.items = r.fillsBefore.items ++ [r.report]
  unmatched : ¬r.Matched →
    r.after = { r.before with fillsUnmatched := r.before.fillsUnmatched + 1 } ∧ r.fillsAfter = r.fillsBefore

theorem genuine_of_handleFill (hh : g.handleFill rep fills = some (g', fills')) :
    Genuine ⟨g, fills, rep, g', fills'⟩ := by
  rcases OrderGateway.handleFill_cases hh with ⟨hslot, hg, hitems⟩ | ⟨hslot, hg, hfills⟩
  · have hm : (⟨g, fills, rep, g', fills'⟩ : Round cap fillCap).Matched := congrArg OrderGateway.fillsMatched hg
    exact ⟨hh, iff_of_true hm hslot, fun _ => ⟨hg, hitems⟩, fun h => absurd hm h⟩
  · have hm : ¬(⟨g, fills, rep, g', fills'⟩ : Round cap fillCap).Matched := by
      subst hg
      exact ne_add_one g.fillsMatched
    exact ⟨hh, iff_of_false hm hslot, fun h => absurd h hm, fun _ => ⟨hg, hfills⟩⟩

theorem Genuine.moved_of_matched {r : Round cap fillCap} (hr : Genuine r) (hm : r.Matched) :
    r.moved = r.report.signedFill := by
  unfold Round.moved
  rw [(hr.matched hm).1, RiskGate.onFill_position]
  omega

theorem Genuine.fillsAfter {r : Round cap fillCap} (hr : Genuine r) :
    r.fillsAfter.items = r.fillsBefore.items ++ if r.Matched then [r.report] else [] := by
  split
  · next hm => exact (hr.matched hm).2
  · next hm => rw [(hr.unmatched hm).2, List.append_nil]

/-- The table follows the desk over a round. -/
theorem Tracks.round {r : Round cap fillCap} (ht : Tracks r.before d) (hr : Genuine r) :
    (r.Matched ↔ d.Hits OrderRequest.orderId Round.reportId r) ∧
      Tracks r.after (d.act OrderRequest.orderId Round.reportId (.reply r)) := by
  have hiff : r.Matched ↔ d.Hits OrderRequest.orderId Round.reportId r := hr.test.trans (ht.slot_iff r.reportId)
  refine ⟨hiff, ?_⟩
  by_cases hm : r.Matched
  · rw [act_hit (hiff.mp hm), (hr.matched hm).1]
    obtain ⟨o, ho, hid⟩ := hiff.mp hm
    refine ⟨fun o' ho' => ?_, fun i hi => ?_, ?_, ht.unmatched⟩
    · obtain ⟨ho', hne⟩ := List.mem_filter.mp ho'
      have hslots : cap.slot o'.orderId ≠ cap.slot r.reportId := fun heq => by
        have := ht.orderId_eq ho' ho (hid ▸ heq)
        exact of_decide_eq_true hne (this.trans hid)
      have hkept := OrderGateway.get_setSlot_ne (g := r.before)
        (e := { r.before.slot r.reportId with active := false }) hslots
      have hentry := ht.entry o' ho'
      unfold OrderGateway.slot at hentry hkept ⊢
      rw [← hkept] at hentry
      exact hentry
    · obtain ⟨hne, hactive⟩ := (active_setSlot rfl i).mp hi
      obtain ⟨o', ho', hslot'⟩ := ht.active i hactive
      refine ⟨o', List.mem_filter.mpr ⟨ho', decide_eq_true fun heq => hne ?_⟩, hslot'⟩
      exact hslot'.trans (congrArg cap.slot heq)
    · show r.before.fillsMatched + 1 = UInt64.ofNat (d.settled ++ [_]).length
      rw [ht.matched, List.length_append, ofNat_succ]
      rfl
  · rw [act_miss (mt hiff.mpr hm), (hr.unmatched hm).1]
    refine ⟨ht.entry, ht.active, ht.matched, ?_⟩
    show r.before.fillsUnmatched + 1 = UInt64.ofNat (d.stray ++ [_]).length
    rw [ht.unmatched, List.length_append, ofNat_succ]
    rfl

/-! ### The receive loop -/

/-- What the receive loop does, told by its rounds: it takes their reports off the socket and puts those that match on
    the fill queue. -/
theorem rounds_of_drainFills (hd : OrderGateway.drainFills k g rx fills = some (g', rx', fills')) :
    (∀ r ∈ rounds k g rx fills, Genuine r) ∧
    fills'.items = fills.items ++
      ((rounds k g rx fills).filter fun r => decide r.Matched).map Round.report ∧
    rx.filterMap ExecReport.ofDatagram? =
      (rounds k g rx fills).map Round.report ++ rx'.filterMap ExecReport.ofDatagram? := by
  induction k generalizing g rx fills with
  | zero =>
    cases hd
    exact ⟨by simp [rounds], by simp [rounds], by simp [rounds]⟩
  | succ k ih =>
    cases rx with
    | nil =>
      cases hd
      exact ⟨by simp [rounds], by simp [rounds], by simp [rounds]⟩
    | cons m rx =>
      cases hm : ExecReport.ofDatagram? m with
      | none =>
        rw [OrderGateway.drainFills_short hm] at hd
        cases hd
        exact ⟨by simp [rounds, hm], by simp [rounds, hm], by simp [rounds, hm]⟩
      | some rep =>
        cases hh : g.handleFill rep fills with
        | none => simp [OrderGateway.drainFills, hm, hh] at hd
        | some next =>
          obtain ⟨g₁, fills₁⟩ := next
          rw [OrderGateway.drainFills_cons hm hh] at hd
          obtain ⟨hall, hitems, hrx⟩ := ih hd
          have hr := genuine_of_handleFill hh
          have hrounds : rounds (k + 1) g (m :: rx) fills =
              ⟨g, fills, rep, g₁, fills₁⟩ :: rounds k g₁ rx fills₁ := by simp [rounds, hm, hh]
          rw [hrounds]
          refine ⟨fun r hmem => ?_, ?_, by simp [hm, hrx]⟩
          · rcases List.mem_cons.mp hmem with rfl | hmem
            · exact hr
            · exact hall r hmem
          · have hfirst : fills₁.items = fills.items ++ _ := hr.fillsAfter
            rw [List.filter_cons, hitems, hfirst]
            split <;> simp_all

/-- A property that each round keeps, the receive loop keeps. -/
theorem drainFills_invariant {I : List (Round cap fillCap) → OrderGateway cap → Prop} {b : List (Round cap fillCap)}
    (hd : OrderGateway.drainFills k g rx fills = some (g', rx', fills')) (init : I b g)
    (kept : ∀ {rs r}, I rs r.before → Genuine r → I (rs ++ [r]) r.after) : I (b ++ rounds k g rx fills) g' := by
  induction k generalizing g rx fills b with
  | zero =>
    cases hd
    simpa [rounds] using init
  | succ k ih =>
    cases rx with
    | nil =>
      cases hd
      simpa [rounds] using init
    | cons m rx =>
      cases hm : ExecReport.ofDatagram? m with
      | none =>
        rw [OrderGateway.drainFills_short hm] at hd
        cases hd
        simpa [rounds, hm] using init
      | some rep =>
        cases hh : g.handleFill rep fills with
        | none => simp [OrderGateway.drainFills, hm, hh] at hd
        | some next =>
          obtain ⟨g₁, fills₁⟩ := next
          rw [OrderGateway.drainFills_cons hm hh] at hd
          have hnext := ih hd (kept (r := ⟨g, fills, rep, g₁, fills₁⟩) init (genuine_of_handleFill hh))
          simpa [rounds, hm, hh] using hnext

/-! ### The log of a session -/

/-- Each report of the log matched exactly when the desk settles an order with it. -/
def Faithful (acts : List (Act OrderRequest (Round cap fillCap))) : Prop :=
  ∀ pre r post, acts = pre ++ .reply r :: post →
    (r.Matched ↔ (book OrderRequest.orderId Round.reportId pre).Hits OrderRequest.orderId Round.reportId r)

theorem Faithful.of_append {post : List (Act OrderRequest (Round cap fillCap))} (h : Faithful (acts ++ post)) :
    Faithful acts := fun pre r rest hsplit => h pre r (rest ++ post) (by rw [hsplit]; simp)

/-- What matched is what the desk settled. -/
theorem Faithful.matched_eq (h : Faithful acts) :
    matched acts = (book OrderRequest.orderId Round.reportId acts).settled := by
  induction acts using List.reverseRecOn with
  | nil => rfl
  | append_singleton acts x ih =>
    have ih := ih h.of_append
    cases x with
    | send o =>
      rw [matched, replies_snoc_send, book_snoc]
      exact ih
    | reply r =>
      have hiff := h acts r [] rfl
      have hlast : matched (acts ++ [.reply r]) = matched acts ++ if r.Matched then [r] else [] := by
        simp [matched, List.filter_cons]
      rw [hlast, book_snoc, ih]
      by_cases hm : r.Matched
      · rw [act_hit (hiff.mp hm), if_pos hm]
      · rw [act_miss (mt hiff.mpr hm), if_neg hm, List.append_nil]

/-- The log tells what the gateway did, round by round. -/
structure Logged (acts : List (Act OrderRequest (Round cap fillCap))) (g : OrderGateway cap) : Prop where
  tracks : Tracks g (book OrderRequest.orderId Round.reportId acts)
  sent : g.sent = UInt64.ofNat (sends acts).length
  genuine : ∀ r, .reply r ∈ acts → Genuine r
  faithful : Faithful acts

theorem Genuine.sent {r : Round cap fillCap} (hr : Genuine r) : r.after.sent = r.before.sent := by
  by_cases hm : r.Matched
  · rw [(hr.matched hm).1]
    rfl
  · rw [(hr.unmatched hm).1]

theorem Logged.reply {r : Round cap fillCap} (hl : Logged acts r.before) (hr : Genuine r) :
    Logged (acts ++ [.reply r]) r.after := by
  obtain ⟨hiff, htracks⟩ := hl.tracks.round hr
  refine ⟨by rwa [book_snoc], ?_, fun r' hr' => ?_, fun pre r' post hsplit => ?_⟩
  · rw [hr.sent, sends_snoc_reply]
    exact hl.sent
  · rcases List.mem_append.mp hr' with hr' | hr'
    · exact hl.genuine r' hr'
    · cases List.mem_singleton.mp hr'
      exact hr
  · rcases split_snoc hsplit with ⟨rfl, heq⟩ | ⟨post', heq⟩
    · cases heq
      exact hiff
    · exact hl.faithful pre r' post' heq

/-- The receive loop logs a round for each whole report that it takes. -/
theorem Logged.drain (hl : Logged acts g) (hd : OrderGateway.drainFills k g rx fills = some (g', rx', fills')) :
    Logged (acts ++ (rounds k g rx fills).map .reply) g' :=
  drainFills_invariant (I := fun rs g => Logged (acts ++ rs.map .reply) g) (b := []) hd (by simpa using hl)
    fun hl hr => by simpa using hl.reply hr

theorem slot_val (id : UInt64) : (cap.slot id).val = id.toNat % cap.val.toNat := by
  have h := cap.slot_ofCount id.toNat
  rwa [Positions.ofCount, UInt64.ofNat_toNat] at h

/-- An order that goes on the wire with a slot of its own becomes an order at work. -/
theorem Logged.send (hl : Logged acts g) {o : OrderRequest} {e : InFlight}
    (risk : RiskGate) (hentry : e.active = true ∧ e.orderId = o.orderId)
    (hapart : ((book OrderRequest.orderId Round.reportId (acts ++ [.send o])).working.map fun o =>
      o.orderId.toNat % cap.val.toNat).Nodup) :
    Logged (acts ++ [.send o]) { g.setSlot o.orderId e with risk := risk, sent := g.sent + 1 } := by
  have hsend : book OrderRequest.orderId Round.reportId (acts ++ [.send o]) =
    { book OrderRequest.orderId Round.reportId acts with
      working := (book OrderRequest.orderId Round.reportId acts).working ++ [o] } := book_snoc
  rw [hsend] at hapart
  have hfree : ∀ o' ∈ (book OrderRequest.orderId Round.reportId acts).working,
      cap.slot o'.orderId ≠ cap.slot o.orderId := by
    intro o' ho' heq
    rw [List.map_append, List.nodup_append] at hapart
    exact hapart.2.2 _ (List.mem_map_of_mem ho') _ List.mem_cons_self
      ((slot_val _).symm.trans ((congrArg Fin.val heq).trans (slot_val _)))
  refine ⟨?_, ?_, fun r hr => ?_, fun pre r post hsplit => ?_⟩
  · rw [hsend]
    refine ⟨fun o' ho' => ?_, fun i hi => ?_, hl.tracks.matched, hl.tracks.unmatched⟩
    · rcases List.mem_append.mp ho' with ho' | ho'
      · have hkept := OrderGateway.get_setSlot_ne (g := g) (e := e) (hfree o' ho')
        have hold := hl.tracks.entry o' ho'
        unfold OrderGateway.slot at hold ⊢
        rw [← hkept] at hold
        exact hold
      · obtain rfl := List.mem_singleton.mp ho'
        have hself : (g.setSlot o'.orderId e).slot o'.orderId = e := OrderGateway.slot_setSlot
        rw [← hself] at hentry
        exact hentry
    · by_cases hslot : i = cap.slot o.orderId
      · exact ⟨o, List.mem_append_right _ List.mem_cons_self, hslot⟩
      · have hi : ((g.setSlot o.orderId e).inflight.get i).active = true := hi
        rw [OrderGateway.get_setSlot_ne hslot] at hi
        obtain ⟨o', ho', hslot'⟩ := hl.tracks.active i hi
        exact ⟨o', List.mem_append_left _ ho', hslot'⟩
  · show g.sent + 1 = _
    rw [hl.sent, sends_snoc_send, List.length_append, ofNat_succ]
    rfl
  · rcases List.mem_append.mp hr with hr | hr
    · exact hl.genuine r hr
    · cases List.mem_singleton.mp hr
  · rcases split_snoc hsplit with ⟨-, heq⟩ | ⟨post', heq⟩
    · cases heq
    · exact hl.faithful pre r post' heq

theorem Logged.congr (hl : Logged acts g) (hin : g'.inflight = g.inflight)
    (hsent : g'.sent = g.sent) (hm : g'.fillsMatched = g.fillsMatched) (hu : g'.fillsUnmatched = g.fillsUnmatched) :
    Logged acts g' := by
  refine ⟨⟨fun o ho => ?_, fun i => ?_, hm.trans hl.tracks.matched, hu.trans hl.tracks.unmatched⟩,
    hsent.trans hl.sent, hl.genuine, hl.faithful⟩
  · have := hl.tracks.entry o ho
    unfold OrderGateway.slot at this ⊢
    rwa [hin]
  · rw [hin]
    exact hl.tracks.active i

/-! ### One event -/

structure Inv (s : GatewaySession cap orderCap fillCap) : Prop where
  logged : Logged s.acts s.gateway
  forwarded : s.delivered ++ s.fills.items = (matched s.acts).map Round.report
  sends : (sends s.acts).Sublist s.popped
  intake : (replies s.acts).map Round.report ++ s.rx.filterMap ExecReport.ofDatagram? =
    s.arrived.filterMap ExecReport.ofDatagram?

theorem sends_append_replies (rs : List (Round cap fillCap)) : sends (acts ++ rs.map .reply) = sends acts := by
  simp [RequestReply.sends]

theorem replies_append_replies (rs : List (Round cap fillCap)) :
    replies (acts ++ rs.map .reply) = replies acts ++ rs := by
  simp [RequestReply.replies, List.filterMap_map]

theorem matched_append_replies (rs : List (Round cap fillCap)) :
    matched (acts ++ rs.map .reply) = matched acts ++ rs.filter fun r => decide r.Matched := by
  rw [matched, replies_append_replies, List.filter_append]
  rfl

theorem Inv.poll {kill : Bool} {now sendT : UInt64} (hi : Inv s) (ha : t.Apart)
    (hs : Step s (.poll kill now sendT) t) : Inv t := by
  obtain ⟨p, hp, ht⟩ := Option.bind_eq_some_iff.mp hs
  obtain ⟨⟨g₁, rx₁, fills₁⟩, hd, hp⟩ := Option.bind_eq_some_iff.mp hp
  have hp : g₁.pollOrder kill now sendT rx₁ s.orders fills₁ = p := Option.some.inj hp
  obtain rfl : s.polled p = t := Option.some.inj ht
  obtain ⟨-, hitems, hrx⟩ := rounds_of_drainFills hd
  have hl := hi.logged.drain hd
  obtain ⟨hprx, hpfills, hcase⟩ := OrderGateway.pollOrder_cases hp
  have hforwarded : s.delivered ++ p.fills.items =
      (matched (s.acts ++ (rounds 32 s.gateway s.rx s.fills).map .reply)).map Round.report := by
    rw [matched_append_replies, List.map_append, ← hi.forwarded, List.append_assoc, hpfills, hitems]
  have hintake : (replies (s.acts ++ (rounds 32 s.gateway s.rx s.fills).map .reply)).map Round.report ++
      p.rx.filterMap ExecReport.ofDatagram? = s.arrived.filterMap ExecReport.ofDatagram? := by
    rw [replies_append_replies, List.map_append, List.append_assoc, hprx, ← hrx]
    exact hi.intake
  rcases hcase with ⟨hg, hchecked, hwire⟩ | ⟨o, hchecked, hwire, hg⟩ | ⟨o, hchecked, hwire, hg⟩
  · refine ⟨?_, ?_, ?_, ?_⟩
    · simpa [polled, hwire, hg] using hl
    · simpa [polled, hwire] using hforwarded
    · simpa [polled, hwire, hchecked, sends_append_replies] using hi.sends
    · simpa [polled, hwire] using hintake
  · refine ⟨?_, ?_, ?_, ?_⟩
    · have hl : Logged _ p.gateway := hl.congr (by rw [hg]) (by rw [hg]) (by rw [hg]) (by rw [hg])
      simpa [polled, hwire] using hl
    · simpa [polled, hwire] using hforwarded
    · simpa [polled, hwire, hchecked, sends_append_replies] using hi.sends.trans (List.sublist_append_left _ [o])
    · simpa [polled, hwire] using hintake
  · have hacts : (s.polled p).acts = s.acts ++ (rounds 32 s.gateway s.rx s.fills).map .reply ++ [.send o] := by
      simp [polled, hwire]
    refine ⟨?_, ?_, ?_, ?_⟩
    · unfold Apart desk at ha
      rw [hacts] at ha ⊢
      have hl := hl.send (e := ⟨o.orderId, sendT, o.mdTimestamp, true⟩) (g₁.risk.check kill now o).1 ⟨rfl, rfl⟩ ha
      rw [← hg] at hl
      exact hl
    · rw [hacts, matched, replies_snoc_send]
      exact hforwarded
    · rw [hacts, sends_snoc_send, sends_append_replies]
      have hpopped : (s.polled p).popped = s.popped ++ [o] := by simp [polled, hchecked]
      rw [hpopped]
      exact hi.sends.append (List.Sublist.refl _)
    · rw [hacts, replies_snoc_send]
      exact hintake

theorem Inv.step (hi : Inv s) (ha : t.Apart) (hs : Step s e t) : Inv t := by
  cases e with
  | datagram m =>
    cases hs
    refine ⟨hi.logged, hi.forwarded, hi.sends, ?_⟩
    show _ ++ (s.rx ++ [m]).filterMap _ = (s.arrived ++ [m]).filterMap _
    rw [List.filterMap_append, List.filterMap_append, ← List.append_assoc, hi.intake]
  | push o =>
    obtain ⟨orders, -, ht⟩ := Option.bind_eq_some_iff.mp hs
    cases ht
    exact ⟨hi.logged, hi.forwarded, hi.sends, hi.intake⟩
  | poll kill now sendT => exact hi.poll ha hs
  | take =>
    obtain ⟨⟨r, fills⟩, hpop, ht⟩ := Option.bind_eq_some_iff.mp hs
    cases ht
    refine ⟨hi.logged, ?_, hi.sends, hi.intake⟩
    have hforwarded := hi.forwarded
    rw [BoundedQueue.pop?_eq_some.mp hpop] at hforwarded
    simpa using hforwarded

theorem Inv.run {lim : RiskLimits} {cyclesPerToken : UInt64} {h : List (GatewaySession cap orderCap fillCap × Event)}
    (hr : Run Step (new cap orderCap fillCap lim cyclesPerToken) h s) (hapart : ∀ p ∈ h, p.1.Apart) (hlast : s.Apart) :
    Inv s := by
  induction hr with
  | nil =>
    refine ⟨⟨tracks_new, rfl, fun r hr => ?_, fun pre r post h => ?_⟩, rfl, List.Sublist.refl _, rfl⟩
    · cases hr
    · cases pre <;> cases h
  | @snoc h t u l _ hs ih =>
    exact (ih (fun p hp => hapart p (List.mem_append_left _ hp)) (hapart (t, l) (by simp))).step hlast hs

/-! ### Exactly once -/

theorem Tracks.card_activeSlots (ht : Tracks g d) (hids : (d.working.map OrderRequest.orderId).Nodup) :
    g.activeSlots.card = d.working.length := by
  have hslots : (d.working.map fun o => cap.slot o.orderId).Nodup := by
    refine (List.nodup_map_iff_inj_on (List.Nodup.of_map _ hids)).mpr fun o ho o' ho' heq => ?_
    exact List.inj_on_of_nodup_map hids ho ho' (ht.orderId_eq ho ho' heq)
  have hset : g.activeSlots = (d.working.map fun o => cap.slot o.orderId).toFinset := by
    ext i
    simp only [OrderGateway.activeSlots, Finset.mem_filter, Finset.mem_univ, true_and, List.mem_toFinset,
      List.mem_map]
    constructor
    · intro hi
      obtain ⟨o, ho, hslot⟩ := ht.active i hi
      exact ⟨o, ho, hslot.symm⟩
    · rintro ⟨o, ho, rfl⟩
      exact (ht.entry o ho).1
  rw [hset, List.toFinset_card_of_nodup hslots, List.length_map]

/-- A report matches exactly when its order was sent and no earlier report of the order matched; one that does not match
    only counts; the strategy gets exactly the reports that matched, in the order of their arrival. -/
theorem fills_match_once {lim : RiskLimits} {cyclesPerToken : UInt64}
    {h : List (GatewaySession cap orderCap fillCap × Event)}
    (hr : Run Step (new cap orderCap fillCap lim cyclesPerToken) h s)
    (hids : (s.popped.map OrderRequest.orderId).Nodup) (hapart : ∀ p ∈ h, p.1.Apart) (hlast : s.Apart) :
    (∀ pre r post, s.acts = pre ++ .reply r :: post →
      r.before.handleFill r.report r.fillsBefore = some (r.after, r.fillsAfter) ∧
      (r.Matched ↔ (∃ o, .send o ∈ pre ∧ o.orderId = r.reportId) ∧
        ∀ r', .reply r' ∈ pre → r'.Matched → r'.reportId ≠ r.reportId) ∧
      (¬r.Matched → r.after.risk = r.before.risk ∧ r.after.inflight = r.before.inflight ∧
        r.fillsAfter = r.fillsBefore)) ∧
    ((matched s.acts).map Round.reportId).Nodup ∧
    s.delivered ++ s.fills.items = (matched s.acts).map Round.report ∧
    (replies s.acts).map Round.report ++ s.rx.filterMap ExecReport.ofDatagram? =
      s.arrived.filterMap ExecReport.ofDatagram? ∧
    s.gateway.sent = s.gateway.fillsMatched + UInt64.ofNat s.gateway.activeSlots.card ∧
    s.gateway.fillsMatched + s.gateway.fillsUnmatched = UInt64.ofNat (replies s.acts).length := by
  have hi := Inv.run hr hapart hlast
  have hkeys : ((sends s.acts).map OrderRequest.orderId).Nodup := hids.sublist (hi.sends.map _)
  have hmatched := hi.logged.faithful.matched_eq
  refine ⟨fun pre r post hsplit => ?_, ?_, hi.forwarded, hi.intake, ?_, ?_⟩
  · have hgenuine := hi.logged.genuine r (by rw [hsplit]; simp)
    have hfaithful := hi.logged.faithful
    rw [hsplit] at hfaithful hkeys
    have hpre : ((sends pre).map OrderRequest.orderId).Nodup := by
      rw [RequestReply.sends, List.filterMap_append, List.map_append] at hkeys
      exact hkeys.of_append_left
    refine ⟨hgenuine.handled, ?_, fun hm => ?_⟩
    · rw [hfaithful pre r post rfl, hits_iff hpre, ← hfaithful.of_append.matched_eq]
      simp only [mem_sends, matched, List.mem_filter, mem_replies, decide_eq_true_eq, and_imp]
    · obtain ⟨hafter, hfills⟩ := hgenuine.unmatched hm
      rw [hafter]
      exact ⟨rfl, rfl, hfills⟩
  · rw [hmatched]
    exact settled_nodup hkeys
  · rw [hi.logged.sent, hi.logged.tracks.matched, hi.logged.tracks.card_activeSlots (working_nodup hkeys),
      ← UInt64.ofNat_add, ← length_sends hkeys]
  · rw [hi.logged.tracks.matched, hi.logged.tracks.unmatched, ← UInt64.ofNat_add, ← length_replies]

/-- Orders 1 and 3 share a slot one after the other; a report ahead of its order, a duplicate, an id never sent, a
    short datagram and id 0 match nothing. -/
theorem fills_match_once_alias :
    let two : TableSize := ⟨2, by decide, by decide⟩
    let report (id size : UInt8) : List UInt8 :=
      [id] ++ List.replicate 27 0 ++ [size, 0, 0, 0, Side.kBuy.toByte] ++ List.replicate 7 0
    let buy (id : UInt64) : OrderRequest := { orderId := id, size := 100, side := Side.kBuy.toByte }
    let events : List Event := [.push (buy 1), .datagram (report 1 9), .poll false 0 0, .datagram (report 1 100),
      .datagram (report 1 100), .datagram (report 3 7), .datagram [1, 2], .poll false 0 0, .push (buy 3),
      .poll false 0 0, .datagram (report 3 50), .datagram (report 0 50), .poll false 0 0, .take]
    ∃ h s, Run Step (new two 4 4 ⟨1000, 500, 1⟩ 0) h s ∧ h.map Prod.snd = events ∧
      s.gateway.risk.position = 150 ∧ s.gateway.fillsMatched = 2 ∧ s.gateway.fillsUnmatched = 4 ∧
      ((matched s.acts).map Round.reportId).Nodup ∧
      s.delivered ++ s.fills.items = (matched s.acts).map Round.report := by
  intro two report buy events
  let start : GatewaySession two 4 4 := new two 4 4 ⟨1000, 500, 1⟩ 0
  have hrun : (events.foldlM (fun s e => if Apart s then next? s e else none) start).map
      (fun s => (s.gateway.risk.position, s.gateway.fillsMatched, s.gateway.fillsUnmatched,
        s.popped.map OrderRequest.orderId, decide s.Apart)) = some (150, 2, 4, [1, 3], true) := by decide +kernel
  obtain ⟨s, hs, hstate⟩ := Option.map_eq_some_iff.mp hrun
  simp only [Prod.mk.injEq, decide_eq_true_eq] at hstate
  obtain ⟨hpos, hm, hu, hids, hlast⟩ := hstate
  obtain ⟨h, hr, hlabels, hapart⟩ := Run.of_foldlM_where (C := fun s _ => Apart s) hs
  have hmain := fills_match_once hr (by rw [hids]; decide) hapart hlast
  exact ⟨h, s, hr, hlabels, hpos, hm, hu, hmain.2.1, hmain.2.2.1⟩

end Hft.GatewaySession
