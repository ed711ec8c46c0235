import HftEngine.OrderGateway

/-! The fill intake of the gateway, when at most one order works: a report is matched only by that order's id, and
    then no entry is active any more. -/

namespace Hft.OrderGateway

variable {cap : TableSize} {orderCap fillCap k : Nat} {g g' : OrderGateway cap} {o : OrderRequest}
  {w : Option OrderRequest} {rep : ExecReport} {rx : List (List UInt8)} {fills : BoundedQueue ExecReport fillCap}

/-! ### The in-flight table -/

/-- The active entry of the table is the entry of the order that works, if one does. -/
structure Holds (g : OrderGateway cap) (w : Option OrderRequest) : Prop where
  active : ∀ i, (g.inflight.get i).active = true → ∃ o, w = some o ∧ i = cap.slot o.orderId
  entry : ∀ o, w = some o → (g.slot o.orderId).active = true ∧ (g.slot o.orderId).orderId = o.orderId

theorem holds_new {lim : RiskLimits} {cyclesPerToken : UInt64} : Holds (new cap lim cyclesPerToken) none where
  active i h := by simp [new] at h
  entry _ h := by cases h

theorem Holds.congr (h : g.Holds w) (hi : g'.inflight = g.inflight) : g'.Holds w := by
  obtain ⟨hactive, hentry⟩ := h
  refine ⟨fun i => ?_, fun o => ?_⟩
  · rw [hi]
    exact hactive i
  · unfold slot
    rw [hi]
    exact hentry o

@[simp] theorem slot_setSlot {id : UInt64} {e : InFlight} : (g.setSlot id e).slot id = e := Table.get_set_self

theorem get_setSlot_ne {id : UInt64} {e : InFlight} {i : Fin cap.val.toNat} (h : i ≠ cap.slot id) :
    (g.setSlot id e).inflight.get i = g.inflight.get i :=
  Table.get_set_ne h.symm

theorem Holds.record (h : g.Holds none) (sendT : UInt64) :
    (g.setSlot o.orderId { orderId := o.orderId, sendTsc := sendT, mdTsc := o.mdTimestamp, active := true }).Holds
      (some o) where
  active i hi := by
    by_cases hslot : i = cap.slot o.orderId
    · exact ⟨o, rfl, hslot⟩
    · rw [get_setSlot_ne hslot] at hi
      obtain ⟨_, hnone, -⟩ := h.active i hi
      cases hnone
  entry o' ho' := by
    cases ho'
    rw [slot_setSlot]
    exact ⟨rfl, rfl⟩

theorem Holds.release (h : g.Holds (some o)) {e : InFlight} (he : e.active = false) :
    (g.setSlot o.orderId e).Holds none where
  active i hi := by
    by_cases hslot : i = cap.slot o.orderId
    · subst hslot
      have hself : (g.setSlot o.orderId e).inflight.get (cap.slot o.orderId) = e := slot_setSlot
      rw [hself, he] at hi
      cases hi
    · rw [get_setSlot_ne hslot] at hi
      obtain ⟨o', ho', rfl⟩ := h.active i hi
      cases ho'
      exact absurd rfl hslot
  entry _ ho' := by cases ho'

theorem Holds.activeSlots_none (h : g.Holds none) : g.activeSlots = ∅ := by
  refine Finset.filter_eq_empty_iff.mpr fun i _ hi => ?_
  obtain ⟨_, hnone, -⟩ := h.active i hi
  cases hnone

theorem Holds.activeSlots_some (h : g.Holds (some o)) : g.activeSlots = {cap.slot o.orderId} := by
  ext i
  simp only [activeSlots, Finset.mem_filter, Finset.mem_univ, true_and, Finset.mem_singleton]
  constructor
  · intro hi
    obtain ⟨o', ho', rfl⟩ := h.active i hi
    cases ho'
    rfl
  · rintro rfl
    exact (h.entry o rfl).1

/-! ### One report -/

/-- A report either meets an active entry of its id, which it releases, or only counts. -/
theorem handleFill_cases {fills' : BoundedQueue ExecReport fillCap}
    (h : g.handleFill rep fills = some (g', fills')) :
    (((g.slot rep.orderId).active = true ∧ (g.slot rep.orderId).orderId = rep.orderId) ∧
      g' = { g.setSlot rep.orderId { g.slot rep.orderId with active := false } with
        fillsMatched := g.fillsMatched + 1, risk := g.risk.onFill rep } ∧
      fills'.items = fills.items ++ [rep]) ∨
    (¬((g.slot rep.orderId).active = true ∧ (g.slot rep.orderId).orderId = rep.orderId) ∧
      g' = { g with fillsUnmatched := g.fillsUnmatched + 1 } ∧ fills' = fills) := by
  unfold handleFill at h
  by_cases hslot : (g.slot rep.orderId).active = true ∧ (g.slot rep.orderId).orderId = rep.orderId
  · rw [if_pos hslot] at h
    obtain ⟨q, hpush, hq⟩ := Option.bind_eq_some_iff.mp h
    cases hq
    exact Or.inl ⟨hslot, rfl, (BoundedQueue.push?_eq_some.mp hpush).2⟩
  · rw [if_neg hslot] at h
    cases h
    exact Or.inr ⟨hslot, rfl, rfl⟩

theorem handleFill_unmatched (rep : ExecReport) (fills : BoundedQueue ExecReport fillCap) (h : g.Holds w)
    (hid : ∀ o, w = some o → rep.orderId ≠ o.orderId) :
    g.handleFill rep fills = some ({ g with fillsUnmatched := g.fillsUnmatched + 1 }, fills) := by
  unfold handleFill
  refine if_neg fun ⟨hactive, hrep⟩ => ?_
  obtain ⟨o, rfl, hslot⟩ := h.active (cap.slot rep.orderId) hactive
  have hentry := (h.entry o rfl).2
  unfold slot at hrep hentry
  rw [hslot, hentry] at hrep
  exact hid o rfl hrep.symm

/-- The report of the working order releases its entry and is the only one for the strategy. -/
theorem handleFill_matched (h : g.Holds (some o)) (hid : rep.orderId = o.orderId) (hcap : 0 < fillCap)
    (hfills : fills.items = []) :
    ∃ g' fills', g.handleFill rep fills = some (g', fills') ∧ fills'.items = [rep] ∧ g'.Holds none ∧
      g'.risk = g.risk.onFill rep ∧ g'.riskRejected = g.riskRejected := by
  obtain ⟨fills', hpush, hitems⟩ := BoundedQueue.push?_of_nil hcap hfills rep
  have hslot : (g.slot rep.orderId).active = true ∧ (g.slot rep.orderId).orderId = rep.orderId := by
    rw [hid]
    exact h.entry o rfl
  refine ⟨{ g.setSlot rep.orderId { g.slot rep.orderId with active := false } with
    fillsMatched := g.fillsMatched + 1, risk := g.risk.onFill rep }, fills', ?_, hitems, ?_, rfl, rfl⟩
  · unfold handleFill
    rw [if_pos hslot, hpush]
    rfl
  · have hreleased : (g.setSlot o.orderId { g.slot rep.orderId with active := false }).Holds none := h.release rfl
    rw [← hid] at hreleased
    exact hreleased.congr rfl

/-! ### The receive loop -/

theorem drainFills_cons {m : List UInt8} {fills' : BoundedQueue ExecReport fillCap}
    (hm : ExecReport.ofDatagram? m = some rep) (hh : g.handleFill rep fills = some (g', fills')) :
    drainFills (k + 1) g (m :: rx) fills = drainFills k g' rx fills' := by
  simp only [drainFills, hm, hh, Option.bind_eq_bind, Option.bind_some]

theorem drainFills_short {m : List UInt8} (hm : ExecReport.ofDatagram? m = none) :
    drainFills (k + 1) g (m :: rx) fills = some (g, rx, fills) := by
  simp only [drainFills, hm]

theorem drainFills_none (k : Nat) (rx : List (List UInt8)) (fills : BoundedQueue ExecReport fillCap)
    (h : g.Holds none) :
    ∃ g' rx', drainFills k g rx fills = some (g', rx', fills) ∧ (∀ m ∈ rx', m ∈ rx) ∧ g'.Holds none ∧
      g'.risk = g.risk ∧ g'.riskRejected = g.riskRejected := by
  induction k generalizing g rx with
  | zero => exact ⟨g, rx, rfl, fun _ => id, h, rfl, rfl⟩
  | succ k ih =>
    cases rx with
    | nil => exact ⟨g, [], rfl, fun _ => id, h, rfl, rfl⟩
    | cons m rx =>
      cases hm : ExecReport.ofDatagram? m with
      | none => exact ⟨g, rx, drainFills_short hm, fun _ => List.mem_cons_of_mem m, h, rfl, rfl⟩
      | some rep =>
        have hskip := handleFill_unmatched rep fills h fun _ ho => by cases ho
        have hnext : ({ g with fillsUnmatched := g.fillsUnmatched + 1 } : OrderGateway cap).Holds none := h.congr rfl
        obtain ⟨g', rx', hdrain, hrx, hkept⟩ := ih rx hnext
        exact ⟨g', rx', (drainFills_cons hm hskip).trans hdrain, fun m' hm' => List.mem_cons_of_mem m (hrx m' hm'),
          hkept⟩

/-- With one order working the loop only counts until a report of that order arrives; that report is the only one for
    the strategy, whatever follows it. -/
theorem drainFills_some (k : Nat) (rx : List (List UInt8)) (h : g.Holds (some o)) (hcap : 0 < fillCap)
    (hfills : fills.items = []) :
    ∃ g' rx' fills', drainFills k g rx fills = some (g', rx', fills') ∧ (∀ m ∈ rx', m ∈ rx) ∧
      g'.riskRejected = g.riskRejected ∧
      (fills' = fills ∧ g'.risk = g.risk ∧ g'.Holds (some o) ∨
       ∃ rep, rep.orderId = o.orderId ∧ (∃ m ∈ rx, ExecReport.ofDatagram? m = some rep) ∧ fills'.items = [rep] ∧
         g'.Holds none ∧ g'.risk = g.risk.onFill rep) := by
  induction k generalizing g rx with
  | zero => exact ⟨g, rx, fills, rfl, fun _ => id, rfl, Or.inl ⟨rfl, rfl, h⟩⟩
  | succ k ih =>
    cases rx with
    | nil => exact ⟨g, [], fills, rfl, fun _ => id, rfl, Or.inl ⟨rfl, rfl, h⟩⟩
    | cons m rx =>
      have mem_tail : ∀ {x}, x ∈ rx → x ∈ m :: rx := fun hx => List.mem_cons_of_mem m hx
      cases hm : ExecReport.ofDatagram? m with
      | none => exact ⟨g, rx, fills, drainFills_short hm, fun _ => mem_tail, rfl, Or.inl ⟨rfl, rfl, h⟩⟩
      | some rep =>
        by_cases hid : rep.orderId = o.orderId
        · obtain ⟨g₁, fills₁, hmatch, hitems, hnone, hrisk, hrejected⟩ := handleFill_matched h hid hcap hfills
          obtain ⟨g', rx', hdrain, hrx, hkept, hrisk', hrejected'⟩ := drainFills_none k rx fills₁ hnone
          exact ⟨g', rx', fills₁, (drainFills_cons hm hmatch).trans hdrain, fun x hx => mem_tail (hrx x hx),
            hrejected'.trans hrejected,
            Or.inr ⟨rep, hid, ⟨m, List.mem_cons_self, hm⟩, hitems, hkept, hrisk'.trans hrisk⟩⟩
        · have hskip := handleFill_unmatched rep fills h fun o' ho' => by
            cases ho'
            exact hid
          have hnext : ({ g with fillsUnmatched := g.fillsUnmatched + 1 } : OrderGateway cap).Holds (some o) :=
            h.congr rfl
          obtain ⟨g', rx', fills', hdrain, hrx, hrejected, hcase⟩ := ih rx hnext
          refine ⟨g', rx', fills', (drainFills_cons hm hskip).trans hdrain, fun x hx => mem_tail (hrx x hx),
            hrejected, ?_⟩
          rcases hcase with hcase | ⟨rep', hid', ⟨m', hm', hdec⟩, hrest⟩
          · exact Or.inl hcase
          · exact Or.inr ⟨rep', hid', ⟨m', mem_tail hm', hdec⟩, hrest⟩

/-! ### The outbound order -/

section Outbound
variable {kill : Bool} {now sendT : UInt64} {orders : BoundedQueue OrderRequest orderCap}

theorem pollOrder_empty (ho : orders.items = []) :
    g.pollOrder kill now sendT rx orders fills =
      { gateway := g, rx, orders, fills, checked := none, wire := none, busy := false } := by
  unfold pollOrder
  rw [BoundedQueue.pop?_eq_none.mpr ho]

/-- A poll pops no order, refuses the order it pops, or records it and puts it on the wire. -/
theorem pollOrder_cases {p : Polled cap orderCap fillCap} (h : g.pollOrder kill now sendT rx orders fills = p) :
    p.rx = rx ∧ p.fills = fills ∧
    (p.gateway = g ∧ p.checked = none ∧ p.wire = none ∨
     (∃ o, p.checked.map Prod.fst = some o ∧ p.wire = none ∧
       p.gateway = { g with risk := (g.risk.check kill now o).1, riskRejected := g.riskRejected + 1 }) ∨
     ∃ o, p.checked.map Prod.fst = some o ∧ p.wire = some o ∧
       p.gateway = { g.setSlot o.orderId
         { orderId := o.orderId, sendTsc := sendT, mdTsc := o.mdTimestamp, active := true } with
         risk := (g.risk.check kill now o).1, sent := g.sent + 1 }) := by
  subst h
  cases hpop : orders.pop? with
  | none => simp [pollOrder, hpop]
  | some popped =>
    obtain ⟨o, rest⟩ := popped
    by_cases hrr : (g.risk.check kill now o).2 = .kAccept <;> simp [pollOrder, hpop, hrr]

/-- What a check of the order at the head leaves: the order logged and out of the queue, the position and the limits
    of the gate as they were, and the order `w` on the wire and in the table. -/
structure Checked (g : OrderGateway cap) (rx : List (List UInt8)) (fills : BoundedQueue ExecReport fillCap)
    (o : OrderRequest) (w : Option OrderRequest) (rejections : UInt64) (p : Polled cap orderCap fillCap) : Prop where
  rx : p.rx = rx
  orders : p.orders.items = []
  fills : p.fills = fills
  checked : p.checked = some (o, g.risk.position)
  wire : p.wire = w
  table : p.gateway.Holds w
  position : p.gateway.risk.position = g.risk.position
  limits : p.gateway.risk.limits = g.risk.limits
  rejected : p.gateway.riskRejected = g.riskRejected + rejections

/-- An admitted order becomes the working order and goes on the wire. -/
theorem pollOrder_pass (sendT : UInt64) (rx : List (List UInt8)) (fills : BoundedQueue ExecReport fillCap)
    (ho : orders.items = [o]) (hadm : g.risk.Admits kill now o) (h : g.Holds none) :
    Checked g rx fills o (some o) 0 (g.pollOrder kill now sendT rx orders fills) := by
  have hpop : orders.pop? = some (o, ⟨[], Nat.zero_le _⟩) := BoundedQueue.pop?_eq_some.mpr ho
  have hacc := RiskGate.check_accept.mpr hadm
  simp only [pollOrder, hpop, hacc, ne_eq, not_true_eq_false, ↓reduceIte]
  exact ⟨rfl, rfl, rfl, rfl, rfl, (h.record sendT).congr rfl, RiskGate.check_position, RiskGate.check_limits,
    (UInt64.add_zero _).symm⟩

/-- A refused order leaves the queue and nothing else keeps it. -/
theorem pollOrder_drop (sendT : UInt64) (rx : List (List UInt8)) (fills : BoundedQueue ExecReport fillCap)
    (ho : orders.items = [o]) (hadm : ¬g.risk.Admits kill now o) (h : g.Holds none) :
    Checked g rx fills o none 1 (g.pollOrder kill now sendT rx orders fills) := by
  have hpop : orders.pop? = some (o, ⟨[], Nat.zero_le _⟩) := BoundedQueue.pop?_eq_some.mpr ho
  have hrej : (g.risk.check kill now o).2 ≠ .kAccept := mt RiskGate.check_accept.mp hadm
  simp only [pollOrder, hpop, ne_eq, hrej, not_false_eq_true, ↓reduceIte]
  exact ⟨rfl, rfl, rfl, rfl, rfl, h.congr rfl, RiskGate.check_position, RiskGate.check_limits, rfl⟩

end Outbound

end Hft.OrderGateway
