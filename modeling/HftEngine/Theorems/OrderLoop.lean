import HftEngine.OrderLoop
import Mathlib.Algebra.Ring.Int.Defs

/-! What holds on every run of the order loop: the ledgers differ by the fill under way, the gate checks an order at
    the position it was emitted at, and compliant fills keep the positions within one order of zero. -/

namespace Hft

open Transition

/-! ### What a phase holds -/

namespace Phase

def unchecked : Phase → List OrderRequest
  | .queued o => [o]
  | .idle | .working _ | .reported _ _ | .dropped _ => []

def reports : Phase → List ExecReport
  | .reported _ r => [r]
  | .idle | .queued _ | .working _ | .dropped _ => []

/-- The order that the exchange holds. -/
def working? : Phase → Option OrderRequest
  | .working o => some o
  | .idle | .queued _ | .reported _ _ | .dropped _ => none

def order? : Phase → Option OrderRequest
  | .queued o | .working o | .reported o _ | .dropped o => some o
  | .idle => none

def inFlight : Phase → Bool
  | .idle => false
  | .queued _ | .working _ | .reported _ _ | .dropped _ => true

def rejections : Phase → UInt64
  | .dropped _ => 1
  | .idle | .queued _ | .working _ | .reported _ _ => 0

/-- Shares that the gate has counted and the strategy has not. -/
def fill : Phase → Int
  | .reported _ r => r.signedFill
  | .idle | .queued _ | .working _ | .dropped _ => 0

theorem length_unchecked (p : Phase) : p.unchecked.length ≤ 1 := by
  cases p with
  | queued => exact Nat.le_refl 1
  | idle | working | reported | dropped => exact Nat.zero_le 1

theorem length_reports (p : Phase) : p.reports.length ≤ 1 := by
  cases p with
  | reported => exact Nat.le_refl 1
  | idle | queued | working | dropped => exact Nat.zero_le 1

/-- An open latch leaves the loop idle. -/
theorem idle_of_inFlight {p : Phase} (h : p.inFlight = false) : p = .idle := by
  cases p with
  | idle => rfl
  | queued | working | reported | dropped => cases h

theorem sum_reports (p : Phase) : (p.reports.map ExecReport.signedFill).sum = p.fill := by
  cases p with
  | reported o r => exact Int.add_zero _
  | idle | queued | working | dropped => rfl

end Phase

namespace OrderLoop

variable {a b : OrderLoop} {e : LoopEvent} {o : OrderRequest} {r : ExecReport} {h : List (OrderLoop × LoopEvent)}

/-! ### The ledgers -/

/-- The two ledgers and the two logs, related through the phase. -/
structure Ledger (a : OrderLoop) : Prop where
  gate : a.gatePos = a.strategyPos + a.phase.fill
  logged : a.emitted = a.checked ++ a.phase.unchecked.map fun o => (o, a.strategyPos)
  wants : ∀ o, a.phase.order? = some o → Wants a.strategyPos o
  sent : ∀ o, a.phase.working? = some o → o ∈ a.sent

theorem Ledger.init : Ledger {} where
  gate := rfl
  logged := rfl
  wants _ h := by cases h
  sent _ h := by cases h

/-- Away from a report on its way the two positions are equal. -/
theorem Ledger.pos_eq (h : Ledger a) (hf : a.phase.fill = 0) : a.gatePos = a.strategyPos := by
  rw [h.gate, hf, Int.add_zero]

theorem Ledger.step (h : Ledger a) (hs : Step a e b) : Ledger b := by
  have pos_eq := h.pos_eq
  obtain ⟨hgate, hlogged, hwants, hsent⟩ := h
  cases hs with
  | emit hp hw =>
    rw [hp] at hgate hlogged
    refine ⟨hgate, ?_, fun o ho => Option.some.inj ho ▸ hw, fun o ho => by cases ho⟩
    rw [OrderLoop.emit, hlogged]
    simp [Phase.unchecked]
  | pass hp =>
    rw [hp] at hgate hlogged hwants pos_eq
    have hpos := pos_eq rfl
    refine ⟨hgate, ?_, hwants, fun o ho => ?_⟩
    · simp only [OrderLoop.pass, hlogged, hpos]
      simp [Phase.unchecked]
    · cases ho
      exact List.mem_append_right _ (List.mem_singleton_self _)
  | drop hp =>
    rw [hp] at hgate hlogged hwants pos_eq
    have hpos := pos_eq rfl
    refine ⟨hgate, ?_, hwants, fun o ho => by cases ho⟩
    simp only [OrderLoop.drop, hlogged, hpos]
    simp [Phase.unchecked]
  | report hp hid =>
    rw [hp] at hgate hlogged hwants
    refine ⟨?_, hlogged, hwants, fun o ho => by cases ho⟩
    simp only [OrderLoop.report, hgate, Phase.fill]
    omega
  | deliver hp =>
    rw [hp] at hgate hlogged
    refine ⟨hgate.trans (Int.add_zero _).symm, ?_, fun o ho => (by cases ho), fun o ho => by cases ho⟩
    simpa [OrderLoop.deliver, Phase.unchecked] using hlogged

theorem ledger_of_run (hr : Run Step {} h a) : (∀ p ∈ h, Ledger p.1) ∧ Ledger a :=
  hr.invariant (C := fun _ _ => True) Ledger.init (fun hl _ hs => hl.step hs) fun _ _ => trivial

/-- An order that worked at some moment stays on the list of the orders sent. -/
theorem working_sent (hr : Run Step {} h a) : ∀ p ∈ h, ∀ o, p.1.phase = .working o → o ∈ a.sent := by
  induction hr with
  | nil => simp
  | @snoc h a b e hr hs ih =>
    have hgrows : ∀ o ∈ a.sent, o ∈ b.sent := by
      cases hs with
      | pass => exact fun o ho => List.mem_append_left _ ho
      | emit | drop | report | deliver => exact fun o ho => ho
    intro p hp o ho
    rcases List.mem_append.mp hp with hp | hp
    · exact hgrows o (ih p hp o ho)
    · rw [List.mem_singleton.mp hp] at ho
      exact hgrows o ((ledger_of_run hr).2.sent o (by rw [ho]; rfl))

/-! ### Conditions on the events -/

def EmitsSize (size : Nat) : LoopEvent → Prop
  | .emit o => o.size.toNat = size
  | .pass | .drop | .report _ | .deliver => True

/-- A report carries the side of the working order and at most its size. -/
def Complies (a : OrderLoop) : LoopEvent → Prop
  | .report r => ∀ o, a.phase = .working o → r.side = o.side ∧ r.fillSize ≤ o.size
  | .emit _ | .pass | .drop | .deliver => True

def FillsFull (a : OrderLoop) : LoopEvent → Prop
  | .report r => ∀ o, a.phase = .working o → r.fillSize = o.size
  | .emit _ | .pass | .drop | .deliver => True

/-- The gate passes an order only when its full fill stays in the band. -/
def PassesInBand (bound : Int) (a : OrderLoop) : LoopEvent → Prop
  | .pass => ∀ o, a.phase = .queued o → -bound ≤ a.gatePos + o.signedSize ∧ a.gatePos + o.signedSize ≤ bound
  | .emit _ | .drop | .report _ | .deliver => True

theorem Wants.signed {pos : Int} (h : Wants pos o) :
    pos ≤ 0 ∧ o.signedSize = o.size.toNat ∨ 0 ≤ pos ∧ o.signedSize = -(o.size.toNat : Int) := by
  unfold OrderRequest.signedSize signedQty
  split
  · next hbuy => exact Or.inl ⟨h.1 hbuy, rfl⟩
  · next hsell => exact Or.inr ⟨h.2 hsell, rfl⟩

/-! ### Positions within one order of zero -/

/-- Both positions lie within one order of zero, and the order of the loop has that size. -/
structure Within (size : Nat) (a : OrderLoop) : Prop where
  strategy : -(size : Int) ≤ a.strategyPos ∧ a.strategyPos ≤ size
  gate : -(size : Int) ≤ a.gatePos ∧ a.gatePos ≤ size
  order : ∀ o, a.phase.order? = some o → o.size.toNat = size

theorem Within.init (size : Nat) : Within size {} where
  strategy := ⟨by simp, by simp⟩
  gate := ⟨by simp, by simp⟩
  order _ h := by cases h

/-- An order that the strategy wanted fills to a position within one order of zero. -/
theorem Within.projected {size : Nat} (h : Within size a) (hl : Ledger a) (hp : a.phase = .queued o) :
    -(size : Int) ≤ a.gatePos + o.signedSize ∧ a.gatePos + o.signedSize ≤ size := by
  have hsize := h.order o (by rw [hp]; rfl)
  have hpos := hl.pos_eq (by rw [hp]; rfl)
  obtain ⟨hlo, hhi⟩ := h.strategy
  rcases (hl.wants o (by rw [hp]; rfl)).signed with ⟨hside, hsigned⟩ | ⟨hside, hsigned⟩
  · exact ⟨by omega, by omega⟩
  · exact ⟨by omega, by omega⟩

theorem Within.step {size : Nat} (h : Within size a) (hl : Ledger a) (hsize : EmitsSize size e) (hc : Complies a e)
    (hs : Step a e b) : Within size b := by
  obtain ⟨hstrategy, hgate, horder⟩ := h
  cases hs with
  | emit hp hw => exact ⟨hstrategy, hgate, fun o ho => Option.some.inj ho ▸ hsize⟩
  | pass hp | drop hp => exact ⟨hstrategy, hgate, fun o ho => horder o (by rw [hp]; exact ho)⟩
  | @report o r hp hid =>
    refine ⟨hstrategy, ?_, fun o ho => horder o (by rw [hp]; exact ho)⟩
    obtain ⟨hside, hle⟩ := hc o hp
    have hfill := signedFill_between hside hle
    have hlen := horder o (by rw [hp]; rfl)
    have hpos := hl.pos_eq (by rw [hp]; rfl)
    simp only [OrderLoop.report]
    rcases (hl.wants o (by rw [hp]; rfl)).signed with ⟨hwant, hsigned⟩ | ⟨hwant, hsigned⟩
    · exact ⟨by omega, by omega⟩
    · exact ⟨by omega, by omega⟩
  | deliver hp =>
    have hpos := hl.gate
    rw [hp] at hpos
    refine ⟨?_, hgate, fun o ho => by cases ho⟩
    simp only [OrderLoop.deliver]
    simp only [Phase.fill] at hpos
    exact ⟨by omega, by omega⟩

theorem within_of_run {size : Nat} (hr : Run Step {} h a)
    (hc : ∀ p ∈ h, EmitsSize size p.2 ∧ Complies p.1 p.2) : (∀ p ∈ h, Within size p.1) ∧ Within size a := by
  have hboth := hr.invariant (I := fun a => Within size a ∧ Ledger a)
    (C := fun a e => EmitsSize size e ∧ Complies a e) ⟨Within.init size, Ledger.init⟩
    (fun hi hc hs => ⟨hi.1.step hi.2 hc.1 hc.2 hs, hi.2.step hs⟩) hc
  exact ⟨fun p hp => (hboth.1 p hp).1, hboth.2.1⟩

/-! ### The band of the gate -/

/-- The gate's position lies in its band, and so does what the working order makes of it. -/
structure GateInBand (bound : Int) (a : OrderLoop) : Prop where
  gate : -bound ≤ a.gatePos ∧ a.gatePos ≤ bound
  working : ∀ o, a.phase = .working o → -bound ≤ a.gatePos + o.signedSize ∧ a.gatePos + o.signedSize ≤ bound

theorem GateInBand.step {bound : Int} (h : GateInBand bound a) (hband : PassesInBand bound a e) (hc : Complies a e)
    (hs : Step a e b) : GateInBand bound b := by
  obtain ⟨hgate, hworking⟩ := h
  cases hs with
  | emit hp hw => exact ⟨hgate, fun o ho => by cases ho⟩
  | pass hp => exact ⟨hgate, fun o ho => by cases ho; exact hband _ hp⟩
  | drop hp => exact ⟨hgate, fun o ho => by cases ho⟩
  | @report o r hp hid =>
    refine ⟨?_, fun o ho => by cases ho⟩
    obtain ⟨hside, hle⟩ := hc o hp
    have hproj := hworking o hp
    have hfill := signedFill_between hside hle
    simp only [OrderLoop.report]
    exact ⟨by omega, by omega⟩
  | deliver hp => exact ⟨hgate, fun o ho => by cases ho⟩

theorem gateInBand_of_run {bound : Int} (hbound : 0 ≤ bound) (hr : Run Step {} h a)
    (hc : ∀ p ∈ h, PassesInBand bound p.1 p.2 ∧ Complies p.1 p.2) : GateInBand bound a :=
  (hr.invariant (I := GateInBand bound) (C := fun a e => PassesInBand bound a e ∧ Complies a e)
    ⟨⟨by show -bound ≤ 0; omega, hbound⟩, fun o ho => by cases ho⟩ (fun hi hc hs => hi.step hc.1 hc.2 hs) hc).2

/-! ### Full fills -/

def OneOrder (size : Nat) (pos : Int) : Prop := pos = -(size : Int) ∨ pos = 0 ∨ pos = size

theorem OneOrder.step {size : Nat} (h : OneOrder size a.strategyPos ∧ OneOrder size a.gatePos) (hw : Within size a)
    (hl : Ledger a) (hc : Complies a e) (hf : FillsFull a e) (hs : Step a e b) :
    OneOrder size b.strategyPos ∧ OneOrder size b.gatePos := by
  obtain ⟨hstrategy, hgate⟩ := h
  cases hs with
  | emit | pass | drop => exact ⟨hstrategy, hgate⟩
  | @report o r hp hid =>
    refine ⟨hstrategy, ?_⟩
    have hfull : r.signedFill = o.signedSize := by
      unfold ExecReport.signedFill OrderRequest.signedSize
      rw [(hc o hp).1, hf o hp]
    have hlen := hw.order o (by rw [hp]; rfl)
    have hpos := hl.pos_eq (by rw [hp]; rfl)
    simp only [OrderLoop.report, hfull, OneOrder] at hstrategy ⊢
    rcases (hl.wants o (by rw [hp]; rfl)).signed with ⟨hwant, hsigned⟩ | ⟨hwant, hsigned⟩
    · omega
    · omega
  | deliver hp =>
    have hpos := hl.gate
    rw [hp] at hpos
    refine ⟨?_, hgate⟩
    simp only [OrderLoop.deliver]
    exact hpos ▸ hgate

theorem oneOrder_of_run {size : Nat} (hr : Run Step {} h a)
    (hc : ∀ p ∈ h, EmitsSize size p.2 ∧ Complies p.1 p.2 ∧ FillsFull p.1 p.2) :
    OneOrder size a.strategyPos ∧ OneOrder size a.gatePos :=
  (hr.invariant
    (I := fun a => (OneOrder size a.strategyPos ∧ OneOrder size a.gatePos) ∧ Within size a ∧ Ledger a)
    (C := fun a e => EmitsSize size e ∧ Complies a e ∧ FillsFull a e)
    ⟨⟨Or.inr (Or.inl rfl), Or.inr (Or.inl rfl)⟩, Within.init size, Ledger.init⟩
    (fun hi hc hs => ⟨OneOrder.step hi.1 hi.2.1 hi.2.2 hc.2.1 hc.2.2 hs, hi.2.1.step hi.2.2 hc.1 hc.2.1 hs,
      hi.2.2.step hs⟩) hc).2.1

/-! ### Drops -/

/-- Without a drop every order checked was sent, and the loop is not stuck. -/
structure Undropped (a : OrderLoop) : Prop where
  phase : ∀ o, a.phase ≠ .dropped o
  sent : a.checked.map Prod.fst = a.sent

theorem phase_ne_dropped (hr : Run Step a h b) (ha : ∀ o, a.phase ≠ .dropped o) (hd : ∀ p ∈ h, p.2 ≠ .drop) :
    ∀ o, b.phase ≠ .dropped o := by
  refine (hr.invariant (I := fun a => ∀ o, a.phase ≠ .dropped o) (C := fun _ e => e ≠ .drop) ha
    (fun _ he hs => ?_) hd).2
  cases hs with
  | drop => exact absurd rfl he
  | emit | pass | report | deliver => exact fun o ho => by cases ho

/-- While an order works the loop waits for its report. -/
theorem eq_of_working (hp : a.phase = .working o) (hr : Run Step a h b) (hd : ∀ p ∈ h, ∀ r, p.2 ≠ .report r) :
    b = a := by
  induction hr with
  | nil => rfl
  | @snoc h b c e _ hs ih =>
    have hba := ih fun p hp => hd p (List.mem_append_left _ hp)
    subst hba
    cases hs with
    | @report _ r => exact absurd rfl (hd (b, .report r) (by simp) r)
    | emit hp' | pass hp' | drop hp' | deliver hp' => cases hp'.symm.trans hp

/-- A loop that dropped its order makes no event any more. -/
theorem eq_of_dropped (hp : a.phase = .dropped o) (hr : Run Step a h b) : b = a := by
  induction hr with
  | nil => rfl
  | @snoc h b c e _ hs ih =>
    subst ih
    cases hs with
    | emit hp' | pass hp' | drop hp' | report hp' | deliver hp' => cases hp'.symm.trans hp

theorem Undropped.step (h : Undropped a) (he : e ≠ .drop) (hs : Step a e b) : Undropped b := by
  obtain ⟨hphase, hsent⟩ := h
  cases hs with
  | drop => exact absurd rfl he
  | emit => exact ⟨fun o ho => (by cases ho), hsent⟩
  | pass => exact ⟨fun o ho => (by cases ho), by simp [OrderLoop.pass, hsent]⟩
  | report => exact ⟨fun o ho => (by cases ho), hsent⟩
  | deliver => exact ⟨fun o ho => (by cases ho), hsent⟩

theorem undropped_of_run (hr : Run Step {} h a) (hd : ∀ p ∈ h, p.2 ≠ .drop) : Undropped a :=
  (hr.invariant (I := Undropped) (C := fun _ e => e ≠ .drop) ⟨fun o ho => (by cases ho), rfl⟩
    (fun hi he hs => hi.step he hs) hd).2

end OrderLoop

end Hft
