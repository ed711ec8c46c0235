import HftEngine.RiskGate
import HftEngine.Lib.Transition
import Mathlib.Algebra.Ring.Int.Defs
import Mathlib.Algebra.BigOperators.Group.List.Basic

/-! The position bound of the risk gate on its own. A check projects the filled position only, so what keeps the
    bound is the exposure: the position with every accepted order of one side filled. -/

namespace Hft

open Transition

/-- A risk gate with the orders that it accepted and that are not filled. -/
structure Desk where
  gate : RiskGate
  outstanding : List OrderRequest := []
  deriving DecidableEq

namespace Desk

inductive Event
  | check (kill : Bool) (now : UInt64) (o : OrderRequest)
  | fill (i : Nat) (r : ExecReport)

def new (lim : RiskLimits) (cyclesPerToken : UInt64) : Desk := { gate := RiskGate.new lim cyclesPerToken }

def checked (s : Desk) (kill : Bool) (now : UInt64) (o : OrderRequest) : Desk where
  gate := (s.gate.check kill now o).1
  outstanding := if (s.gate.check kill now o).2 = .kAccept then s.outstanding ++ [o] else s.outstanding

/-- A fill is on the side of its order and no larger; the order is outstanding no more. -/
def filled? (s : Desk) (i : Nat) (r : ExecReport) : Option Desk :=
  match s.outstanding[i]? with
  | some o =>
    if r.side = o.side ∧ r.fillSize ≤ o.size then
      some { gate := s.gate.onFill r, outstanding := s.outstanding.eraseIdx i }
    else none
  | none => none

def next? (s : Desk) : Event → Option Desk
  | .check kill now o => some (s.checked kill now o)
  | .fill i r => s.filled? i r

def Step (s : Desk) (e : Event) (t : Desk) : Prop := s.next? e = some t

def InBand (s : Desk) : Prop := -s.gate.maxPosition ≤ s.gate.position ∧ s.gate.position ≤ s.gate.maxPosition

instance (s : Desk) : Decidable s.InBand := inferInstanceAs (Decidable (_ ∧ _))

instance (s t : Desk) (e : Event) : Decidable (s.Step e t) := inferInstanceAs (Decidable (_ = _))

/-! ### Exposure -/

/-- How far an order can still raise the position. -/
def up (o : OrderRequest) : Int := max 0 o.signedSize

/-- How far an order can still lower the position. -/
def down (o : OrderRequest) : Int := max 0 (-o.signedSize)

/-- The position with every outstanding buy filled. -/
def longest (s : Desk) : Int := s.gate.position + (s.outstanding.map up).sum

/-- The position with every outstanding sell filled. -/
def shortest (s : Desk) : Int := s.gate.position - (s.outstanding.map down).sum

/-- Whatever fills, the position stays in the band. -/
def Safe (s : Desk) : Prop := -s.gate.maxPosition ≤ s.shortest ∧ s.longest ≤ s.gate.maxPosition

/-- An order that passes the gate leaves the position in the band even when it and every outstanding order of its
    side fill in full. -/
def Covers (s : Desk) : Event → Prop
  | .check kill now o => s.gate.Admits kill now o →
      -s.gate.maxPosition ≤ s.shortest - down o ∧ s.longest + up o ≤ s.gate.maxPosition
  | .fill _ _ => True

instance (s : Desk) : DecidablePred s.Covers
  | .check _ _ _ => inferInstanceAs (Decidable (_ → _ ∧ _))
  | .fill _ _ => isTrue trivial

section
variable {s t : Desk} {e : Event} {o : OrderRequest} {r : ExecReport} {i : Nat}

theorem sum_eraseIdx {f : OrderRequest → Int} {l : List OrderRequest} (h : l[i]? = some o) :
    (l.map f).sum = f o + ((l.eraseIdx i).map f).sum := by
  obtain ⟨hi, rfl⟩ := List.getElem?_eq_some_iff.mp h
  have hperm := ((List.getElem_cons_eraseIdx_perm hi).map f).sum_eq
  rw [← hperm, List.map_cons, List.sum_cons]

theorem sum_nonneg {f : OrderRequest → Int} (hf : ∀ o, 0 ≤ f o) (l : List OrderRequest) : 0 ≤ (l.map f).sum := by
  induction l with
  | nil => exact Int.le_refl _
  | cons o l ih =>
    have := hf o
    rw [List.map_cons, List.sum_cons]
    omega

theorem up_nonneg (o : OrderRequest) : 0 ≤ up o := Int.le_max_left _ _

theorem down_nonneg (o : OrderRequest) : 0 ≤ down o := Int.le_max_left _ _

theorem Safe.inBand (h : s.Safe) : s.InBand := by
  obtain ⟨hlo, hhi⟩ := h
  have hup := sum_nonneg up_nonneg s.outstanding
  have hdown := sum_nonneg down_nonneg s.outstanding
  unfold longest shortest at *
  exact ⟨by omega, by omega⟩

/-! ### One event -/

theorem filled?_inv (h : s.filled? i r = some t) :
    ∃ o, s.outstanding[i]? = some o ∧ r.side = o.side ∧ r.fillSize ≤ o.size ∧ t.gate = s.gate.onFill r ∧
      t.outstanding = s.outstanding.eraseIdx i := by
  unfold filled? at h
  split at h
  · next o ho =>
    split at h
    · next hok => exact ⟨o, ho, hok.1, hok.2, by cases h; exact ⟨rfl, rfl⟩⟩
    · cases h
  · cases h

theorem Safe.step (h : s.Safe) (hc : s.Covers e) (hs : s.Step e t) : t.Safe := by
  cases e with
  | check kill now o =>
    cases hs
    have hc : (s.gate.check kill now o).2 = .kAccept → _ := fun hacc => hc (RiskGate.check_accept.mp hacc)
    obtain ⟨hlo, hhi⟩ := h
    unfold Safe longest shortest checked at *
    simp only [RiskGate.check_position, RiskGate.check_maxPosition]
    split
    · next hacc =>
      have := hc hacc
      simp only [List.map_append, List.sum_append, List.map_singleton, List.sum_singleton]
      exact ⟨by omega, by omega⟩
    · exact ⟨hlo, hhi⟩
  | fill i r =>
    obtain ⟨o, ho, hside, hsize, hgate, hout⟩ := filled?_inv hs
    obtain ⟨hlo, hhi⟩ := h
    have hmove := signedFill_between hside hsize
    have hup := sum_eraseIdx (f := up) ho
    have hdown := sum_eraseIdx (f := down) ho
    have hupmost : up o = max 0 o.signedSize := rfl
    have hdownmost : down o = max 0 (-o.signedSize) := rfl
    unfold Safe longest shortest at *
    rw [hgate, hout]
    simp only [RiskGate.onFill_position, RiskGate.onFill_maxPosition]
    exact ⟨by omega, by omega⟩

/-! ### The worst case happens -/

def fullFill (o : OrderRequest) : ExecReport := { side := o.side, fillSize := o.size }

theorem signedFill_fullFill (o : OrderRequest) : (fullFill o).signedFill = o.signedSize := rfl

/-- Fills alone can fill in full every outstanding order that `pick` selects. -/
theorem fill_all (pick : OrderRequest → Bool) (kept rest : List OrderRequest) (s : Desk)
    (hs : s.outstanding = kept ++ rest) :
    ∃ h t, Run Step s h t ∧ (∀ p ∈ h, ∃ i r, p.2 = .fill i r) ∧ t.gate.maxPosition = s.gate.maxPosition ∧
      t.gate.position = s.gate.position + ((rest.filter pick).map OrderRequest.signedSize).sum := by
  induction rest generalizing kept s with
  | nil => exact ⟨[], s, .nil, by simp, rfl, by simp⟩
  | cons o rest ih =>
    by_cases ho : pick o
    · let next : Desk := { gate := s.gate.onFill (fullFill o), outstanding := s.outstanding.eraseIdx kept.length }
      have hget : s.outstanding[kept.length]? = some o := by simp [hs]
      have hstep : Step s (.fill kept.length (fullFill o)) next := by
        simp only [Step, next?, filled?, hget]
        exact if_pos ⟨rfl, UInt32.le_refl _⟩
      have hout : next.outstanding = kept ++ rest := by
        show s.outstanding.eraseIdx kept.length = _
        simp [hs, List.eraseIdx_append_of_length_le]
      obtain ⟨h, t, hr, hfills, hmax, hpos⟩ := ih kept next hout
      refine ⟨_, t, (Run.nil.snoc hstep).append hr, fun p hp => ?_, hmax, ?_⟩
      · rcases List.mem_append.mp hp with hp | hp
        · exact ⟨_, _, by rw [List.mem_singleton.mp hp]⟩
        · exact hfills p hp
      · rw [hpos, List.filter_cons_of_pos ho, List.map_cons, List.sum_cons]
        show s.gate.position + (fullFill o).signedFill + _ = _
        rw [signedFill_fullFill]
        omega
    · obtain ⟨h, t, hr, hfills, hmax, hpos⟩ := ih (kept ++ [o]) s (by simp [hs])
      exact ⟨h, t, hr, hfills, hmax, by rw [hpos, List.filter_cons_of_neg ho]⟩

theorem sum_filter {pick : OrderRequest → Bool} {f : OrderRequest → Int}
    (hf : ∀ o, f o = if pick o then o.signedSize else 0) (l : List OrderRequest) :
    ((l.filter pick).map OrderRequest.signedSize).sum = (l.map f).sum := by
  induction l with
  | nil => rfl
  | cons o l ih =>
    rw [List.map_cons, List.sum_cons, ← ih, List.filter_cons, hf o]
    split
    · rw [List.map_cons, List.sum_cons]
    · rw [Int.zero_add]

theorem sum_up (l : List OrderRequest) :
    ((l.filter fun o => 0 < o.signedSize).map OrderRequest.signedSize).sum = (l.map up).sum := by
  refine sum_filter (fun o => ?_) l
  simp only [up, decide_eq_true_eq]
  split <;> omega

theorem sum_down (l : List OrderRequest) :
    ((l.filter fun o => o.signedSize < 0).map OrderRequest.signedSize).sum = -(l.map down).sum := by
  rw [List.sum_neg, List.map_map]
  refine sum_filter (fun o => ?_) l
  simp only [down, Function.comp_apply, decide_eq_true_eq]
  split <;> omega

/-- Outside the safe states fills alone can take the position out of the band. -/
theorem breaks_of_not_safe (h : ¬s.Safe) :
    ∃ fills t, Run Step s fills t ∧ (∀ p ∈ fills, ∃ i r, p.2 = .fill i r) ∧ ¬t.InBand := by
  by_cases hlong : s.longest ≤ s.gate.maxPosition
  · obtain ⟨fills, t, hr, hfills, hmax, hpos⟩ := fill_all (fun o => o.signedSize < 0) [] s.outstanding s rfl
    refine ⟨fills, t, hr, hfills, fun hband => h ⟨?_, hlong⟩⟩
    have hlo := hband.1
    rw [hmax, hpos, sum_down] at hlo
    exact hlo
  · obtain ⟨fills, t, hr, hfills, hmax, hpos⟩ := fill_all (fun o => 0 < o.signedSize) [] s.outstanding s rfl
    refine ⟨fills, t, hr, hfills, fun hband => hlong ?_⟩
    have hhi := hband.2
    rw [hmax, hpos, sum_up] at hhi
    exact hhi

theorem Safe.not_covered (hs : s.Step e t) (hc : ¬s.Covers e) : ¬t.Safe := by
  cases e with
  | fill => exact absurd trivial hc
  | check kill now o =>
    cases hs
    obtain ⟨hadm, hout⟩ := Classical.not_imp.mp hc
    have hacc := RiskGate.check_accept.mpr hadm
    intro hsafe
    apply hout
    unfold Safe longest shortest checked at *
    simp only [RiskGate.check_position, RiskGate.check_maxPosition, if_pos hacc, List.map_append, List.sum_append,
      List.map_singleton, List.sum_singleton] at hsafe
    exact ⟨by omega, by omega⟩

/-- While every order that the gate admits is covered, the position stays in the band; and from the first admitted
    order that is not, fills of the outstanding orders alone can take it out. -/
theorem inBand_of_covers (lim : RiskLimits) (cyclesPerToken : UInt64) (hmax : 0 ≤ lim.maxPosition)
    {h : List (Desk × Event)} (hr : Run Step (new lim cyclesPerToken) h s) (hc : ∀ p ∈ h, p.1.Covers p.2) :
    ((∀ p ∈ h, p.1.InBand) ∧ s.InBand) ∧
    ∀ e t, s.Step e t → ¬s.Covers e →
      ∃ fills u, Run Step t fills u ∧ (∀ p ∈ fills, ∃ i r, p.2 = .fill i r) ∧ ¬u.InBand := by
  have hinit : (new lim cyclesPerToken).Safe := by
    show -lim.maxPosition ≤ (0 : Int) - 0 ∧ (0 : Int) + 0 ≤ lim.maxPosition
    exact ⟨by omega, by omega⟩
  have hsafe := hr.invariant (I := Safe) (C := Covers) hinit (fun hs hc hstep => hs.step hc hstep) hc
  exact ⟨⟨fun p hp => (hsafe.1 p hp).inBand, hsafe.2.inBand⟩,
    fun _ _ hs hnc => breaks_of_not_safe (Safe.not_covered hs hnc)⟩

end

theorem inBand_of_covers_buy :
    let s := new ⟨1000, 500, 0⟩ 0
    let buy : OrderRequest := { orderId := 1, side := Side.kBuy.toByte, size := 100 }
    let fill : ExecReport := { orderId := 1, side := Side.kBuy.toByte, fillSize := 60 }
    let t := s.checked false 0 buy
    ∃ u : Desk, u.gate.position = 60 ∧
      ((∀ p ∈ [(s, Event.check false 0 buy), (t, .fill 0 fill)], p.1.InBand) ∧ u.InBand) ∧
      ∀ e v, u.Step e v → ¬u.Covers e →
        ∃ fills w, Run Step v fills w ∧ (∀ p ∈ fills, ∃ i r, p.2 = .fill i r) ∧ ¬w.InBand := by
  intro s buy fill t
  have hbuy : Step s (.check false 0 buy) t := rfl
  have hfill : Step t (.fill 0 fill) ⟨t.gate.onFill fill, []⟩ := by decide
  exact ⟨_, by decide, inBand_of_covers ⟨1000, 500, 0⟩ 0 (by decide) ((Run.nil.snoc hbuy).snoc hfill) (by decide)⟩

/-- Three buys of 500 each pass a gate bounded at 1000, and then all fill. -/
theorem three_buys_out_of_band :
    let buy : OrderRequest := { side := Side.kBuy.toByte, size := 500 }
    let fill : ExecReport := { side := Side.kBuy.toByte, fillSize := 500 }
    let events := [Event.check false 0 buy, .check false 0 buy, .check false 0 buy, .fill 0 fill, .fill 0 fill,
      .fill 0 fill]
    ∃ s, events.foldlM next? (new ⟨1000, 500, 0⟩ 0) = some s ∧ Reachable Step (new ⟨1000, 500, 0⟩ 0) s ∧
      s.gate.position = 1500 ∧ ¬s.InBand := by
  intro buy fill events
  have hrun : events.foldlM next? (new ⟨1000, 500, 0⟩ 0) =
      some { gate := { RiskGate.new ⟨1000, 500, 0⟩ 0 with position := 1500, accepted := 3 } } := by decide
  exact ⟨_, hrun, Reachable.of_foldlM hrun, rfl, by decide⟩

end Desk

end Hft
