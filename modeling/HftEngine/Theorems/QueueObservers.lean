import HftEngine.Theorems.SpscQueue

/-! The occupancy that other threads read off the ring: it is at most the capacity as long as the consumer does not move
    past a position that an observer holds, and the first such move makes it wrap. -/

namespace Hft.SpscQueue

open Transition Positions

namespace System

variable {α : Type} {cap : Capacity} {s t : System α cap}

/-- A step appends to what was pushed; it leaves what was popped, or is the store that releases a slot. -/
theorem Step.counts {a : Action α} (hs : s.Step a t) :
    s.pushed.length ≤ t.pushed.length ∧
      (t.popped = s.popped ∨
        ∃ cons out, a = .consumer ∧ s.consumer = .release cons out ∧ t.popped = s.popped ++ [out]) := by
  cases a with
  | push v =>
    simp only [Step, next?] at hs
    split at hs <;> cases hs
    exact ⟨Nat.le_refl _, Or.inl rfl⟩
  | pop =>
    simp only [Step, next?] at hs
    split at hs <;> cases hs
    exact ⟨Nat.le_refl _, Or.inl rfl⟩
  | producer =>
    simp only [Step, next?, System.producerStep] at hs
    split at hs
    case h_1 => cases hs
    case h_3 | h_5 => cases hs; exact ⟨Nat.le_refl _, Or.inl rfl⟩
    case h_2 | h_4 => split at hs <;> (cases hs; exact ⟨Nat.le_refl _, Or.inl rfl⟩)
    case h_6 => cases hs; exact ⟨by simp, Or.inl rfl⟩
  | consumer =>
    simp only [Step, next?, System.consumerStep] at hs
    split at hs
    case h_1 => cases hs
    case h_3 | h_5 => cases hs; exact ⟨Nat.le_refl _, Or.inl rfl⟩
    case h_2 | h_4 => split at hs <;> (cases hs; exact ⟨Nat.le_refl _, Or.inl rfl⟩)
    case h_6 cons out hpc => cases hs; exact ⟨Nat.le_refl _, Or.inr ⟨cons, out, rfl, hpc, rfl⟩⟩

/-- The consumer's own position is the stored one. -/
theorem Inv.release_eq {cons : UInt64} {out : α} (h : Inv s) (hpc : s.consumer = .release cons out) :
    cons = ofCount s.popped.length := by
  obtain ⟨seenC, seenP, h⟩ := h
  have hc := h.consumer
  rw [hpc] at hc
  exact hc.1

theorem Inv.stored_le (h : Inv s) :
    s.popped.length ≤ s.pushed.length ∧ s.pushed.length ≤ s.popped.length + cap.val.toNat := by
  obtain ⟨seenC, seenP, h⟩ := h
  have := h.popped_le
  have := h.seenP_le
  have := h.room
  have := h.seenC_le
  omega

end System

namespace Observed

variable {ι α : Type} {cap : Capacity} {s t : Observed ι α cap} {a : Action ι α}

/-- The consumer does not move past a position that an observer holds. -/
def Spares (s : Observed ι α cap) : Action ι α → Prop
  | .ring .consumer => ∀ cons out, s.system.consumer = .release cons out → ∀ i, s.held i ≠ some cons
  | .ring _ | .loadProducer _ | .loadConsumer _ => True

/-- Every size that a call returned is at most the capacity. -/
def Bounded (s : Observed ι α cap) : Prop := ∀ n ∈ s.sizes, n ≤ cap.val

/-- The positions held are those of counts that the consumer has not passed. -/
structure Inv (s : Observed ι α cap) : Prop where
  ring : s.system.Inv
  held : ∀ i p, s.held i = some p →
    ∃ k, p = ofCount k ∧ s.system.popped.length ≤ k ∧ k ≤ s.system.pushed.length
  bounded : s.Bounded

theorem init_inv (default : α) : Inv (init default : Observed ι α cap) where
  ring := ⟨0, 0, System.init_inv default⟩
  held _ _ h := by cases h
  bounded _ h := by cases h

theorem Inv.ringStep {b : SpscQueue.Action α} {u : System α cap} (h : Inv s) (hspares : s.Spares (.ring b))
    (hs : s.system.Step b u) : Inv { s with system := u } where
  ring := h.ring.step hs
  held i p hp := by
    obtain ⟨k, rfl, hpopped, hpushed⟩ := h.held i p hp
    obtain ⟨hgrow, hsame | ⟨cons, out, rfl, hpc, hrelease⟩⟩ := hs.counts
    · exact ⟨k, rfl, hsame ▸ hpopped, Nat.le_trans hpushed hgrow⟩
    · have hne : s.system.popped.length ≠ k := fun heq =>
        hspares cons out hpc i (by rw [hp, h.ring.release_eq hpc, heq])
      refine ⟨k, rfl, ?_, Nat.le_trans hpushed hgrow⟩
      show u.popped.length ≤ k
      rw [hrelease, List.length_append, List.length_singleton]
      omega
  bounded := h.bounded

variable [DecidableEq ι]

theorem Inv.step (h : Inv s) (hspares : s.Spares a) (hs : s.Step a t) : Inv t := by
  cases a with
  | ring b =>
    obtain ⟨u, hu, rfl⟩ := Option.map_eq_some_iff.mp hs
    exact h.ringStep hspares hu
  | loadProducer i =>
    simp only [Step, next?] at hs
    split at hs <;> cases hs
    refine { h with held := fun j p hp => ?_ }
    dsimp only at hp
    split at hp
    · obtain ⟨seenC, seenP, hat⟩ := h.ring
      exact ⟨_, (Option.some.inj hp).symm.trans hat.producerPos, h.ring.stored_le.1, Nat.le_refl _⟩
    · exact h.held j p hp
  | loadConsumer i =>
    simp only [Step, next?] at hs
    split at hs <;> cases hs
    next p hp =>
    obtain ⟨k, rfl, hpopped, hpushed⟩ := h.held i p hp
    obtain ⟨seenC, seenP, hat⟩ := h.ring
    have hstored := h.ring.stored_le.2
    have hcap := cap.val.toNat_lt
    refine ⟨h.ring, fun j q hq => ?_, fun n hn => ?_⟩
    · dsimp only at hq
      split at hq
      · cases hq
      · exact h.held j q hq
    · rcases List.mem_append.mp hn with hn | hn
      · exact h.bounded n hn
      · rw [List.mem_singleton.mp hn, sizeApprox, hat.consumerPos, UInt64.le_iff_toNat_le,
          toNat_sub hpopped (by omega)]
        omega

theorem sub_succ (p : UInt64) : sizeApprox p (p + 1) = 0xFFFFFFFFFFFFFFFF := by
  have hp := p.toNat_lt
  refine UInt64.toNat_inj.mp ?_
  show _ = 2 ^ 64 - 1
  rw [sizeApprox, UInt64.toNat_sub, UInt64.toNat_add, UInt64.toNat_one]
  omega

/-- After a move past a held position, the call that holds it returns 2^64 - 1 when it is finished next. -/
theorem wraps_of_not_spares (hs : s.Step a t) (hspares : ¬s.Spares a) :
    ∃ i u, t.Step (.loadConsumer i) u ∧ u.sizes = t.sizes ++ [0xFFFFFFFFFFFFFFFF] := by
  unfold Spares at hspares
  split at hspares
  · simp only [not_forall, Classical.not_not] at hspares
    obtain ⟨cons, out, hpc, i, hi⟩ := hspares
    simp only [Step, next?, System.next?, System.consumerStep, hpc, Option.map_some, Option.some.injEq] at hs
    subst hs
    refine ⟨i, _, by simp only [Step, next?, hi]; rfl, ?_⟩
    rw [sub_succ]
  all_goals exact absurd trivial hspares

/-- Every size read is at most the capacity in a run whose consumer never moves past a position that an observer holds;
    and after the first such move the observer can read 2^64 - 1. -/
theorem size_bounded_of_spares (default : α) {h : List (Observed ι α cap × Action ι α)}
    (hr : Run Step (init default) h s) (hspares : ∀ p ∈ h, p.1.Spares p.2) :
    ((∀ p ∈ h, p.1.Bounded) ∧ s.Bounded) ∧
    ∀ a t, s.Step a t → ¬s.Spares a →
      ∃ i u, t.Step (.loadConsumer i) u ∧ u.sizes = t.sizes ++ [0xFFFFFFFFFFFFFFFF] := by
  have hinv := hr.invariant (I := Inv) (C := Spares) (init_inv default) (fun h hc hs => h.step hc hs) hspares
  exact ⟨⟨fun p hp => (hinv.1 p hp).bounded, hinv.2.bounded⟩, fun a t => wraps_of_not_spares⟩

/-- One value pushed and one observation of it. -/
theorem size_bounded_of_spares_one :
    let cap : Capacity := ⟨⟨2, by decide, by decide⟩, by decide⟩
    ∃ h, ∃ s : Observed Unit Nat cap, Run Step (init 0) h s ∧ s.sizes = [1] ∧ s.Bounded := by
  intro cap
  let labels : List (Action Unit Nat) :=
    [.ring (.push 7), .ring .producer, .ring .producer, .ring .producer, .loadProducer (), .loadConsumer ()]
  have hrun : (labels.foldlM next? (init 0 : Observed Unit Nat cap)).map sizes = some [1] := by decide +kernel
  obtain ⟨s, hs, hsizes⟩ := Option.map_eq_some_iff.mp hrun
  obtain ⟨h, hr, hlabels⟩ := Run.of_foldlM hs
  have hspares : ∀ p ∈ h, p.1.Spares p.2 := by
    intro p hp
    have hmem : p.2 ∈ labels := hlabels ▸ List.mem_map_of_mem hp
    have hother : p.2 ≠ .ring .consumer := fun heq => by
      rw [heq] at hmem
      simp [labels] at hmem
    unfold Spares
    split
    · next heq => exact absurd heq hother
    all_goals trivial
  exact ⟨h, s, hr, hsizes, (size_bounded_of_spares 0 hr hspares).1.2⟩

/-- A third thread loads the producer position; a value is pushed and popped; then it loads the consumer position. -/
theorem observer_reads_garbage :
    let cap : Capacity := ⟨⟨2, by decide, by decide⟩, by decide⟩
    let labels : List (Action Unit Nat) := [.loadProducer ()] ++
      [.push 7, .producer, .producer, .producer, .pop, .consumer, .consumer, .consumer, .consumer, .consumer].map
        .ring ++ [.loadConsumer ()]
    ∃ s : Observed Unit Nat cap, labels.foldlM next? (init 0) = some s ∧ Reachable Step (init 0) s ∧
      s.sizes = [0xFFFFFFFFFFFFFFFF] ∧ ¬s.Bounded := by
  intro cap labels
  have hrun : (labels.foldlM next? (init 0 : Observed Unit Nat cap)).map sizes = some [0xFFFFFFFFFFFFFFFF] := by
    decide +kernel
  obtain ⟨s, hs, hsizes⟩ := Option.map_eq_some_iff.mp hrun
  refine ⟨s, hs, Reachable.of_foldlM hs, hsizes, fun hbounded => ?_⟩
  have hle := hbounded 0xFFFFFFFFFFFFFFFF (by simp [hsizes])
  exact absurd hle (by decide)

end Observed

end Hft.SpscQueue
