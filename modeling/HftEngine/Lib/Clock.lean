import HftEngine.Lib.Transition

/-! Runs under a clock: steps that may come with a reading, none of which lies before an earlier one. -/

namespace Transition

variable {σ ℓ τ : Type} [LE τ] {step : σ → ℓ → σ → Prop} {reading : ℓ → Option τ} {s t : σ × τ} {l : ℓ}

/-- A step between states with the last reading in them. -/
def Clocked (step : σ → ℓ → σ → Prop) (reading : ℓ → Option τ) (s : σ × τ) (l : ℓ) (t : σ × τ) : Prop :=
  step s.1 l t.1 ∧ (∀ c ∈ reading l, s.2 ≤ c) ∧ t.2 = (reading l).getD s.2

theorem Reachable.of_clocked (hr : Reachable (Clocked step reading) s t) : Reachable step s.1 t.1 := by
  refine hr.invariant (I := fun u => Reachable step s.1 u.1) .refl fun hi hs => ?_
  exact hi.next hs.1

/-- A run whose readings are in order is one under the clock. -/
theorem Run.clocked {s t : σ} {h : List (σ × ℓ)} {c : τ} (hr : Run step s h t)
    (hsorted : (c :: h.filterMap fun p => reading p.2).Pairwise (· ≤ ·)) :
    ∃ c' ∈ c :: h.filterMap fun p => reading p.2, Reachable (Clocked step reading) (s, c) (t, c') := by
  induction hr with
  | nil => exact ⟨c, List.mem_cons_self, .refl⟩
  | @snoc h t u l hr hs ih =>
    rw [List.filterMap_append, ← List.cons_append] at hsorted ⊢
    obtain ⟨hold, -, hlater⟩ := List.pairwise_append.mp hsorted
    obtain ⟨c', hc', hreach⟩ := ih hold
    cases hl : reading l with
    | none =>
      refine ⟨c', List.mem_append_left _ hc', hreach.next (l := l) ⟨hs, fun x hx => ?_, by rw [hl]; rfl⟩⟩
      rw [hl] at hx
      cases hx
    | some x =>
      have hx : x ∈ [(t, l)].filterMap fun p => reading p.2 := by simp [hl]
      refine ⟨x, List.mem_append_right _ hx, hreach.next (l := l) ⟨hs, fun y hy => ?_, by rw [hl]; rfl⟩⟩
      obtain rfl := Option.some.inj (hl.symm.trans hy)
      exact hlater c' hc' x hx

theorem Reachable.clocked_of_foldlM {next? : σ → ℓ → Option σ} {ls : List ℓ} {s t : σ} {c : τ}
    (hls : ls.foldlM next? s = some t) (hsorted : (c :: ls.filterMap reading).Pairwise (· ≤ ·)) :
    ∃ c' ∈ c :: ls.filterMap reading, Reachable (Clocked (next? · · = some ·) reading) (s, c) (t, c') := by
  obtain ⟨h, hr, rfl⟩ := Run.of_foldlM hls
  rw [List.filterMap_map] at hsorted ⊢
  exact hr.clocked hsorted

end Transition
