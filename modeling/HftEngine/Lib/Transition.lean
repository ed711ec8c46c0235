import Mathlib.Data.List.Basic

/-! Labelled transition systems: runs with their history, the invariant rule, the exactness rule for a condition on
    the steps of a run, and the simulation rule. -/

namespace Transition

variable {σ ℓ : Type}

/-- A run from `s`: the states it left, each with the label of the step taken there, oldest first. -/
inductive Run (step : σ → ℓ → σ → Prop) (s : σ) : List (σ × ℓ) → σ → Prop
  | nil : Run step s [] s
  | snoc {h : List (σ × ℓ)} {t u : σ} {l : ℓ} : Run step s h t → step t l u → Run step s (h ++ [(t, l)]) u

/-- A state that some run from `s` ends in. -/
def Reachable (step : σ → ℓ → σ → Prop) (s t : σ) : Prop := ∃ h, Run step s h t

section
variable {step : σ → ℓ → σ → Prop} {s t u : σ} {h : List (σ × ℓ)} {l : ℓ}

theorem Reachable.refl : Reachable step s s := ⟨[], .nil⟩

theorem Reachable.next (hr : Reachable step s t) (hs : step t l u) : Reachable step s u := by
  obtain ⟨h, hr⟩ := hr
  exact ⟨_, hr.snoc hs⟩

theorem Run.append {h' : List (σ × ℓ)} (hr : Run step s h t) (hr' : Run step t h' u) : Run step s (h ++ h') u := by
  induction hr' with
  | nil => rwa [List.append_nil]
  | snoc _ hs ih => exact List.append_assoc h _ _ ▸ ih.snoc hs

theorem Run.reachable (hr : Run step s h t) : Reachable step s t := ⟨h, hr⟩

/-- What a system given by a partial function goes through on labels, as far as it accepts them. -/
def history (next? : σ → ℓ → Option σ) : List ℓ → σ → List (σ × ℓ)
  | [], _ => []
  | l :: ls, s =>
    (s, l) :: match next? s l with
      | none => []
      | some t => history next? ls t

theorem Run.history_of_foldlM {next? : σ → ℓ → Option σ} {ls : List ℓ} (hls : ls.foldlM next? s = some t) :
    Run (next? · · = some ·) s (history next? ls s) t ∧ (history next? ls s).map Prod.snd = ls := by
  induction ls generalizing s with
  | nil => exact ⟨Option.some.inj hls ▸ .nil, rfl⟩
  | cons l ls ih =>
    rw [List.foldlM_cons] at hls
    obtain ⟨s', hs, hls⟩ := Option.bind_eq_some_iff.mp hls
    obtain ⟨hr, hlabels⟩ := ih hls
    simp only [Transition.history, hs, List.map_cons, hlabels, and_true]
    exact (Run.nil.snoc hs).append hr

/-- A system given by a partial function: the labels that it accepts in turn make a run. -/
theorem Run.of_foldlM {next? : σ → ℓ → Option σ} {ls : List ℓ} (hls : ls.foldlM next? s = some t) :
    ∃ h, Run (next? · · = some ·) s h t ∧ h.map Prod.snd = ls :=
  ⟨_, history_of_foldlM hls⟩

theorem Reachable.of_foldlM {next? : σ → ℓ → Option σ} {ls : List ℓ} (hls : ls.foldlM next? s = some t) :
    Reachable (next? · · = some ·) s t := by
  obtain ⟨h, hr, -⟩ := Run.of_foldlM hls
  exact ⟨h, hr⟩

/-- Labels that are accepted wherever an invariant of those so far holds are accepted in turn. -/
theorem foldlM_total {next? : σ → ℓ → Option σ} {I : σ → List ℓ → Prop}
    (step : ∀ {s done} l, I s done → ∃ t, next? s l = some t ∧ I t (done ++ [l])) {done : List ℓ} (hi : I s done)
    (ls : List ℓ) : ∃ t, ls.foldlM next? s = some t ∧ I t (done ++ ls) := by
  induction ls generalizing s done with
  | nil => exact ⟨s, rfl, by rwa [List.append_nil]⟩
  | cons l ls ih =>
    obtain ⟨t, hs, ht⟩ := step l hi
    obtain ⟨u, hls, hu⟩ := ih ht
    refine ⟨u, ?_, by rwa [List.append_assoc] at hu⟩
    rw [List.foldlM_cons, hs]
    exact hls

/-- The labels that are accepted in turn, each where it meets `C`, make a run whose steps all meet `C`. -/
theorem Run.of_foldlM_where {next? : σ → ℓ → Option σ} {C : σ → ℓ → Prop} [∀ s l, Decidable (C s l)] {ls : List ℓ}
    (hls : ls.foldlM (fun s l => if C s l then next? s l else none) s = some t) :
    ∃ h, Run (next? · · = some ·) s h t ∧ h.map Prod.snd = ls ∧ ∀ p ∈ h, C p.1 p.2 := by
  induction ls generalizing s with
  | nil => exact ⟨[], Option.some.inj hls ▸ .nil, rfl, by simp⟩
  | cons l ls ih =>
    rw [List.foldlM_cons] at hls
    obtain ⟨s', hs, hls⟩ := Option.bind_eq_some_iff.mp hls
    obtain ⟨hC, hs⟩ := Option.ite_none_right_eq_some.mp hs
    obtain ⟨h, hr, hlabels, hall⟩ := ih hls
    refine ⟨[(s, l)] ++ h, (Run.nil.snoc hs).append hr, congrArg (l :: ·) hlabels, fun p hp => ?_⟩
    rcases List.mem_append.mp hp with hp | hp
    · obtain rfl := List.mem_singleton.mp hp
      exact hC
    · exact hall p hp

/-- Every state a run left is reachable, and its step leads on from there. -/
theorem Run.history (hr : Run step s h t) : ∀ p ∈ h, Reachable step s p.1 ∧ ∃ u, step p.1 p.2 u := by
  induction hr with
  | nil => simp
  | @snoc h t u l hr hs ih =>
    intro p hp
    rcases List.mem_append.mp hp with hp | hp
    · exact ih p hp
    · obtain rfl := List.mem_singleton.mp hp
      exact ⟨hr.reachable, u, hs⟩

/-- The invariant rule for runs whose steps all meet `C`. -/
theorem Run.invariant {I : σ → Prop} {C : σ → ℓ → Prop} (hr : Run step s h t) (init : I s)
    (kept : ∀ {t l u}, I t → C t l → step t l u → I u) (hC : ∀ p ∈ h, C p.1 p.2) :
    (∀ p ∈ h, I p.1) ∧ I t := by
  induction hr with
  | nil => exact ⟨by simp, init⟩
  | @snoc h t u l hr hs ih =>
    obtain ⟨hall, ht⟩ := ih fun p hp => hC p (List.mem_append_left _ hp)
    refine ⟨fun p hp => ?_, kept ht (hC (t, l) (by simp)) hs⟩
    rcases List.mem_append.mp hp with hp | hp
    · exact hall p hp
    · obtain rfl := List.mem_singleton.mp hp
      exact ht

theorem Reachable.invariant {I : σ → Prop} (hr : Reachable step s t) (init : I s)
    (kept : ∀ {t l u}, I t → step t l u → I u) : I t := by
  obtain ⟨h, hr⟩ := hr
  exact (hr.invariant (C := fun _ _ => True) init (fun ht _ hs => kept ht hs) fun _ _ => trivial).2

/-- Exactness: where every step under `C` keeps `P` and every step outside `C` breaks it, a run has `P`
    in every state exactly when all its steps meet `C`. -/
theorem Run.exact {P : σ → Prop} {C : σ → ℓ → Prop} (hr : Run step s h t) (init : P s)
    (kept : ∀ {t l u}, Reachable step s t → P t → C t l → step t l u → P u)
    (broken : ∀ {t l u}, Reachable step s t → P t → ¬C t l → step t l u → ¬P u) :
    ((∀ p ∈ h, P p.1) ∧ P t) ↔ ∀ p ∈ h, C p.1 p.2 := by
  induction hr with
  | nil => simpa using init
  | @snoc h t u l hr hs ih =>
    constructor
    · rintro ⟨hall, hu⟩ p hp
      have ht : P t := hall (t, l) (by simp)
      have hbefore := ih.mp ⟨fun q hq => hall q (List.mem_append_left _ hq), ht⟩
      rcases List.mem_append.mp hp with hp | hp
      · exact hbefore p hp
      · obtain rfl := List.mem_singleton.mp hp
        by_contra hc
        exact broken hr.reachable ht hc hs hu
    · intro hC
      obtain ⟨hall, ht⟩ := ih.mpr fun p hp => hC p (List.mem_append_left _ hp)
      refine ⟨fun p hp => ?_, kept hr.reachable ht (hC (t, l) (by simp)) hs⟩
      rcases List.mem_append.mp hp with hp | hp
      · exact hall p hp
      · obtain rfl := List.mem_singleton.mp hp
        exact ht

/-- Forward simulation: where every step out of a related pair is matched by a run, so is every run. The relation may
    speak of the history of the matching run. -/
theorem Run.simulate {τ κ : Type} {step' : τ → κ → τ → Prop} {R : σ → List (τ × κ) → τ → Prop} {s' : τ}
    (hr : Run step s h t) (init : R s [] s')
    (matched : ∀ {t l u h' t'}, Run step' s' h' t' → R t h' t' → step t l u →
      ∃ more u', Run step' t' more u' ∧ R u (h' ++ more) u') :
    ∃ h' t', Run step' s' h' t' ∧ R t h' t' := by
  induction hr with
  | nil => exact ⟨[], s', .nil, init⟩
  | snoc _ hs ih =>
    obtain ⟨h', t', hr', hrel⟩ := ih
    obtain ⟨more, u', hmore, hrel'⟩ := matched hr' hrel hs
    exact ⟨h' ++ more, u', hr'.append hmore, hrel'⟩

end

end Transition
