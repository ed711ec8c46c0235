import Mathlib.Algebra.Ring.Nat
import Mathlib.Data.Finsupp.Single
import Mathlib.Order.Bounds.Basic

/-! Finite maps from keys to sizes, absent keys at zero, with the saturating and truncating updates of a
    level book, and what an update does to the extreme key of a map. -/

noncomputable section

namespace LevelMap

variable {κ : Type}

/-- Adds `q` at `k`, saturating at `cap`; adding nothing does nothing. -/
def deposit (cap : Nat) (m : κ →₀ Nat) (k : κ) (q : Nat) : κ →₀ Nat :=
  if q = 0 then m else m.update k (min (m k + q) cap)

def withdraw (m : κ →₀ Nat) (k : κ) (q : Nat) : κ →₀ Nat := m.update k (m k - q)

def clear (m : κ →₀ Nat) (k : κ) : κ →₀ Nat := m.update k 0

/-- The only level of a map is cleared. -/
theorem clear_single (k : κ) (q : Nat) : clear (Finsupp.single k q) k = 0 := by
  rw [clear, ← Finsupp.zero_update, Finsupp.update_idem, Finsupp.zero_update, Finsupp.single_zero]

/-- The first level of a map is made. -/
theorem deposit_zero {cap q : Nat} (hq : q ≠ 0) (hcap : q ≤ cap) (k : κ) : deposit cap 0 k q = Finsupp.single k q := by
  rw [deposit, if_neg hq, Finsupp.zero_update, Finsupp.zero_apply, Nat.zero_add, Nat.min_eq_left hcap]

section Support
variable {m : κ →₀ Nat} {k : κ} {v : Nat}

theorem support_update_pos (hv : v ≠ 0) : ((m.update k v).support : Set κ) = insert k ↑m.support := by
  classical
  ext i
  by_cases hi : i = k
  · subst hi
    simp [hv]
  · simp [hi]

theorem support_update_kept (hv : v ≠ 0) (hk : m k ≠ 0) : ((m.update k v).support : Set κ) = ↑m.support := by
  rw [support_update_pos hv, Set.insert_eq_of_mem (by simpa using hk)]

theorem support_update_zero : ((m.update k 0).support : Set κ) = ↑m.support \ {k} := by
  classical
  ext i
  by_cases hi : i = k
  · subst hi
    simp
  · simp [hi]

end Support

/-! ### Extreme keys

`IsGreatest (insert bot S) best` says that `best` is the greatest key of `S`, or `bot` when `S` is empty
and all keys lie above `bot`. -/

section Extreme
variable [LinearOrder κ] {S : Set κ} {best bound k : κ}

theorem greatest_remove (h : IsGreatest (insert bound S) best) (hk : k ≠ best) :
    IsGreatest (insert bound (S \ {k})) best := by
  refine ⟨?_, fun i hi => h.2 ?_⟩
  · rcases h.1 with rfl | hmem
    · exact Or.inl rfl
    · exact Or.inr ⟨hmem, fun heq => hk heq.symm⟩
  · exact hi.imp id fun hi => hi.1

theorem least_remove (h : IsLeast (insert bound S) best) (hk : k ≠ best) :
    IsLeast (insert bound (S \ {k})) best :=
  greatest_remove (κ := κᵒᵈ) h hk

theorem greatest_raise (h : IsGreatest (insert bound S) best) :
    IsGreatest (insert bound (insert k S)) (max k best) := by
  rw [Set.insert_comm]
  exact h.insert k

theorem least_lower (h : IsLeast (insert bound S) best) :
    IsLeast (insert bound (insert k S)) (min k best) := by
  rw [Set.insert_comm]
  exact h.insert k

/-- A best key away from the bound is the greatest key of the set itself. -/
theorem greatest_of_ne (h : IsGreatest (insert bound S) best) (hne : best ≠ bound) : IsGreatest S best :=
  ⟨h.1.resolve_left hne, fun _ hi => h.2 (Or.inr hi)⟩

theorem least_of_ne (h : IsLeast (insert bound S) best) (hne : best ≠ bound) : IsLeast S best :=
  ⟨h.1.resolve_left hne, fun _ hi => h.2 (Or.inr hi)⟩

/-- With every key above the bound, the best key is the bound exactly when there is no key. -/
theorem greatest_eq_bound_iff (h : IsGreatest (insert bound S) best) (hb : ∀ i ∈ S, bound < i) :
    best = bound ↔ S = ∅ := by
  constructor
  · rintro rfl
    exact Set.eq_empty_of_forall_notMem fun i hi => absurd (h.2 (Or.inr hi)) (not_le.mpr (hb i hi))
  · rintro rfl
    simpa using h.1

theorem least_eq_bound_iff (h : IsLeast (insert bound S) best) (hb : ∀ i ∈ S, i < bound) :
    best = bound ↔ S = ∅ :=
  greatest_eq_bound_iff (κ := κᵒᵈ) h hb

end Extreme

end LevelMap

end
