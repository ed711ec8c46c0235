import Mathlib.Algebra.BigOperators.Finprod
import Mathlib.Algebra.Ring.Nat
import Mathlib.Data.List.AList
import Mathlib.Algebra.Order.BigOperators.Group.List
import Mathlib.Algebra.Order.Group.Nat

/-! Totals over the entries of an association list, and how they move with an entry. -/

namespace Tally

variable {α β : Type} [DecidableEq α]

def total (f : β → Nat) (s : AList fun _ : α => β) : Nat := (s.entries.map fun e => f e.2).sum

variable {f : β → Nat} {s : AList fun _ : α => β} {a : α} {b : β}

theorem total_insert : total f (s.insert a b) = f b + total f (s.erase a) := rfl

theorem erase_of_notMem (h : a ∉ s) : s.erase a = s :=
  AList.ext (List.kerase_of_notMem_keys h)

theorem total_insert_of_notMem (h : a ∉ s) : total f (s.insert a b) = f b + total f s := by
  rw [total_insert, erase_of_notMem h]

/-- An entry carries its own part of the total. -/
theorem total_of_lookup (h : s.lookup a = some b) : total f s = f b + total f (s.erase a) := by
  obtain ⟨b', l₁, l₂, hfresh, hentries, herase⟩ :=
    List.exists_of_kerase (AList.mem_keys.mp (AList.lookup_isSome.mp (Option.isSome_of_eq_some h)))
  have hb : b' = b := by
    have hmem : (⟨a, b'⟩ : Sigma fun _ : α => β) ∈ s.entries := by simp [hentries]
    have := (AList.mem_lookup_iff (s := s)).mpr hmem
    rw [Option.mem_def, h] at this
    exact (Option.some.inj this).symm
  subst hb
  have herase' : (s.erase a).entries = l₁ ++ l₂ := herase
  unfold total
  rw [herase', hentries]
  simp only [List.map_append, List.map_cons, List.sum_append, List.sum_cons]
  omega

/-- The total is the sum over the keys, whatever list holds the entries. -/
theorem total_eq_finsum (f : β → Nat) (s : AList fun _ : α => β) : total f s = ∑ᶠ a, (s.lookup a).elim 0 f := by
  have hsupport : (Function.support fun a => (s.lookup a).elim 0 f) ⊆ (s.keys.toFinset : Set α) := by
    intro a ha
    rw [Finset.mem_coe, List.mem_toFinset]
    by_contra hnone
    have hlookup : s.lookup a = none := AList.lookup_eq_none.mpr hnone
    exact ha (congrArg (Option.elim · 0 f) hlookup)
  have hentry : ∀ e ∈ s.entries, f e.2 = (s.lookup e.1).elim 0 f := by
    intro e he
    rw [AList.mem_lookup_iff.mpr he]
    rfl
  calc
    total f s = (s.entries.map fun e => (s.lookup e.1).elim 0 f).sum := congrArg List.sum (List.map_congr_left hentry)
    _ = (s.keys.map fun a => (s.lookup a).elim 0 f).sum := by
      rw [AList.keys, List.keys, List.map_map]
      rfl
    _ = ∑ a ∈ s.keys.toFinset, (s.lookup a).elim 0 f := (List.sum_toFinset _ s.keys_nodup).symm
    _ = ∑ᶠ a, (s.lookup a).elim 0 f := (finsum_eq_sum_of_support_subset _ hsupport).symm

end Tally
