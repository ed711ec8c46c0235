import Mathlib.Algebra.Ring.Nat
import Mathlib.Data.List.Sort
import Mathlib.Order.Monotone.Defs

/-! The item of a given rank among the items of a list, and its class under a monotone map to numbers: the first class
    up to which enough items have been counted. -/

namespace Ranks

variable {α : Type} [LinearOrder α]

/-- The items in order, the item of rank `k` at place `k - 1`. -/
def sorted (xs : List α) : List α := xs.mergeSort (· ≤ ·)

/-- The items of class `i` or less. -/
def upTo (f : α → Nat) (xs : List α) (i : Nat) : Nat := xs.countP fun x => f x ≤ i

section
variable {xs : List α} {f : α → Nat} {k i : Nat} {x : α}

theorem pairwise_sorted (xs : List α) : (sorted xs).Pairwise (· ≤ ·) := List.pairwise_mergeSort' (· ≤ ·) xs

theorem perm_sorted (xs : List α) : (sorted xs).Perm xs := List.mergeSort_perm xs _

theorem length_sorted (xs : List α) : (sorted xs).length = xs.length := (perm_sorted xs).length_eq

/-- The items around place `k`: those before are at most the item there, those after at least. -/
theorem exists_around (hx : (sorted xs)[k]? = some x) :
    ∃ before after, sorted xs = before ++ x :: after ∧ before.length = k ∧ (∀ y ∈ before, y ≤ x) ∧
      ∀ y ∈ after, x ≤ y := by
  obtain ⟨hk, rfl⟩ := List.getElem?_eq_some_iff.mp hx
  have hsplit : sorted xs = (sorted xs).take k ++ (sorted xs)[k] :: (sorted xs).drop (k + 1) := by
    rw [← List.drop_eq_getElem_cons hk, List.take_append_drop]
  have hpairs := pairwise_sorted xs
  rw [hsplit, List.pairwise_append, List.pairwise_cons] at hpairs
  obtain ⟨-, ⟨hafter, -⟩, hcross⟩ := hpairs
  exact ⟨_, _, hsplit, List.length_take_of_le (Nat.le_of_lt hk), fun y hy => hcross y hy _ List.mem_cons_self, hafter⟩

/-- More than `k` items are at most the item at place `k`. -/
theorem lt_countP_le (hx : (sorted xs)[k]? = some x) : k < xs.countP (· ≤ x) := by
  obtain ⟨before, after, hsplit, rfl, hbefore, -⟩ := exists_around hx
  have hall : before.countP (· ≤ x) = before.length :=
    List.countP_eq_length.mpr fun y hy => decide_eq_true (hbefore y hy)
  rw [← (perm_sorted xs).countP_eq, hsplit, List.countP_append, List.countP_cons_of_pos (by simp), hall]
  omega

/-- At most `k` items are less than the item at place `k`. -/
theorem countP_lt_le (hx : (sorted xs)[k]? = some x) : xs.countP (· < x) ≤ k := by
  obtain ⟨before, after, hsplit, rfl, -, hafter⟩ := exists_around hx
  have hnone : after.countP (· < x) = 0 :=
    List.countP_eq_zero.mpr fun y hy => by simpa using hafter y hy
  rw [← (perm_sorted xs).countP_eq, hsplit, List.countP_append, List.countP_cons_of_neg (by simp), hnone]
  exact List.countP_le_length

theorem lt_upTo (hf : Monotone f) (hx : (sorted xs)[k]? = some x) (hi : f x ≤ i) : k < upTo f xs i := by
  refine Nat.lt_of_lt_of_le (lt_countP_le hx) (List.countP_mono_left fun y _ hy => ?_)
  simp only [decide_eq_true_eq] at hy ⊢
  exact Nat.le_trans (hf hy) hi

theorem upTo_le (hf : Monotone f) (hx : (sorted xs)[k]? = some x) (hi : i < f x) : upTo f xs i ≤ k := by
  refine Nat.le_trans (List.countP_mono_left fun y _ hy => ?_) (countP_lt_le hx)
  simp only [decide_eq_true_eq] at hy ⊢
  by_contra hle
  exact absurd (hf (not_lt.mp hle)) (by omega)

omit [LinearOrder α] in
theorem upTo_succ (f : α → Nat) (xs : List α) (i : Nat) :
    upTo f xs (i + 1) = upTo f xs i + xs.countP fun x => f x = i + 1 := by
  induction xs with
  | nil => rfl
  | cons x xs ih =>
    unfold upTo at ih ⊢
    simp only [List.countP_cons, ih, decide_eq_true_eq]
    rcases lt_trichotomy (f x) (i + 1) with hlt | heq | hgt
    · rw [if_pos (by omega), if_pos (by omega), if_neg (by omega)]
      omega
    · rw [if_pos (by omega), if_neg (by omega), if_pos heq]
      omega
    · rw [if_neg (by omega), if_neg (by omega), if_neg (by omega)]
      omega

omit [LinearOrder α] in
/-- The classes up to `i`, counted one by one. -/
theorem sum_countP (f : α → Nat) (xs : List α) (i : Nat) :
    ((List.range (i + 1)).map fun j => xs.countP fun x => f x = j).sum = upTo f xs i := by
  induction i with
  | zero => simp [upTo]
  | succ i ih =>
    rw [List.range_succ, List.map_append, List.sum_append, ih, upTo_succ]
    simp

theorem sorted_mono {l : Nat} {y : α} (hx : (sorted xs)[k]? = some x) (hy : (sorted xs)[l]? = some y) (hkl : k ≤ l) :
    x ≤ y := by
  obtain ⟨hk, rfl⟩ := List.getElem?_eq_some_iff.mp hx
  obtain ⟨hl, rfl⟩ := List.getElem?_eq_some_iff.mp hy
  exact (pairwise_sorted xs).sortedLE.getElem_le_getElem_of_le hkl

theorem le_last (hx : (sorted xs)[xs.length - 1]? = some x) {y : α} (hy : y ∈ xs) : y ≤ x := by
  have hpos := List.length_pos_of_mem hy
  have hcount := lt_countP_le hx
  have hall : xs.countP (· ≤ x) = xs.length := Nat.le_antisymm List.countP_le_length (by omega)
  exact of_decide_eq_true (List.countP_eq_length.mp hall y hy)

theorem exists_rank (hk : 1 ≤ k) (hle : k ≤ xs.length) : ∃ x, (sorted xs)[k - 1]? = some x ∧ x ∈ xs := by
  have hlt : k - 1 < (sorted xs).length := by
    rw [length_sorted]
    omega
  exact ⟨_, List.getElem?_eq_getElem hlt, (perm_sorted xs).mem_iff.mp (List.getElem_mem hlt)⟩

end

end Ranks
