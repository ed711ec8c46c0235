import Mathlib.Data.List.Basic

/-! Maps as lists of entries in the order of their keys. -/

namespace SortedMap

variable {κ ν : Type} [LT κ] [DecidableLT κ]

def Sorted (m : List (κ × ν)) : Prop := m.Pairwise fun a b => a.1 < b.1

/-- An entry for a key that has none. -/
def emplace (m : List (κ × ν)) (e : κ × ν) : List (κ × ν) :=
  match m with
  | [] => [e]
  | x :: m => if e.1 < x.1 then e :: x :: m else if x.1 < e.1 then x :: emplace m e else x :: m

section
variable {m m' es : List (κ × ν)} {e x : κ × ν}

theorem mem_emplace (h : x ∈ emplace m e) : x = e ∨ x ∈ m := by
  induction m with
  | nil => exact Or.inl (List.mem_singleton.mp h)
  | cons y m ih =>
    rw [emplace] at h
    split_ifs at h with hlt hgt
    · exact List.mem_cons.mp h
    · rcases List.mem_cons.mp h with rfl | hm
      · exact Or.inr List.mem_cons_self
      · exact (ih hm).imp_right (List.mem_cons_of_mem y)
    · exact Or.inr h

variable [LE κ] [Std.IsLinearOrder κ] [Std.LawfulOrderLT κ]

theorem sorted_emplace (h : Sorted m) (e : κ × ν) : Sorted (emplace m e) := by
  induction m with
  | nil => exact List.pairwise_singleton _ e
  | cons x m ih =>
    obtain ⟨hx, hm⟩ := List.pairwise_cons.mp h
    rw [emplace]
    split_ifs with hlt hgt
    · refine List.pairwise_cons.mpr ⟨fun y hy => ?_, h⟩
      rcases List.mem_cons.mp hy with rfl | hy
      · exact hlt
      · exact Std.lt_trans hlt (hx y hy)
    · refine List.pairwise_cons.mpr ⟨fun y hy => ?_, ih hm⟩
      rcases mem_emplace hy with rfl | hy
      · exact hgt
      · exact hx y hy
    · exact h

theorem perm_emplace (h : ∀ x ∈ m, x.1 ≠ e.1) : (emplace m e).Perm (e :: m) := by
  induction m with
  | nil => exact List.Perm.refl _
  | cons x m ih =>
    rw [emplace]
    split_ifs with hlt hgt
    · exact List.Perm.refl _
    · exact ((ih fun y hy => h y (List.mem_cons_of_mem x hy)).cons x).trans (List.Perm.swap e x m)
    · rcases Std.lt_trichotomy e.1 x.1 with hc | hc | hc
      · exact absurd hc hlt
      · exact absurd hc.symm (h x List.mem_cons_self)
      · exact absurd hc hgt

theorem sorted_foldl (hm : Sorted m) : Sorted (es.foldl emplace m) := by
  induction es generalizing m with
  | nil => exact hm
  | cons e es ih => exact ih (sorted_emplace hm e)

theorem perm_foldl (h : (m ++ es).Pairwise fun a b => a.1 ≠ b.1) : (es.foldl emplace m).Perm (m ++ es) := by
  induction es generalizing m with
  | nil => rw [List.append_nil, List.foldl_nil]
  | cons e es ih =>
    have hmid : (m ++ e :: es).Perm (e :: m ++ es) := List.perm_middle
    have hfresh : ∀ x ∈ m, x.1 ≠ e.1 := fun x hx =>
      (List.pairwise_append.mp h).2.2 x hx e List.mem_cons_self
    have hone : (emplace m e ++ es).Perm (e :: m ++ es) := (perm_emplace hfresh).append_right es
    have hpairs := (hone.trans hmid.symm).symm.pairwise h Ne.symm
    exact (ih hpairs).trans (hone.trans hmid.symm)

omit [DecidableLT κ] [Std.IsLinearOrder κ] in
/-- Two maps with the same entries. -/
theorem eq_of_perm (hm : Sorted m) (hm' : Sorted m') (h : m.Perm m') : m = m' :=
  h.eq_of_pairwise (fun _ _ _ _ hab hba => absurd hab (Std.not_gt_of_lt hba)) hm hm'

/-- The entries of a map, put in in any order. -/
theorem foldl_emplace (hm : Sorted m) (h : m.Perm es) : es.foldl emplace [] = m := by
  have hne : es.Pairwise fun a b => a.1 ≠ b.1 :=
    h.pairwise (hm.imp fun hlt => Std.ne_of_lt hlt) Ne.symm
  exact eq_of_perm (sorted_foldl List.Pairwise.nil) hm ((perm_foldl hne).trans h.symm)

end

end SortedMap
