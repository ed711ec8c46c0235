import Mathlib.Data.List.Basic

/-! The whole frames of `k` items in a list, with a partial frame at its end left out, and a buffer of fixed size that
    is filled frame by frame. -/

namespace Frames

variable {α : Type} {k : Nat}

def frames (k : Nat) (xs : List α) : List (List α) :=
  (List.range (xs.length / k)).map fun i => (xs.drop (k * i)).take k

section
variable {xs f : List α} {fs : List (List α)}

@[simp] theorem length_frames (k : Nat) (xs : List α) : (frames k xs).length = xs.length / k := by
  rw [frames, List.length_map, List.length_range]

theorem frames_of_lt (h : xs.length < k) : frames k xs = [] := by
  rw [← List.length_eq_zero_iff, length_frames, Nat.div_eq_of_lt h]

theorem frames_of_le (hk : 0 < k) (h : k ≤ xs.length) : frames k xs = xs.take k :: frames k (xs.drop k) := by
  have hlen : xs.length / k = (xs.length - k) / k + 1 := Nat.div_eq_sub_div hk h
  have htail : ∀ i, (xs.drop (k * (i + 1))).take k = ((xs.drop k).drop (k * i)).take k := fun i => by
    rw [List.drop_drop, Nat.mul_succ, Nat.add_comm]
  rw [frames, frames, hlen, List.range_succ_eq_map, List.map_cons, List.map_map, List.length_drop]
  congr 1
  exact List.map_congr_left fun i _ => htail i

theorem frames_append (hk : 0 < k) (hf : f.length = k) (xs : List α) : frames k (f ++ xs) = f :: frames k xs := by
  have hle : k ≤ (f ++ xs).length := by
    rw [List.length_append]
    omega
  rw [frames_of_le hk hle, List.take_left' hf, List.drop_left' hf]

/-- Frames put one after another are found again. -/
theorem frames_flatten (hk : 0 < k) (h : ∀ f ∈ fs, f.length = k) : frames k fs.flatten = fs := by
  induction fs with
  | nil => exact frames_of_lt hk
  | cons f fs ih =>
    rw [List.flatten_cons, frames_append hk (h f List.mem_cons_self),
      ih fun g hg => h g (List.mem_cons_of_mem f hg)]

/-- Runs of whole frames are cut one by one. -/
theorem frames_append_whole (hk : 0 < k) {n : Nat} (hxs : xs.length = n * k) (ys : List α) :
    frames k (xs ++ ys) = frames k xs ++ frames k ys := by
  induction n generalizing xs with
  | zero =>
    obtain rfl := List.length_eq_zero_iff.mp (hxs.trans (Nat.zero_mul k))
    have hnil : frames k ([] : List α) = [] := frames_of_lt hk
    rw [hnil]
    rfl
  | succ n ih =>
    rw [Nat.succ_mul] at hxs
    have hle : k ≤ xs.length := by omega
    have hrest : (xs.drop k).length = n * k := by
      rw [List.length_drop]
      omega
    have hsplit : xs ++ ys = xs.take k ++ (xs.drop k ++ ys) := by
      rw [← List.append_assoc, List.take_append_drop]
    rw [hsplit, frames_append hk (List.length_take_of_le hle), ih hrest, frames_of_le hk hle, List.cons_append]

theorem length_flatten_whole {ds : List (List α)} (h : ∀ d ∈ ds, ∃ n, d.length = n * k) :
    ∃ n, ds.flatten.length = n * k := by
  induction ds with
  | nil => exact ⟨0, (Nat.zero_mul k).symm⟩
  | cons d ds ih =>
    obtain ⟨n, hd⟩ := h d List.mem_cons_self
    obtain ⟨m, hds⟩ := ih fun e he => h e (List.mem_cons_of_mem d he)
    exact ⟨n + m, by rw [List.flatten_cons, List.length_append, hd, hds, Nat.add_mul]⟩

theorem flatMap_frames (hk : 0 < k) {ds : List (List α)} (h : ∀ d ∈ ds, ∃ n, d.length = n * k) :
    ds.flatMap (frames k) = frames k ds.flatten := by
  induction ds with
  | nil => exact (frames_of_lt hk).symm
  | cons d ds ih =>
    obtain ⟨n, hd⟩ := h d List.mem_cons_self
    rw [List.flatMap_cons, List.flatten_cons, frames_append_whole hk hd,
      ih fun e he => h e (List.mem_cons_of_mem d he)]

theorem length_of_mem_frames (h : f ∈ frames k xs) : f.length = k := by
  obtain ⟨i, hi, rfl⟩ := List.mem_map.mp h
  have hlt : i + 1 ≤ xs.length / k := List.mem_range.mp hi
  have hle : k * (i + 1) ≤ xs.length := Nat.le_trans (Nat.mul_le_mul_left k hlt) (Nat.mul_div_le xs.length k)
  rw [List.length_take, List.length_drop]
  rw [Nat.mul_succ] at hle
  omega

end

/-- A buffer of `n` items. -/
structure Buffer (α : Type) (n : Nat) where
  items : List α
  length_eq : items.length = n

namespace Buffer

variable {n : Nat}

def replicate (n : Nat) (x : α) : Buffer α n := ⟨List.replicate n x, List.length_replicate⟩

/-- Overwrites from `off`; there is no write past the end. -/
def write? (b : Buffer α n) (off : Nat) (xs : List α) : Option (Buffer α n) :=
  if h : off + xs.length ≤ n then
    some ⟨b.items.take off ++ (xs ++ b.items.drop (off + xs.length)), by
      have := b.length_eq
      simp only [List.length_append, List.length_take, List.length_drop]
      omega⟩
  else none

def front (b : Buffer α n) (len : Nat) : List α := b.items.take len

section
variable {b b' : Buffer α n} {off : Nat} {xs : List α}

@[simp] theorem front_zero (b : Buffer α n) : b.front 0 = [] := rfl

theorem length_front (h : off ≤ n) : (b.front off).length = off := by
  rw [front, List.length_take, b.length_eq, Nat.min_eq_left h]

theorem exists_write (b : Buffer α n) (off : Nat) (xs : List α) (h : off + xs.length ≤ n) :
    ∃ b', b.write? off xs = some b' :=
  ⟨_, dif_pos h⟩

/-- A write behind what is in front adds to it. -/
theorem front_write (h : b.write? off xs = some b') : b'.front (off + xs.length) = b.front off ++ xs := by
  unfold write? at h
  split at h
  · next hle =>
    obtain rfl := Option.some_inj.mp h
    have hoff : (b.items.take off).length = off := by rw [List.length_take, b.length_eq]; omega
    show List.take (off + xs.length) (_ ++ (xs ++ _)) = _
    rw [← List.append_assoc]
    exact List.take_left' (by rw [List.length_append, hoff])
  · cases h

end

end Buffer

end Frames
