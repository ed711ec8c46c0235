import Mathlib.Data.List.Induction

/-! A token bucket of depth `B` that refills one token every `T`: windows of the arrivals that it lets pass, and the
    theoretical arrival time that tells them. -/

namespace TokenBucket

variable {T B now : Nat} {times : List Nat}

/-- The arrivals at `t` or later. -/
def since (t : Nat) (times : List Nat) : Nat := (times.filter fun a => decide (t ≤ a)).length

/-- The arrivals in a window. -/
def within (t L : Nat) (times : List Nat) : Nat := (times.filter fun a => decide (t ≤ a ∧ a ≤ t + L)).length

/-- No window holds more arrivals than the depth and what it refills. -/
def Bounded (B T : Nat) (times : List Nat) : Prop := ∀ t L, within t L times ≤ B + L / T

/-- The theoretical arrival time: every arrival moves it one token on, from itself when the bucket was full. -/
def tat (T : Nat) (times : List Nat) : Nat := times.foldl (fun tat a => max a tat + T) 0

@[simp] theorem tat_nil : tat T [] = 0 := rfl

@[simp] theorem tat_snoc : tat T (times ++ [now]) = max now (tat T times) + T := by simp [tat]

theorem since_snoc (t : Nat) : since t (times ++ [now]) = since t times + if t ≤ now then 1 else 0 := by
  unfold since
  by_cases h : t ≤ now <;> simp [h]

theorem within_snoc_of_mem {t L : Nat} (hle : ∀ a ∈ times, a ≤ now) (ht : t ≤ now) (hL : now ≤ t + L) :
    within t L (times ++ [now]) = since t times + 1 := by
  have hsame : (times.filter fun a => decide (t ≤ a ∧ a ≤ t + L)) = times.filter fun a => decide (t ≤ a) :=
    List.filter_congr fun a ha => decide_eq_decide.mpr ⟨And.left, fun h => ⟨h, Nat.le_trans (hle a ha) hL⟩⟩
  rw [within, List.filter_append, List.length_append, hsame]
  simp [since, ht, hL]

theorem within_snoc_of_not_mem {t L : Nat} (h : ¬(t ≤ now ∧ now ≤ t + L)) :
    within t L (times ++ [now]) = within t L times := by
  simp [within, h]

theorem bounded_nil : Bounded B T [] := fun _ _ => Nat.zero_le _

/-- The arrivals since `t` have moved the arrival time past `t` by a token each. -/
theorem le_tat {t : Nat} (h : 0 < since t times) : t + T * since t times ≤ tat T times := by
  induction times using List.reverseRecOn with
  | nil => exact absurd h (Nat.lt_irrefl 0)
  | append_singleton times now ih =>
    rw [since_snoc] at h ⊢
    rw [tat_snoc]
    by_cases ht : t ≤ now
    · rw [if_pos ht, Nat.mul_add, Nat.mul_one, ← Nat.add_assoc]
      rcases Nat.eq_zero_or_pos (since t times) with hzero | hpos
      · rw [hzero]
        have := Nat.le_max_left now (tat T times)
        omega
      · have := ih hpos
        have := Nat.le_max_right now (tat T times)
        omega
    · rw [if_neg ht, Nat.add_zero] at h ⊢
      have := ih h
      have := Nat.le_max_right now (tat T times)
      omega

/-- The arrival time runs from an arrival at which the bucket was full. -/
theorem exists_tat_eq (hT : 0 < T) (hsorted : times.Pairwise (· ≤ ·)) (hne : times ≠ []) :
    ∃ a ∈ times, tat T times = a + T * since a times := by
  induction times using List.reverseRecOn with
  | nil => exact absurd rfl hne
  | append_singleton times now ih =>
    obtain ⟨hold, -, hle⟩ := List.pairwise_append.mp hsorted
    rw [tat_snoc]
    rcases Nat.lt_or_ge now (tat T times) with hlt | hge
    · have hne' : times ≠ [] := by
        rintro rfl
        exact absurd hlt (Nat.not_lt_zero _)
      obtain ⟨a, ha, heq⟩ := ih hold hne'
      refine ⟨a, List.mem_append_left _ ha, ?_⟩
      rw [since_snoc, if_pos (hle a ha now List.mem_cons_self), Nat.max_eq_right (Nat.le_of_lt hlt), heq, Nat.mul_add,
        Nat.mul_one, Nat.add_assoc]
    · refine ⟨now, by simp, ?_⟩
      have hnone : since now times = 0 := by
        by_contra hsome
        have hmoved : now + T * since now times ≤ tat T times := le_tat (Nat.pos_of_ne_zero hsome)
        have : 0 < T * since now times := Nat.mul_pos hT (Nat.pos_of_ne_zero hsome)
        omega
      rw [since_snoc, hnone, if_pos (Nat.le_refl now), Nat.max_eq_left hge]
      omega

/-- One arrival more keeps the windows bounded exactly when the bucket holds a token for it. -/
theorem bounded_snoc_iff (hT : 0 < T) (hB : 0 < B) (hsorted : (times ++ [now]).Pairwise (· ≤ ·))
    (hbounded : Bounded B T times) : Bounded B T (times ++ [now]) ↔ tat T times + T ≤ now + T * B := by
  obtain ⟨hold, -, hle⟩ := List.pairwise_append.mp hsorted
  have hle : ∀ a ∈ times, a ≤ now := fun a ha => hle a ha now List.mem_cons_self
  constructor
  · intro hnext
    by_contra hspent
    have hne : times ≠ [] := by
      rintro rfl
      have : T * 1 ≤ T * B := Nat.mul_le_mul_left T hB
      rw [tat_nil] at hspent
      omega
    obtain ⟨a, ha, heq⟩ := exists_tat_eq hT hold hne
    have han := hle a ha
    have hfull : B ≤ since a times := by
      by_contra hlt
      have : T * (since a times + 1) ≤ T * B := Nat.mul_le_mul_left T (Nat.lt_of_not_le hlt)
      rw [Nat.mul_add] at this
      omega
    obtain ⟨d, hd⟩ := Nat.exists_eq_add_of_le hfull
    -- The window from `a` to `now` has `B + d` arrivals already, and refills at most `d` tokens.
    have hwindow := hnext a (now - a)
    rw [within_snoc_of_mem hle han (by omega), hd] at hwindow
    have hdiv : (now - a) / T < d + 1 := by
      rw [hd, Nat.mul_add] at heq
      rw [Nat.div_lt_iff_lt_mul hT, Nat.add_mul, Nat.one_mul, Nat.mul_comm d T]
      omega
    omega
  · intro htoken t L
    by_cases hin : t ≤ now ∧ now ≤ t + L
    · rw [within_snoc_of_mem hle hin.1 hin.2]
      rcases Nat.eq_zero_or_pos (since t times) with hzero | hpos
      · rw [hzero]
        exact Nat.le_add_right_of_le hB
      · have hmoved : t + T * since t times ≤ tat T times := le_tat hpos
        have hspan : T * (since t times + 1) ≤ L + T * B := by
          rw [Nat.mul_add, Nat.mul_one]
          omega
        rw [Nat.add_comm B, ← Nat.add_mul_div_left L B hT, Nat.le_div_iff_mul_le hT, Nat.mul_comm]
        exact hspan
    · rw [within_snoc_of_not_mem hin]
      exact hbounded t L

/-- Past the tolerance the bucket has given its depth and its refill since an arrival at which it was full. -/
theorem spent_of_lt (hT : 0 < T) (hsorted : times.Pairwise (· ≤ ·)) (hle : ∀ a ∈ times, a ≤ now)
    (hlt : now + T * B < tat T times) : ∃ a ∈ times, B + (now - a) / T ≤ within a (now - a) times := by
  have hne : times ≠ [] := by
    rintro rfl
    exact absurd hlt (Nat.not_lt_zero _)
  obtain ⟨a, ha, heq⟩ := exists_tat_eq hT hsorted hne
  have han := hle a ha
  have hwithin : within a (now - a) times = since a times := by
    unfold within since
    refine congrArg _ (List.filter_congr fun b hb => decide_eq_decide.mpr ⟨And.left, fun h => ⟨h, ?_⟩⟩)
    have := hle b hb
    omega
  refine ⟨a, ha, ?_⟩
  rw [hwithin, Nat.add_comm B, ← Nat.add_mul_div_left _ B hT]
  exact Nat.div_le_of_le_mul (by omega)

/-- Arrivals a token apart leave the bucket ready for the next one. -/
theorem tat_le_of_spaced (h : times.Pairwise fun a b => a + T ≤ b) (hnow : ∀ a ∈ times, a + T ≤ now) :
    tat T times ≤ now := by
  induction times using List.reverseRecOn generalizing now with
  | nil => exact Nat.zero_le _
  | append_singleton times last ih =>
    obtain ⟨hold, -, hlast⟩ := List.pairwise_append.mp h
    have hready : tat T times ≤ last := ih hold fun a ha => hlast a ha last List.mem_cons_self
    rw [tat_snoc, Nat.max_eq_left hready]
    exact hnow last (by simp)

end TokenBucket
