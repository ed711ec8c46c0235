import HftEngine.RateMeter

/-! The windows of the rate limiter: the arrival time of the gate is that of a token bucket, and the tolerance lets one
    order more than the depth of the bucket through. -/

namespace Hft.RateMeter

open Transition TokenBucket

variable {lim : RiskLimits} {cyclesPerToken : UInt64} {s t : RateMeter} {e : Event}
  {kill : Bool} {now : UInt64} {o : OrderRequest}

/-! ### One event -/

/-- The gate's arrival time is that of the orders that passed, in the order of the clock. -/
structure Tracks (lim : RiskLimits) (cyclesPerToken : UInt64) (s : RateMeter) : Prop where
  rate : s.gate.cyclesPerToken = cyclesPerToken
  tau : s.gate.tau.toNat = cyclesPerToken.toNat * lim.depth
  tat : s.gate.tat.toNat = TokenBucket.tat cyclesPerToken.toNat s.times
  sorted : s.times.Pairwise (· ≤ ·)
  clock : ∀ a ∈ s.times, a ≤ s.clock.toNat

theorem depth_eq (lim : RiskLimits) : (if lim.burst ≠ 0 then lim.burst else 1).toUInt64.toNat = lim.depth := by
  rw [UInt32.toNat_toUInt64, RiskLimits.depth]
  split
  · next hne =>
    have : lim.burst.toNat ≠ 0 := fun h => hne (UInt32.toNat_inj.mp h)
    omega
  · next heq => rw [Classical.not_not.mp heq]; rfl

theorem tracks_new (htau : cyclesPerToken.toNat * lim.depth < 2 ^ 64) :
    Tracks lim cyclesPerToken (new lim cyclesPerToken) where
  rate := rfl
  tau := by
    show (cyclesPerToken * _).toNat = _
    rw [UInt64.toNat_mul, depth_eq, Nat.mod_eq_of_lt htau]
  tat := rfl
  sorted := List.Pairwise.nil
  clock _ h := by cases h

/-- A check leaves the arrival time alone, or moves it one token past its reading of the clock. -/
theorem check_tat (kill : Bool) (now : UInt64) (o : OrderRequest) (hT : s.gate.cyclesPerToken ≠ 0) :
    ((s.gate.check kill now o).1.tat =
      if (s.gate.check kill now o).2 = .kAccept then s.gate.nextTat now else s.gate.tat) ∧
    (s.gate.check kill now o).1.cyclesPerToken = s.gate.cyclesPerToken ∧
    (s.gate.check kill now o).1.tau = s.gate.tau := by
  unfold RiskGate.check
  split_ifs <;> simp_all

theorem toNat_nextTat (g : RiskGate) (h : max now.toNat g.tat.toNat + g.cyclesPerToken.toNat < 2 ^ 64) :
    (g.nextTat now).toNat = max now.toNat g.tat.toNat + g.cyclesPerToken.toNat := by
  have hmax : (if now > g.tat then now else g.tat).toNat = max now.toNat g.tat.toNat := by
    split
    · next hlt => exact (Nat.max_eq_left (Nat.le_of_lt (UInt64.lt_iff_toNat_lt.mp hlt))).symm
    · next hge => exact (Nat.max_eq_right (UInt64.le_iff_toNat_le.mp (UInt64.not_lt.mp hge))).symm
  rw [RiskGate.nextTat, UInt64.toNat_add, hmax, Nat.mod_eq_of_lt h]

theorem times_checked (kill : Bool) (now : UInt64) (o : OrderRequest) : (s.checked kill now o).times =
    if (s.gate.check kill now o).2 = .kAccept then s.times ++ [now.toNat] else s.times := by
  unfold checked times
  split <;> simp

theorem Tracks.sorted_snoc (ht : Tracks lim cyclesPerToken s) (hclock : s.clock ≤ now) :
    (s.times ++ [now.toNat]).Pairwise (· ≤ ·) := by
  refine List.pairwise_append.mpr ⟨ht.sorted, List.pairwise_singleton _ _, fun a ha b hb => ?_⟩
  obtain rfl := List.mem_singleton.mp hb
  exact Nat.le_trans (ht.clock a ha) (UInt64.le_iff_toNat_le.mp hclock)

theorem Tracks.checked (hT : 0 < cyclesPerToken) (ht : Tracks lim cyclesPerToken s) (htimely : s.Timely kill now o) :
    Tracks lim cyclesPerToken (s.checked kill now o) := by
  obtain ⟨hclock, hwrap⟩ := htimely
  have hrate : s.gate.cyclesPerToken ≠ 0 := by
    rw [ht.rate]
    exact (UInt64.ne_of_lt hT).symm
  obtain ⟨htat, hkeep, htau⟩ := check_tat kill now o hrate
  have hsorted := ht.sorted_snoc hclock
  have hle : ∀ a ∈ s.times, a ≤ now.toNat := fun a ha => Nat.le_trans (ht.clock a ha) (UInt64.le_iff_toNat_le.mp hclock)
  refine ⟨hkeep.trans ht.rate, (congrArg UInt64.toNat htau).trans ht.tau, ?_, ?_, ?_⟩
  · rw [times_checked]
    show (s.gate.check kill now o).1.tat.toNat = _
    rw [htat]
    split
    · next hacc =>
      rw [toNat_nextTat _ (hwrap (RiskGate.check_accept.mp hacc)), ht.tat, ht.rate, tat_snoc]
    · exact ht.tat
  · rw [times_checked]
    split
    · exact hsorted
    · exact ht.sorted
  · rw [times_checked]
    intro a ha
    split at ha
    · rcases List.mem_append.mp ha with ha | ha
      · exact hle a ha
      · exact Nat.le_of_eq (List.mem_singleton.mp ha)
    · exact hle a ha

theorem Tracks.step (hT : 0 < cyclesPerToken) (ht : Tracks lim cyclesPerToken s) (hs : Step s e t) :
    Tracks lim cyclesPerToken t := by
  cases e with
  | check kill now o =>
    obtain ⟨htimely, hs⟩ := Option.ite_none_right_eq_some.mp hs
    cases hs
    exact ht.checked hT htimely
  | fill | setPosition =>
    cases hs
    exact ⟨ht.rate, ht.tau, ht.tat, ht.sorted, ht.clock⟩

/-- Between windows that are bounded there is exactly a step that is paced. -/
theorem Tracks.windowed_iff (hT : 0 < cyclesPerToken) (ht : Tracks lim cyclesPerToken s) (hw : s.Windowed lim)
    (hs : Step s e t) : t.Windowed lim ↔ s.Paced e := by
  have hpos : 0 < cyclesPerToken.toNat := UInt64.lt_iff_toNat_lt.mp hT
  have hdepth : 0 < lim.depth := Nat.lt_of_lt_of_le Nat.zero_lt_one (Nat.le_max_right _ _)
  have ht' := ht.step hT hs
  unfold Windowed at hw ⊢
  rw [ht'.rate]
  rw [ht.rate] at hw
  cases e with
  | check kill now o =>
    obtain ⟨⟨hclock, -⟩, hs⟩ := Option.ite_none_right_eq_some.mp hs
    cases hs
    rw [times_checked, Paced, ← RiskGate.check_accept]
    split
    · next hacc =>
      rw [bounded_snoc_iff hpos hdepth (ht.sorted_snoc hclock) hw, ht.tat, ht.tau, ht.rate]
      simp [hacc]
    · next hrej => simp [hrej, hw]
  | fill | setPosition =>
    cases hs
    exact iff_of_true hw trivial

/-! ### Runs -/

/-- Every window of clock values holds at most the depth of the bucket and its refill, exactly when every order that
    passes finds the arrival time at least one token short of the tolerance. -/
theorem windowed_iff_paced (hT : 0 < cyclesPerToken) (htau : cyclesPerToken.toNat * lim.depth < 2 ^ 64)
    {h : List (RateMeter × Event)} (hr : Run Step (new lim cyclesPerToken) h s) :
    ((∀ p ∈ h, p.1.Windowed lim) ∧ s.Windowed lim) ↔ ∀ p ∈ h, p.1.Paced p.2 := by
  have tracks : ∀ {u}, Reachable Step (new lim cyclesPerToken) u → Tracks lim cyclesPerToken u := fun hu =>
    hu.invariant (tracks_new htau) fun ht hs => ht.step hT hs
  exact hr.exact bounded_nil (fun hu hw hp hs => ((tracks hu).windowed_iff hT hw hs).mpr hp)
    fun hu hw hp hs hw' => hp (((tracks hu).windowed_iff hT hw hs).mp hw')

theorem windowed_iff_paced_pair :
    let o : OrderRequest := { size := 1, side := Side.kBuy.toByte }
    let events : List Event := [.check false 5000 o, .check false 6000 o]
    ∃ h s, Run Step (new ⟨1000, 500, 1⟩ 1000) h s ∧ h.map Prod.snd = events ∧ s.passed = [5000, 6000] ∧
      (((∀ p ∈ h, p.1.Windowed ⟨1000, 500, 1⟩) ∧ s.Windowed ⟨1000, 500, 1⟩) ↔ ∀ p ∈ h, p.1.Paced p.2) := by
  intro o events
  have hrun : (events.foldlM next? (new ⟨1000, 500, 1⟩ 1000)).map passed = some [5000, 6000] := by decide +kernel
  obtain ⟨s, hs, hpassed⟩ := Option.map_eq_some_iff.mp hrun
  obtain ⟨h, hr, hlabels⟩ := Run.of_foldlM hs
  exact ⟨h, s, hr, hlabels, hpassed, windowed_iff_paced (by decide) (by decide) hr⟩

/-- With a burst of one, two orders pass at one reading of the clock. -/
theorem burst_of_one_passes_two :
    let o : OrderRequest := { size := 1, side := Side.kBuy.toByte }
    let events : List Event := [.check false 5000 o, .check false 5000 o, .check false 5000 o]
    ∃ s, events.foldlM next? (new ⟨1000, 500, 1⟩ 1000) = some s ∧ Reachable Step (new ⟨1000, 500, 1⟩ 1000) s ∧
      s.passed = [5000, 5000] ∧ RiskLimits.depth ⟨1000, 500, 1⟩ = 1 ∧ ¬s.Windowed ⟨1000, 500, 1⟩ := by
  intro o events
  have hrun : (events.foldlM next? (new ⟨1000, 500, 1⟩ 1000)).map (fun s => (s.passed, s.gate.cyclesPerToken)) =
      some ([5000, 5000], 1000) := by decide +kernel
  obtain ⟨s, hs, hstate⟩ := Option.map_eq_some_iff.mp hrun
  obtain ⟨hpassed, hrate⟩ := Prod.mk.inj hstate
  refine ⟨s, hs, Reachable.of_foldlM hs, hpassed, rfl, fun hw => ?_⟩
  have hnow := hw 5000 0
  rw [times, hpassed, hrate] at hnow
  exact absurd hnow (by decide)

/-! ### Refusals -/

theorem check_kRateLimit (h : (s.gate.check kill now o).2 = .kRateLimit) :
    s.gate.tau.toNat + now.toNat < s.gate.tat.toNat := by
  have hlt : now < s.gate.earliest := by
    unfold RiskGate.check at h
    split_ifs at h with _ _ _ _ hnow
    exact hnow
  unfold RiskGate.earliest at hlt
  have hlt := UInt64.lt_iff_toNat_lt.mp hlt
  split at hlt
  · next htau =>
    have htau := UInt64.lt_iff_toNat_lt.mp htau
    rw [UInt64.toNat_sub_of_le _ _ (UInt64.le_iff_toNat_le.mpr (Nat.le_of_lt htau))] at hlt
    omega
  · exact absurd hlt (Nat.not_lt_zero _)

theorem Tracks.spent (hT : 0 < cyclesPerToken) (ht : Tracks lim cyclesPerToken s) (hclock : s.clock ≤ now)
    (hrej : (s.gate.check kill now o).2 = .kRateLimit) :
    ∃ a ∈ s.times, a ≤ now.toNat ∧
      lim.depth + (now.toNat - a) / cyclesPerToken.toNat ≤ within a (now.toNat - a) s.times := by
  have hle : ∀ a ∈ s.times, a ≤ now.toNat := fun a ha =>
    Nat.le_trans (ht.clock a ha) (UInt64.le_iff_toNat_le.mp hclock)
  have hlate := check_kRateLimit hrej
  rw [ht.tau, ht.tat, Nat.add_comm] at hlate
  obtain ⟨a, ha, hspent⟩ := spent_of_lt (UInt64.lt_iff_toNat_lt.mp hT) ht.sorted hle hlate
  exact ⟨a, ha, hle a ha, hspent⟩

theorem times_sublist {lim : RiskLimits} {h : List (RateMeter × Event)} (hr : Run Step (new lim cyclesPerToken) h s) :
    s.times.Sublist (attempts h) := by
  induction hr with
  | nil => exact List.Sublist.slnil
  | @snoc h t u e hr hs ih =>
    rw [attempts, List.filterMap_append]
    cases e with
    | check kill now o =>
      obtain ⟨-, hs⟩ := Option.ite_none_right_eq_some.mp hs
      cases hs
      rw [times_checked]
      split
      · exact ih.append (List.Sublist.refl _)
      · exact ih.trans (List.sublist_append_left _ _)
    | fill | setPosition =>
      cases hs
      exact ih.trans (List.sublist_append_left _ _)

theorem Tracks.ready {h : List (RateMeter × Event)} (ht : Tracks lim cyclesPerToken s)
    (hr : Run Step (new lim cyclesPerToken) h s)
    (hspaced : (attempts h ++ [now.toNat]).Pairwise fun a b => a + cyclesPerToken.toNat ≤ b) :
    (s.gate.check kill now o).2 ≠ .kRateLimit := by
  intro hrej
  obtain ⟨hold, -, hnow⟩ := List.pairwise_append.mp hspaced
  have hsub := times_sublist hr
  have hready : TokenBucket.tat cyclesPerToken.toNat s.times ≤ now.toNat :=
    tat_le_of_spaced (hold.sublist hsub) fun a ha => hnow a (hsub.mem ha) _ List.mem_cons_self
  have hlate := check_kRateLimit hrej
  rw [ht.tat] at hlate
  omega

/-- A check refused for its rate comes after an accepted order since which the depth of the bucket and its refill were
    accepted; and no check of a sender whose attempts are a token apart is refused so. -/
theorem rate_limited_spent (hT : 0 < cyclesPerToken) (htau : cyclesPerToken.toNat * lim.depth < 2 ^ 64)
    {h : List (RateMeter × Event)} (hr : Run Step (new lim cyclesPerToken) h s) :
    (∀ kill now o, s.clock ≤ now → (s.gate.check kill now o).2 = .kRateLimit →
      ∃ a ∈ s.times, a ≤ now.toNat ∧
        lim.depth + (now.toNat - a) / cyclesPerToken.toNat ≤ within a (now.toNat - a) s.times) ∧
    ((attempts h).Pairwise (fun a b => a + cyclesPerToken.toNat ≤ b) →
      ∀ p ∈ h, ∀ kill now o, p.2 = .check kill now o → (p.1.gate.check kill now o).2 ≠ .kRateLimit) := by
  have tracks : ∀ {u}, Reachable Step (new lim cyclesPerToken) u → Tracks lim cyclesPerToken u := fun hu =>
    hu.invariant (tracks_new htau) fun ht hs => ht.step hT hs
  refine ⟨fun kill now o hclock hrej => (tracks hr.reachable).spent hT hclock hrej, fun hspaced => ?_⟩
  induction hr with
  | nil => simp
  | @snoc h t u e hr hs ih =>
    rw [attempts, List.filterMap_append] at hspaced
    intro p hp kill now o hcheck
    rcases List.mem_append.mp hp with hp | hp
    · exact ih (List.pairwise_append.mp hspaced).1 p hp kill now o hcheck
    · obtain rfl := List.mem_singleton.mp hp
      obtain rfl : e = .check kill now o := hcheck
      exact (tracks hr.reachable).ready hr hspaced

theorem rate_limited_spent_third :
    let o : OrderRequest := { size := 1, side := Side.kBuy.toByte }
    ∃ h s, Run Step (new ⟨1000, 500, 1⟩ 1000) h s ∧ (s.gate.check false 5000 o).2 = .kRateLimit ∧
      ∃ a ∈ s.times, a ≤ 5000 ∧ 1 + (5000 - a) / 1000 ≤ within a (5000 - a) s.times := by
  intro o
  have hrun : ([Event.check false 5000 o, .check false 5000 o].foldlM next? (new ⟨1000, 500, 1⟩ 1000)).map
      (fun s => ((s.gate.check false 5000 o).2, s.clock)) = some (.kRateLimit, 5000) := by decide +kernel
  obtain ⟨s, hs, hstate⟩ := Option.map_eq_some_iff.mp hrun
  obtain ⟨hrej, hclock⟩ := Prod.mk.inj hstate
  obtain ⟨h, hr, -⟩ := Run.of_foldlM hs
  refine ⟨h, s, hr, hrej, ?_⟩
  exact (rate_limited_spent (by decide) (by decide) hr).1 false 5000 o (by rw [hclock]; decide) hrej

end Hft.RateMeter
