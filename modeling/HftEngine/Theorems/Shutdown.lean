import HftEngine.Theorems.RingEngine
import HftEngine.Theorems.FeedHandler

/-! `stop` comes to an end: once `running` is cleared each thread leaves its loop after a bounded number of its own
    steps, whatever the others do, and until then it can always take the next. -/

namespace Hft

open Channel (End)
open Transition
open Threads (Label)

/-! ### Steps to come in one poll -/

/-- The steps that the feed handler has still to take when it finds `running` cleared, a call counting as one. -/
def FeedAt.left : FeedAt → Nat
  | .stopped => 0
  | .loop => 1
  | .reading reader _ => 2 + reader.rest.length / kMsgSize * (kSpinBudget + 1)
  | .pushing _ spins reader _ => 3 + reader.rest.length / kMsgSize * (kSpinBudget + 1) + spins
  | .recv => 3 + kMaxMsgsPerDatagram * (kSpinBudget + 1)

def StrategyAt.left : StrategyAt → Nat
  | .stopped => 0
  | .loop => 1
  | .pushing _ => 2
  | .event _ => 3
  | .feed => 4
  | .fill k _ => 5 + 2 * k
  | .fills k => 6 + 2 * k

def GatewayAt.left : GatewayAt → Nat
  | .stopped => 0
  | .loop => 1
  | .send _ => 2
  | .check _ => 3
  | .orders => 4
  | .report k _ => 5 + 2 * k
  | .recv k => 6 + 2 * k

theorem GatewayAt.left_after (k : Nat) : (GatewayAt.after k).left = 4 + 2 * k := by
  cases k with
  | zero => rfl
  | succ k =>
    show 6 + 2 * k = 4 + 2 * (k + 1)
    omega

variable {z : EngineSizes}

/-! ### The feed handler -/

theorem FeedThread.left_work {t : FeedThread} {w : World} {tsc : UInt64}
    {k : UInt64 → World → Option (FeedThread × World)} {r : FeedThread × World} (hn : t.next z = .work k)
    (hk : k tsc w = some r) :
    r.2.running = w.running ∧ (r.1.pc.left < t.pc.left ∨ w.running = true ∧ r.1.pc = .recv) := by
  unfold FeedThread.next at hn
  split at hn
  · next hpc =>
    cases hn
    obtain rfl := Option.some.inj hk
    refine ⟨rfl, ?_⟩
    rw [hpc]
    cases hw : w.running with
    | true => exact Or.inr ⟨rfl, rfl⟩
    | false => exact Or.inl Nat.zero_lt_one
  · next hpc =>
    cases hn
    dsimp only at hk
    rw [hpc]
    split at hk
    · obtain rfl := Option.some.inj hk
      exact ⟨rfl, Or.inl (by show 1 < 3 + _; omega)⟩
    · next d rx hrx =>
      obtain rfl := Option.some.inj hk
      refine ⟨rfl, Or.inl ?_⟩
      unfold FeedThread.recv
      dsimp only
      split
      · show 1 < 3 + _
        omega
      · have hlen : (d.take kBufBytes).length / kMsgSize ≤ kMaxMsgsPerDatagram :=
          Nat.div_le_of_le_mul (by rw [Nat.mul_comm]; exact List.length_take_le _ _)
        have hmul := Nat.mul_le_mul_right (kSpinBudget + 1) hlen
        show 2 + (d.take kBufBytes).length / kMsgSize * (kSpinBudget + 1) < 3 + _
        omega
  · next reader arrival hpc =>
    cases hn
    dsimp only at hk
    rw [hpc]
    split at hk
    · next hmore =>
      obtain ⟨⟨msg, reader'⟩, hnext, rfl⟩ := Option.map_eq_some_iff.mp hk
      refine ⟨rfl, Or.inl ?_⟩
      obtain ⟨m, -, hm⟩ := Option.bind_eq_some_iff.mp hnext
      cases hm
      have hle : kMsgSize ≤ reader.rest.length := of_decide_eq_true hmore
      have hdiv : reader.rest.length / kMsgSize = (reader.rest.drop kMsgSize).length / kMsgSize + 1 := by
        rw [List.length_drop, Nat.div_eq_sub_div (by decide) hle]
      show 3 + (reader.rest.drop kMsgSize).length / kMsgSize * (kSpinBudget + 1) + (kSpinBudget - 1) <
        2 + reader.rest.length / kMsgSize * (kSpinBudget + 1)
      rw [hdiv, Nat.succ_mul]
      have : 0 < kSpinBudget := by decide
      omega
    · obtain rfl := Option.some.inj hk
      exact ⟨rfl, Or.inl (by show 1 < 2 + _; omega)⟩
  · cases hn
  · cases hn

theorem FeedThread.left_call {t : FeedThread} {q : QueueName} {d : End} {own : z.wiring.owner q d = .feed}
    {a : d.Arg (z.wiring.Payload q)} {k : d.Ret (z.wiring.Payload q) → FeedThread}
    (hn : t.next z = .call q d own a k) (r : d.Ret (z.wiring.Payload q)) : (k r).pc.left < t.pc.left := by
  unfold FeedThread.next at hn
  split at hn
  case h_4 ev spins reader arrival hpc =>
    cases hn
    rw [hpc]
    cases r with
    | true =>
      show 2 + _ < 3 + _ + spins
      omega
    | false =>
      cases spins with
      | zero =>
        show 2 + _ < 3 + _ + 0
        omega
      | succ spins =>
        show 3 + _ + spins < 3 + _ + (spins + 1)
        omega
  all_goals cases hn

/-! ### The strategy and the gateway -/

theorem StrategyThread.left_work {t : StrategyThread z.ticks} {w : World} {tsc : UInt64}
    {k : UInt64 → World → Option (StrategyThread z.ticks × World)} {r : StrategyThread z.ticks × World}
    (hn : t.next z = .work k) (hk : k tsc w = some r) :
    r.2.running = w.running ∧ (r.1.pc.left < t.pc.left ∨ w.running = true ∧ r.1.pc = .fills 15) := by
  unfold StrategyThread.next at hn
  split at hn <;> cases hn <;> obtain rfl := Option.some.inj hk
  · next hpc =>
    refine ⟨rfl, ?_⟩
    rw [hpc]
    cases hw : w.running with
    | true => exact Or.inr ⟨rfl, rfl⟩
    | false => exact Or.inl Nat.zero_lt_one
  · next k r hpc =>
    refine ⟨rfl, Or.inl ?_⟩
    rw [hpc]
    cases k with
    | zero =>
      show 4 < 5 + 2 * 0
      omega
    | succ k =>
      show 6 + 2 * k < 5 + 2 * (k + 1)
      omega
  · next ev hpc =>
    rw [hpc]
    rcases t.afterEvent_cases ev w with ⟨strat, -, heq⟩ | ⟨strat, o, -, heq⟩
    · rw [heq]
      exact ⟨rfl, Or.inl (by show 1 < 3; omega)⟩
    · rw [heq]
      exact ⟨rfl, Or.inl (by show 2 < 3; omega)⟩

/-- A call brings the strategy on, but for a push that is refused. -/
theorem StrategyThread.left_call {t : StrategyThread z.ticks} {q : QueueName} {d : End}
    {own : z.wiring.owner q d = .strategy} {a : d.Arg (z.wiring.Payload q)}
    {k : d.Ret (z.wiring.Payload q) → StrategyThread z.ticks} (hn : t.next z = .call q d own a k) :
    (∀ r, (k r).pc.left < t.pc.left) ∨
    ∃ o k', t.pc = .pushing o ∧ t.next z = .call .orderQ .push rfl o k' ∧ (k' true).pc.left < t.pc.left ∧
      k' false = t := by
  have hn' := hn
  unfold StrategyThread.next at hn
  split at hn <;> cases hn
  · next k hpc =>
    rw [hpc]
    refine Or.inl fun r => ?_
    cases r with
    | none => show 4 < 6 + 2 * k; omega
    | some rep => show 5 + 2 * k < 6 + 2 * k; omega
  · next hpc =>
    rw [hpc]
    refine Or.inl fun r => ?_
    cases r with
    | none => show 1 < 4; omega
    | some ev => show 3 < 4; omega
  · next o hpc =>
    refine Or.inr ⟨o, _, hpc, hn', ?_, rfl⟩
    rw [hpc]
    show 1 < 2
    omega

theorem GatewayThread.left_work {t : GatewayThread z.flightCap} {w : World} {tsc : UInt64}
    {k : UInt64 → World → Option (GatewayThread z.flightCap × World)} {r : GatewayThread z.flightCap × World}
    (hn : t.next z = .work k) (hk : k tsc w = some r) :
    r.2.running = w.running ∧ (r.1.pc.left < t.pc.left ∨ w.running = true ∧ r.1.pc = .recv 31) := by
  unfold GatewayThread.next at hn
  split at hn <;> cases hn
  · next hpc =>
    obtain rfl := Option.some.inj hk
    refine ⟨rfl, ?_⟩
    rw [hpc]
    cases hw : w.running with
    | true => exact Or.inr ⟨rfl, rfl⟩
    | false => exact Or.inl Nat.zero_lt_one
  · next k hpc =>
    rw [hpc]
    dsimp only at hk
    split at hk
    · obtain rfl := Option.some.inj hk
      exact ⟨rfl, Or.inl (by show 4 < 6 + 2 * k; omega)⟩
    · split at hk
      · obtain rfl := Option.some.inj hk
        exact ⟨rfl, Or.inl (by show 4 < 6 + 2 * k; omega)⟩
      · next rep hm =>
        obtain rfl := Option.some.inj hk
        unfold GatewayThread.handle
        split
        · exact ⟨rfl, Or.inl (by show 5 + 2 * k < 6 + 2 * k; omega)⟩
        · refine ⟨rfl, Or.inl ?_⟩
          show (GatewayAt.after k).left < 6 + 2 * k
          rw [GatewayAt.left_after]
          omega
  · next o hpc =>
    obtain rfl := Option.some.inj hk
    refine ⟨rfl, Or.inl ?_⟩
    rw [hpc]
    unfold GatewayThread.checked
    dsimp only
    split
    · show 1 < 3
      omega
    · show 2 < 3
      omega
  · next o hpc =>
    obtain rfl := Option.some.inj hk
    refine ⟨rfl, Or.inl ?_⟩
    rw [hpc]
    show 1 < 2
    omega

/-- A call brings the gateway on, but for a push that is refused. -/
theorem GatewayThread.left_call {t : GatewayThread z.flightCap} {q : QueueName} {d : End}
    {own : z.wiring.owner q d = .gateway} {a : d.Arg (z.wiring.Payload q)}
    {k : d.Ret (z.wiring.Payload q) → GatewayThread z.flightCap} (hn : t.next z = .call q d own a k) :
    (∀ r, (k r).pc.left < t.pc.left) ∨
    ∃ i rep k', t.pc = .report i rep ∧ t.next z = .call .fillQ .push rfl rep k' ∧ (k' true).pc.left < t.pc.left ∧
      k' false = t := by
  have hn' := hn
  unfold GatewayThread.next at hn
  split at hn <;> cases hn
  · next k rep hpc =>
    refine Or.inr ⟨k, rep, _, hpc, hn', ?_, rfl⟩
    rw [hpc]
    show (GatewayAt.after k).left < 5 + 2 * k
    rw [GatewayAt.left_after]
    omega
  · next hpc =>
    rw [hpc]
    refine Or.inl fun r => ?_
    cases r with
    | none => show 1 < 4; omega
    | some o => show 3 < 4; omega

/-! ### No step waits -/

/-- A frame in the buffer is always parsed. -/
theorem FeedReader.next_of_hasNext {reader : FeedReader} (h : reader.hasNext = true) :
    ∃ msg reader', reader.next = some (msg, reader') := by
  obtain ⟨m, hm, -⟩ := FeedHandler.events_of_le 0 (of_decide_eq_true h : kMsgSize ≤ reader.rest.length)
  exact ⟨m, _, by rw [FeedReader.next, hm]; rfl⟩

theorem FeedThread.work_total {t : FeedThread} {k : UInt64 → World → Option (FeedThread × World)}
    (hn : t.next z = .work k) (tsc : UInt64) (w : World) : ∃ r, k tsc w = some r := by
  unfold FeedThread.next at hn
  split at hn <;> cases hn
  · exact ⟨_, rfl⟩
  · dsimp only
    split <;> exact ⟨_, rfl⟩
  · dsimp only
    split
    · next hmore =>
      obtain ⟨msg, reader', hnext⟩ := FeedReader.next_of_hasNext hmore
      rw [hnext]
      exact ⟨_, rfl⟩
    · exact ⟨_, rfl⟩

theorem StrategyThread.work_total {t : StrategyThread z.ticks}
    {k : UInt64 → World → Option (StrategyThread z.ticks × World)} (hn : t.next z = .work k) (tsc : UInt64)
    (w : World) : ∃ r, k tsc w = some r := by
  unfold StrategyThread.next at hn
  split at hn <;> cases hn <;> exact ⟨_, rfl⟩

theorem GatewayThread.work_total {t : GatewayThread z.flightCap}
    {k : UInt64 → World → Option (GatewayThread z.flightCap × World)} (hn : t.next z = .work k) (tsc : UInt64)
    (w : World) : ∃ r, k tsc w = some r := by
  unfold GatewayThread.next at hn
  split at hn <;> cases hn
  · exact ⟨_, rfl⟩
  · dsimp only
    split
    · exact ⟨_, rfl⟩
    · split <;> exact ⟨_, rfl⟩
  · exact ⟨_, rfl⟩
  · exact ⟨_, rfl⟩

/-! ### Own steps after a stop -/

namespace RingEngine

variable {cfg : EngineConfig} {f g : RingEngine z}

/-- A thread that left its loop. -/
def stopped (f : RingEngine z) (t : Stage) : Prop := z.program.next t (f.threads t) = .stop

/-- The calls and other steps that a poll takes at most. -/
def longestPoll : Stage → Nat
  | .feed => 3 + kMaxMsgsPerDatagram * (kSpinBudget + 1)
  | .strategy => 36
  | .gateway => 68

/-- The longest that a thread takes once `running` is cleared: a call is six operations at most. -/
def stepsToStop (t : Stage) : Nat := 6 * (longestPoll t + 1)

def Stopping (cfg : EngineConfig) (f : RingEngine z) : Prop := Reachable Step (start z cfg) f ∧ f.world.running = false

theorem running_of_step {l : Label Stage UInt64 Outside} (hs : f.Step l g) (hw : f.world.running = false) :
    g.world.running = false := by
  cases hs.move with
  | @work t e k r hn hk =>
    have hsame : r.2.running = f.world.running := by
      cases t with
      | feed => exact (FeedThread.left_work hn hk).1
      | strategy => exact (StrategyThread.left_work hn hk).1
      | gateway => exact (GatewayThread.left_work hn hk).1
    exact hsame.trans hw
  | op | ret => exact hw
  | @outside x world hx => cases x <;> cases hx <;> first | exact hw | rfl

theorem Stopping.step {l : Label Stage UInt64 Outside} (h : Stopping cfg f) (hs : f.Step l g) : Stopping cfg g :=
  ⟨h.1.next hs, running_of_step hs h.2⟩

theorem falls_feed : Threads.Falls (Stopping (z := z) cfg) .feed fun t : FeedThread => t.pc.left where
  kept h hs := h.step hs
  work {f k e r} h hn hk := by
    rcases (FeedThread.left_work hn hk).2 with hlt | ⟨hrun, -⟩
    · exact hlt
    · exact absurd (hrun.symm.trans h.2) (by decide)
  call {f q d own a k r} h hn hret := FeedThread.left_call hn r

theorem falls_strategy : Threads.Falls (Stopping (z := z) cfg) .strategy
    fun t : StrategyThread z.ticks => t.pc.left where
  kept h hs := h.step hs
  work {f k e r} h hn hk := by
    rcases (StrategyThread.left_work hn hk).2 with hlt | ⟨hrun, -⟩
    · exact hlt
    · exact absurd (hrun.symm.trans h.2) (by decide)
  call {f q d own a k r} h hn hret := by
    rcases StrategyThread.left_call hn with hlt | ⟨o, k', hpc, hn', hlt, -⟩
    · exact hlt r
    · cases hn.symm.trans hn'
      cases r with
      | true => exact hlt
      | false => exact absurd hret (order_push_ne_false h.1 hpc)

theorem falls_gateway : Threads.Falls (Stopping (z := z) cfg) .gateway
    fun t : GatewayThread z.flightCap => t.pc.left where
  kept h hs := h.step hs
  work {f k e r} h hn hk := by
    rcases (GatewayThread.left_work hn hk).2 with hlt | ⟨hrun, -⟩
    · exact hlt
    · exact absurd (hrun.symm.trans h.2) (by decide)
  call {f q d own a k r} h hn hret := by
    rcases GatewayThread.left_call hn with hlt | ⟨i, rep, k', hpc, hn', hlt, -⟩
    · exact hlt r
    · cases hn.symm.trans hn'
      cases r with
      | true => exact hlt
      | false => exact absurd hret (report_push_ne_false h.1 hpc)

/-! ### The longest poll -/

def left : (t : Stage) → z.program.Local t → Nat
  | .feed, (t : FeedThread) => t.pc.left
  | .strategy, (t : StrategyThread z.ticks) => t.pc.left
  | .gateway, (t : GatewayThread z.flightCap) => t.pc.left

theorem left_le (hr : Reachable Step (start z cfg) f) (t : Stage) : left t (f.threads t) ≤ longestPoll t := by
  refine Threads.Channeled.locals_of_reachable (I := fun t loc => left t loc ≤ longestPoll t)
    (fun {t loc k e w r} hle hn hk => ?_) (fun {t loc q d own a k} hle hn r => ?_) hr (fun t => ?_) t
  · cases t with
    | feed =>
      rcases (FeedThread.left_work hn hk).2 with hlt | ⟨-, hpc⟩
      · exact Nat.le_trans (Nat.le_of_lt hlt) hle
      · exact Nat.le_of_eq (congrArg FeedAt.left hpc)
    | strategy =>
      rcases (StrategyThread.left_work hn hk).2 with hlt | ⟨-, hpc⟩
      · exact Nat.le_trans (Nat.le_of_lt hlt) hle
      · exact Nat.le_of_eq (congrArg StrategyAt.left hpc)
    | gateway =>
      rcases (GatewayThread.left_work hn hk).2 with hlt | ⟨-, hpc⟩
      · exact Nat.le_trans (Nat.le_of_lt hlt) hle
      · exact Nat.le_of_eq (congrArg GatewayAt.left hpc)
  · cases t with
    | feed => exact Nat.le_trans (Nat.le_of_lt (FeedThread.left_call hn r)) hle
    | strategy =>
      rcases StrategyThread.left_call hn with hlt | ⟨o, k', hpc, hn', hlt, hsame⟩
      · exact Nat.le_trans (Nat.le_of_lt (hlt r)) hle
      · cases hn.symm.trans hn'
        cases r with
        | true => exact Nat.le_trans (Nat.le_of_lt hlt) hle
        | false => exact hsame ▸ hle
    | gateway =>
      rcases GatewayThread.left_call hn with hlt | ⟨i, rep, k', hpc, hn', hlt, hsame⟩
      · exact Nat.le_trans (Nat.le_of_lt (hlt r)) hle
      · cases hn.symm.trans hn'
        cases r with
        | true => exact Nat.le_trans (Nat.le_of_lt hlt) hle
        | false => exact hsame ▸ hle
  · cases t with
    | feed => show 1 ≤ 3 + _; omega
    | strategy => show 1 ≤ 36; omega
    | gateway => show 1 ≤ 68; omega

/-! ### The end of `stop` -/

/-- A thread can always take its next step. -/
theorem step_of_not_stopped {t : Stage} (ht : ¬f.stopped t) (tsc : UInt64) : ∃ g, f.Step (.thread t tsc) g := by
  cases hn : z.program.next t (f.threads t) with
  | stop => exact absurd hn ht
  | call q d own a k => exact ⟨_, Threads.Channeled.step_call hn⟩
  | work k =>
    have hk : ∃ r, k tsc f.world = some r := by
      cases t with
      | feed => exact FeedThread.work_total hn tsc f.world
      | strategy => exact StrategyThread.work_total hn tsc f.world
      | gateway => exact GatewayThread.work_total hn tsc f.world
    obtain ⟨r, hk⟩ := hk
    exact ⟨_, Threads.Channeled.step_work hn hk⟩

/-- Once `running` is cleared a thread takes no more than the steps of its longest poll, and as long as it is in its
    loop it can take the next. -/
theorem stop_ends {h : List (RingEngine z × Label Stage UInt64 Outside)} (hr : Reachable Step (start z cfg) f)
    (hstop : f.world.running = false) (hrun : Run Step f h g) (t : Stage) :
    h.countP (fun p => p.2.own t) ≤ stepsToStop t ∧ (g.stopped t ∨ ∀ tsc, ∃ g', g.Step (.thread t tsc) g') := by
  have hleft := left_le hr t
  refine ⟨?_, or_iff_not_imp_left.mpr step_of_not_stopped⟩
  have hbound : h.countP (fun p => p.2.own t) ≤ 6 * (left t (f.threads t) + 1) := by
    cases t with
    | feed => exact falls_feed.own_steps (by decide) z.waitFree ⟨hr, hstop⟩ hrun
    | strategy => exact falls_strategy.own_steps (by decide) z.waitFree ⟨hr, hstop⟩ hrun
    | gateway => exact falls_gateway.own_steps (by decide) z.waitFree ⟨hr, hstop⟩ hrun
  exact Nat.le_trans hbound (Nat.mul_le_mul_left 6 (Nat.succ_le_succ hleft))

/-- After the session the strategy leaves its loop at its fifth step. -/
theorem stop_ends_session :
    ∃ f g h, after? Engine.least Engine.hundreds (session ++ [.outside .stop]) = some f ∧ Run Step f h g ∧
      h.map Prod.snd = steps .strategy 5 ∧ h.countP (fun p => p.2.own .strategy) ≤ stepsToStop .strategy ∧
      (g.stopped .strategy ∨ ∀ tsc, ∃ g', g.Step (.thread .strategy tsc) g') := by
  have hsome : ((after? Engine.least Engine.hundreds (session ++ [.outside .stop])).bind fun f =>
      ((steps .strategy 5).foldlM Threads.Channeled.next? f).map fun _ => f.world.running) = some false := by
    decide +kernel
  obtain ⟨f, hf, hrest⟩ := Option.bind_eq_some_iff.mp hsome
  obtain ⟨g, hg, hstop⟩ := Option.map_eq_some_iff.mp hrest
  obtain ⟨h, hrun, hlabels⟩ := Run.of_foldlM hg
  exact ⟨f, g, h, hf, hrun, hlabels, stop_ends (Reachable.of_foldlM hf) hstop hrun .strategy⟩

end RingEngine

end Hft
