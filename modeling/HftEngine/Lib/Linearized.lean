import HftEngine.Lib.Threads

/-! Threads over linearizable channels refine the same threads over plain queues. A thread whose call has had its
    effect is still on its way back from it: over plain queues it has gone on already, and nobody else can tell. -/

open Channel (End Call Calls)

namespace Threads

open Transition

variable {T Q ω ε κ : Type} {w : Wiring T Q} {P : Program w ω ε κ} {C : (q : Q) → Channel (w.Payload q)}
  {f f' : Channeled P C} {s s' : Net P} {calls calls' : (q : Q) → Calls (w.Payload q)} {l : Label T ε κ} {t : T}

/-! ### The relation -/

/-- Thread `t` past its call, where the call has had its effect. -/
def ahead (P : Program w ω ε κ) (calls : (q : Q) → Calls (w.Payload q)) (t : T) (loc : P.Local t) : P.Local t :=
  match P.next t loc with
  | .call q d _ _ k =>
    match calls q d with
    | .settled _ r => k r
    | .idle | .pending _ => loc
  | .work _ | .stop => loc

structure Stands (L : (q : Q) → (C q).Linearizable (w.cap q)) (f : Channeled P C) (s : Net P)
    (calls : (q : Q) → Calls (w.Payload q)) : Prop where
  world : s.world = f.world
  threads : ∀ t, s.threads t = ahead P calls t (f.threads t)
  holds : ∀ q, (L q).Holds (f.channel q) (s.queue q) (calls q)
  called : ∀ q d, calls q d ≠ .idle → ∃ a k, P.next _ (f.threads (w.owner q d)) = .call q d rfl a k ∧ (calls q d).Of a

theorem ahead_of_open {loc : P.Local t} {q : Q} {d : End} {own : w.owner q d = t} {a : d.Arg (w.Payload q)}
    {k : d.Ret (w.Payload q) → P.Local t} (hn : P.next t loc = .call q d own a k) (ho : (calls q d).Open) :
    ahead P calls t loc = loc := by
  simp only [ahead, hn]
  cases hc : calls q d with
  | idle | pending => rfl
  | settled =>
    rw [hc] at ho
    exact ho.elim

theorem ahead_of_settled {loc : P.Local t} {q : Q} {d : End} {own : w.owner q d = t} {a i : d.Arg (w.Payload q)}
    {k : d.Ret (w.Payload q) → P.Local t} {r : d.Ret (w.Payload q)} (hn : P.next t loc = .call q d own a k)
    (hc : calls q d = .settled i r) : ahead P calls t loc = k r := by
  simp only [ahead, hn, hc]

theorem ahead_of_work {loc : P.Local t} (hn : ∀ q d own a k, P.next t loc ≠ .call q d own a k) :
    ahead P calls t loc = loc := by
  unfold ahead
  split
  · next q d own a k h => exact absurd h (hn q d own a k)
  · rfl
  · rfl

theorem ahead_of_idle {loc : P.Local t} (h : ∀ q d, w.owner q d = t → calls q d = .idle) :
    ahead P calls t loc = loc := by
  cases hn : P.next t loc with
  | work | stop => exact ahead_of_work fun q d own a k h => by rw [hn] at h; cases h
  | call q d own a k => exact ahead_of_open hn (by rw [h q d own]; trivial)

/-- A thread ahead is where it is, or past the call that it makes. -/
theorem ahead_cases (calls : (q : Q) → Calls (w.Payload q)) (loc : P.Local t) :
    ahead P calls t loc = loc ∨
    ∃ q d own a k r, P.next t loc = .call q d own a k ∧ ahead P calls t loc = k r := by
  cases hn : P.next t loc with
  | work | stop => exact Or.inl (ahead_of_work fun q d own a k h => by rw [hn] at h; cases h)
  | call q d own a k =>
    cases hc : calls q d with
    | idle | pending => exact Or.inl (ahead_of_open hn (by rw [hc]; trivial))
    | settled i r => exact Or.inr ⟨q, d, own, a, k, r, rfl, ahead_of_settled hn hc⟩

theorem ahead_congr {loc : P.Local t} (h : ∀ q d, w.owner q d = t → calls' q d = calls q d) :
    ahead P calls' t loc = ahead P calls t loc := by
  unfold ahead
  split
  · next q d own a k hn => rw [h q d own]
  · rfl
  · rfl

variable {q : Q} {d : End}

/-- A thread has one call under way at most. -/
theorem Stands.elsewhere {L : (q : Q) → (C q).Linearizable (w.cap q)} {own : w.owner q d = t} {a : d.Arg (w.Payload q)}
    {k : d.Ret (w.Payload q) → P.Local t} (h : Stands L f s calls) (hn : P.next t (f.threads t) = .call q d own a k)
    {q' : Q} {d' : End} (hown : w.owner q' d' = t) (hne : ¬(q' = q ∧ d' = d)) : calls q' d' = .idle := by
  by_contra hbusy
  obtain ⟨a', k', hn', -⟩ := h.called q' d' hbusy
  subst hown
  rw [hn] at hn'
  cases hn'
  exact hne ⟨rfl, rfl⟩

theorem Stands.of_arg {L : (q : Q) → (C q).Linearizable (w.cap q)} {own : w.owner q d = t} {a : d.Arg (w.Payload q)}
    {k : d.Ret (w.Payload q) → P.Local t} (h : Stands L f s calls) (hn : P.next t (f.threads t) = .call q d own a k) :
    (calls q d).Of a := by
  by_cases hidle : calls q d = .idle
  · rw [hidle]
    trivial
  · obtain ⟨a', k', hn', hof⟩ := h.called q d hidle
    subst own
    rw [hn] at hn'
    cases hn'
    exact hof

/-- A thread that makes no call has none under way. -/
theorem Stands.none_called {L : (q : Q) → (C q).Linearizable (w.cap q)} (h : Stands L f s calls)
    (hn : ∀ q d own a k, P.next t (f.threads t) ≠ .call q d own a k) {q' : Q} {d' : End} (hown : w.owner q' d' = t) :
    calls q' d' = .idle := by
  by_contra hbusy
  obtain ⟨a', k', hn', -⟩ := h.called q' d' hbusy
  subst hown
  exact hn _ _ _ _ _ hn'

/-- A thread that has no effect to wait for is at the same place over plain queues. -/
theorem Stands.threads_of_open {L : (q : Q) → (C q).Linearizable (w.cap q)} {own : w.owner q d = t}
    {a : d.Arg (w.Payload q)} {k : d.Ret (w.Payload q) → P.Local t} (h : Stands L f s calls)
    (hn : P.next t (f.threads t) = .call q d own a k) (ho : (calls q d).Open) : s.threads t = f.threads t :=
  (h.threads t).trans (ahead_of_open hn ho)

theorem Stands.start (L : (q : Q) → (C q).Linearizable (w.cap q)) (threads : (t : T) → P.Local t) (world : ω) :
    Stands L (Channeled.start P C threads world) (Net.start P threads world) fun _ _ => .idle where
  world := rfl
  threads _ := (ahead_of_idle fun _ _ _ => rfl).symm
  holds q := (L q).init
  called _ _ h := absurd rfl h

/-! ### One step -/

section
variable [DecidableEq T]

/-- After a step of a thread in the world. -/
theorem Stands.work {L : (q : Q) → (C q).Linearizable (w.cap q)} {k : ε → ω → Option (P.Local t × ω)}
    (h : Stands L f s calls) (hn : P.next t (f.threads t) = .work k) (r : P.Local t × ω) :
    Stands L { f with threads := Function.update f.threads t r.1, world := r.2 }
      { s with threads := Function.update s.threads t r.1, world := r.2 } calls := by
  have hidle : ∀ q d, w.owner q d = t → calls q d = .idle :=
    fun q d => h.none_called fun q d own a k hn' => by rw [hn] at hn'; cases hn'
  refine ⟨rfl, fun t' => ?_, h.holds, fun q d hbusy => ?_⟩
  · by_cases ht : t' = t
    · subst ht
      simp only [Function.update_self]
      exact (ahead_of_idle hidle).symm
    · simp only [Function.update_of_ne ht]
      exact h.threads t'
  · have hown : w.owner q d ≠ t := fun hown => hbusy (hidle q d hown)
    obtain ⟨a, k', hn', hof⟩ := h.called q d hbusy
    exact ⟨a, k', by simpa only [Function.update_of_ne hown] using hn', hof⟩

end

variable [DecidableEq Q]

def setCall (calls : (q : Q) → Calls (w.Payload q)) (q : Q) (d : End)
    (c : Call (d.Arg (w.Payload q)) (d.Ret (w.Payload q))) : (q : Q) → Calls (w.Payload q) :=
  Function.update calls q (Function.update (calls q) d c)

variable {c : Call (d.Arg (w.Payload q)) (d.Ret (w.Payload q))}

@[simp] theorem setCall_self : setCall calls q d c q d = c := by simp [setCall]

theorem setCall_queue : setCall calls q d c q = Function.update (calls q) d c := by simp [setCall]

theorem setCall_ne {q' : Q} {d' : End} (h : ¬(q' = q ∧ d' = d)) : setCall calls q d c q' d' = calls q' d' := by
  unfold setCall
  by_cases hq : q' = q
  · subst hq
    have hd : d' ≠ d := fun hd => h ⟨rfl, hd⟩
    simp [hd]
  · simp [hq]

theorem Stands.hold {L : (q : Q) → (C q).Linearizable (w.cap q)} (h : Stands L f s calls) {ch : (C q).State}
    {x : BoundedQueue (w.Payload q) (w.cap q)} (hx : (L q).Holds ch x (Function.update (calls q) d c)) (q' : Q) :
    (L q').Holds (Function.update f.channel q ch q') (Function.update s.queue q x q') (setCall calls q d c q') := by
  by_cases hq : q' = q
  · subst hq
    rw [Function.update_self, Function.update_self, setCall_queue]
    exact hx
  · rw [Function.update_of_ne hq, Function.update_of_ne hq, setCall, Function.update_of_ne hq]
    exact h.holds q'

variable [DecidableEq T]

/-- After an operation that is not the last of its call. -/
theorem Stands.op {L : (q : Q) → (C q).Linearizable (w.cap q)} {own : w.owner q d = t} {a : d.Arg (w.Payload q)}
    {k : d.Ret (w.Payload q) → P.Local t} (h : Stands L f s calls) (hn : P.next t (f.threads t) = .call q d own a k)
    {loc : P.Local t} (hloc : loc = ahead P (setCall calls q d c) t (f.threads t)) (hc : c.Of a) {ch : (C q).State}
    {x : BoundedQueue (w.Payload q) (w.cap q)} (hx : (L q).Holds ch x (Function.update (calls q) d c)) :
    Stands L { f with channel := Function.update f.channel q ch }
      { s with threads := Function.update s.threads t loc, queue := Function.update s.queue q x }
      (setCall calls q d c) where
  world := h.world
  threads t' := by
    by_cases ht : t' = t
    · subst ht
      exact (Function.update_self ..).trans hloc
    · have hcongr : ahead P (setCall calls q d c) t' (f.threads t') = ahead P calls t' (f.threads t') :=
        ahead_congr fun q' d' hown => setCall_ne fun hqd => ht (by rw [← hown, hqd.1, hqd.2, own])
      exact (Function.update_of_ne ht ..).trans ((h.threads t').trans hcongr.symm)
  holds := h.hold hx
  called q' d' hbusy := by
    by_cases hqd : q' = q ∧ d' = d
    · obtain ⟨rfl, rfl⟩ := hqd
      subst own
      exact ⟨a, k, hn, by rw [setCall_self]; exact hc⟩
    · rw [setCall_ne hqd] at hbusy ⊢
      exact h.called q' d' hbusy

/-- After the last operation of a call. -/
theorem Stands.ret {L : (q : Q) → (C q).Linearizable (w.cap q)} {own : w.owner q d = t} {a : d.Arg (w.Payload q)}
    {k : d.Ret (w.Payload q) → P.Local t} (h : Stands L f s calls) (hn : P.next t (f.threads t) = .call q d own a k)
    (loc : P.Local t) {ch : (C q).State} {x : BoundedQueue (w.Payload q) (w.cap q)}
    (hx : (L q).Holds ch x (Function.update (calls q) d .idle)) :
    Stands L { f with threads := Function.update f.threads t loc, channel := Function.update f.channel q ch }
      { s with threads := Function.update s.threads t loc, queue := Function.update s.queue q x }
      (setCall calls q d .idle) := by
  have hidle : ∀ q' d', w.owner q' d' = t → setCall calls q d .idle q' d' = .idle := fun q' d' hown => by
    by_cases hqd : q' = q ∧ d' = d
    · obtain ⟨rfl, rfl⟩ := hqd
      exact setCall_self
    · exact (setCall_ne hqd).trans (h.elsewhere hn hown hqd)
  refine ⟨h.world, fun t' => ?_, h.hold hx, fun q' d' hbusy => ?_⟩
  · by_cases ht : t' = t
    · subst ht
      simp only [Function.update_self]
      exact (ahead_of_idle hidle).symm
    · simp only [Function.update_of_ne ht]
      refine (h.threads t').trans (ahead_congr fun q' d' hown => ?_).symm
      exact setCall_ne fun hqd => ht (by rw [← hown, hqd.1, hqd.2, own])
  · have hown : w.owner q' d' ≠ t := fun hown => hbusy (hidle q' d' hown)
    rw [setCall_ne fun hqd => hown (by rw [hqd.1, hqd.2, own])] at hbusy ⊢
    obtain ⟨a', k', hn', hof⟩ := h.called q' d' hbusy
    exact ⟨a', k', by simpa only [Function.update_of_ne hown] using hn', hof⟩

/-- What the calls that settled in this step will return is what they return over plain queues. -/
def Settles (s : Net P) (calls calls' : (q : Q) → Calls (w.Payload q)) : Prop :=
  ∀ q d i r, calls' q d = .settled i r → calls q d = .settled i r ∨
    ∃ k, P.next _ (s.threads (w.owner q d)) = .call q d rfl i k ∧ r = ((s.queue q).call d i).1

omit [DecidableEq T] in
theorem settles_unsettled (hc : ∀ i r, c ≠ .settled i r) : Settles s calls (setCall calls q d c) := by
  intro q' d' i r hset
  by_cases hqd : q' = q ∧ d' = d
  · obtain ⟨rfl, rfl⟩ := hqd
    exact absurd (setCall_self.symm.trans hset) (hc i r)
  · exact Or.inl ((setCall_ne hqd).symm.trans hset)

omit [DecidableEq T] in
theorem settles_setCall {own : w.owner q d = t} {a : d.Arg (w.Payload q)} {k : d.Ret (w.Payload q) → P.Local t}
    (hn : P.next t (s.threads t) = .call q d own a k) :
    Settles s calls (setCall calls q d (.settled a ((s.queue q).call d a).1)) := by
  intro q' d' i r hset
  by_cases hqd : q' = q ∧ d' = d
  · obtain ⟨rfl, rfl⟩ := hqd
    subst own
    cases setCall_self.symm.trans hset
    exact Or.inr ⟨k, hn, rfl⟩
  · exact Or.inl ((setCall_ne hqd).symm.trans hset)

/-- An operation of a call is no step over plain queues or the step of the call. -/
theorem Stands.step {L : (q : Q) → (C q).Linearizable (w.cap q)} (h : Stands L f s calls) (hs : f.Step l f') :
    ∃ s' calls', (s' = s ∨ s.Step l s') ∧ Stands L f' s' calls' ∧ Settles s calls calls' := by
  have same : ∀ {t q}, { s with threads := Function.update s.threads t (s.threads t)
                                queue := Function.update s.queue q (s.queue q) } = s := by
    simp only [Function.update_eq_self, implies_true]
  cases hs.move with
  | outside hx =>
    rw [← h.world] at hx
    exact ⟨_, calls, Or.inr (Net.step_outside hx), ⟨rfl, h.threads, h.holds, h.called⟩, fun _ _ _ _ => Or.inl⟩
  | @work t e k r hn hk =>
    have ht : s.threads t = f.threads t :=
      (h.threads t).trans (ahead_of_work fun _ _ _ _ _ hn' => by rw [hn] at hn'; cases hn')
    rw [← h.world] at hk
    exact ⟨_, calls, Or.inr (Net.step_work (ht ▸ hn) hk), h.work hn r, fun _ _ _ _ => Or.inl⟩
  | @op t e q d own a k hn hr =>
    obtain ⟨x, c', hx, adv⟩ := (L q).op d a (h.holds q) (h.of_arg hn)
    rw [hr] at adv
    generalize hc : calls q d = c at adv
    cases adv with
    | stay ho =>
      have ht : s.threads t = f.threads t := h.threads_of_open hn (hc ▸ ho)
      have hloc : s.threads t = ahead P (setCall calls q d (.pending a)) t (f.threads t) :=
        ht.trans (ahead_of_open hn (by rw [setCall_self]; trivial)).symm
      exact ⟨_, _, Or.inl rfl, same ▸ h.op hn hloc rfl hx, settles_unsettled fun _ _ h => (by cases h)⟩
    | settle ho =>
      have ht : s.threads t = f.threads t := h.threads_of_open hn (hc ▸ ho)
      have hn' := hn
      rw [← ht] at hn'
      exact ⟨_, _, Or.inr (Net.step_call hn'), h.op hn (ahead_of_settled hn setCall_self).symm rfl hx,
        settles_setCall hn'⟩
    | @wait r =>
      have hloc : s.threads t = ahead P (setCall calls q d (.settled a r)) t (f.threads t) :=
        (h.threads t).trans ((ahead_of_settled hn hc).trans (ahead_of_settled hn setCall_self).symm)
      refine ⟨_, _, Or.inl rfl, same ▸ h.op hn hloc rfl hx, fun q' d' i r' hset => ?_⟩
      by_cases hqd : q' = q ∧ d' = d
      · obtain ⟨rfl, rfl⟩ := hqd
        exact Or.inl (hc.trans (setCall_self.symm.trans hset))
      · exact Or.inl ((setCall_ne hqd).symm.trans hset)
  | @ret t e q d own a k r hn hr =>
    obtain ⟨x, c', hx, adv⟩ := (L q).op d a (h.holds q) (h.of_arg hn)
    rw [hr] at adv
    generalize hc : calls q d = c at adv
    cases adv with
    | commit ho =>
      have ht : s.threads t = f.threads t := h.threads_of_open hn (hc ▸ ho)
      rw [← ht] at hn
      exact ⟨_, _, Or.inr (Net.step_call hn), h.ret (ht ▸ hn) _ hx, settles_unsettled fun _ _ h => (by cases h)⟩
    | ret =>
      have hloc : s.threads t = k r := (h.threads t).trans (ahead_of_settled hn hc)
      have hret := h.ret hn (s.threads t) hx
      exact ⟨_, _, Or.inl rfl, hloc ▸ same ▸ hret, settles_unsettled fun _ _ h => (by cases h)⟩

/-! ### Runs -/

/-- `r` is what a call of `i` returns at some moment of a run over plain queues. -/
def Answers (s₀ : Net P) (q : Q) (d : End) (i : d.Arg (w.Payload q)) (r : d.Ret (w.Payload q)) : Prop :=
  ∃ s k, Reachable Net.Step s₀ s ∧ P.next _ (s.threads (w.owner q d)) = .call q d rfl i k ∧
    r = ((s.queue q).call d i).1

theorem stands_of_reachable (L : (q : Q) → (C q).Linearizable (w.cap q)) {threads : (t : T) → P.Local t} {world : ω}
    (hr : Reachable Channeled.Step (Channeled.start P C threads world) f) :
    ∃ s calls, Reachable Net.Step (Net.start P threads world) s ∧ Stands L f s calls ∧
      ∀ q d i r, calls q d = .settled i r → Answers (Net.start P threads world) q d i r := by
  refine hr.invariant
    (I := fun f => ∃ s calls, Reachable Net.Step (Net.start P threads world) s ∧ Stands L f s calls ∧
      ∀ q d i r, calls q d = .settled i r → Answers (Net.start P threads world) q d i r)
    ⟨_, _, .refl, Stands.start L threads world, fun _ _ _ _ h => (by cases h)⟩ fun hi hs => ?_
  obtain ⟨s, calls, hreach, hstands, hanswers⟩ := hi
  obtain ⟨s', calls', hstep, hstands', hsettles⟩ := hstands.step hs
  have hreach' : Reachable Net.Step (Net.start P threads world) s' := by
    rcases hstep with rfl | hstep
    · exact hreach
    · exact hreach.next hstep
  refine ⟨s', calls', hreach', hstands', fun q d i r hset => ?_⟩
  rcases hsettles q d i r hset with hset | ⟨k, hn, hret⟩
  · exact hanswers q d i r hset
  · exact ⟨s, k, hreach, hn, hret⟩

/-- What a call over channels returns it also returns over plain queues. -/
theorem answers_of_ret (L : (q : Q) → (C q).Linearizable (w.cap q)) {threads : (t : T) → P.Local t} {world : ω}
    {a : d.Arg (w.Payload q)} {k : d.Ret (w.Payload q) → P.Local _} {r : d.Ret (w.Payload q)}
    (hr : Reachable Channeled.Step (Channeled.start P C threads world) f)
    (hn : P.next _ (f.threads (w.owner q d)) = .call q d rfl a k) (hret : ((C q).op (f.channel q) d a).2 = some r) :
    Answers (Net.start P threads world) q d a r := by
  obtain ⟨s, calls, hreach, hstands, hanswers⟩ := stands_of_reachable L hr
  obtain ⟨x, c', -, adv⟩ := (L q).op d a (hstands.holds q) (hstands.of_arg hn)
  rw [hret] at adv
  generalize hc : calls q d = c at adv
  cases adv with
  | commit ho =>
    rw [← hstands.threads_of_open hn (hc ▸ ho)] at hn
    exact ⟨s, k, hreach, hn, rfl⟩
  | ret => exact hanswers q d a r hc

end Threads
