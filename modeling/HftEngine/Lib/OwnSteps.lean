import HftEngine.Lib.Threads

/-! How many steps a thread takes over channels whose calls end after a bounded number of operations: a measure of its
    state that falls whenever it gets on bounds them, whatever the other threads do. -/

open Channel (End)

namespace Threads

open Transition

variable {T Q ω ε κ : Type} {w : Wiring T Q} {P : Program w ω ε κ} {C : (q : Q) → Channel (w.Payload q)}
  {f f' : Channeled P C} {l : Label T ε κ} {t : T} {q : Q} {d : End}

/-- Operations to come in the call of a thread, or its one step in the world. -/
def opsLeft {n : Nat} (W : (q : Q) → (C q).WaitFree n) (f : Channeled P C) (t : T) : Nat :=
  match P.next t (f.threads t) with
  | .work _ => 1
  | .call q d _ _ _ => (W q).left (f.channel q) d
  | .stop => 0

theorem opsLeft_le {n : Nat} (hn : 0 < n) (W : (q : Q) → (C q).WaitFree n) (f : Channeled P C) (t : T) :
    opsLeft W f t ≤ n := by
  unfold opsLeft
  split
  · exact hn
  · exact (W _).left_le _ _
  · exact Nat.zero_le _

theorem opsLeft_of_call {n : Nat} {W : (q : Q) → (C q).WaitFree n} {own : w.owner q d = t} {a : d.Arg (w.Payload q)}
    {k : d.Ret (w.Payload q) → P.Local t} (hn : P.next t (f.threads t) = .call q d own a k) :
    opsLeft W f t = (W q).left (f.channel q) d := by
  simp only [opsLeft, hn]

theorem opsLeft_congr {n : Nat} {W : (q : Q) → (C q).WaitFree n} (ht : f'.threads t = f.threads t)
    (hleft : ∀ q d, w.owner q d = t → (W q).left (f'.channel q) d = (W q).left (f.channel q) d) :
    opsLeft W f' t = opsLeft W f t := by
  unfold opsLeft
  rw [ht]
  split
  · rfl
  · next q d own a k hn => exact hleft q d own
  · rfl

theorem lt_of_falls {n : Nat} (hn : 0 < n) (W : (q : Q) → (C q).WaitFree n) {μ : P.Local t → Nat}
    (f f' : Channeled P C) (hlt : μ (f'.threads t) < μ (f.threads t)) :
    n * μ (f'.threads t) + opsLeft W f' t ≤ n * μ (f.threads t) := by
  have hle := Nat.mul_le_mul_left n (Nat.succ_le_of_lt hlt)
  have hops := opsLeft_le hn W f' t
  rw [Nat.mul_succ] at hle
  omega

variable [DecidableEq Q]

/-- An operation of another thread does not lengthen a call. -/
theorem left_of_other {n : Nat} {W : (q : Q) → (C q).WaitFree n} (a : d.Arg (w.Payload q)) {q' : Q} {d' : End}
    (hown : w.owner q' d' ≠ w.owner q d) :
    (W q').left (Function.update f.channel q ((C q).op (f.channel q) d a).1 q') d' = (W q').left (f.channel q') d' := by
  by_cases hq : q' = q
  · subst hq
    rw [Function.update_self]
    exact (W q').other a fun hd => hown (by rw [hd])
  · rw [Function.update_of_ne hq]

variable [DecidableEq T]

/-- While `J` holds `μ` falls whenever thread `t` gets on. -/
structure Falls (J : Channeled P C → Prop) (t : T) (μ : P.Local t → Nat) : Prop where
  kept : ∀ {f l f'}, J f → f.Step l f' → J f'
  work : ∀ {f : Channeled P C} {k : ε → ω → Option (P.Local t × ω)} {e r}, J f → P.next t (f.threads t) = .work k →
    k e f.world = some r → μ r.1 < μ (f.threads t)
  call : ∀ {f : Channeled P C} {q d own a k r}, J f → P.next t (f.threads t) = .call q d own a k →
    ((C q).op (f.channel q) d a).2 = some r → μ (k r) < μ (f.threads t)

def Label.own (t : T) : Label T ε κ → Bool
  | .thread t' _ => t' = t
  | .outside _ => false

/-- A step of thread `t` lowers the bound on its steps, and no other step raises it. -/
theorem Falls.step {n : Nat} (hn : 0 < n) (W : (q : Q) → (C q).WaitFree n) {J : Channeled P C → Prop}
    {μ : P.Local t → Nat} (h : Falls J t μ) (hJ : J f) (hs : f.Step l f') :
    n * μ (f'.threads t) + opsLeft W f' t + (l.own t).toNat ≤ n * μ (f.threads t) + opsLeft W f t := by
  have others : ∀ {f' : Channeled P C} {t'} {e : ε}, t' ≠ t → f'.threads t = f.threads t →
      (∀ q d, w.owner q d = t → (W q).left (f'.channel q) d = (W q).left (f.channel q) d) →
      n * μ (f'.threads t) + opsLeft W f' t + ((Label.thread t' e : Label T ε κ).own t).toNat ≤
        n * μ (f.threads t) + opsLeft W f t := by
    intro f' t' e hne ht hleft
    rw [ht, opsLeft_congr ht hleft]
    simp [Label.own, hne]
  have hown : ∀ {e : ε}, ((Label.thread t e : Label T ε κ).own t).toNat = 1 := by simp [Label.own]
  cases hs.move with
  | outside hx => exact Nat.le_refl _
  | @work t' e k r hw hk =>
    by_cases ht : t' = t
    · subst ht
      have hops : opsLeft W f t' = 1 := by simp only [opsLeft, hw]
      let g : Channeled P C := { f with threads := Function.update f.threads t' r.1, world := r.2 }
      have hle : n * μ (g.threads t') + opsLeft W g t' ≤ n * μ (f.threads t') :=
        lt_of_falls hn W f g (by simpa [g] using h.work hJ hw hk)
      rw [hown, hops]
      exact Nat.succ_le_succ hle
    · exact others ht (Function.update_of_ne (Ne.symm ht) ..) fun _ _ _ => rfl
  | @op t' e q d own a k hw hr =>
    by_cases ht : t' = t
    · subst ht
      have hlt := (W q).op hr
      let g : Channeled P C := { f with channel := Function.update f.channel q ((C q).op (f.channel q) d a).1 }
      have hops : opsLeft W g t' = (W q).left ((C q).op (f.channel q) d a).1 d :=
        (opsLeft_of_call (f := g) hw).trans (by simp [g])
      rw [hops, hown, opsLeft_of_call hw]
      show n * μ (f.threads t') + _ + 1 ≤ _
      omega
    · exact others ht rfl fun q' d' hown' => left_of_other a (by rw [hown', own]; exact Ne.symm ht)
  | @ret t' e q d own a k r hw hr =>
    by_cases ht : t' = t
    · subst ht
      have hpos := (W q).left_pos (f.channel q) d
      let g : Channeled P C := { f with
        threads := Function.update f.threads t' (k r)
        channel := Function.update f.channel q ((C q).op (f.channel q) d a).1 }
      have hle : n * μ (g.threads t') + opsLeft W g t' ≤ n * μ (f.threads t') :=
        lt_of_falls hn W f g (by simpa [g] using h.call hJ hw hr)
      rw [hown, opsLeft_of_call hw]
      show n * μ (g.threads t') + opsLeft W g t' + 1 ≤ _
      omega
    · exact others ht (Function.update_of_ne (Ne.symm ht) ..)
        fun q' d' hown' => left_of_other a (by rw [hown', own]; exact Ne.symm ht)

/-- In a run under `J` thread `t` takes a bounded number of steps, whatever the other threads do. -/
theorem Falls.own_steps {n : Nat} (hn : 0 < n) (W : (q : Q) → (C q).WaitFree n) {J : Channeled P C → Prop}
    {μ : P.Local t → Nat} {h : List (Channeled P C × Label T ε κ)} (hf : Falls J t μ) (hJ : J f)
    (hr : Run Channeled.Step f h f') : h.countP (fun p => p.2.own t) ≤ n * (μ (f.threads t) + 1) := by
  have hbound : J f' ∧ n * μ (f'.threads t) + opsLeft W f' t + h.countP (fun p => p.2.own t) ≤
      n * μ (f.threads t) + opsLeft W f t := by
    induction hr with
    | nil => exact ⟨hJ, Nat.le_refl _⟩
    | @snoc h g g' l _ hs ih =>
      obtain ⟨hg, hle⟩ := ih
      have hstep := hf.step hn W hg hs
      refine ⟨hf.kept hg hs, ?_⟩
      rw [List.countP_append, List.countP_singleton]
      cases hl : l.own t
      · rw [hl] at hstep
        simp only [Bool.toNat_false, Bool.false_eq_true, if_false] at hstep ⊢
        omega
      · rw [hl] at hstep
        simp only [Bool.toNat_true, if_true] at hstep ⊢
        omega
  have hops := opsLeft_le hn W f t
  rw [Nat.mul_succ]
  omega

end Threads
