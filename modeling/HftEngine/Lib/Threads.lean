import HftEngine.Lib.Channel
import HftEngine.Lib.Transition

/-! Threads that share a world and talk over queues, each end of a queue owned by one thread: over plain bounded
    queues, where a call is one step, and over channels, where it takes several. -/

open Channel (End)

namespace Threads

variable {T Q ω ε κ : Type}

/-- The queues, and the thread at each end of each. -/
structure Wiring (T Q : Type) where
  Payload : Q → Type
  cap : Q → Nat
  owner : Q → End → T

/-- What thread `t` does next: a step of its own in the world, which may have to wait, or a call on a queue. A call
    goes on with what it returned. -/
inductive Next (w : Wiring T Q) (ω ε : Type) (t : T) (σ : Type)
  | work (k : ε → ω → Option (σ × ω))
  | call (q : Q) (d : End) (own : w.owner q d = t) (a : d.Arg (w.Payload q)) (k : d.Ret (w.Payload q) → σ)
  | stop

structure Program (w : Wiring T Q) (ω ε κ : Type) where
  Local : T → Type
  next : (t : T) → Local t → Next w ω ε t (Local t)
  /-- What happens in the world by itself. -/
  outside : κ → ω → Option ω

inductive Label (T ε κ : Type)
  | thread (t : T) (e : ε)
  | outside (x : κ)
  deriving DecidableEq

section Semantics
variable {w : Wiring T Q} (P : Program w ω ε κ)

structure Net where
  threads : (t : T) → P.Local t
  world : ω
  queue : (q : Q) → BoundedQueue (w.Payload q) (w.cap q)

structure Channeled (C : (q : Q) → Channel (w.Payload q)) where
  threads : (t : T) → P.Local t
  world : ω
  channel : (q : Q) → (C q).State

variable {P} [DecidableEq T] [DecidableEq Q]

def Net.next? (s : Net P) : Label T ε κ → Option (Net P)
  | .thread t e =>
    match P.next t (s.threads t) with
    | .work k => (k e s.world).map fun r => { s with threads := Function.update s.threads t r.1, world := r.2 }
    | .call q d _ a k =>
      let r := (s.queue q).call d a
      some { s with threads := Function.update s.threads t (k r.1), queue := Function.update s.queue q r.2 }
    | .stop => none
  | .outside x => (P.outside x s.world).map fun world => { s with world }

def Net.Step (s : Net P) (l : Label T ε κ) (s' : Net P) : Prop := s.next? l = some s'

variable {C : (q : Q) → Channel (w.Payload q)}

/-- One operation of a call is a step, and the thread goes on after the last. -/
def Channeled.next? (f : Channeled P C) : Label T ε κ → Option (Channeled P C)
  | .thread t e =>
    match P.next t (f.threads t) with
    | .work k => (k e f.world).map fun r => { f with threads := Function.update f.threads t r.1, world := r.2 }
    | .call q d _ a k =>
      let r := (C q).op (f.channel q) d a
      some { f with
        threads := (r.2.map k).elim f.threads (Function.update f.threads t)
        channel := Function.update f.channel q r.1 }
    | .stop => none
  | .outside x => (P.outside x f.world).map fun world => { f with world }

def Channeled.Step (f : Channeled P C) (l : Label T ε κ) (f' : Channeled P C) : Prop := f.next? l = some f'

end Semantics

def Net.start {w : Wiring T Q} (P : Program w ω ε κ) (threads : (t : T) → P.Local t) (world : ω) : Net P where
  threads
  world
  queue _ := .empty

def Channeled.start {w : Wiring T Q} (P : Program w ω ε κ) (C : (q : Q) → Channel (w.Payload q))
    (threads : (t : T) → P.Local t) (world : ω) : Channeled P C where
  threads
  world
  channel q := (C q).init

/-! ### One step -/

section
variable {w : Wiring T Q} {P : Program w ω ε κ} [DecidableEq T] [DecidableEq Q] {s s' : Net P} {l : Label T ε κ}
  {C : (q : Q) → Channel (w.Payload q)} {f f' : Channeled P C} {t : T} {e : ε}

inductive Net.Move (s : Net P) : Label T ε κ → Net P → Prop
  | work {t : T} {e : ε} {k : ε → ω → Option (P.Local t × ω)} {r : P.Local t × ω}
      (hn : P.next t (s.threads t) = .work k) (hk : k e s.world = some r) :
      Move s (.thread t e) { s with threads := Function.update s.threads t r.1, world := r.2 }
  | call {t : T} {e : ε} {q : Q} {d : End} {own : w.owner q d = t} {a : d.Arg (w.Payload q)}
      {k : d.Ret (w.Payload q) → P.Local t} {r : d.Ret (w.Payload q) × BoundedQueue (w.Payload q) (w.cap q)}
      (hn : P.next t (s.threads t) = .call q d own a k) (hr : (s.queue q).call d a = r) :
      Move s (.thread t e) { s with
        threads := Function.update s.threads t (k r.1)
        queue := Function.update s.queue q r.2 }
  | outside {x : κ} {world : ω} (hx : P.outside x s.world = some world) : Move s (.outside x) { s with world }

theorem Net.Step.move (h : s.Step l s') : s.Move l s' := by
  cases l with
  | outside x =>
    obtain ⟨world, hx, rfl⟩ := Option.map_eq_some_iff.mp h
    exact .outside hx
  | thread t e =>
    simp only [Net.Step, Net.next?] at h
    split at h
    · next k hn =>
      obtain ⟨r, hk, rfl⟩ := Option.map_eq_some_iff.mp h
      exact .work hn hk
    · next q d own a k hn =>
      obtain rfl := Option.some.inj h
      exact .call hn rfl
    · cases h

theorem Net.step_work {k : ε → ω → Option (P.Local t × ω)} {r : P.Local t × ω}
    (hn : P.next t (s.threads t) = .work k) (hk : k e s.world = some r) :
    s.Step (.thread t e) { s with threads := Function.update s.threads t r.1, world := r.2 } := by
  simp only [Net.Step, Net.next?, hn, hk, Option.map_some]

theorem Net.step_call {q : Q} {d : End} {own : w.owner q d = t} {a : d.Arg (w.Payload q)}
    {k : d.Ret (w.Payload q) → P.Local t} (hn : P.next t (s.threads t) = .call q d own a k) :
    s.Step (.thread t e) { s with
      threads := Function.update s.threads t (k ((s.queue q).call d a).1)
      queue := Function.update s.queue q ((s.queue q).call d a).2 } := by
  simp only [Net.Step, Net.next?, hn]

theorem Net.step_outside {x : κ} {world : ω} (hx : P.outside x s.world = some world) :
    s.Step (.outside x) { s with world } := by
  simp only [Net.Step, Net.next?, hx, Option.map_some]

inductive Channeled.Move (f : Channeled P C) : Label T ε κ → Channeled P C → Prop
  | work {t : T} {e : ε} {k : ε → ω → Option (P.Local t × ω)} {r : P.Local t × ω}
      (hn : P.next t (f.threads t) = .work k) (hk : k e f.world = some r) :
      Move f (.thread t e) { f with threads := Function.update f.threads t r.1, world := r.2 }
  /-- An operation that is not the last of its call. -/
  | op {t : T} {e : ε} {q : Q} {d : End} {own : w.owner q d = t} {a : d.Arg (w.Payload q)}
      {k : d.Ret (w.Payload q) → P.Local t} (hn : P.next t (f.threads t) = .call q d own a k)
      (hr : ((C q).op (f.channel q) d a).2 = none) :
      Move f (.thread t e) { f with channel := Function.update f.channel q ((C q).op (f.channel q) d a).1 }
  | ret {t : T} {e : ε} {q : Q} {d : End} {own : w.owner q d = t} {a : d.Arg (w.Payload q)}
      {k : d.Ret (w.Payload q) → P.Local t} {r : d.Ret (w.Payload q)}
      (hn : P.next t (f.threads t) = .call q d own a k) (hr : ((C q).op (f.channel q) d a).2 = some r) :
      Move f (.thread t e) { f with
        threads := Function.update f.threads t (k r)
        channel := Function.update f.channel q ((C q).op (f.channel q) d a).1 }
  | outside {x : κ} {world : ω} (hx : P.outside x f.world = some world) : Move f (.outside x) { f with world }

theorem Channeled.Step.move (h : f.Step l f') : f.Move l f' := by
  cases l with
  | outside x =>
    obtain ⟨world, hx, rfl⟩ := Option.map_eq_some_iff.mp h
    exact .outside hx
  | thread t e =>
    simp only [Channeled.Step, Channeled.next?] at h
    split at h
    · next k hn =>
      obtain ⟨r, hk, rfl⟩ := Option.map_eq_some_iff.mp h
      exact .work hn hk
    · next q d own a k hn =>
      obtain rfl := Option.some.inj h
      cases hr : ((C q).op (f.channel q) d a).2 with
      | none => exact .op hn hr
      | some r => exact .ret hn hr
    · cases h

/-- The thread after an operation of a call. -/
def Channeled.afterOp (f : Channeled P C) (t : T) (q : Q) (d : End) (a : d.Arg (w.Payload q))
    (k : d.Ret (w.Payload q) → P.Local t) : Channeled P C :=
  { f with
    threads := (((C q).op (f.channel q) d a).2.map k).elim f.threads (Function.update f.threads t)
    channel := Function.update f.channel q ((C q).op (f.channel q) d a).1 }

theorem Channeled.afterOp_none {q : Q} {d : End} {a : d.Arg (w.Payload q)} (k : d.Ret (w.Payload q) → P.Local t)
    (hr : ((C q).op (f.channel q) d a).2 = none) :
    f.afterOp t q d a k = { f with channel := Function.update f.channel q ((C q).op (f.channel q) d a).1 } := by
  simp only [Channeled.afterOp, hr, Option.map_none, Option.elim_none]

theorem Channeled.afterOp_some {q : Q} {d : End} {a : d.Arg (w.Payload q)} (k : d.Ret (w.Payload q) → P.Local t)
    {r : d.Ret (w.Payload q)} (hr : ((C q).op (f.channel q) d a).2 = some r) :
    f.afterOp t q d a k = { f with
      threads := Function.update f.threads t (k r)
      channel := Function.update f.channel q ((C q).op (f.channel q) d a).1 } := by
  simp only [Channeled.afterOp, hr, Option.map_some, Option.elim_some]

theorem Channeled.Step.eq_afterOp {q : Q} {d : End} {own : w.owner q d = t} {a : d.Arg (w.Payload q)}
    {k : d.Ret (w.Payload q) → P.Local t} (h : f.Step (.thread t e) f')
    (hn : P.next t (f.threads t) = .call q d own a k) : f' = f.afterOp t q d a k := by
  simp only [Channeled.Step, Channeled.next?, hn, Option.some.injEq] at h
  exact h.symm

theorem Channeled.Step.of_work {k : ε → ω → Option (P.Local t × ω)} (h : f.Step (.thread t e) f')
    (hn : P.next t (f.threads t) = .work k) :
    ∃ r, k e f.world = some r ∧ f' = { f with threads := Function.update f.threads t r.1, world := r.2 } := by
  simp only [Channeled.Step, Channeled.next?, hn] at h
  obtain ⟨r, hk, rfl⟩ := Option.map_eq_some_iff.mp h
  exact ⟨r, hk, rfl⟩

theorem Channeled.step_work {k : ε → ω → Option (P.Local t × ω)} {r : P.Local t × ω}
    (hn : P.next t (f.threads t) = .work k) (hk : k e f.world = some r) :
    f.Step (.thread t e) { f with threads := Function.update f.threads t r.1, world := r.2 } := by
  simp only [Channeled.Step, Channeled.next?, hn, hk, Option.map_some]

theorem Channeled.step_call {q : Q} {d : End} {own : w.owner q d = t} {a : d.Arg (w.Payload q)}
    {k : d.Ret (w.Payload q) → P.Local t} (hn : P.next t (f.threads t) = .call q d own a k) :
    f.Step (.thread t e) (f.afterOp t q d a k) := by
  simp only [Channeled.Step, Channeled.next?, hn, Channeled.afterOp]

/-- What the code of each thread keeps of its own state holds in every run. -/
theorem Channeled.locals_of_reachable {I : (t : T) → P.Local t → Prop} {f₀ : Channeled P C}
    (work : ∀ {t loc k e w r}, I t loc → P.next t loc = .work k → k e w = some r → I t r.1)
    (call : ∀ {t loc q d own a k}, I t loc → P.next t loc = .call q d own a k → ∀ r, I t (k r))
    (hr : Transition.Reachable Channeled.Step f₀ f) (h₀ : ∀ t, I t (f₀.threads t)) (t : T) : I t (f.threads t) := by
  have updated : ∀ {f : Channeled P C} {t' : T} {loc : P.Local t'}, (∀ t, I t (f.threads t)) → I t' loc →
      ∀ t, I t (Function.update f.threads t' loc t) := by
    intro f t' loc hf hloc t
    by_cases ht : t = t'
    · subst ht
      rwa [Function.update_self]
    · rw [Function.update_of_ne ht]
      exact hf t
  refine hr.invariant (I := fun f => ∀ t, I t (f.threads t)) h₀ (fun hf hs => ?_) t
  cases hs.move with
  | work hn hk => exact updated hf (work (hf _) hn hk)
  | op | outside => exact hf
  | ret hn => exact updated hf (call (hf _) hn _)

end

end Threads
