import HftEngine.Lib.BoundedQueue
import Mathlib.Logic.Function.Basic

/-! Channels between two threads whose calls take several operations, those of the two ends interleaved. A channel is
    linearizable when each call works on a bounded queue at one of its own operations. -/

namespace Channel

/-- The two ends of a queue. -/
inductive End
  | push
  | pop
  deriving DecidableEq

/-- What a call at an end of a queue of `α` takes. -/
def End.Arg (α : Type) : End → Type
  | push => α
  | pop => Unit

def End.Ret (α : Type) : End → Type
  | push => Bool
  | pop => Option α

end Channel

open Channel (End)

namespace BoundedQueue

variable {α : Type} {cap : Nat}

/-- `push?` with what the call returns. -/
def offer (x : α) (q : BoundedQueue α cap) : Bool × BoundedQueue α cap :=
  match q.push? x with
  | some q' => (true, q')
  | none => (false, q)

/-- `pop?` with what the call returns. -/
def poll (q : BoundedQueue α cap) : Option α × BoundedQueue α cap :=
  match q.pop? with
  | some (x, q') => (some x, q')
  | none => (none, q)

def call : (d : End) → d.Arg α → BoundedQueue α cap → d.Ret α × BoundedQueue α cap
  | .push, x, q => q.offer x
  | .pop, _, q => q.poll

variable {q : BoundedQueue α cap} {x : α}

theorem offer_of_some {q' : BoundedQueue α cap} (h : q.push? x = some q') : q.offer x = (true, q') := by
  rw [offer, h]

theorem offer_of_full (h : q.items.length = cap) : q.offer x = (false, q) := by
  rw [offer, push?, dif_neg (by omega)]

/-- A call that pushes is refused by a full queue and by no other. -/
theorem offer_cases (q : BoundedQueue α cap) (x : α) :
    (q.items.length = cap ∧ q.offer x = (false, q)) ∨
    ∃ q', q.items.length < cap ∧ q'.items = q.items ++ [x] ∧ q.offer x = (true, q') := by
  cases h : q.push? x with
  | none =>
    refine Or.inl ⟨?_, by rw [offer, h]⟩
    by_contra hne
    have hlt := Nat.lt_of_le_of_ne q.length_le hne
    rw [push?, dif_pos hlt] at h
    cases h
  | some q' => exact Or.inr ⟨q', (push?_eq_some.mp h).1, (push?_eq_some.mp h).2, offer_of_some h⟩

theorem offer_of_room (h : q.items.length < cap) : ∃ q', q.offer x = (true, q') ∧ q'.items = q.items ++ [x] := by
  rcases offer_cases q x with ⟨hfull, -⟩ | ⟨q', -, hitems, hoffer⟩
  · omega
  · exact ⟨q', hoffer, hitems⟩

theorem poll_of_some {q' : BoundedQueue α cap} (h : q.pop? = some (x, q')) : q.poll = (some x, q') := by
  rw [poll, h]

theorem poll_of_empty (h : q.items = []) : q.poll = (none, q) := by
  rw [poll, pop?_eq_none.mpr h]

/-- A call that pops takes the oldest item, or there is none. -/
theorem poll_cases (q : BoundedQueue α cap) :
    (q.items = [] ∧ q.poll = (none, q)) ∨ ∃ x q', q.items = x :: q'.items ∧ q.poll = (some x, q') := by
  cases h : q.pop? with
  | none => exact Or.inl ⟨pop?_eq_none.mp h, by rw [poll, h]⟩
  | some p => exact Or.inr ⟨p.1, p.2, pop?_eq_some.mp h, by rw [poll, h]⟩

end BoundedQueue

/-- `op s d a` is the next operation of a call at the end `d`, its first one where no call is under way there, with
    what the call returns if it is the last. -/
structure Channel (α : Type) where
  State : Type
  init : State
  op : State → (d : End) → d.Arg α → State × Option (d.Ret α)

namespace Channel

/-- How far a call has come. -/
inductive Call (ι ρ : Type)
  | idle
  /-- Begun, and without effect so far. -/
  | pending (i : ι)
  /-- It had its effect, and will return `r`. -/
  | settled (i : ι) (r : ρ)

namespace Call

variable {ι ρ χ : Type}

/-- The call under way, if any, is the one with argument `i`. -/
def Of (i : ι) : Call ι ρ → Prop
  | idle => True
  | pending j | settled j _ => j = i

/-- No effect so far. -/
def Open : Call ι ρ → Prop
  | idle | pending _ => True
  | settled _ _ => False

@[simp] theorem of_pending {i j : ι} : (pending j : Call ι ρ).Of i ↔ j = i := Iff.rfl

@[simp] theorem of_settled {i j : ι} {r : ρ} : (settled j r).Of i ↔ j = i := Iff.rfl

@[simp] theorem open_idle : (idle : Call ι ρ).Open := trivial

@[simp] theorem open_pending {i : ι} : (pending i : Call ι ρ).Open := trivial

/-- One operation of a call with argument `i` that is to change `x` as `eff` does: from one point of the call to the
    next, with what it returns and what becomes of `x`. -/
inductive Advance (eff : χ → ρ × χ) (i : ι) (x : χ) : Call ι ρ → Option ρ → χ → Call ι ρ → Prop
  | stay {c : Call ι ρ} (h : c.Open) : Advance eff i x c none x (pending i)
  | settle {c : Call ι ρ} (h : c.Open) : Advance eff i x c none (eff x).2 (settled i (eff x).1)
  | commit {c : Call ι ρ} (h : c.Open) : Advance eff i x c (some (eff x).1) (eff x).2 idle
  | wait {r : ρ} : Advance eff i x (settled i r) none x (settled i r)
  | ret {r : ρ} : Advance eff i x (settled i r) (some r) x idle

end Call

variable {α : Type}

/-- The calls under way at the two ends. -/
abbrev Calls (α : Type) : Type := (d : End) → Call (d.Arg α) (d.Ret α)

/-- A bounded queue that the state of a channel stands for, with the calls under way. -/
structure Linearizable (C : Channel α) (cap : Nat) where
  Holds : C.State → BoundedQueue α cap → Calls α → Prop
  init : Holds C.init .empty fun _ => .idle
  op {s : C.State} {q : BoundedQueue α cap} {calls : Calls α} (d : End) (a : d.Arg α) (h : Holds s q calls)
    (ha : (calls d).Of a) : ∃ q' c', Holds (C.op s d a).1 q' (Function.update calls d c') ∧
      (calls d).Advance (BoundedQueue.call d a) a q (C.op s d a).2 q' c'

/-- Each call ends within `n` operations of its own, whatever the other end does: `left` bounds the operations to
    come. -/
structure WaitFree (C : Channel α) (n : Nat) where
  left : C.State → End → Nat
  left_pos (s : C.State) (d : End) : 0 < left s d
  left_le (s : C.State) (d : End) : left s d ≤ n
  op {s : C.State} {d : End} {a : d.Arg α} (h : (C.op s d a).2 = none) : left (C.op s d a).1 d < left s d
  other {s : C.State} {d d' : End} (a : d.Arg α) (h : d' ≠ d) : left (C.op s d a).1 d' = left s d'

end Channel
