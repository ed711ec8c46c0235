import Mathlib.Data.List.Basic

/-! A first-in first-out queue that holds at most `cap` items. -/

structure BoundedQueue (α : Type) (cap : Nat) where
  items : List α
  length_le : items.length ≤ cap

namespace BoundedQueue

variable {α : Type} {cap : Nat}

def empty : BoundedQueue α cap := ⟨[], Nat.zero_le _⟩

/-- Appends `x`, or refuses when the queue is full. -/
def push? (q : BoundedQueue α cap) (x : α) : Option (BoundedQueue α cap) :=
  if h : q.items.length < cap then some ⟨q.items ++ [x], by simpa using Nat.succ_le_of_lt h⟩ else none

def pop? (q : BoundedQueue α cap) : Option (α × BoundedQueue α cap) :=
  match q with
  | ⟨[], _⟩ => none
  | ⟨x :: xs, h⟩ => some (x, ⟨xs, Nat.le_of_succ_le h⟩)

@[ext] theorem ext {q r : BoundedQueue α cap} (h : q.items = r.items) : q = r := by
  cases q
  cases r
  cases h
  rfl

theorem push?_eq_some {q r : BoundedQueue α cap} {x : α} :
    q.push? x = some r ↔ q.items.length < cap ∧ r.items = q.items ++ [x] := by
  unfold push?
  split
  · next hlt => simp [hlt, BoundedQueue.ext_iff, eq_comm]
  · next hge => simp [hge]

theorem pop?_eq_some {q r : BoundedQueue α cap} {x : α} :
    q.pop? = some (x, r) ↔ q.items = x :: r.items := by
  obtain ⟨items, h⟩ := q
  cases items <;> simp [pop?, BoundedQueue.ext_iff]

theorem pop?_eq_none {q : BoundedQueue α cap} : q.pop? = none ↔ q.items = [] := by
  obtain ⟨items, h⟩ := q
  cases items <;> simp [pop?]

/-- A queue with no item accepts one, whatever its capacity. -/
theorem push?_of_nil {q : BoundedQueue α cap} (hcap : 0 < cap) (hq : q.items = []) (x : α) :
    ∃ r, q.push? x = some r ∧ r.items = [x] :=
  ⟨⟨[x], hcap⟩, push?_eq_some.mpr ⟨by simpa [hq] using hcap, by simp [hq]⟩, rfl⟩

end BoundedQueue
