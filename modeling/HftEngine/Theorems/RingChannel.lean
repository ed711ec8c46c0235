import HftEngine.Theorems.SpscQueue

/-! The ring is a linearizable channel, and a wait-free one. A call that succeeds works on the queue where it stores its
    position, a call that fails where it reads the other thread's position again. -/

namespace Hft.SpscQueue.System

open Channel (End Call Calls)
open Positions

variable {α : Type} {cap : Capacity} {s t : System α cap} {q : BoundedQueue α cap.val.toNat} {seenC seenP : Nat}

/-! ### The calls under way -/

/-- How far the call of the producer has come; after the second load it is settled whether the queue is full. -/
def pushCall (s : System α cap) : Call α Bool :=
  match s.producer with
  | .idle => .idle
  | .compare v _ | .refresh v _ | .write v _ | .publish v _ => .pending v
  | .recheck v prod _ => if prod - s.queue.cachedConsumerPos ≥ cap.val then .settled v false else .pending v

def popCall (s : System α cap) : Call Unit (Option α) :=
  match s.consumer with
  | .idle => .idle
  | .compare _ | .refresh _ | .read _ | .release _ _ => .pending ()
  | .recheck cons _ => if cons = s.queue.cachedProducerPos then .settled () none else .pending ()

def calls (s : System α cap) : Calls α
  | .push => s.pushCall
  | .pop => s.popCall

/-- The queue that a ring stands for. -/
structure Stands (s : System α cap) (q : BoundedQueue α cap.val.toNat) (c : Calls α) : Prop where
  inv : Inv s
  holds : s.Holds q
  calls : c = s.calls

theorem calls_of_push {c : Call α Bool} (hc : c = t.pushCall) (ht : t.popCall = s.popCall) :
    Function.update s.calls .push c = t.calls := by
  funext d
  cases d with
  | push => exact (Function.update_self ..).trans hc
  | pop => exact (Function.update_of_ne (by decide) ..).trans ht.symm

theorem calls_of_pop {c : Call Unit (Option α)} (hc : c = t.popCall) (ht : t.pushCall = s.pushCall) :
    Function.update s.calls .pop c = t.calls := by
  funext d
  cases d with
  | push => exact (Function.update_of_ne (by decide) ..).trans ht.symm
  | pop => exact (Function.update_self ..).trans hc

theorem items_length (hq : s.Holds q) : s.pushed.length = s.popped.length + q.items.length := by
  rw [hq, List.length_append]

/-- The queue is full when the producer finds it full at the position that the consumer has now. -/
theorem Inv.items_full {v : α} {prod : UInt64} (h : Inv s) (hq : s.Holds q) (hpc : s.producer = .refresh v prod)
    (hfull : prod - s.queue.consumerPos ≥ cap.val) : q.items.length = cap.val.toNat := by
  obtain ⟨seenC, seenP, h⟩ := h
  have hp := h.producer
  rw [hpc] at hp
  obtain rfl := hp
  have hlen := items_length hq
  have hlt := cap.val.toNat_lt
  have hle := q.length_le
  rw [ge_iff_le, h.consumerPos, UInt64.le_iff_toNat_le, toNat_sub (by omega) (by omega)] at hfull
  omega

/-- It is empty when the consumer finds it empty at the position that the producer has now. -/
theorem Inv.items_nil {cons : UInt64} (h : Inv s) (hq : s.Holds q) (hpc : s.consumer = .refresh cons)
    (hempty : cons = s.queue.producerPos) : q.items = [] := by
  obtain ⟨seenC, seenP, h⟩ := h
  have hc := h.consumer
  rw [hpc] at hc
  obtain rfl := hc
  have hlen := items_length hq
  have hlt := cap.val.toNat_lt
  have hle := q.length_le
  rw [h.producerPos, Positions.inj (by omega) (by omega)] at hempty
  exact List.length_eq_zero_iff.mp (by omega)

/-! ### One operation -/

section Operations
variable {v v' : α} {prod cons : UInt64} {stored : Nat} {out : α}

theorem op_push_idle (hpc : s.producer = .idle) :
    s.op .push v = ({ s with producer := .compare v s.queue.producerPos }, none) := by
  simp only [op, next?, hpc]
  rfl

theorem op_push_compare (hpc : s.producer = .compare v' prod) :
    s.op .push v = ({ s with
      producer := if prod - s.queue.cachedConsumerPos ≥ cap.val then .refresh v' prod else .write v' prod }, none) := by
  simp only [op, next?, producerStep, hpc]
  split <;> rfl

theorem op_push_refresh (hpc : s.producer = .refresh v' prod) :
    s.op .push v = ({ s with
      queue.cachedConsumerPos := s.queue.consumerPos, producer := .recheck v' prod s.stored }, none) := by
  simp only [op, next?, producerStep, hpc]
  rfl

theorem op_push_recheck (hpc : s.producer = .recheck v' prod stored) :
    s.op .push v =
      if prod - s.queue.cachedConsumerPos ≥ cap.val then
        ({ s with producer := .idle, fullAt := s.fullAt ++ [stored] }, some false)
      else ({ s with producer := .write v' prod }, none) := by
  simp only [op, next?, producerStep, hpc]
  split <;> rfl

theorem op_push_write (hpc : s.producer = .write v' prod) :
    s.op .push v = ({ s with
      queue.buf := s.queue.buf.set (cap.slot prod) v' (cap.slot prod).isLt, producer := .publish v' prod }, none) := by
  simp only [op, next?, producerStep, hpc]
  rfl

theorem op_push_publish (hpc : s.producer = .publish v' prod) :
    s.op .push v = ({ s with
      queue.producerPos := prod + 1, producer := .idle, pushed := s.pushed ++ [v'] }, some true) := by
  simp only [op, next?, producerStep, hpc]
  rfl

theorem op_pop_idle (hpc : s.consumer = .idle) :
    s.op .pop () = ({ s with consumer := .compare s.queue.consumerPos }, none) := by
  simp only [op, next?, hpc]
  rfl

theorem op_pop_compare (hpc : s.consumer = .compare cons) :
    s.op .pop () = ({ s with
      consumer := if cons = s.queue.cachedProducerPos then .refresh cons else .read cons }, none) := by
  simp only [op, next?, consumerStep, hpc]
  split <;> rfl

theorem op_pop_refresh (hpc : s.consumer = .refresh cons) :
    s.op .pop () = ({ s with
      queue.cachedProducerPos := s.queue.producerPos, consumer := .recheck cons s.stored }, none) := by
  simp only [op, next?, consumerStep, hpc]
  rfl

theorem op_pop_recheck (hpc : s.consumer = .recheck cons stored) :
    s.op .pop () =
      if cons = s.queue.cachedProducerPos then
        ({ s with consumer := .idle, emptyAt := s.emptyAt ++ [stored] }, some none)
      else ({ s with consumer := .read cons }, none) := by
  simp only [op, next?, consumerStep, hpc]
  split <;> rfl

theorem op_pop_read (hpc : s.consumer = .read cons) :
    s.op .pop () = ({ s with consumer := .release cons (s.queue.buf.get (cap.slot cons)) }, none) := by
  simp only [op, next?, consumerStep, hpc]
  rfl

theorem op_pop_release (hpc : s.consumer = .release cons out) :
    s.op .pop () = ({ s with
      queue.consumerPos := cons + 1, consumer := .idle, popped := s.popped ++ [out] }, some (some out)) := by
  simp only [op, next?, consumerStep, hpc]
  rfl

/-- The operation of a call is a step of the ring. -/
theorem step_op_push (s : System α cap) (v : α) : ∃ a, s.Step a (s.op .push v).1 := by
  cases hpc : s.producer with
  | idle => exact ⟨.push v, by simp [Step, op, next?, hpc]⟩
  | compare | recheck =>
    refine ⟨.producer, ?_⟩
    simp only [Step, op, next?, producerStep, hpc]
    split <;> rfl
  | refresh | write | publish => exact ⟨.producer, by simp [Step, op, next?, producerStep, hpc]⟩

theorem step_op_pop (s : System α cap) : ∃ a, s.Step a (s.op .pop ()).1 := by
  cases hpc : s.consumer with
  | idle => exact ⟨.pop, by simp [Step, op, next?, hpc]⟩
  | compare | recheck =>
    refine ⟨.consumer, ?_⟩
    simp only [Step, op, next?, consumerStep, hpc]
    split <;> rfl
  | refresh | read | release => exact ⟨.consumer, by simp [Step, op, next?, consumerStep, hpc]⟩

theorem Inv.op_push (h : Inv s) (v : α) : Inv (s.op .push v).1 := by
  obtain ⟨a, hs⟩ := step_op_push s v
  exact h.step hs

theorem Inv.op_pop (h : Inv s) : Inv (s.op .pop ()).1 := by
  obtain ⟨a, hs⟩ := step_op_pop s
  exact h.step hs

end Operations

/-! ### A push -/

/-- An operation of a push that leaves it without effect. -/
theorem stay_push {v : α} (hi : Inv s) (hq : s.Holds q) (hop : s.op .push v = (t, none))
    (hpushed : t.pushed = s.pushed) (hpopped : t.popped = s.popped) (hother : t.popCall = s.popCall)
    (ho : s.pushCall.Open) (hc : t.pushCall = .pending v) :
    ∃ q' c', Stands (s.op .push v).1 q' (Function.update s.calls .push c') ∧
      s.pushCall.Advance (BoundedQueue.call .push v) v q (s.op .push v).2 q' c' := by
  have hi' := hi.op_push v
  rw [hop] at hi' ⊢
  exact ⟨q, .pending v, ⟨hi', holds_of_eq hq hpushed hpopped, calls_of_push hc.symm hother⟩, .stay ho⟩

theorem Stands.push {c : Calls α} {v : α} (h : Stands s q c) (hv : (c .push).Of v) :
    ∃ q' c', Stands (s.op .push v).1 q' (Function.update c .push c') ∧
      (c .push).Advance (BoundedQueue.call .push v) v q (s.op .push v).2 q' c' := by
  obtain ⟨hi, hq, rfl⟩ := h
  replace hv : s.pushCall.Of v := hv
  have hi' := hi.op_push v
  cases hpc : s.producer with
  | idle => exact stay_push hi hq (op_push_idle hpc) rfl rfl rfl (by simp [pushCall, hpc]) rfl
  | compare v' prod =>
    obtain rfl : v' = v := by simpa [pushCall, hpc] using hv
    refine stay_push hi hq (op_push_compare hpc) rfl rfl rfl (by simp [pushCall, hpc]) ?_
    unfold pushCall
    split_ifs <;> rfl
  | refresh v' prod =>
    obtain rfl : v' = v := by simpa [pushCall, hpc] using hv
    have ho : s.pushCall.Open := by simp [pushCall, hpc]
    by_cases hfull : prod - s.queue.consumerPos ≥ cap.val
    · -- The ring is full now, whatever happens before the call returns.
      have hcall : Call.settled v' false = ({ s with
          queue.cachedConsumerPos := s.queue.consumerPos, producer := .recheck v' prod s.stored } :
            System α cap).pushCall := by
        simp only [pushCall, hfull, if_true]
      have hoffer := BoundedQueue.offer_of_full (x := v') (hi.items_full hq hpc hfull)
      rw [op_push_refresh hpc] at hi' ⊢
      refine ⟨(q.offer v').2, .settled v' (q.offer v').1, ?_, .settle ho⟩
      rw [hoffer]
      exact ⟨hi', hq, calls_of_push hcall rfl⟩
    · refine stay_push hi hq (op_push_refresh hpc) rfl rfl rfl ho ?_
      simp only [pushCall, hfull, if_false]
  | recheck v' prod stored =>
    have hcall :
        s.pushCall = if prod - s.queue.cachedConsumerPos ≥ cap.val then .settled v' false else .pending v' := by
      simp only [pushCall, hpc]
    have hop := op_push_recheck (v := v) hpc
    by_cases hfull : prod - s.queue.cachedConsumerPos ≥ cap.val
    · rw [if_pos hfull] at hcall hop
      obtain rfl : v' = v := by simpa [hcall] using hv
      change ∃ q' c', _ ∧ s.pushCall.Advance _ _ _ _ _ _
      rw [hop] at hi' ⊢
      rw [hcall]
      exact ⟨q, .idle, ⟨hi', hq, calls_of_push rfl rfl⟩, .ret⟩
    · rw [if_neg hfull] at hcall hop
      obtain rfl : v' = v := by simpa [hcall] using hv
      exact stay_push hi hq hop rfl rfl rfl (by simp [hcall]) rfl
  | write v' prod =>
    obtain rfl : v' = v := by simpa [pushCall, hpc] using hv
    exact stay_push hi hq (op_push_write hpc) rfl rfl rfl (by simp [pushCall, hpc]) rfl
  | publish v' prod =>
    obtain rfl : v' = v := by simpa [pushCall, hpc] using hv
    have ho : s.pushCall.Open := by simp [pushCall, hpc]
    have hop := op_push_publish (v := v') hpc
    obtain ⟨seenC, seenP, hi⟩ := hi
    obtain ⟨q', hq', hpush⟩ := hi.publish_push (t := (s.op .push v').1) hq hpc (by rw [hop]) (by rw [hop])
    have hoffer := BoundedQueue.offer_of_some hpush
    rw [hop] at hi' hq' ⊢
    have hcommit : s.pushCall.Advance (BoundedQueue.call .push v') v' q (some (q.offer v').1) (q.offer v').2 .idle :=
      .commit ho
    rw [hoffer] at hcommit
    exact ⟨q', .idle, ⟨hi', hq', calls_of_push rfl rfl⟩, hcommit⟩

/-! ### A pop -/

theorem stay_pop (hi : Inv s) (hq : s.Holds q) (hop : s.op .pop () = (t, none)) (hpushed : t.pushed = s.pushed)
    (hpopped : t.popped = s.popped) (hother : t.pushCall = s.pushCall) (ho : s.popCall.Open)
    (hc : t.popCall = .pending ()) :
    ∃ q' c', Stands (s.op .pop ()).1 q' (Function.update s.calls .pop c') ∧
      s.popCall.Advance BoundedQueue.poll () q (s.op .pop ()).2 q' c' := by
  have hi' := hi.op_pop
  rw [hop] at hi' ⊢
  exact ⟨q, .pending (), ⟨hi', holds_of_eq hq hpushed hpopped, calls_of_pop hc.symm hother⟩, .stay ho⟩

theorem Stands.pop {c : Calls α} (h : Stands s q c) :
    ∃ q' c', Stands (s.op .pop ()).1 q' (Function.update c .pop c') ∧
      (c .pop).Advance (BoundedQueue.call .pop ()) () q (s.op .pop ()).2 q' c' := by
  obtain ⟨hi, hq, rfl⟩ := h
  change ∃ q' c', _ ∧ s.popCall.Advance BoundedQueue.poll () q (s.op .pop ()).2 q' c'
  have hi' := hi.op_pop
  cases hpc : s.consumer with
  | idle => exact stay_pop hi hq (op_pop_idle hpc) rfl rfl rfl (by simp [popCall, hpc]) rfl
  | compare cons =>
    refine stay_pop hi hq (op_pop_compare hpc) rfl rfl rfl (by simp [popCall, hpc]) ?_
    unfold popCall
    split_ifs <;> rfl
  | refresh cons =>
    have ho : s.popCall.Open := by simp [popCall, hpc]
    by_cases hempty : cons = s.queue.producerPos
    · -- The ring is empty now, whatever happens before the call returns.
      have hcall : Call.settled () none = ({ s with
          queue.cachedProducerPos := s.queue.producerPos, consumer := .recheck cons s.stored } :
            System α cap).popCall := by
        simp only [popCall, hempty, if_true]
      have hpoll := BoundedQueue.poll_of_empty (hi.items_nil hq hpc hempty)
      rw [op_pop_refresh hpc] at hi' ⊢
      refine ⟨q.poll.2, .settled () q.poll.1, ?_, .settle ho⟩
      rw [hpoll]
      exact ⟨hi', hq, calls_of_pop hcall rfl⟩
    · refine stay_pop hi hq (op_pop_refresh hpc) rfl rfl rfl ho ?_
      simp only [popCall, hempty, if_false]
  | recheck cons stored =>
    have hcall : s.popCall = if cons = s.queue.cachedProducerPos then .settled () none else .pending () := by
      simp only [popCall, hpc]
    have hop := op_pop_recheck hpc
    by_cases hempty : cons = s.queue.cachedProducerPos
    · rw [if_pos hempty] at hcall hop
      rw [hop] at hi' ⊢
      rw [hcall]
      exact ⟨q, .idle, ⟨hi', hq, calls_of_pop rfl rfl⟩, .ret⟩
    · rw [if_neg hempty] at hcall hop
      exact stay_pop hi hq hop rfl rfl rfl (by simp [hcall]) rfl
  | read cons => exact stay_pop hi hq (op_pop_read hpc) rfl rfl rfl (by simp [popCall, hpc]) rfl
  | release cons out =>
    have ho : s.popCall.Open := by simp [popCall, hpc]
    have hop := op_pop_release hpc
    obtain ⟨seenC, seenP, hi⟩ := hi
    obtain ⟨q', hq', hpop⟩ := hi.release_pop (t := (s.op .pop ()).1) hq hpc (by rw [hop]) (by rw [hop])
    have hpoll := BoundedQueue.poll_of_some hpop
    rw [hop] at hi' hq' ⊢
    have hcommit : s.popCall.Advance BoundedQueue.poll () q (some q.poll.1) q.poll.2 .idle := .commit ho
    rw [hpoll] at hcommit
    exact ⟨q', .idle, ⟨hi', hq', calls_of_pop rfl rfl⟩, hcommit⟩

/-! ### The effect of one operation -/

theorem pushCall_ne {i : α} {r : Bool} (h : s.pushCall = .settled i r) : r = false := by
  unfold pushCall at h
  split at h
  case h_6 =>
    split at h <;> cases h
    rfl
  all_goals cases h

theorem popCall_ne {i : Unit} {r : Option α} (h : s.popCall = .settled i r) : r = none := by
  unfold popCall at h
  split at h
  case h_6 =>
    split at h <;> cases h
    rfl
  all_goals cases h

/-- The queue changes where a push returns true, and nowhere else. -/
theorem push_effect {v : α} (hi : Inv s) (hq : s.Holds q) (hv : s.pushCall.Of v) :
    (s.op .push v).2 ≠ some true ∧ (s.op .push v).1.Holds q ∨
    (s.op .push v).2 = some true ∧ ∃ q', (s.op .push v).1.Holds q' ∧ q'.items = q.items ++ [v] := by
  have hst : Stands s q s.calls := ⟨hi, hq, rfl⟩
  obtain ⟨q', c', ht, adv⟩ := hst.push (v := v) hv
  have hcalls := congrFun ht.calls .push
  rw [Function.update_self] at hcalls
  replace hcalls : c' = (s.op .push v).1.pushCall := hcalls
  replace adv : s.pushCall.Advance (BoundedQueue.offer v) v q (s.op .push v).2 q' c' := adv
  generalize (s.op .push v).2 = res at adv ⊢
  generalize hcall : s.pushCall = call at adv
  cases adv with
  | stay | wait => exact Or.inl ⟨nofun, ht.holds⟩
  | settle ho =>
    refine Or.inl ⟨nofun, ?_⟩
    have hfalse := pushCall_ne hcalls.symm
    rcases BoundedQueue.offer_cases q v with ⟨-, hoffer⟩ | ⟨q₁, -, -, hoffer⟩
    · rw [show q = (q.offer v).2 by rw [hoffer]]
      exact ht.holds
    · rw [hoffer] at hfalse
      cases hfalse
  | commit ho =>
    have hholds := ht.holds
    rcases BoundedQueue.offer_cases q v with ⟨-, hoffer⟩ | ⟨q₁, -, hitems, hoffer⟩
    · rw [hoffer] at hholds ⊢
      exact Or.inl ⟨fun h => (by cases h), hholds⟩
    · rw [hoffer] at hholds ⊢
      exact Or.inr ⟨rfl, q₁, hholds, hitems⟩
  | ret =>
    obtain rfl := pushCall_ne hcall
    exact Or.inl ⟨fun h => (by cases h), ht.holds⟩

/-- The queue changes where a pop returns a value, and nowhere else. -/
theorem pop_effect (hi : Inv s) (hq : s.Holds q) :
    (∀ x, (s.op .pop ()).2 ≠ some (some x)) ∧ (s.op .pop ()).1.Holds q ∨
    ∃ x q', (s.op .pop ()).2 = some (some x) ∧ (s.op .pop ()).1.Holds q' ∧ q.items = x :: q'.items := by
  have hst : Stands s q s.calls := ⟨hi, hq, rfl⟩
  obtain ⟨q', c', ht, adv⟩ := hst.pop
  have hcalls := congrFun ht.calls .pop
  rw [Function.update_self] at hcalls
  replace hcalls : c' = (s.op .pop ()).1.popCall := hcalls
  replace adv : s.popCall.Advance BoundedQueue.poll () q (s.op .pop ()).2 q' c' := adv
  generalize (s.op .pop ()).2 = res at adv ⊢
  generalize hcall : s.popCall = call at adv
  cases adv with
  | stay | wait => exact Or.inl ⟨nofun, ht.holds⟩
  | settle ho =>
    refine Or.inl ⟨nofun, ?_⟩
    have hnone := popCall_ne hcalls.symm
    rcases BoundedQueue.poll_cases q with ⟨-, hpoll⟩ | ⟨x, q₁, -, hpoll⟩
    · rw [show q = q.poll.2 by rw [hpoll]]
      exact ht.holds
    · rw [hpoll] at hnone
      cases hnone
  | commit ho =>
    have hholds := ht.holds
    rcases BoundedQueue.poll_cases q with ⟨-, hpoll⟩ | ⟨x, q₁, hitems, hpoll⟩
    · rw [hpoll] at hholds ⊢
      exact Or.inl ⟨fun _ h => (by cases h), hholds⟩
    · rw [hpoll] at hholds ⊢
      exact Or.inr ⟨x, q₁, rfl, hholds, hitems⟩
  | ret =>
    obtain rfl := popCall_ne hcall
    exact Or.inl ⟨fun _ h => (by cases h), ht.holds⟩

theorem Stands.init (default : α) : Stands (init default : System α cap) .empty fun _ => .idle where
  inv := ⟨0, 0, init_inv default⟩
  holds := rfl
  calls := by
    funext d
    cases d <;> rfl

end Hft.SpscQueue.System

namespace Hft.SpscQueue

open Channel (End)
open SpscQueue.System

variable {α : Type}

/-- The operations of a push to come. -/
def ProducerPc.left : ProducerPc α → Nat
  | .idle => 6
  | .compare _ _ => 5
  | .refresh _ _ => 4
  | .recheck _ _ _ => 3
  | .write _ _ => 2
  | .publish _ _ => 1

def ConsumerPc.left : ConsumerPc α → Nat
  | .idle => 6
  | .compare _ => 5
  | .refresh _ => 4
  | .recheck _ _ => 3
  | .read _ => 2
  | .release _ _ => 1

/-- The ring behaves as a bounded queue, each call at one moment between its first operation and its last. -/
def linearizable (cap : Capacity) (default : α) : (channel cap default).Linearizable cap.val.toNat where
  Holds := Stands
  init := Stands.init default
  op d _ h ha := match d with
    | .push => h.push ha
    | .pop => h.pop

/-- What the operation of a push does to the place of the producer. -/
theorem left_push {cap : Capacity} (s : System α cap) (v : α) :
    (s.op .push v).1.consumer = s.consumer ∧
    ((s.op .push v).2 = none → (s.op .push v).1.producer.left < s.producer.left) := by
  cases hpc : s.producer with
  | idle => simp [op_push_idle hpc, ProducerPc.left]
  | compare =>
    rw [op_push_compare hpc]
    split_ifs <;> simp [ProducerPc.left]
  | refresh => simp [op_push_refresh hpc, ProducerPc.left]
  | recheck =>
    rw [op_push_recheck hpc]
    split_ifs <;> simp [ProducerPc.left]
  | write => simp [op_push_write hpc, ProducerPc.left]
  | publish => simp [op_push_publish hpc]

theorem left_pop {cap : Capacity} (s : System α cap) :
    (s.op .pop ()).1.producer = s.producer ∧
    ((s.op .pop ()).2 = none → (s.op .pop ()).1.consumer.left < s.consumer.left) := by
  cases hpc : s.consumer with
  | idle => simp [op_pop_idle hpc, ConsumerPc.left]
  | compare =>
    rw [op_pop_compare hpc]
    split_ifs <;> simp [ConsumerPc.left]
  | refresh => simp [op_pop_refresh hpc, ConsumerPc.left]
  | recheck =>
    rw [op_pop_recheck hpc]
    split_ifs <;> simp [ConsumerPc.left]
  | read => simp [op_pop_read hpc, ConsumerPc.left]
  | release => simp [op_pop_release hpc]

/-- A push that fails is one more on the log of the pushes that failed, and no other operation is. -/
theorem fullAt_push {cap : Capacity} (s : System α cap) (v : α) :
    (s.op .push v).1.fullAt = s.fullAt ∧ (s.op .push v).2 ≠ some false ∨
      ∃ n, (s.op .push v).1.fullAt = s.fullAt ++ [n] ∧ (s.op .push v).2 = some false := by
  cases hpc : s.producer with
  | idle =>
    rw [op_push_idle hpc]
    exact Or.inl ⟨rfl, fun h => by cases h⟩
  | compare =>
    rw [op_push_compare hpc]
    exact Or.inl ⟨rfl, fun h => by cases h⟩
  | refresh =>
    rw [op_push_refresh hpc]
    exact Or.inl ⟨rfl, fun h => by cases h⟩
  | recheck v' prod stored =>
    rw [op_push_recheck hpc]
    split_ifs
    · exact Or.inr ⟨stored, rfl, rfl⟩
    · exact Or.inl ⟨rfl, fun h => by cases h⟩
  | write =>
    rw [op_push_write hpc]
    exact Or.inl ⟨rfl, fun h => by cases h⟩
  | publish =>
    rw [op_push_publish hpc]
    exact Or.inl ⟨rfl, fun h => by cases h⟩

theorem fullAt_pop {cap : Capacity} (s : System α cap) : (s.op .pop ()).1.fullAt = s.fullAt := by
  cases hpc : s.consumer with
  | idle => simp [op_pop_idle hpc]
  | compare => simp [op_pop_compare hpc]
  | refresh => simp [op_pop_refresh hpc]
  | recheck =>
    rw [op_pop_recheck hpc]
    split_ifs <;> rfl
  | read => simp [op_pop_read hpc]
  | release => simp [op_pop_release hpc]

/-- Neither thread waits for the other: a call is six operations at most. -/
def waitFree (cap : Capacity) (default : α) : (channel cap default).WaitFree 6 where
  left (s : System α cap) d := match d with
    | .push => s.producer.left
    | .pop => s.consumer.left
  left_pos (s : System α cap) d := by
    cases d with
    | push => cases s.producer <;> simp [ProducerPc.left]
    | pop => cases s.consumer <;> simp [ConsumerPc.left]
  left_le (s : System α cap) d := by
    cases d with
    | push => cases s.producer <;> simp [ProducerPc.left]
    | pop => cases s.consumer <;> simp [ConsumerPc.left]
  op {s d a} h := by
    cases d with
    | push => exact (left_push s a).2 h
    | pop => exact (left_pop s).2 h
  other {s d d'} a h := by
    cases d with
    | push =>
      cases d' with
      | push => exact absurd rfl h
      | pop => exact congrArg ConsumerPc.left (left_push s a).1
    | pop =>
      cases d' with
      | push => exact congrArg ProducerPc.left (left_pop s).1
      | pop => exact absurd rfl h

end Hft.SpscQueue
