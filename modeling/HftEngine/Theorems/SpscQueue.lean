import HftEngine.SpscQueue
import HftEngine.Lib.Transition

/-! The ring refines a bounded first-in first-out queue under every interleaving of its two threads. The two stale
    snapshots are counts that lag behind the true ones, and every slot between the counts holds its value. -/

namespace Hft.SpscQueue.System

open Transition Positions

variable {α : Type} {cap : Capacity} {s t : System α cap} {seenC seenP : Nat}

/-! ### The invariant -/

/-- What a producer knows at each point of a push: its own count, and after the test that the slot of that count is
    free. `seenC` is the consumer count in its cache. -/
def ProducerOk (s : System α cap) (seenC : Nat) : ProducerPc α → Prop
  | .idle => True
  | .compare _ prod | .refresh _ prod => prod = ofCount s.pushed.length
  | .recheck _ prod stored => prod = ofCount s.pushed.length ∧ stored = s.pushed.length - seenC
  | .write _ prod => prod = ofCount s.pushed.length ∧ s.pushed.length < seenC + cap.val.toNat
  | .publish v prod => prod = ofCount s.pushed.length ∧ s.pushed.length < seenC + cap.val.toNat ∧
      s.queue.buf.get (cap.slot prod) = v

/-- What a consumer knows at each point of a pop. `seenP` is the producer count in its cache. -/
def ConsumerOk (s : System α cap) (seenP : Nat) : ConsumerPc α → Prop
  | .idle => True
  | .compare cons | .refresh cons => cons = ofCount s.popped.length
  | .recheck cons stored => cons = ofCount s.popped.length ∧ stored = seenP - s.popped.length
  | .read cons => cons = ofCount s.popped.length ∧ s.popped.length < seenP
  | .release cons out => cons = ofCount s.popped.length ∧ s.popped.length < seenP ∧
      s.pushed[s.popped.length]? = some out

/-- The invariant, at the counts in the two caches. -/
structure InvAt (s : System α cap) (seenC seenP : Nat) : Prop where
  producerPos : s.queue.producerPos = ofCount s.pushed.length
  consumerPos : s.queue.consumerPos = ofCount s.popped.length
  cachedConsumer : s.queue.cachedConsumerPos = ofCount seenC
  cachedProducer : s.queue.cachedProducerPos = ofCount seenP
  seenC_le : seenC ≤ s.popped.length
  room : s.pushed.length ≤ seenC + cap.val.toNat
  popped_le : s.popped.length ≤ seenP
  seenP_le : seenP ≤ s.pushed.length
  order : s.popped <+: s.pushed
  slots : ∀ j, s.popped.length ≤ j → j < s.pushed.length →
    s.pushed[j]? = some (s.queue.buf.get (cap.slot (ofCount j)))
  producer : ProducerOk s seenC s.producer
  consumer : ConsumerOk s seenP s.consumer
  full : ∀ k ∈ s.fullAt, k = cap.val.toNat
  empty : ∀ k ∈ s.emptyAt, k = 0

theorem init_inv (default : α) : InvAt (init default : System α cap) 0 0 where
  producerPos := rfl
  consumerPos := rfl
  cachedConsumer := rfl
  cachedProducer := rfl
  seenC_le := Nat.le_refl _
  room := Nat.zero_le _
  popped_le := Nat.le_refl _
  seenP_le := Nat.le_refl _
  order := List.nil_prefix
  slots _ _ h := absurd h (Nat.not_lt_zero _)
  producer := trivial
  consumer := trivial
  full _ h := by simp [init] at h
  empty _ h := by simp [init] at h

/-! ### The tests on cached positions -/

/-- The full test compares true counts, whatever the wrap. -/
theorem InvAt.full_iff (h : InvAt s seenC seenP) :
    cap.val ≤ ofCount s.pushed.length - s.queue.cachedConsumerPos ↔ cap.val.toNat ≤ s.pushed.length - seenC := by
  have hlt := cap.val.toNat_lt
  have := h.room
  have := h.seenC_le
  have := h.popped_le
  have := h.seenP_le
  rw [h.cachedConsumer, UInt64.le_iff_toNat_le, toNat_sub (by omega) (by omega)]

/-- The empty test compares true counts, whatever the wrap. -/
theorem InvAt.empty_iff (h : InvAt s seenC seenP) :
    ofCount s.popped.length = s.queue.cachedProducerPos ↔ s.popped.length = seenP := by
  have hlt := cap.val.toNat_lt
  have := h.room
  have := h.seenC_le
  have := h.seenP_le
  rw [h.cachedProducer, Positions.inj h.popped_le (by omega)]

theorem slot_ne {a b : Nat} (hlt : a < b) (hclose : b - a < cap.val.toNat) :
    cap.slot (ofCount a) ≠ cap.slot (ofCount b) := by
  intro heq
  have hmod := congrArg Fin.val heq
  rw [TableSize.slot_ofCount, TableSize.slot_ofCount] at hmod
  exact mod_ne hlt hclose hmod

theorem InvAt.slot_free (h : InvAt s seenC seenP) (hroom : s.pushed.length < seenC + cap.val.toNat) {j : Nat}
    (hj : s.popped.length ≤ j) (hj' : j < s.pushed.length) :
    cap.slot (ofCount j) ≠ cap.slot (ofCount s.pushed.length) := by
  have := h.seenC_le
  exact slot_ne hj' (by omega)

/-! ### One operation -/

theorem getElem?_concat {l : List α} {v x : α} {j : Nat} (h : l[j]? = some x) : (l ++ [v])[j]? = some x := by
  obtain ⟨hj, -⟩ := List.getElem?_eq_some_iff.mp h
  rw [List.getElem?_append_left hj, h]

theorem ConsumerOk.pushed {v : α} {pc : ConsumerPc α} {pos : UInt64} {p : ProducerPc α} (h : ConsumerOk s seenP pc) :
    ConsumerOk { s with queue.producerPos := pos, producer := p, pushed := s.pushed ++ [v] } seenP pc := by
  cases pc with
  | release cons out => exact ⟨h.1, h.2.1, getElem?_concat h.2.2⟩
  | idle | compare | refresh | recheck | read => exact h

theorem InvAt.write {v : α} (h : InvAt s seenC seenP) (hroom : s.pushed.length < seenC + cap.val.toNat) :
    let i := cap.slot (ofCount s.pushed.length)
    InvAt { s with queue.buf := s.queue.buf.set i v i.isLt, producer := .publish v (ofCount s.pushed.length) }
      seenC seenP := by
  refine { h with slots := fun j hj hj' => ?_, producer := ⟨rfl, hroom, Table.get_set_self⟩ }
  rw [Table.get_set_ne (h.slot_free hroom hj hj').symm]
  exact h.slots j hj hj'

/-- The release store publishes the written slot as the next count. -/
theorem InvAt.publish {v : α} (h : InvAt s seenC seenP) (hroom : s.pushed.length < seenC + cap.val.toNat)
    (hslot : s.queue.buf.get (cap.slot (ofCount s.pushed.length)) = v) :
    InvAt { s with
      queue.producerPos := ofCount s.pushed.length + 1, producer := .idle, pushed := s.pushed ++ [v] }
      seenC seenP := by
  have hlen : (s.pushed ++ [v]).length = s.pushed.length + 1 := by simp
  have hseen := h.seenP_le
  refine { h with
    producerPos := by rw [succ, hlen]
    room := by rw [hlen]; omega
    seenP_le := by rw [hlen]; omega
    order := h.order.trans (List.prefix_append _ _)
    slots := fun j hj hj' => ?_
    producer := trivial
    consumer := h.consumer.pushed }
  rcases Nat.lt_succ_iff_lt_or_eq.mp (hlen ▸ hj') with hlt | rfl
  · exact getElem?_concat (h.slots j hj hlt)
  · rw [hslot]
    exact List.getElem?_concat_length

theorem InvAt.producerStep (h : InvAt s seenC seenP) (hs : s.producerStep = some t) :
    ∃ seenC', InvAt t seenC' seenP := by
  have hp := h.producer
  have hroom := h.room
  have hseen := h.seenC_le
  unfold System.producerStep at hs
  split at hs
  · cases hs
  · next v prod hpc =>
    rw [hpc] at hp
    obtain rfl := hp
    split at hs
    · cases hs
      exact ⟨seenC, { h with producer := rfl }⟩
    · next hfull =>
      cases hs
      have := mt h.full_iff.mpr hfull
      exact ⟨seenC, { h with producer := ⟨rfl, by show s.pushed.length < _; omega⟩ }⟩
  · next v prod hpc =>
    rw [hpc] at hp
    obtain rfl := hp
    cases hs
    -- The consumer count in the cache moves up to the true one.
    exact ⟨s.popped.length, { h with
      cachedConsumer := h.consumerPos
      seenC_le := Nat.le_refl _
      room := by show s.pushed.length ≤ s.popped.length + _; omega
      producer := ⟨rfl, rfl⟩ }⟩
  · next v prod stored hpc =>
    rw [hpc] at hp
    obtain ⟨rfl, hstored⟩ := hp
    split at hs
    · next hfull =>
      cases hs
      have hcap := h.full_iff.mp hfull
      refine ⟨seenC, { h with producer := trivial, full := fun k hk => ?_ }⟩
      rcases List.mem_append.mp hk with hk | hk
      · exact h.full k hk
      · rw [List.mem_singleton.mp hk, hstored]
        omega
    · next hfull =>
      cases hs
      have := mt h.full_iff.mpr hfull
      exact ⟨seenC, { h with producer := ⟨rfl, by show s.pushed.length < _; omega⟩ }⟩
  · next v prod hpc =>
    rw [hpc] at hp
    obtain ⟨rfl, hfree⟩ := hp
    cases hs
    exact ⟨seenC, h.write hfree⟩
  · next v prod hpc =>
    rw [hpc] at hp
    obtain ⟨rfl, hfree, hslot⟩ := hp
    cases hs
    exact ⟨seenC, h.publish hfree hslot⟩

/-- The release store frees the slot of the oldest value, and no other. -/
theorem InvAt.release {out : α} (h : InvAt s seenC seenP) (hlt : s.popped.length < seenP)
    (hout : s.pushed[s.popped.length]? = some out) :
    InvAt { s with
      queue.consumerPos := ofCount s.popped.length + 1, consumer := .idle, popped := s.popped ++ [out] }
      seenC seenP := by
  have hlen : (s.popped ++ [out]).length = s.popped.length + 1 := by simp
  have hseen := h.seenC_le
  refine { h with
    consumerPos := by rw [succ, hlen]
    seenC_le := by rw [hlen]; omega
    popped_le := by rw [hlen]; omega
    order := ?_
    slots := fun j hj hj' => h.slots j (by rw [hlen] at hj; omega) hj'
    producer := ?_
    consumer := trivial }
  · obtain ⟨rest, hrest⟩ := h.order
    rw [← hrest, List.getElem?_append_right (Nat.le_refl _), Nat.sub_self] at hout
    obtain ⟨rest', rfl⟩ := List.head?_eq_some_iff.mp (List.head?_eq_getElem? ▸ hout)
    exact ⟨rest', by rw [← hrest]; simp⟩
  · exact h.producer

theorem InvAt.consumerStep (h : InvAt s seenC seenP) (hs : s.consumerStep = some t) :
    ∃ seenP', InvAt t seenC seenP' := by
  have hc := h.consumer
  have hle := h.popped_le
  have hseen := h.seenP_le
  unfold System.consumerStep at hs
  split at hs
  · cases hs
  · next cons hpc =>
    rw [hpc] at hc
    obtain rfl := hc
    split at hs
    · cases hs
      exact ⟨seenP, { h with consumer := rfl }⟩
    · next hempty =>
      cases hs
      have := mt h.empty_iff.mpr hempty
      exact ⟨seenP, { h with consumer := ⟨rfl, by show s.popped.length < _; omega⟩ }⟩
  · next cons hpc =>
    rw [hpc] at hc
    obtain rfl := hc
    cases hs
    -- The producer count in the cache moves up to the true one.
    exact ⟨s.pushed.length, { h with
      cachedProducer := h.producerPos
      popped_le := by show s.popped.length ≤ _; omega
      seenP_le := Nat.le_refl _
      consumer := ⟨rfl, rfl⟩ }⟩
  · next cons stored hpc =>
    rw [hpc] at hc
    obtain ⟨rfl, hstored⟩ := hc
    split at hs
    · next hempty =>
      cases hs
      have hnone := h.empty_iff.mp hempty
      refine ⟨seenP, { h with consumer := trivial, empty := fun k hk => ?_ }⟩
      rcases List.mem_append.mp hk with hk | hk
      · exact h.empty k hk
      · rw [List.mem_singleton.mp hk, hstored]
        omega
    · next hempty =>
      cases hs
      have := mt h.empty_iff.mpr hempty
      exact ⟨seenP, { h with consumer := ⟨rfl, by show s.popped.length < _; omega⟩ }⟩
  · next cons hpc =>
    rw [hpc] at hc
    obtain ⟨rfl, hlt⟩ := hc
    have hread := h.slots s.popped.length (Nat.le_refl _) (by omega)
    cases hs
    exact ⟨seenP, { h with consumer := ⟨rfl, hlt, hread⟩ }⟩
  · next cons out hpc =>
    rw [hpc] at hc
    obtain ⟨rfl, hlt, hout⟩ := hc
    cases hs
    exact ⟨seenP, h.release hlt hout⟩

/-! ### Whole runs -/

/-- The invariant, at some counts in the caches. -/
def Inv (s : System α cap) : Prop := ∃ seenC seenP, InvAt s seenC seenP

theorem Inv.step {a : Action α} (h : Inv s) (hs : s.Step a t) : Inv t := by
  obtain ⟨seenC, seenP, h⟩ := h
  cases a with
  | push v =>
    simp only [Step, next?] at hs
    split at hs
    · cases hs
      exact ⟨seenC, seenP, { h with producer := h.producerPos }⟩
    · cases hs
  | pop =>
    simp only [Step, next?] at hs
    split at hs
    · cases hs
      exact ⟨seenC, seenP, { h with consumer := h.consumerPos }⟩
    · cases hs
  | producer =>
    obtain ⟨seenC', h'⟩ := h.producerStep hs
    exact ⟨seenC', seenP, h'⟩
  | consumer =>
    obtain ⟨seenP', h'⟩ := h.consumerStep hs
    exact ⟨seenC, seenP', h'⟩

theorem inv_of_reachable {default : α} (hr : Reachable Step (init default) s) : Inv s :=
  hr.invariant (I := Inv) ⟨0, 0, init_inv default⟩ fun h hs => h.step hs

/-! ### The bounded queue -/

/-- The values of a bounded queue are those pushed and not yet popped. -/
def Holds (s : System α cap) (q : BoundedQueue α cap.val.toNat) : Prop := s.pushed = s.popped ++ q.items

theorem Inv.exists_holds (h : Inv s) : ∃ q, s.Holds q := by
  obtain ⟨seenC, seenP, h⟩ := h
  obtain ⟨rest, hrest⟩ := h.order
  have hlen := congrArg List.length hrest
  have hroom := h.room
  have hseen := h.seenC_le
  rw [List.length_append] at hlen
  exact ⟨⟨rest, by omega⟩, hrest.symm⟩

theorem holds_of_eq {q : BoundedQueue α cap.val.toNat} (hq : s.Holds q) (hpushed : t.pushed = s.pushed)
    (hpopped : t.popped = s.popped) : t.Holds q := by
  unfold Holds at *
  rw [hpushed, hpopped, hq]

theorem InvAt.publish_push {v : α} {pos : UInt64} {q : BoundedQueue α cap.val.toNat} (h : InvAt s seenC seenP)
    (hq : s.Holds q) (hpc : s.producer = .publish v pos) (hpushed : t.pushed = s.pushed ++ [v])
    (hpopped : t.popped = s.popped) : ∃ q', t.Holds q' ∧ q.push? v = some q' := by
  have hp := h.producer
  rw [hpc] at hp
  have hlen := congrArg List.length hq
  have hseen := h.seenC_le
  rw [List.length_append] at hlen
  have hlt : q.items.length < cap.val.toNat := by
    have := hp.2.1
    omega
  refine ⟨⟨q.items ++ [v], by simpa using Nat.succ_le_of_lt hlt⟩, ?_, BoundedQueue.push?_eq_some.mpr ⟨hlt, rfl⟩⟩
  unfold Holds at *
  rw [hpushed, hpopped, hq, List.append_assoc]

theorem InvAt.release_pop {out : α} {pos : UInt64} {q : BoundedQueue α cap.val.toNat} (h : InvAt s seenC seenP)
    (hq : s.Holds q) (hpc : s.consumer = .release pos out) (hpushed : t.pushed = s.pushed)
    (hpopped : t.popped = s.popped ++ [out]) : ∃ q', t.Holds q' ∧ q.pop? = some (out, q') := by
  have hc := h.consumer
  rw [hpc] at hc
  have hout := hc.2.2
  unfold Holds at *
  rw [hq, List.getElem?_append_right (Nat.le_refl _), Nat.sub_self] at hout
  obtain ⟨rest, hrest⟩ := List.head?_eq_some_iff.mp (List.head?_eq_getElem? ▸ hout)
  have hle := q.length_le
  rw [hrest] at hle
  refine ⟨⟨rest, Nat.le_of_succ_le hle⟩, ?_, BoundedQueue.pop?_eq_some.mpr hrest⟩
  rw [hpushed, hpopped, hq, hrest, List.append_assoc]
  rfl

/-- The bounded queue that a step of the ring is: the step of a push or a pop that stores its position, and
    otherwise no change. -/
inductive Refines (s : System α cap) (q q' : BoundedQueue α cap.val.toNat) : Action α → Prop
  | silent {a : Action α} (h : q' = q) : Refines s q q' a
  | push {v : α} {pos : UInt64} (hpc : s.producer = .publish v pos) (h : q.push? v = some q') : Refines s q q' .producer
  | pop {out : α} {pos : UInt64} (hpc : s.consumer = .release pos out) (h : q.pop? = some (out, q')) :
      Refines s q q' .consumer

theorem Inv.refines {a : Action α} {q : BoundedQueue α cap.val.toNat} (h : Inv s) (hq : s.Holds q) (hs : s.Step a t) :
    ∃ q', t.Holds q' ∧ Refines s q q' a := by
  obtain ⟨seenC, seenP, h⟩ := h
  have silent : t.pushed = s.pushed → t.popped = s.popped → ∃ q', t.Holds q' ∧ Refines s q q' a :=
    fun hpushed hpopped => ⟨q, holds_of_eq hq hpushed hpopped, .silent rfl⟩
  cases a with
  | push v =>
    simp only [Step, next?] at hs
    split at hs <;> cases hs
    exact silent rfl rfl
  | pop =>
    simp only [Step, next?] at hs
    split at hs <;> cases hs
    exact silent rfl rfl
  | producer =>
    simp only [Step, next?, System.producerStep] at hs
    split at hs
    case h_1 => cases hs
    case h_3 | h_5 => cases hs; exact silent rfl rfl
    case h_2 | h_4 => split at hs <;> (cases hs; exact silent rfl rfl)
    case h_6 v prod hpc =>
      have hpushed : t.pushed = s.pushed ++ [v] := by cases hs; rfl
      obtain ⟨q', hq', hpush⟩ := h.publish_push hq hpc hpushed (by cases hs; rfl)
      exact ⟨q', hq', .push hpc hpush⟩
  | consumer =>
    simp only [Step, next?, System.consumerStep] at hs
    split at hs
    case h_1 => cases hs
    case h_3 | h_5 => cases hs; exact silent rfl rfl
    case h_2 | h_4 => split at hs <;> (cases hs; exact silent rfl rfl)
    case h_6 cons out hpc =>
      have hpopped : t.popped = s.popped ++ [out] := by cases hs; rfl
      obtain ⟨q', hq', hpop⟩ := h.release_pop hq hpc (by cases hs; rfl) hpopped
      exact ⟨q', hq', .pop hpc hpop⟩

/-- What a state of the ring shows of the bounded queue. -/
structure Fifo (s : System α cap) : Prop where
  order : s.popped <+: s.pushed
  bounded : s.stored ≤ cap.val.toNat
  /-- Every unread value is in the slot of its position. -/
  kept : ∀ j, s.popped.length ≤ j → j < s.pushed.length →
    s.pushed[j]? = some (s.queue.buf.get (cap.slot (ofCount j)))
  /-- A write goes to a slot that holds no unread value. -/
  writes : ∀ v prod, s.producer = .write v prod → ∀ j, s.popped.length ≤ j → j < s.pushed.length →
    cap.slot (ofCount j) ≠ cap.slot prod
  /-- A write goes to a slot that is not being read. -/
  reads : ∀ v prod cons, s.producer = .write v prod → s.consumer = .read cons → cap.slot cons ≠ cap.slot prod
  full : ∀ k ∈ s.fullAt, k = cap.val.toNat
  empty : ∀ k ∈ s.emptyAt, k = 0

theorem Inv.fifo (h : Inv s) : Fifo s := by
  obtain ⟨seenC, seenP, h⟩ := h
  have hp := h.producer
  have hseen := h.seenC_le
  have hroom := h.room
  have writes : ∀ v prod, s.producer = .write v prod → ∀ j, s.popped.length ≤ j → j < s.pushed.length →
      cap.slot (ofCount j) ≠ cap.slot prod := by
    intro v prod hpc j hj hj'
    rw [hpc] at hp
    obtain ⟨rfl, hfree⟩ := hp
    exact h.slot_free hfree hj hj'
  refine ⟨h.order, by unfold stored; omega, h.slots, writes, ?_, h.full, h.empty⟩
  intro v prod cons hpc hpc'
  have hc := h.consumer
  have hle := h.seenP_le
  rw [hpc'] at hc
  obtain ⟨rfl, hlt⟩ := hc
  exact writes v prod hpc _ (Nat.le_refl _) (by omega)

/-- Under every interleaving the ring is a bounded first-in first-out queue: its state shows one, and each step is
    one operation of it or no change. -/
theorem ring_refines_fifo (default : α) (hr : Reachable Step (init default : System α cap) s) :
    s.Fifo ∧ (∃ q, s.Holds q) ∧
    ∀ q a t, s.Holds q → s.Step a t → ∃ q', t.Holds q' ∧ Refines s q q' a :=
  have h := inv_of_reachable hr
  ⟨h.fifo, h.exists_holds, fun _ _ _ hq hs => h.refines hq hs⟩

theorem ring_refines_fifo_pair :
    let cap : Capacity := ⟨⟨2, by decide, by decide⟩, by decide⟩
    let push (v : Nat) : List (Action Nat) := [.push v, .producer, .producer, .producer]
    let pop : List (Action Nat) := [.pop, .consumer, .consumer, .consumer, .consumer, .consumer]
    ∃ s : System Nat cap, (push 7 ++ push 8 ++ push 9 ++ pop).foldlM next? (init 0) = some s ∧
      s.pushed = [7, 8] ∧ s.popped = [7] ∧ s.fullAt = [2] ∧
      (s.Fifo ∧ (∃ q, s.Holds q) ∧
        ∀ q a t, s.Holds q → s.Step a t → ∃ q', t.Holds q' ∧ Refines s q q' a) := by
  intro cap push pop
  have hsome : ((push 7 ++ push 8 ++ push 9 ++ pop).foldlM next? (init 0 : System Nat cap)).isSome := by
    decide +kernel
  obtain ⟨s, hs⟩ := Option.isSome_iff_exists.mp hsome
  have hr : Reachable Step (init 0) s := Reachable.of_foldlM hs
  have hlists : ((push 7 ++ push 8 ++ push 9 ++ pop).foldlM next? (init 0 : System Nat cap)).map
      (fun s => (s.pushed, s.popped, s.fullAt)) = some ([7, 8], [7], [2]) := by decide +kernel
  rw [hs] at hlists
  simp only [Option.map_some, Option.some.injEq, Prod.mk.injEq] at hlists
  exact ⟨s, hs, hlists.1, hlists.2.1, hlists.2.2, ring_refines_fifo 0 hr⟩

end Hft.SpscQueue.System
