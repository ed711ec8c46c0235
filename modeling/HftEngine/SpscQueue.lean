import HftEngine.Table
import HftEngine.Lib.Channel

/-! The single-producer single-consumer ring (`spsc_queue.hpp`), one memory operation a step. Producer and consumer
    steps interleave in any order; an acquire load sees the latest release store and the slots written before it. -/

namespace Hft

structure SpscQueue (α : Type) (cap : Capacity) where
  producerPos : UInt64 := 0
  cachedConsumerPos : UInt64 := 0
  consumerPos : UInt64 := 0
  cachedProducerPos : UInt64 := 0
  buf : Vector α cap.val.toNat

namespace SpscQueue

/-- Where a producer is inside `emplace_from`, with its value and its own position. -/
inductive ProducerPc (α : Type)
  | idle
  | compare (value : α) (prod : UInt64)
  | refresh (value : α) (prod : UInt64)
  /-- `stored` values were in the ring at the re-read. -/
  | recheck (value : α) (prod : UInt64) (stored : Nat)
  | write (value : α) (prod : UInt64)
  | publish (value : α) (prod : UInt64)

/-- Where a consumer is inside `pop`, with its own position. -/
inductive ConsumerPc (α : Type)
  | idle
  | compare (cons : UInt64)
  | refresh (cons : UInt64)
  /-- `stored` values were in the ring at the re-read. -/
  | recheck (cons : UInt64) (stored : Nat)
  | read (cons : UInt64)
  | release (cons : UInt64) (out : α)

/-- A ring with its two threads, and what their finished calls did. -/
structure System (α : Type) (cap : Capacity) where
  queue : SpscQueue α cap
  producer : ProducerPc α := .idle
  consumer : ConsumerPc α := .idle
  /-- The values of the pushes that returned true. -/
  pushed : List α := []
  popped : List α := []
  /-- For each push that returned false, how many values were stored when it re-read `consumer_pos_`. -/
  fullAt : List Nat := []
  /-- For each pop that returned false, how many values were stored when it re-read `producer_pos_`. -/
  emptyAt : List Nat := []

inductive Action (α : Type)
  | push (value : α)
  | pop
  | producer
  | consumer

namespace System

variable {α : Type} {cap : Capacity}

def init (default : α) : System α cap := { queue := { buf := Vector.replicate _ default } }

/-- Values published and not yet released. -/
def stored (s : System α cap) : Nat := s.pushed.length - s.popped.length

/-- The next memory operation of `emplace_from`. -/
def producerStep (s : System α cap) : Option (System α cap) :=
  match s.producer with
  | .idle => none
  | .compare v prod =>
    if prod - s.queue.cachedConsumerPos ≥ cap.val then some { s with producer := .refresh v prod }
    else some { s with producer := .write v prod }
  | .refresh v prod =>
    some { s with queue.cachedConsumerPos := s.queue.consumerPos, producer := .recheck v prod s.stored }
  | .recheck v prod stored =>
    if prod - s.queue.cachedConsumerPos ≥ cap.val then
      some { s with producer := .idle, fullAt := s.fullAt ++ [stored] }
    else some { s with producer := .write v prod }
  | .write v prod =>
    let i := cap.slot prod
    some { s with queue.buf := s.queue.buf.set i v i.isLt, producer := .publish v prod }
  | .publish v prod =>
    some { s with queue.producerPos := prod + 1, producer := .idle, pushed := s.pushed ++ [v] }

/-- The next memory operation of `pop`. -/
def consumerStep (s : System α cap) : Option (System α cap) :=
  match s.consumer with
  | .idle => none
  | .compare cons =>
    if cons = s.queue.cachedProducerPos then some { s with consumer := .refresh cons }
    else some { s with consumer := .read cons }
  | .refresh cons =>
    some { s with queue.cachedProducerPos := s.queue.producerPos, consumer := .recheck cons s.stored }
  | .recheck cons stored =>
    if cons = s.queue.cachedProducerPos then
      some { s with consumer := .idle, emptyAt := s.emptyAt ++ [stored] }
    else some { s with consumer := .read cons }
  | .read cons => some { s with consumer := .release cons (s.queue.buf.get (cap.slot cons)) }
  | .release cons out =>
    some { s with queue.consumerPos := cons + 1, consumer := .idle, popped := s.popped ++ [out] }

/-- A call starts by reading the thread's own position. -/
def next? (s : System α cap) : Action α → Option (System α cap)
  | .push v =>
    match s.producer with
    | .idle => some { s with producer := .compare v s.queue.producerPos }
    | _ => none
  | .pop =>
    match s.consumer with
    | .idle => some { s with consumer := .compare s.queue.consumerPos }
    | _ => none
  | .producer => s.producerStep
  | .consumer => s.consumerStep

def Step (s : System α cap) (a : Action α) (t : System α cap) : Prop := s.next? a = some t

end System

/-! ### The ring as a channel -/

open Channel (End)

/-- What `emplace_from` returns where an operation takes it from one place to another. -/
def ProducerPc.returns {α : Type} : ProducerPc α → ProducerPc α → Option Bool
  | .publish _ _, _ => some true
  | .recheck _ _ _, .idle => some false
  | _, _ => none

def ConsumerPc.returns {α : Type} : ConsumerPc α → ConsumerPc α → Option (Option α)
  | .release _ out, _ => some (some out)
  | .recheck _ _, .idle => some none
  | _, _ => none

/-- The next operation of a call at one end: its first one, or the one after where it is. -/
def System.op {α : Type} {cap : Capacity} (s : System α cap) : (d : End) → d.Arg α → System α cap × Option (d.Ret α)
  | .push, v =>
    let t := ((s.next? (.push v)).or s.producerStep).getD s
    (t, s.producer.returns t.producer)
  | .pop, _ =>
    let t := ((s.next? .pop).or s.consumerStep).getD s
    (t, s.consumer.returns t.consumer)

def channel {α : Type} (cap : Capacity) (default : α) : Channel α where
  State := System α cap
  init := System.init default
  op := System.op

/-! ### Observation -/

/-- What `size_approx` returns for the positions that it loaded. -/
def sizeApprox (p c : UInt64) : UInt64 := p - c

/-- A ring whose size other threads ask for: the producer position that each of them holds between the two loads of
    `size_approx`, and what the finished calls returned. A thread of the ring may be one of them. -/
structure Observed (ι α : Type) (cap : Capacity) where
  system : System α cap
  held : ι → Option UInt64 := fun _ => none
  sizes : List UInt64 := []

namespace Observed

variable {ι α : Type} {cap : Capacity}

inductive Action (ι α : Type)
  | ring (a : SpscQueue.Action α)
  | loadProducer (i : ι)
  | loadConsumer (i : ι)

def init (default : α) : Observed ι α cap := { system := System.init default }

variable [DecidableEq ι]

def next? (s : Observed ι α cap) : Action ι α → Option (Observed ι α cap)
  | .ring a => (s.system.next? a).map fun t => { s with system := t }
  | .loadProducer i =>
    match s.held i with
    | none => some { s with held := fun j => if j = i then some s.system.queue.producerPos else s.held j }
    | some _ => none
  | .loadConsumer i =>
    match s.held i with
    | none => none
    | some p =>
      some { s with
        held := fun j => if j = i then none else s.held j
        sizes := s.sizes ++ [sizeApprox p s.system.queue.consumerPos] }

def Step (s : Observed ι α cap) (a : Action ι α) (t : Observed ι α cap) : Prop := s.next? a = some t

end Observed

end SpscQueue

end Hft
