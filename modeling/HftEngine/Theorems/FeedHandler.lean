import HftEngine.FeedHandler
import HftEngine.Theorems.SimExchange
import HftEngine.Lib.Transition

/-! The feed handler counts what it loses: the events on the queue are the whole frames of the datagrams, in order, but
    for the counted drops. -/

namespace Hft

open Frames Transition

namespace FeedHandler

variable {cap : Nat} {h t : FeedHandler cap} {buf d : List UInt8} {arrival : UInt64}

/-! ### The events of a buffer -/

/-- The events carry the bytes of the frames and the clock reading of the datagram. -/
theorem encode_events (buf : List UInt8) (arrival : UInt64) :
    (events buf arrival).map (fun ev => (encodeMessage ev.msg, ev.arrivalTsc)) =
      (frames kMsgSize buf).map (fun f => (f, arrival)) ∧
    ∀ ev ∈ events buf arrival, Int64Price ev.msg := by
  have hall : ∀ fs : List (List UInt8), (∀ f ∈ fs, f.length = kMsgSize) →
      let evs := fs.filterMap fun f => (parseMessage f).map fun msg => { msg, arrivalTsc := arrival : MdEvent }
      evs.map (fun ev => (encodeMessage ev.msg, ev.arrivalTsc)) = fs.map (fun f => (f, arrival)) ∧
        ∀ ev ∈ evs, Int64Price ev.msg := by
    intro fs
    induction fs with
    | nil => exact fun _ => ⟨rfl, fun _ h => by cases h⟩
    | cons f fs ih =>
      intro hlen
      obtain ⟨hbytes, hprice⟩ := ih fun g hg => hlen g (List.mem_cons_of_mem f hg)
      obtain ⟨m, hm, hmprice, hf⟩ := encode_parse (hlen f List.mem_cons_self)
      rw [List.filterMap_cons_some (by rw [hm]; rfl)]
      refine ⟨?_, fun ev hev => ?_⟩
      · rw [List.map_cons, List.map_cons, hbytes, hf]
      · rcases List.mem_cons.mp hev with rfl | hev
        · exact hmprice
        · exact hprice ev hev
  exact hall _ fun f hf => length_of_mem_frames hf

theorem length_events (buf : List UInt8) (arrival : UInt64) : (events buf arrival).length = buf.length / kMsgSize := by
  have hmap := congrArg List.length (encode_events buf arrival).1
  rwa [List.length_map, List.length_map, length_frames] at hmap

theorem events_of_lt (hlt : buf.length < kMsgSize) : events buf arrival = [] := by
  rw [events, frames_of_lt hlt]
  rfl

theorem events_of_le (arrival : UInt64) (hle : kMsgSize ≤ buf.length) :
    ∃ m, parseMessage buf = some m ∧
      events buf arrival = { msg := m, arrivalTsc := arrival } :: events (buf.drop kMsgSize) arrival := by
  have hlen : (buf.take kMsgSize).length = kMsgSize := List.length_take_of_le hle
  obtain ⟨m, hm, -, -⟩ := encode_parse hlen
  refine ⟨m, ?_, ?_⟩
  · rw [← List.take_append_drop kMsgSize buf, parse_append hlen, hm]
  · rw [events, frames_of_le (by decide) hle, List.filterMap_cons_some (by rw [hm]; rfl)]
    rfl

/-! ### One step -/

/-- The events that are still to come out of the datagram in the buffer. -/
def left (h : FeedHandler cap) : List MdEvent :=
  match h.pc with
  | .idle => []
  | .reading reader arrival => events reader.rest arrival
  | .pushing ev _ reader arrival => ev :: events reader.rest arrival

/-- The events that are counted as received but not yet as pushed or dropped. -/
def pending (h : FeedHandler cap) : Nat :=
  match h.pc with
  | .pushing .. => 1
  | _ => 0

structure Counts (h : FeedHandler cap) : Prop where
  frames : h.arrived.flatMap (fun d => events (d.1.take kBufBytes) d.2) = h.outcomes.map Prod.fst ++ h.left
  put : h.put = (h.outcomes.filter Prod.snd).map Prod.fst
  received : h.received = UInt64.ofNat (h.outcomes.length + h.pending)
  pushed : h.pushed = UInt64.ofNat (h.outcomes.countP Prod.snd)
  dropped : h.dropped = UInt64.ofNat (h.outcomes.countP fun o => !o.2)

theorem counts_new : Counts ({} : FeedHandler cap) := ⟨rfl, rfl, rfl, rfl, rfl⟩

theorem Counts.recv (hc : Counts h) (hidle : h.pc = .idle) (d : List UInt8) (arrival : UInt64) :
    Counts (h.recv d arrival) := by
  have hleft : (h.recv d arrival).left = events (d.take kBufBytes) arrival := by
    unfold FeedHandler.recv left
    dsimp only
    split_ifs with hzero
    · rw [List.length_eq_zero_iff.mp hzero]
      rfl
    · rfl
  have hpending : (h.recv d arrival).pending = 0 := by
    unfold FeedHandler.recv pending
    dsimp only
    split_ifs <;> rfl
  have hold : h.left = [] := by rw [left, hidle]
  have holdp : h.pending = 0 := by rw [pending, hidle]
  refine ⟨?_, hc.put, ?_, hc.pushed, hc.dropped⟩
  · rw [hleft]
    show (h.arrived ++ [(d, arrival)]).flatMap _ = h.outcomes.map Prod.fst ++ _
    rw [List.flatMap_append, hc.frames, hold, List.append_nil, List.flatMap_singleton]
  · rw [hpending, ← holdp]
    exact hc.received

/-- An outcome settles the event that was being pushed. -/
theorem Counts.settle (hc : Counts h) {ev : MdEvent} {spins : Nat} {reader : FeedReader}
    (hpc : h.pc = .pushing ev spins reader arrival) (ok : Bool) {out : BoundedQueue MdEvent cap}
    (hout : out.items = h.out.items ++ if ok then [ev] else []) :
    Counts { h.settle ev reader arrival ok with out } := by
  have hleft : h.left = ev :: events reader.rest arrival := by rw [left, hpc]
  have hpending : h.pending = 1 := by rw [pending, hpc]
  refine ⟨?_, ?_, ?_, ?_, ?_⟩
  · show h.arrived.flatMap _ = (h.outcomes ++ [(ev, ok)]).map Prod.fst ++ events reader.rest arrival
    rw [hc.frames, hleft, List.map_append, List.append_assoc]
    rfl
  · have hput := hc.put
    unfold FeedHandler.put at hput ⊢
    show h.taken ++ out.items = ((h.outcomes ++ [(ev, ok)]).filter Prod.snd).map Prod.fst
    rw [hout, ← List.append_assoc, hput, List.filter_append, List.map_append]
    cases ok <;> rfl
  · show h.received = UInt64.ofNat ((h.outcomes ++ [(ev, ok)]).length + 0)
    rw [hc.received, hpending, List.length_append]
    rfl
  · show (if ok then h.pushed + 1 else h.pushed) = UInt64.ofNat ((h.outcomes ++ [(ev, ok)]).countP Prod.snd)
    rw [List.countP_append, UInt64.ofNat_add, ← hc.pushed]
    cases ok
    · exact (UInt64.add_zero _).symm
    · rfl
  · show (if ok then h.dropped else h.dropped + 1) = UInt64.ofNat ((h.outcomes ++ [(ev, ok)]).countP fun o => !o.2)
    rw [List.countP_append, UInt64.ofNat_add, ← hc.dropped]
    cases ok
    · rfl
    · exact (UInt64.add_zero _).symm

/-- A step that neither settles nor receives an event. -/
theorem Counts.move (hc : Counts h) (pc : FeedPc) (hleft : left { h with pc } = h.left)
    (hpending : pending { h with pc } = h.pending) : Counts { h with pc } :=
  ⟨hleft ▸ hc.frames, hc.put, hpending ▸ hc.received, hc.pushed, hc.dropped⟩

theorem Counts.receive (hc : Counts h) {reader r : FeedReader} {m : ItchMessage}
    (hpc : h.pc = .reading reader arrival) (hlong : reader.hasNext = true) (hnext : reader.next = some (m, r)) :
    Counts { h with pc := .pushing { msg := m, arrivalTsc := arrival } kSpinBudget r arrival,
                    received := h.received + 1 } := by
  obtain ⟨m', hm', hr⟩ := Option.bind_eq_some_iff.mp hnext
  cases hr
  obtain ⟨m', hparse, hevents⟩ := events_of_le arrival (of_decide_eq_true hlong)
  obtain rfl := Option.some_inj.mp (hm'.symm.trans hparse)
  have hleft : h.left = events reader.rest arrival := by rw [left, hpc]
  have hpending : h.pending = 0 := by rw [pending, hpc]
  refine ⟨?_, hc.put, ?_, hc.pushed, hc.dropped⟩
  · show h.arrived.flatMap _ = h.outcomes.map Prod.fst ++ _ :: _
    rw [hc.frames, hleft, hevents]
  · show h.received + 1 = UInt64.ofNat (h.outcomes.length + 1)
    rw [hc.received, hpending, Nat.add_zero, UInt64.ofNat_add]
    rfl

theorem Counts.pop (hc : Counts h) {ev : MdEvent} {out : BoundedQueue MdEvent cap}
    (hpop : h.out.items = ev :: out.items) : Counts { h with out, taken := h.taken ++ [ev] } := by
  refine ⟨hc.frames, ?_, hc.received, hc.pushed, hc.dropped⟩
  rw [← hc.put]
  unfold FeedHandler.put
  rw [hpop]
  exact List.append_assoc _ _ _

theorem Counts.step (hc : Counts h) {a : FeedAction} (hs : h.next? a = some t) : Counts t := by
  unfold next? at hs
  split at hs
  · next hidle =>
    obtain rfl := Option.some_inj.mp hs
    exact hc.recv hidle _ _
  · next reader arrival hpc =>
    split at hs
    · next hlong =>
      obtain ⟨⟨m, r⟩, hnext, hs⟩ := Option.bind_eq_some_iff.mp hs
      obtain rfl := Option.some_inj.mp hs
      exact hc.receive hpc hlong hnext
    · next hlast =>
      obtain rfl := Option.some_inj.mp hs
      have hlt : reader.rest.length < kMsgSize := by simpa [FeedReader.hasNext] using hlast
      exact hc.move .idle (by simp [left, hpc, events_of_lt hlt]) (by simp [pending, hpc])
  · next ev spins reader arrival hpc =>
    obtain ⟨out, hpush, hs⟩ := Option.bind_eq_some_iff.mp hs
    obtain rfl := Option.some_inj.mp hs
    exact hc.settle hpc true (BoundedQueue.push?_eq_some.mp hpush).2
  · next ev spins reader arrival hpc =>
    split at hs
    · obtain rfl := Option.some_inj.mp hs
      exact hc.settle hpc false (List.append_nil _).symm
    · obtain rfl := Option.some_inj.mp hs
      exact hc.move _ (by simp [left, hpc]) (by simp [pending, hpc])
  · obtain ⟨⟨ev, out⟩, hpop, hs⟩ := Option.bind_eq_some_iff.mp hs
    obtain rfl := Option.some_inj.mp hs
    exact hc.pop (BoundedQueue.pop?_eq_some.mp hpop)
  · cases hs

theorem counts_of_foldlM {acts : List FeedAction} (hrun : acts.foldlM next? ({} : FeedHandler cap) = some h) :
    Counts h :=
  (Reachable.of_foldlM hrun).invariant counts_new fun hc hs => hc.step hs

/-! ### Whole runs -/

theorem arrived_step {a : FeedAction} (hs : h.next? a = some t) :
    t.arrived = h.arrived ++ FeedAction.datagrams [a] := by
  unfold next? at hs
  split at hs
  · obtain rfl := Option.some_inj.mp hs
    rfl
  · split at hs
    · obtain ⟨_, -, hs⟩ := Option.bind_eq_some_iff.mp hs
      obtain rfl := Option.some_inj.mp hs
      exact (List.append_nil _).symm
    · obtain rfl := Option.some_inj.mp hs
      exact (List.append_nil _).symm
  · obtain ⟨_, -, hs⟩ := Option.bind_eq_some_iff.mp hs
    obtain rfl := Option.some_inj.mp hs
    exact (List.append_nil _).symm
  · split at hs
    · obtain rfl := Option.some_inj.mp hs
      exact (List.append_nil _).symm
    · obtain rfl := Option.some_inj.mp hs
      exact (List.append_nil _).symm
  · obtain ⟨_, -, hs⟩ := Option.bind_eq_some_iff.mp hs
    obtain rfl := Option.some_inj.mp hs
    exact (List.append_nil _).symm
  · cases hs

theorem arrived_foldlM {acts : List FeedAction} (hrun : acts.foldlM next? h = some t) :
    t.arrived = h.arrived ++ FeedAction.datagrams acts := by
  induction acts generalizing h with
  | nil =>
    obtain rfl := Option.some_inj.mp hrun
    exact (List.append_nil _).symm
  | cons a acts ih =>
    rw [List.foldlM_cons] at hrun
    obtain ⟨u, hu, hrun⟩ := Option.bind_eq_some_iff.mp hrun
    rw [ih hrun, arrived_step hu, List.append_assoc]
    exact congrArg _ (List.filterMap_append (l := [a])).symm

/-- The counters and the queue, told by the datagrams `ds`. -/
structure Accounts (h : FeedHandler cap) (ds : List (List UInt8 × UInt64)) : Prop where
  sum : h.received = h.pushed + h.dropped
  received : h.received = UInt64.ofNat (ds.map fun d => d.1.length / kMsgSize).sum
  pushed : h.pushed = UInt64.ofNat (h.outcomes.countP Prod.snd)
  /-- Every whole frame has an outcome, in order. -/
  frames : h.outcomes.map (fun o => (encodeMessage o.1.msg, o.1.arrivalTsc)) =
    ds.flatMap fun d => (frames kMsgSize d.1).map fun f => (f, d.2)
  /-- The queue gets those that are not dropped. -/
  put : h.put = (h.outcomes.filter Prod.snd).map Prod.fst
  prices : ∀ o ∈ h.outcomes, Int64Price o.1.msg

theorem accounts {acts : List FeedAction} (hrun : acts.foldlM next? ({} : FeedHandler cap) = some h)
    (hidle : h.pc = .idle) (hlen : ∀ d ∈ FeedAction.datagrams acts, d.1.length ≤ kBufBytes) :
    h.Accounts (FeedAction.datagrams acts) := by
  have hc := counts_of_foldlM hrun
  have harrived : h.arrived = FeedAction.datagrams acts := arrived_foldlM hrun
  have hleft : h.left = [] := by rw [left, hidle]
  have hpending : h.pending = 0 := by rw [pending, hidle]
  have hframes : h.outcomes.map Prod.fst = (FeedAction.datagrams acts).flatMap fun d => events d.1 d.2 := by
    have hwhole : ∀ d ∈ FeedAction.datagrams acts, events (d.1.take kBufBytes) d.2 = events d.1 d.2 := fun d hd => by
      rw [List.take_of_length_le (hlen d hd)]
    have := hc.frames
    rw [hleft, List.append_nil, harrived, List.flatMap_congr hwhole] at this
    exact this.symm
  have hcount : h.outcomes.length = ((FeedAction.datagrams acts).map fun d => d.1.length / kMsgSize).sum := by
    rw [← List.length_map Prod.fst, hframes, List.length_flatMap]
    simp only [length_events]
  refine ⟨?_, ?_, hc.pushed, ?_, hc.put, ?_⟩
  · rw [hc.received, hc.pushed, hc.dropped, hpending, ← UInt64.ofNat_add, Nat.add_zero]
    exact congrArg _ (by simpa using List.length_eq_countP_add_countP Prod.snd (l := h.outcomes))
  · rw [hc.received, hpending, hcount, Nat.add_zero]
  · have hmap := congrArg (List.map fun ev : MdEvent => (encodeMessage ev.msg, ev.arrivalTsc)) hframes
    rw [List.map_map, List.map_flatMap] at hmap
    simp only [(encode_events _ _).1] at hmap
    exact hmap
  · intro o ho
    have hmem : o.1 ∈ h.outcomes.map Prod.fst := List.mem_map_of_mem ho
    rw [hframes] at hmem
    obtain ⟨d, -, hev⟩ := List.mem_flatMap.mp hmem
    exact (encode_events d.1 d.2).2 _ hev

theorem messages_of_encode {l l' : List ItchMessage} (h : l.map encodeMessage = l'.map encodeMessage)
    (hl : ∀ m ∈ l, Int64Price m) (hl' : ∀ m ∈ l', Int64Price m) : l = l' := by
  have hback : ∀ ms : List ItchMessage, (∀ m ∈ ms, Int64Price m) →
      (ms.map encodeMessage).map parseMessage = ms.map some := by
    intro ms hms
    rw [List.map_map]
    exact List.map_congr_left fun m hm => parse_encode (hms m hm)
  have := congrArg (List.map parseMessage) h
  rw [hback l hl, hback l' hl'] at this
  exact List.map_injective_iff.mpr (Option.some_injective _) this

/-- Without drops the queue gets the messages whose frames the datagrams carry. -/
theorem Accounts.put_messages {ds : List (List UInt8 × UInt64)} (ha : h.Accounts ds) {msgs : List ItchMessage}
    (hmsgs : ∀ m ∈ msgs, Int64Price m) (hwhole : ∀ d ∈ ds.map Prod.fst, ∃ n, d.length = n * kMsgSize)
    (hbytes : (ds.map Prod.fst).flatten = msgs.flatMap encodeMessage) (hkept : ∀ o ∈ h.outcomes, o.2 = true) :
    h.put.map MdEvent.msg = msgs := by
  have hput : h.put = h.outcomes.map Prod.fst := by rw [ha.put, List.filter_eq_self.mpr hkept]
  have hframes : (h.put.map MdEvent.msg).map encodeMessage = (ds.map Prod.fst).flatMap (Frames.frames kMsgSize) := by
    have := congrArg (List.map Prod.fst) ha.frames
    simpa [hput, Function.comp_def, List.map_flatMap, List.flatMap_map] using this
  have hcut : (ds.map Prod.fst).flatMap (Frames.frames kMsgSize) = msgs.map encodeMessage := by
    rw [flatMap_frames (by decide) hwhole, hbytes, List.flatMap_def]
    refine frames_flatten (by decide) fun f hf => ?_
    obtain ⟨m, -, rfl⟩ := List.mem_map.mp hf
    exact length_encodeMessage m
  refine messages_of_encode (hframes.trans hcut) (fun m hm => ?_) hmsgs
  rw [hput, List.map_map] at hm
  obtain ⟨o, ho, rfl⟩ := List.mem_map.mp hm
  exact ha.prices o ho

end FeedHandler

/-- What the exchange sends and what the feed handler puts on the queue: nothing is lost or reordered but the counted
    drops. -/
theorem feed_transport {ρ : Type} {cap : Nat} (c : SimConfig) (rng : ρ) (calls : List SimExchange.Call)
    (acts : List FeedAction) (h : FeedHandler cap) (hrun : acts.foldlM FeedHandler.next? {} = some h)
    (hidle : h.pc = .idle) (hlen : ∀ d ∈ FeedAction.datagrams acts, d.1.length ≤ 64 * 32) :
    ∃ s, (calls ++ [SimExchange.Call.flush]).foldlM SimExchange.call (SimExchange.new c rng) = some s ∧
      (∀ d ∈ s.sent, SimExchange.WholeFrames d) ∧
      s.sent.flatten = (SimExchange.messages c.symbol 0 calls).flatMap encodeMessage ∧
      (SimExchange.messages c.symbol 0 calls).map ItchMessage.seq =
        (List.range (SimExchange.messages c.symbol 0 calls).length).map UInt32.ofNat ∧
      h.Accounts (FeedAction.datagrams acts) ∧
      ((FeedAction.datagrams acts).map Prod.fst = s.sent → (∀ o ∈ h.outcomes, o.2 = true) →
        h.put.map MdEvent.msg = SimExchange.messages c.symbol 0 calls) := by
  obtain ⟨t, ht, hpacks, -, hemitted⟩ := (SimExchange.packs_new c rng).calls calls
  obtain ⟨hflushed, hnone, -, hsame, -⟩ := hpacks.flush
  have hall : t.flush.sent.flatten = (SimExchange.messages c.symbol 0 calls).flatMap encodeMessage := by
    have := hflushed.bytes
    rw [hnone, Nat.zero_mul, Buffer.front_zero, List.append_nil, hsame, hemitted] at this
    exact this
  have haccounts := FeedHandler.accounts hrun hidle hlen
  refine ⟨t.flush, ?_, hflushed.sizes, hall, ?_, haccounts, fun hsent hkept => ?_⟩
  · rw [List.foldlM_append, ht]
    rfl
  · simpa using SimExchange.messages_seq c.symbol 0 calls
  · refine haccounts.put_messages (fun m hm => SimExchange.int64Price_messages hm) (fun d hd => ?_) (hsent ▸ hall) hkept
    obtain ⟨k, -, -, hk⟩ := hflushed.sizes d (hsent ▸ hd)
    exact ⟨k, hk⟩

/-- Two messages in one datagram, through a queue with room for one event. -/
theorem feed_transport_pair :
    let calls : List SimExchange.Call := [.emit 1 .kAdd .kBuy 990 5, .emit 2 .kAdd .kSell 1010 6]
    let acts : List FeedAction :=
      [.recv ((SimExchange.messages 7 0 calls).flatMap encodeMessage) 9, .next, .push true, .pop, .next, .push true,
        .next]
    ∃ h : FeedHandler 1, acts.foldlM FeedHandler.next? {} = some h ∧
      h.put.map MdEvent.msg = SimExchange.messages 7 0 calls := by
  intro calls acts
  let c : SimConfig := ⟨7, 2, 1000, 10⟩
  obtain ⟨s, hs, -, -, -, -, hall⟩ := feed_transport c (Rng.new 1) calls acts (_ : FeedHandler 1) rfl rfl (by decide)
  have hsent : ((calls ++ [SimExchange.Call.flush]).foldlM SimExchange.call (SimExchange.new c (Rng.new 1))).map
      SimExchange.sent = some ((FeedAction.datagrams acts).map Prod.fst) := rfl
  rw [hs] at hsent
  exact ⟨_, rfl, hall (Option.some_inj.mp hsent).symm (by decide)⟩

end Hft
