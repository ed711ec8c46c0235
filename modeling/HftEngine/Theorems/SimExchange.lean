import HftEngine.SimExchange
import HftEngine.Theorems.ItchParser

/-! What the simulated exchange sends: its messages in order, each once, in datagrams of whole frames. -/

namespace Hft.SimExchange

open Frames Bytes

variable {ρ : Type} {s t : SimExchange ρ}

/-- Some frames, and no more than the buffer has room for. -/
def WholeFrames (d : List UInt8) : Prop := ∃ k, 1 ≤ k ∧ k ≤ kMaxBatch ∧ d.length = k * kMsgSize

/-- The datagrams that went out and the frames in the buffer are the messages that were encoded. -/
structure Packs (s : SimExchange ρ) : Prop where
  batch : 1 ≤ s.batch ∧ s.batch ≤ kMaxBatch
  room : (s.dgramMsgs : Int) < s.batch
  bytes : s.sent.flatten ++ s.dgram.front (s.dgramMsgs * kMsgSize) = s.emitted.flatMap encodeMessage
  sizes : ∀ d ∈ s.sent, WholeFrames d

/-- All but the packing of messages. -/
structure Kept (s t : SimExchange ρ) : Prop where
  sym : t.sym = s.sym
  tick : t.tick = s.tick
  rng : t.rng = s.rng
  mid : t.mid = s.mid
  bestBid : t.bestBid = s.bestBid
  bestAsk : t.bestAsk = s.bestAsk
  midLo : t.midLo = s.midLo
  midHi : t.midHi = s.midHi
  bidSz : t.bidSz = s.bidSz
  askSz : t.askSz = s.askSz

theorem Kept.trans {u : SimExchange ρ} (h : s.Kept t) (h' : t.Kept u) : s.Kept u :=
  ⟨h'.sym.trans h.sym, h'.tick.trans h.tick, h'.rng.trans h.rng, h'.mid.trans h.mid, h'.bestBid.trans h.bestBid,
    h'.bestAsk.trans h.bestAsk, h'.midLo.trans h.midLo, h'.midHi.trans h.midHi, h'.bidSz.trans h.bidSz,
    h'.askSz.trans h.askSz⟩

theorem packs_new (c : SimConfig) (rng : ρ) : Packs (new c rng) where
  batch := by
    unfold new kMaxBatch
    dsimp only
    split_ifs <;> omega
  room := by
    show (0 : Int) < (new c rng).batch
    unfold new kMaxBatch
    dsimp only
    split_ifs <;> omega
  bytes := rfl
  sizes _ h := by cases h

/-- The datagram goes out when it has a frame; nothing else changes. -/
theorem flush_of_le (hbatch : s.batch ≤ kMaxBatch) (hroom : (s.dgramMsgs : Int) ≤ s.batch) (hpos : 0 < s.batch)
    (hbytes : s.sent.flatten ++ s.dgram.front (s.dgramMsgs * kMsgSize) = s.emitted.flatMap encodeMessage)
    (hsizes : ∀ d ∈ s.sent, WholeFrames d) :
    Packs s.flush ∧ s.flush.dgramMsgs = 0 ∧ s.Kept s.flush ∧ s.flush.emitted = s.emitted ∧ s.flush.seq = s.seq := by
  unfold flush
  split
  · next hmsgs =>
    have hle : s.dgramMsgs ≤ kMaxBatch := by omega
    refine ⟨⟨⟨hpos, hbatch⟩, hpos, ?_, ?_⟩, rfl, ⟨rfl, rfl, rfl, rfl, rfl, rfl, rfl, rfl, rfl, rfl⟩, rfl, rfl⟩
    · simpa using hbytes
    · intro d hd
      rcases List.mem_append.mp hd with hold | hnew
      · exact hsizes d hold
      · obtain rfl := List.mem_singleton.mp hnew
        exact ⟨s.dgramMsgs, hmsgs, hle, Buffer.length_front (Nat.mul_le_mul_right kMsgSize hle)⟩
  · next hmsgs =>
    refine ⟨⟨⟨hpos, hbatch⟩, by omega, hbytes, hsizes⟩, by omega, ⟨rfl, rfl, rfl, rfl, rfl, rfl, rfl, rfl, rfl, rfl⟩,
      rfl, rfl⟩

theorem Packs.flush (h : Packs s) :
    Packs s.flush ∧ s.flush.dgramMsgs = 0 ∧ s.Kept s.flush ∧ s.flush.emitted = s.emitted ∧ s.flush.seq = s.seq :=
  flush_of_le h.batch.2 (Int.le_of_lt h.room) h.batch.1 h.bytes h.sizes

/-- A message goes behind the frames in the buffer, which has room for it. -/
theorem Packs.emit (h : Packs s) (now : UInt64) (type : MsgType) (side : Side) (px : Int) (size : UInt32) :
    ∃ t, s.emit now type side px size = some t ∧ Packs t ∧ s.Kept t ∧
      t.emitted = s.emitted ++ [s.message now type side px size] ∧ t.seq = s.seq + 1 := by
  obtain ⟨hpos, hle⟩ := h.batch
  have hroom := h.room
  let m := s.message now type side px size
  obtain ⟨dgram, hwrite⟩ := s.dgram.exists_write (s.dgramMsgs * kMsgSize) (encodeMessage m) (by
    rw [length_encodeMessage]
    unfold kMaxBatch kMsgSize at *
    omega)
  let u : SimExchange ρ := { s with
    seq := s.seq + 1, dgram, dgramMsgs := s.dgramMsgs + 1, feedCount := s.feedCount + 1, emitted := s.emitted ++ [m] }
  have hfront : dgram.front ((s.dgramMsgs + 1) * kMsgSize) =
      s.dgram.front (s.dgramMsgs * kMsgSize) ++ encodeMessage m := by
    have := Buffer.front_write hwrite
    rwa [length_encodeMessage, ← Nat.succ_mul] at this
  have hbytes : u.sent.flatten ++ u.dgram.front (u.dgramMsgs * kMsgSize) = u.emitted.flatMap encodeMessage := by
    show s.sent.flatten ++ dgram.front ((s.dgramMsgs + 1) * kMsgSize) = (s.emitted ++ [m]).flatMap encodeMessage
    rw [hfront, ← List.append_assoc, h.bytes, List.flatMap_append, List.flatMap_singleton]
  have hemit : s.emit now type side px size = some (if (u.dgramMsgs : Int) ≥ u.batch then u.flush else u) := by
    unfold SimExchange.emit
    simp only [m] at hwrite
    simp only [hwrite]
    rfl
  refine ⟨_, hemit, ?_⟩
  split
  · obtain ⟨hpacks, -, hkept, hemitted, hseq⟩ :=
      flush_of_le (s := u) hle (by show ((s.dgramMsgs + 1 : Nat) : Int) ≤ s.batch; omega) hpos hbytes h.sizes
    exact ⟨hpacks, { hkept with }, hemitted, hseq⟩
  · next hnot =>
    exact ⟨⟨h.batch, Int.not_le.mp hnot, hbytes, h.sizes⟩, ⟨rfl, rfl, rfl, rfl, rfl, rfl, rfl, rfl, rfl, rfl⟩, rfl, rfl⟩

/-! ### Sequences of calls -/

theorem Packs.call (h : Packs s) (c : Call) :
    ∃ t, s.call c = some t ∧ Packs t ∧ t.sym = s.sym ∧
      ∀ calls, s.emitted ++ messages s.sym s.seq (c :: calls) = t.emitted ++ messages t.sym t.seq calls := by
  cases c with
  | emit now type side px size =>
    obtain ⟨t, ht, hpacks, hkept, hemitted, hseq⟩ := h.emit now type side px.toInt size
    refine ⟨t, ht, hpacks, hkept.sym, fun calls => ?_⟩
    rw [hemitted, hseq, hkept.sym, List.append_assoc]
    rfl
  | flush =>
    obtain ⟨hpacks, -, hkept, hemitted, hseq⟩ := h.flush
    refine ⟨_, rfl, hpacks, hkept.sym, fun calls => ?_⟩
    rw [hemitted, hseq, hkept.sym]
    rfl

/-- No sequence of calls writes outside the buffer, and what is encoded is what was asked for. -/
theorem Packs.calls (h : Packs s) (calls : List Call) :
    ∃ t, calls.foldlM SimExchange.call s = some t ∧ Packs t ∧ t.sym = s.sym ∧
      t.emitted = s.emitted ++ messages s.sym s.seq calls := by
  induction calls generalizing s with
  | nil => exact ⟨s, rfl, h, rfl, (List.append_nil _).symm⟩
  | cons c calls ih =>
    obtain ⟨t, ht, hpacks, hsym, hmessages⟩ := h.call c
    obtain ⟨u, hu, hpacksu, hsymu, hemitted⟩ := ih hpacks
    refine ⟨u, ?_, hpacksu, hsymu.trans hsym, ?_⟩
    · rw [List.foldlM_cons, ht]
      exact hu
    · rw [hemitted, hmessages calls]

theorem messages_seq (sym seq : UInt32) (calls : List Call) :
    (messages sym seq calls).map ItchMessage.seq =
      (List.range (messages sym seq calls).length).map fun k => seq + UInt32.ofNat k := by
  induction calls generalizing seq with
  | nil => rfl
  | cons c calls ih =>
    cases c with
    | emit now type side px size =>
      rw [messages, List.map_cons, ih, List.length_cons, List.range_succ_eq_map, List.map_cons, List.map_map]
      congr 1
      · simp
      · refine List.map_congr_left fun k _ => ?_
        rw [Function.comp_apply, Nat.succ_eq_add_one, Nat.add_comm, UInt32.ofNat_add, UInt32.add_assoc]
        rfl
    | flush => exact ih seq

theorem int64Price_messages {sym seq : UInt32} {m : ItchMessage} {calls : List Call}
    (h : m ∈ messages sym seq calls) : Int64Price m := by
  induction calls generalizing seq with
  | nil => cases h
  | cons c calls ih =>
    cases c with
    | emit now type side px size =>
      rcases List.mem_cons.mp h with rfl | h
      · exact ⟨px.le_toInt, px.toInt_lt⟩
      · exact ih h
    | flush => exact ih h

end Hft.SimExchange
