import HftEngine.OrderFlow

/-! Every body of at least a header is decoded, and what the decoder does with it is one event on the table of
    orders. -/

namespace Hft.Itch50

/-! ### Reads inside a body -/

section Reads
variable (m : List UInt8) (off : Nat)

theorem byte_of_lt (h : off < m.length) : ∃ b, m[off]? = some b :=
  ⟨_, List.getElem?_eq_getElem h⟩

theorem be16_of_le (h : off + 2 ≤ m.length) : ∃ v, be16 m off = some v := by
  obtain ⟨b0, h0⟩ := byte_of_lt m off (by omega)
  obtain ⟨b1, h1⟩ := byte_of_lt m (off + 1) (by omega)
  simp [be16, h0, h1]

theorem be32_of_le (h : off + 4 ≤ m.length) : ∃ v, be32 m off = some v := by
  obtain ⟨b0, h0⟩ := byte_of_lt m off (by omega)
  obtain ⟨b1, h1⟩ := byte_of_lt m (off + 1) (by omega)
  obtain ⟨b2, h2⟩ := byte_of_lt m (off + 2) (by omega)
  obtain ⟨b3, h3⟩ := byte_of_lt m (off + 3) (by omega)
  simp [be32, h0, h1, h2, h3]

theorem beLoop_of_le (n : Nat) (v : UInt64) (h : off + n ≤ m.length) : ∃ w, beLoop m n off v = some w := by
  induction n generalizing off v with
  | zero => exact ⟨v, rfl⟩
  | succ n ih =>
    obtain ⟨b, hb⟩ := byte_of_lt m off (by omega)
    obtain ⟨w, hw⟩ := ih (off + 1) ((v <<< 8) ||| b.toUInt64) (by omega)
    exact ⟨w, by simp [beLoop, hb, hw]⟩

theorem be64_of_le (h : off + 8 ≤ m.length) : ∃ v, be64 m off = some v :=
  beLoop_of_le m off 8 0 h

theorem readHeader_of_le (h : 11 ≤ m.length) : ∃ hd, readHeader m = some hd ∧ m[0]? = some hd.type := by
  obtain ⟨type, h0⟩ := byte_of_lt m 0 (by omega)
  obtain ⟨locate, h1⟩ := be16_of_le m 1 (by omega)
  obtain ⟨tracking, h3⟩ := be16_of_le m 3 (by omega)
  obtain ⟨time, h5⟩ := beLoop_of_le m 5 6 0 (by omega)
  exact ⟨⟨type, locate, tracking, time⟩, by simp [readHeader, be48, h0, h1, h3, h5], h0⟩

end Reads

/-! ### The drained deltas -/

section Drain
variable {d : Decoder} {out : LevelDelta}

theorem drain_invalid (h : out.valid = false) : d.drain out = (d, []) := by
  rw [Decoder.drain, if_neg (by simp [h])]

theorem drain_single (h : out.valid = true) (hp : d.pending.valid = false) :
    d.drain out = ({ d with pending := {} }, [out]) := by
  have hrest : d.takePending.2.drain d.takePending.1 = ({ d with pending := {} }, []) := drain_invalid hp
  rw [Decoder.drain, if_pos h, hrest]

theorem drain_pair (h : out.valid = true) (hp : d.pending.valid = true) :
    d.drain out = ({ d with pending := {} }, [out, d.pending]) := by
  have hrest : d.takePending.2.drain d.takePending.1 = ({ d with pending := {} }, [d.pending]) :=
    drain_single hp rfl
  rw [Decoder.drain, if_pos h, hrest]

/-- Taking the pending delta changes neither the table nor the counts. -/
theorem drain_kept (d : Decoder) (out : LevelDelta) :
    (d.drain out).1.orders = d.orders ∧ (d.drain out).1.stats = d.stats := by
  fun_induction Decoder.drain d out with
  | case1 d out hvalid rest ih => exact ih
  | case2 => exact ⟨rfl, rfl⟩

theorem drain_countLive (d : Decoder) (out : LevelDelta) :
    (d.countLive.drain out).1.orders = (d.drain out).1.orders ∧
    (d.countLive.drain out).1.pending = (d.drain out).1.pending ∧
    (d.countLive.drain out).2 = (d.drain out).2 := by
  have hpend : d.countLive.pending = d.pending := rfl
  cases ho : out.valid with
  | false =>
    rw [drain_invalid ho, drain_invalid ho]
    exact ⟨rfl, rfl, rfl⟩
  | true =>
    cases hp : d.pending.valid with
    | false =>
      rw [drain_single ho hp, drain_single ho (hpend ▸ hp)]
      exact ⟨rfl, rfl, rfl⟩
    | true =>
      rw [drain_pair ho hp, drain_pair ho (hpend ▸ hp)]
      exact ⟨rfl, rfl, rfl⟩

end Drain

/-! ### What a call does -/

/-- What the switch does about the event of a body. -/
inductive Dispatched (d : Decoder) (out : LevelDelta) : OrderEvent → Decoder × LevelDelta → Prop
  | quiet : Dispatched d out .quiet (d, out)
  | add (ref : UInt64) {o : Order} : o.side ≠ .kNone → Dispatched d out (.add ref o)
    ({ d with orders := d.orders.insert ref o },
      { out with valid := true, type := .kAdd, side := o.side, price := o.price, size := o.shares })
  | cut (ref : UInt64) (shares : UInt32) {type : MsgType} : type = .kExecute ∨ type = .kCancel →
    Dispatched d out (.cut ref shares) (d.reduce ref shares type out)
  | drop (ref : UInt64) : Dispatched d out (.drop ref) (d.delete ref out)
  | replace (orig fresh : UInt64) (shares : UInt32) (price : Int) :
    Dispatched d out (.replace orig fresh shares price) (d.replace orig fresh shares price out)

/-- And what the whole call does. -/
inductive Applied (d : Decoder) : OrderEvent → Decoder × LevelDelta → Prop
  | ignored : Applied d .quiet (d.countIgnored, {})
  | malformed : Applied d .quiet (d.countMalformed, {})
  | decoded {e : OrderEvent} {d' : Decoder} {out out' : LevelDelta} : out.valid = false →
    Dispatched d.countDecoded out e (d', out') → Applied d e (d'.countLive, out')

/-- Every field of a body lies inside the length of its type. -/
theorem dispatch_spec (d : Decoder) (out : LevelDelta) {t : ItchType} {body : List UInt8}
    (hlen : body.length = t.length) :
    ∃ e r, OrderEvent.ofType? t body = some e ∧ d.dispatch t body out = some r ∧ Dispatched d out e r := by
  have h64 : ∀ off, off + 8 ≤ t.length → ∃ v, be64 body off = some v := fun off h => be64_of_le body off (by omega)
  have h32 : ∀ off, off + 4 ≤ t.length → ∃ v, be32 body off = some v := fun off h => be32_of_le body off (by omega)
  cases t
  case kAddOrder | kAddOrderMpid =>
    obtain ⟨ref, href⟩ := h64 11 (by decide)
    obtain ⟨sideByte, hside⟩ := byte_of_lt body 19 (by rw [hlen]; decide)
    obtain ⟨shares, hshares⟩ := h32 20 (by decide)
    obtain ⟨price, hprice⟩ := h32 32 (by decide)
    exact ⟨_, _, by simp [OrderEvent.ofType?, href, hside, hshares, hprice]; rfl,
      by simp [Decoder.dispatch, href, hside, hshares, hprice], .add ref (by dsimp only; split <;> decide)⟩
  case kOrderExecuted | kOrderExecutedPrice =>
    obtain ⟨ref, href⟩ := h64 11 (by decide)
    obtain ⟨shares, hshares⟩ := h32 19 (by decide)
    exact ⟨_, _, by simp [OrderEvent.ofType?, href, hshares], by simp [Decoder.dispatch, href, hshares],
      .cut ref shares (Or.inl rfl)⟩
  case kOrderCancel =>
    obtain ⟨ref, href⟩ := h64 11 (by decide)
    obtain ⟨shares, hshares⟩ := h32 19 (by decide)
    exact ⟨_, _, by simp [OrderEvent.ofType?, href, hshares], by simp [Decoder.dispatch, href, hshares],
      .cut ref shares (Or.inr rfl)⟩
  case kOrderDelete =>
    obtain ⟨ref, href⟩ := h64 11 (by decide)
    exact ⟨_, _, by simp [OrderEvent.ofType?, href], by simp [Decoder.dispatch, href], .drop ref⟩
  case kOrderReplace =>
    obtain ⟨orig, horig⟩ := h64 11 (by decide)
    obtain ⟨fresh, hfresh⟩ := h64 19 (by decide)
    obtain ⟨shares, hshares⟩ := h32 27 (by decide)
    obtain ⟨price, hprice⟩ := h32 31 (by decide)
    exact ⟨_, _, by simp [OrderEvent.ofType?, horig, hfresh, hshares, hprice]; rfl,
      by simp [Decoder.dispatch, horig, hfresh, hshares, hprice], .replace orig fresh shares _⟩
  all_goals exact ⟨_, _, rfl, rfl, .quiet⟩

/-- A body of at least a header goes through, whatever its type and length. -/
theorem apply_spec (d : Decoder) {body : List UInt8} (hlen : 11 ≤ body.length) :
    ∃ e r, OrderEvent.ofBody? body = some e ∧ d.apply body = some r ∧ Applied d e r := by
  obtain ⟨hd, hhd, htype⟩ := readHeader_of_le body hlen
  have hne : body.length ≠ 0 := by omega
  cases hof : ItchType.ofByte? hd.type with
  | none =>
    exact ⟨.quiet, _, by simp [OrderEvent.ofBody?, htype, hof], by simp [Decoder.apply, hne, hhd, hof], .ignored⟩
  | some t =>
    have hexp : expectedLength hd.type = t.length := by simp [expectedLength, hof]
    by_cases hl : body.length = t.length
    · obtain ⟨e, ⟨d', out⟩, he, hdis, hspec⟩ := dispatch_spec d.countDecoded
        { timestampNs := hd.timestampNs, stockLocate := hd.stockLocate } hl
      exact ⟨e, _, by simp [OrderEvent.ofBody?, htype, hof, hl, he],
        by simp [Decoder.apply, hne, hhd, hof, hexp, ← hl, hdis], .decoded rfl hspec⟩
    · exact ⟨.quiet, _, by simp [OrderEvent.ofBody?, htype, hof, hl],
        by simp [Decoder.apply, hne, hhd, hof, hexp, hl], .malformed⟩

/-! ### One body -/

/-- What the loop makes of a call that returned `out`: the event's effect on the table, and nothing pending. -/
def Drained (orders : OrderTable) (e : OrderEvent) (d : Decoder) (out : LevelDelta) : Prop :=
  Effect orders e (d.drain out).1.orders (d.drain out).2 ∧ (d.drain out).1.pending = {}

section Body
variable {d : Decoder} {out : LevelDelta} {ref orig fresh : UInt64} {shares : UInt32} {price : Int}

theorem drained_none {e : OrderEvent} {orders : OrderTable} (ho : out.valid = false) (hp : d.pending = {})
    (h : Effect orders e d.orders []) : Drained orders e d out := by
  rw [Drained, drain_invalid ho]
  exact ⟨h, hp⟩

theorem drained_one {e : OrderEvent} {orders : OrderTable} (ho : out.valid = true) (hp : d.pending = {})
    (h : Effect orders e d.orders [out]) : Drained orders e d out := by
  rw [Drained, drain_single ho (by rw [hp])]
  exact ⟨h, rfl⟩

/-- An execution or a cancel takes at most what remains of the order it names. -/
theorem reduce_drained {type : MsgType} (htype : type = .kExecute ∨ type = .kCancel) (hp : d.pending = {})
    (ho : out.valid = false) :
    Drained d.orders (.cut ref shares) (d.reduce ref shares type out).1 (d.reduce ref shares type out).2 := by
  unfold Decoder.reduce
  cases hl : d.orders.lookup ref with
  | none => exact drained_none ho hp (.quiet rfl)
  | some o =>
    have htaken : (if shares ≥ o.shares then o.shares else shares) ≤ o.shares := by
      split
      · exact UInt32.le_refl _
      · next h => exact UInt32.le_of_lt (UInt32.not_le.mp h)
    exact drained_one rfl hp (.cut rfl hl htaken htype ⟨rfl, rfl, rfl, rfl, rfl⟩)

theorem delete_drained (hp : d.pending = {}) (ho : out.valid = false) :
    Drained d.orders (.drop ref) (d.delete ref out).1 (d.delete ref out).2 := by
  unfold Decoder.delete
  cases hl : d.orders.lookup ref with
  | none => exact drained_none ho hp (.quiet rfl)
  | some o =>
    refine drained_one rfl hp ?_
    have hkeep : d.orders.keep ref o (o.shares - o.shares) = d.orders.erase ref := by simp [OrderTable.keep]
    exact hkeep ▸ .cut rfl hl (UInt32.le_refl _) (Or.inr rfl) ⟨rfl, rfl, rfl, rfl, rfl⟩

theorem replace_drained (hp : d.pending = {}) (ho : out.valid = false) :
    Drained d.orders (.replace orig fresh shares price) (d.replace orig fresh shares price out).1
      (d.replace orig fresh shares price out).2 := by
  unfold Decoder.replace
  cases hl : d.orders.lookup orig with
  | none => exact drained_none ho hp (.unknown hl)
  | some old =>
    unfold Drained
    rw [drain_pair rfl rfl]
    exact ⟨.replace hl ⟨rfl, rfl, rfl, rfl, rfl⟩ ⟨rfl, rfl, rfl, rfl, rfl⟩, rfl⟩

/-- What is emitted is the effect of the event. -/
theorem Dispatched.drained {e : OrderEvent} {r : Decoder × LevelDelta} (h : Dispatched d out e r) (hp : d.pending = {})
    (ho : out.valid = false) : Drained d.orders e r.1 r.2 := by
  cases h with
  | quiet => exact drained_none ho hp (.quiet rfl)
  | add ref hside => exact drained_one rfl hp (.add hside ⟨rfl, rfl, rfl, rfl, rfl⟩)
  | cut ref shares htype => exact reduce_drained htype hp ho
  | drop ref => exact delete_drained hp ho
  | replace orig fresh shares price => exact replace_drained hp ho

/-- The loop of one body: the effect of its event, and nothing is left pending. -/
theorem feed_effect {body : List UInt8} (hlen : 11 ≤ body.length) (hp : d.pending = {}) :
    ∃ e d' deltas, OrderEvent.ofBody? body = some e ∧ d.feed body = some (d', deltas) ∧
      Effect d.orders e d'.orders deltas ∧ d'.pending = {} := by
  obtain ⟨e, r, he, happly, hspec⟩ := apply_spec d hlen
  cases hspec with
  | ignored =>
    exact ⟨.quiet, d.countIgnored, [], he, by simp [Decoder.feed, happly, drain_invalid], .quiet rfl, hp⟩
  | malformed =>
    exact ⟨.quiet, d.countMalformed, [], he, by simp [Decoder.feed, happly, drain_invalid], .quiet rfl, hp⟩
  | @decoded _ d' _ out ho hdis =>
    refine ⟨e, _, _, he, by simp [Decoder.feed, happly]; rfl, ?_⟩
    obtain ⟨horders, hpending, hdeltas⟩ := drain_countLive d' out
    rw [horders, hpending, hdeltas]
    exact hdis.drained hp ho

end Body

end Hft.Itch50
