import HftEngine.OrderProtocol
import HftEngine.Theorems.BinaryFile

/-! The decoder refines the order protocol: the readers recover every field from its place in the layout, and a message
    does to the table what it says about the live orders. -/

namespace Hft.Itch50

open Bytes

/-! ### The big-endian readers -/

section Readers
variable {pre m r : List UInt8} {k : Nat}

theorem getElem?_append_add (h : pre.length = k) (off : Nat) : (pre ++ m)[k + off]? = m[off]? := by
  rw [List.getElem?_append_right (by omega)]
  congr 1
  omega

theorem be16_append (h : pre.length = k) (off : Nat) : be16 (pre ++ m) (k + off) = be16 m off := by
  unfold be16
  rw [Nat.add_assoc, getElem?_append_add h, getElem?_append_add h]

theorem be32_append (h : pre.length = k) (off : Nat) : be32 (pre ++ m) (k + off) = be32 m off := by
  unfold be32
  rw [Nat.add_assoc, Nat.add_assoc, Nat.add_assoc, getElem?_append_add h, getElem?_append_add h,
    getElem?_append_add h, getElem?_append_add h]

theorem beLoop_append (h : pre.length = k) (n off : Nat) (v : UInt64) :
    beLoop (pre ++ m) n (k + off) v = beLoop m n off v := by
  induction n generalizing off v with
  | zero => rfl
  | succ n ih =>
    unfold beLoop
    rw [getElem?_append_add h, Nat.add_assoc]
    exact congrArg _ (funext fun b => ih (off + 1) _)

theorem be64_append (h : pre.length = k) (off : Nat) : be64 (pre ++ m) (k + off) = be64 m off :=
  beLoop_append h 8 off 0

theorem be48_append (h : pre.length = k) (off : Nat) : be48 (pre ++ m) (k + off) = be48 m off :=
  beLoop_append h 6 off 0

/-- Shifting a byte in multiplies by 256 and adds it. -/
theorem shift_or (v : UInt64) (b : UInt8) : (v <<< 8) ||| b.toUInt64 = UInt64.ofNat (v.toNat * 256 + b.toNat) := by
  refine UInt64.toNat_inj.mp ?_
  have hb := b.toNat_lt
  have hshift : (v <<< 8).toNat = 2 ^ 8 * (v.toNat % 2 ^ 56) := by
    rw [UInt64.toNat_shiftLeft]
    show v.toNat <<< 8 % 2 ^ 64 = _
    rw [Nat.shiftLeft_eq]
    omega
  rw [UInt64.toNat_or, hshift, UInt8.toNat_toUInt64, ← Nat.two_pow_add_eq_or_of_lt hb, UInt64.toNat_ofNat']
  omega

theorem beLoop_eq (bs : List UInt8) (v : UInt64) :
    beLoop (bs ++ r) bs.length 0 v = some (UInt64.ofNat (v.toNat * 256 ^ bs.length + be bs)) := by
  induction bs generalizing v with
  | nil => simp [beLoop, be]
  | cons b bs ih =>
    have hnext : beLoop (b :: bs ++ r) bs.length (0 + 1) ((v <<< 8) ||| b.toUInt64) =
        beLoop (bs ++ r) bs.length 0 ((v <<< 8) ||| b.toUInt64) :=
      beLoop_append (show [b].length = 1 from rfl) _ 0 _
    have hsum : v.toNat * 256 ^ (b :: bs).length + be (b :: bs) =
        (v.toNat * 256 + b.toNat) * 256 ^ bs.length + be bs := by
      rw [be, List.length_cons, Nat.pow_succ', Nat.add_mul, Nat.mul_assoc, Nat.add_assoc]
    have hread : beLoop (b :: bs ++ r) (b :: bs).length 0 v =
        beLoop (b :: bs ++ r) bs.length (0 + 1) ((v <<< 8) ||| b.toUInt64) := rfl
    rw [hread, hnext, ih, hsum, shift_or, UInt64.ofNat_add, UInt64.ofNat_mul, UInt64.ofNat_toNat, ← UInt64.ofNat_mul,
      ← UInt64.ofNat_add]

theorem beLoop_toBE (n v : Nat) : beLoop (toBE n v ++ r) n 0 0 = some (UInt64.ofNat (v % 256 ^ n)) := by
  have h := beLoop_eq (r := r) (toBE n v) 0
  rw [length_toBE, be_toBE] at h
  rw [h]
  simp

theorem be64_toBE (v : UInt64) : be64 (toBE 8 v.toNat ++ r) 0 = some v := by
  have hmod : v.toNat % 256 ^ 8 = v.toNat := Nat.mod_eq_of_lt v.toNat_lt
  rw [be64, beLoop_toBE, hmod, UInt64.ofNat_toNat]

theorem be48_toBE (v : BitVec 48) : be48 (toBE 6 v.toNat ++ r) 0 = some (UInt64.ofNat v.toNat) := by
  have hmod : v.toNat % 256 ^ 6 = v.toNat := Nat.mod_eq_of_lt v.isLt
  rw [be48, beLoop_toBE, hmod]

theorem or_bytes {a b c d : Nat} (hb : b < 256) (hc : c < 256) (hd : d < 256) :
    2 ^ 24 * a ||| 2 ^ 16 * b ||| 2 ^ 8 * c ||| d = 2 ^ 24 * a + 2 ^ 16 * b + 2 ^ 8 * c + d := by
  have h24 : 2 ^ 24 * a ||| 2 ^ 16 * b = 2 ^ 24 * a + 2 ^ 16 * b := (Nat.two_pow_add_eq_or_of_lt (by omega) a).symm
  have h16 : 2 ^ 16 * (2 ^ 8 * a + b) ||| 2 ^ 8 * c = 2 ^ 16 * (2 ^ 8 * a + b) + 2 ^ 8 * c :=
    (Nat.two_pow_add_eq_or_of_lt (by omega) _).symm
  have h8 : 2 ^ 8 * (2 ^ 16 * a + 2 ^ 8 * b + c) ||| d = 2 ^ 8 * (2 ^ 16 * a + 2 ^ 8 * b + c) + d :=
    (Nat.two_pow_add_eq_or_of_lt (by omega) _).symm
  have hfirst : 2 ^ 24 * a + 2 ^ 16 * b = 2 ^ 16 * (2 ^ 8 * a + b) := by omega
  have hsecond : 2 ^ 16 * (2 ^ 8 * a + b) + 2 ^ 8 * c = 2 ^ 8 * (2 ^ 16 * a + 2 ^ 8 * b + c) := by omega
  rw [h24, hfirst, h16, hsecond, h8]

theorem be32_toBE (v : UInt32) : be32 (toBE 4 v.toNat ++ r) 0 = some v := by
  have hread : be32 (toBE 4 v.toNat ++ r) 0 = some
      (((UInt8.ofNat (v.toNat / 256 ^ 3)).toUInt32 <<< 24) ||| ((UInt8.ofNat (v.toNat / 256 ^ 2)).toUInt32 <<< 16) |||
        ((UInt8.ofNat (v.toNat / 256 ^ 1)).toUInt32 <<< 8) ||| (UInt8.ofNat (v.toNat / 256 ^ 0)).toUInt32) := rfl
  have hshift : ∀ (b : UInt8) (k : UInt32), k.toNat = 8 ∨ k.toNat = 16 ∨ k.toNat = 24 →
      (b.toUInt32 <<< k).toNat = 2 ^ k.toNat * b.toNat := by
    intro b k hk
    have hb := b.toNat_lt
    rw [UInt32.toNat_shiftLeft, UInt8.toNat_toUInt32, Nat.shiftLeft_eq]
    rcases hk with hk | hk | hk <;> simp only [hk, Nat.reduceMod] <;> omega
  have hv := v.toNat_lt
  rw [hread]
  refine congrArg some (UInt32.toNat_inj.mp ?_)
  rw [UInt32.toNat_or, UInt32.toNat_or, UInt32.toNat_or, hshift _ 24 (by decide), hshift _ 16 (by decide),
    hshift _ 8 (by decide), UInt8.toNat_toUInt32]
  show 2 ^ 24 * _ ||| 2 ^ 16 * _ ||| 2 ^ 8 * _ ||| _ = _
  rw [or_bytes (UInt8.toNat_lt _) (UInt8.toNat_lt _) (UInt8.toNat_lt _)]
  simp only [UInt8.toNat_ofNat']
  omega

theorem be16_toBE (v : UInt16) : be16 (toBE 2 v.toNat ++ r) 0 = some v := by
  have hread : be16 (toBE 2 v.toNat ++ r) 0 = some
      (((UInt8.ofNat (v.toNat / 256 ^ 1)).toUInt16 <<< 8) ||| (UInt8.ofNat (v.toNat / 256 ^ 0)).toUInt16) := rfl
  have hshift : ((UInt8.ofNat (v.toNat / 256 ^ 1)).toUInt16 <<< 8).toNat = 2 ^ 8 * (v.toNat / 256 ^ 1 % 2 ^ 8) := by
    rw [UInt16.toNat_shiftLeft, UInt8.toNat_toUInt16, UInt8.toNat_ofNat']
    show (v.toNat / 256 ^ 1 % 2 ^ 8) <<< 8 % 2 ^ 16 = _
    rw [Nat.shiftLeft_eq]
    omega
  have hv := v.toNat_lt
  rw [hread]
  refine congrArg some (UInt16.toNat_inj.mp ?_)
  rw [UInt16.toNat_or, hshift, UInt8.toNat_toUInt16, ← Nat.two_pow_add_eq_or_of_lt (UInt8.toNat_lt _),
    UInt8.toNat_ofNat']
  omega

theorem be64_of_toBE (v : UInt64) : be64 (toBE 8 v.toNat) 0 = some v := by
  simpa using be64_toBE (r := []) v

theorem be32_of_toBE (v : UInt32) : be32 (toBE 4 v.toNat) 0 = some v := by
  simpa using be32_toBE (r := []) v

end Readers

/-! ### A packet -/

section Packets
variable {p : Packet} {d : Decoder} {out : LevelDelta}

theorem ItchType.ofByte?_toByte (t : ItchType) : ItchType.ofByte? t.toByte = some t := by
  cases t <;> rfl

theorem Packet.length_header (p : Packet) : p.header.length = 11 := by
  simp [Packet.header]

theorem Message.length_fields (m : Message) : 11 + m.fields.length = m.type.length := by
  cases m <;> simp [Message.fields, Message.type, ItchType.length, Octets.length_eq]

theorem Packet.length_encode (p : Packet) : p.encode.length = p.message.type.length := by
  rw [Packet.encode, List.length_append, p.length_header, p.message.length_fields]

theorem Packet.readHeader_encode (p : Packet) :
    readHeader p.encode =
      some ⟨p.message.type.toByte, p.stockLocate, p.trackingNumber, UInt64.ofNat p.timestamp.toNat⟩ := by
  have hbytes : p.encode = [p.message.type.toByte] ++ (toBE 2 p.stockLocate.toNat ++ (toBE 2 p.trackingNumber.toNat ++
      (toBE 6 p.timestamp.toNat ++ p.message.fields))) := by simp [Packet.encode, Packet.header]
  have hlocate : be16 p.encode 1 = some p.stockLocate := by
    rw [hbytes]
    exact (be16_append (k := 1) rfl 0).trans (be16_toBE _)
  have htracking : be16 p.encode 3 = some p.trackingNumber := by
    rw [hbytes]
    exact (be16_append (k := 1) rfl 2).trans ((be16_append (length_toBE 2 _) 0).trans (be16_toBE _))
  have htime : be48 p.encode 5 = some (UInt64.ofNat p.timestamp.toNat) := by
    rw [hbytes]
    exact (be48_append (k := 1) rfl 4).trans ((be48_append (length_toBE 2 _) 2).trans
      ((be48_append (length_toBE 2 _) 0).trans (be48_toBE _)))
  have htype : p.encode[0]? = some p.message.type.toByte := rfl
  simp [readHeader, htype, hlocate, htracking, htime]

/-- A packet gets through the header and the length check to the fields of its message. -/
theorem Packet.apply_encode (p : Packet) (d : Decoder) :
    d.apply p.encode =
      (d.countDecoded.dispatch p.message.type p.encode (p.delta none)).bind fun r => some (r.1.countLive, r.2) := by
  have hne : p.message.type.length ≠ 0 := by
    cases p.message.type <;> decide
  have hexp : expectedLength p.message.type.toByte = p.message.type.length := by
    rw [expectedLength, ItchType.ofByte?_toByte]
  simp [Decoder.apply, hne, p.readHeader_encode, ItchType.ofByte?_toByte, hexp, p.length_encode, Packet.delta]

/-! ### The table as live orders -/

theorem lookup_insert_eq (orders : OrderTable) (ref : UInt64) (o : Order) :
    (fun r => (orders.insert ref o).lookup r) = Function.update (fun r => orders.lookup r) ref (some o) := by
  funext r
  by_cases h : r = ref
  · subst h
    rw [AList.lookup_insert, Function.update_self]
  · rw [AList.lookup_insert_ne h, Function.update_of_ne h]

theorem lookup_erase_eq (orders : OrderTable) (ref : UInt64) :
    (fun r => (orders.erase ref).lookup r) = Function.update (fun r => orders.lookup r) ref none := by
  funext r
  by_cases h : r = ref
  · subst h
    rw [AList.lookup_erase, Function.update_self]
  · rw [AList.lookup_erase_ne h, Function.update_of_ne h]

/-- What a decoder and its delta make of an outcome. -/
structure Decoder.Holds (p : Packet) (pending : LevelDelta) (o : Outcome) (r : Decoder × LevelDelta) : Prop where
  live : r.1.live = o.live
  delta : r.2 = p.delta o.report
  pending : r.1.pending = if o.later.isSome then p.delta o.later else pending

theorem add_holds (d : Decoder) (ref : UInt64) (side : BookSide) (shares price : UInt32) :
    Decoder.Holds p d.pending (d.live.add ref side shares price)
      ({ d with orders := d.orders.insert ref ⟨price.toNat, shares, side.toSide⟩ },
        { p.delta none with
          valid := true, type := .kAdd, side := side.toSide, price := price.toNat, size := shares }) :=
  ⟨lookup_insert_eq d.orders ref _, rfl, rfl⟩

theorem reduce_holds (d : Decoder) (ref : UInt64) (shares : UInt32) (type : MsgType) :
    Decoder.Holds p d.pending (d.live.cut ref shares type) (d.reduce ref shares type (p.delta none)) := by
  unfold LiveOrders.cut Decoder.reduce
  have hlive : d.live ref = d.orders.lookup ref := rfl
  cases hl : d.orders.lookup ref with
  | none =>
    simp only [hlive, hl]
    exact ⟨rfl, rfl, rfl⟩
  | some o =>
    simp only [hlive, hl]
    by_cases hlt : shares < o.shares
    · have hge : ¬o.shares ≤ shares := UInt32.not_le.mpr hlt
      have hleft : o.shares - shares ≠ 0 := by
        intro h
        have := UInt32.toNat_sub_of_le _ _ (UInt32.le_of_lt hlt)
        rw [h] at this
        have := UInt32.lt_iff_toNat_lt.mp hlt
        have : (0 : UInt32).toNat = 0 := rfl
        omega
      have hmin : min shares o.shares = shares := if_pos (UInt32.le_of_lt hlt)
      simp only [ge_iff_le, hge, ↓reduceIte, hleft, hlt, hmin]
      exact ⟨lookup_insert_eq d.orders ref _, rfl, rfl⟩
    · have hge : o.shares ≤ shares := UInt32.not_lt.mp hlt
      have hmin : min shares o.shares = o.shares := by
        by_cases hle : shares ≤ o.shares
        · exact (if_pos hle).trans (UInt32.le_antisymm hle hge)
        · exact if_neg hle
      simp only [ge_iff_le, hge, ↓reduceIte, hlt, hmin, UInt32.sub_self]
      exact ⟨lookup_erase_eq d.orders ref, rfl, rfl⟩

theorem delete_holds (d : Decoder) (ref : UInt64) :
    Decoder.Holds p d.pending (d.live.drop ref) (d.delete ref (p.delta none)) := by
  unfold LiveOrders.drop Decoder.delete
  have hlive : d.live ref = d.orders.lookup ref := rfl
  cases hl : d.orders.lookup ref with
  | none =>
    simp only [hlive, hl]
    exact ⟨rfl, rfl, rfl⟩
  | some o =>
    simp only [hlive, hl]
    exact ⟨lookup_erase_eq d.orders ref, rfl, rfl⟩

theorem replace_holds (d : Decoder) (orig fresh : UInt64) (shares price : UInt32) :
    Decoder.Holds p d.pending (d.live.replace orig fresh shares price)
      (d.replace orig fresh shares price.toNat (p.delta none)) := by
  unfold LiveOrders.replace Decoder.replace
  have hlive : d.live orig = d.orders.lookup orig := rfl
  cases hl : d.orders.lookup orig with
  | none =>
    simp only [hlive, hl]
    exact ⟨lookup_insert_eq d.orders fresh _, rfl, rfl⟩
  | some o =>
    simp only [hlive, hl]
    refine ⟨(lookup_insert_eq _ fresh _).trans ?_, rfl, rfl⟩
    rw [lookup_erase_eq]
    rfl

theorem toEnginePrice_eq (price : UInt32) : toEnginePrice price = price.toNat := by
  unfold toEnginePrice
  exact Int.mul_tdiv_cancel _ (by decide)

/-- The fields that both adds begin with. -/
theorem add_fields (ref : UInt64) (side : UInt8) (shares price : UInt32) (stock : Octets 8) (r : List UInt8) :
    let m := toBE 8 ref.toNat ++ ([side] ++ (toBE 4 shares.toNat ++ (stock.bytes ++ (toBE 4 price.toNat ++ r))))
    be64 m 0 = some ref ∧ m[8]? = some side ∧ be32 m 9 = some shares ∧ be32 m 21 = some price := by
  refine ⟨be64_toBE ref, getElem?_append_add (length_toBE 8 _) 0, ?_, ?_⟩
  · exact (be32_append (length_toBE 8 _) 1).trans ((be32_append (k := 1) rfl 0).trans (be32_toBE shares))
  · exact (be32_append (length_toBE 8 _) 13).trans ((be32_append (k := 1) rfl 12).trans
      ((be32_append (length_toBE 4 _) 8).trans ((be32_append stock.length_eq 0).trans (be32_toBE price))))

/-- The fields that executions and cancels begin with. -/
theorem reduce_fields (ref : UInt64) (shares : UInt32) (r : List UInt8) :
    let m := toBE 8 ref.toNat ++ (toBE 4 shares.toNat ++ r)
    be64 m 0 = some ref ∧ be32 m 8 = some shares :=
  ⟨be64_toBE ref, (be32_append (length_toBE 8 _) 0).trans (be32_toBE shares)⟩

theorem replace_fields (orig fresh : UInt64) (shares price : UInt32) :
    let m := toBE 8 orig.toNat ++ (toBE 8 fresh.toNat ++ (toBE 4 shares.toNat ++ toBE 4 price.toNat))
    be64 m 0 = some orig ∧ be64 m 8 = some fresh ∧ be32 m 16 = some shares ∧ be32 m 20 = some price := by
  refine ⟨be64_toBE orig, (be64_append (length_toBE 8 _) 0).trans (be64_toBE fresh), ?_, ?_⟩
  · exact (be32_append (length_toBE 8 _) 8).trans ((be32_append (length_toBE 8 _) 0).trans (be32_toBE shares))
  · exact (be32_append (length_toBE 8 _) 12).trans ((be32_append (length_toBE 8 _) 4).trans
      ((be32_append (length_toBE 4 _) 0).trans (be32_of_toBE price)))

theorem BookSide.ofByte_toByte (side : BookSide) :
    (if side.toByte = 66 then Side.kBuy else Side.kSell) = side.toSide := by
  cases side <;> rfl

/-- Where a body of the type of a message has the fields of the message. -/
def Message.Reads (body : List UInt8) : Message → Prop
  | .addOrder ref side shares _ price | .addOrderMpid ref side shares _ price _ =>
    be64 body 11 = some ref ∧ body[19]? = some side.toByte ∧ be32 body 20 = some shares ∧ be32 body 32 = some price
  | .orderExecuted ref shares _ | .orderExecutedPrice ref shares _ _ _ | .orderCancel ref shares =>
    be64 body 11 = some ref ∧ be32 body 19 = some shares
  | .orderDelete ref => be64 body 11 = some ref
  | .orderReplace orig fresh shares price =>
    be64 body 11 = some orig ∧ be64 body 19 = some fresh ∧ be32 body 27 = some shares ∧ be32 body 31 = some price
  | .trade .. | .systemEvent _ | .stockDirectory _ | .tradingAction _ | .regSho _ | .marketParticipant _ => True

/-- The layout of each type has its fields where the decoder reads them. -/
theorem Packet.reads_encode (p : Packet) : p.message.Reads p.encode := by
  have h64 : ∀ off, be64 p.encode (11 + off) = be64 p.message.fields off := fun off => be64_append p.length_header off
  have h32 : ∀ off, be32 p.encode (11 + off) = be32 p.message.fields off := fun off => be32_append p.length_header off
  have hbyte : ∀ off, p.encode[11 + off]? = p.message.fields[off]? := fun off => getElem?_append_add p.length_header off
  cases hm : p.message
  all_goals rw [hm, Message.fields] at h64 h32 hbyte
  case addOrder ref side shares stock price =>
    obtain ⟨href, hside, hshares, hprice⟩ := add_fields ref side.toByte shares price stock []
    rw [List.append_nil] at href hside hshares hprice
    exact ⟨(h64 0).trans href, (hbyte 8).trans hside, (h32 9).trans hshares, (h32 21).trans hprice⟩
  case addOrderMpid ref side shares stock price mpid =>
    obtain ⟨href, hside, hshares, hprice⟩ := add_fields ref side.toByte shares price stock mpid.bytes
    exact ⟨(h64 0).trans href, (hbyte 8).trans hside, (h32 9).trans hshares, (h32 21).trans hprice⟩
  case orderExecuted ref shares matchNumber =>
    obtain ⟨href, hshares⟩ := reduce_fields ref shares (toBE 8 matchNumber.toNat)
    exact ⟨(h64 0).trans href, (h32 8).trans hshares⟩
  case orderExecutedPrice ref shares matchNumber printable price =>
    obtain ⟨href, hshares⟩ :=
      reduce_fields ref shares (toBE 8 matchNumber.toNat ++ ([printable] ++ toBE 4 price.toNat))
    exact ⟨(h64 0).trans href, (h32 8).trans hshares⟩
  case orderCancel ref shares =>
    obtain ⟨href, hshares⟩ := reduce_fields ref shares []
    rw [List.append_nil] at href hshares
    exact ⟨(h64 0).trans href, (h32 8).trans hshares⟩
  case orderDelete ref => exact (h64 0).trans (be64_of_toBE ref)
  case orderReplace orig fresh shares price =>
    obtain ⟨horig, hfresh, hshares, hprice⟩ := replace_fields orig fresh shares price
    exact ⟨(h64 0).trans horig, (h64 8).trans hfresh, (h32 16).trans hshares, (h32 20).trans hprice⟩
  -- The decoder reads no field of the other types.
  all_goals exact trivial

/-- The switch does to the table what the message says about the live orders, one case for each type. -/
theorem dispatch_encode (p : Packet) (d : Decoder) :
    ∃ r, d.dispatch p.message.type p.encode (p.delta none) = some r ∧
      Decoder.Holds p d.pending (d.live.step p.message) r := by
  have hreads := p.reads_encode
  cases hm : p.message
  all_goals rw [hm] at hreads
  case addOrder ref side shares stock price | addOrderMpid ref side shares stock price mpid =>
    obtain ⟨href, hside, hshares, hprice⟩ := hreads
    refine ⟨_, ?_, add_holds d ref side shares price⟩
    simp [Decoder.dispatch, Message.type, href, hside, hshares, hprice, toEnginePrice_eq, side.ofByte_toByte]
  case orderExecuted ref shares matchNumber | orderExecutedPrice ref shares matchNumber printable price =>
    obtain ⟨href, hshares⟩ := hreads
    refine ⟨_, ?_, reduce_holds d ref shares .kExecute⟩
    simp [Decoder.dispatch, Message.type, href, hshares]
  case orderCancel ref shares =>
    obtain ⟨href, hshares⟩ := hreads
    refine ⟨_, ?_, reduce_holds d ref shares .kCancel⟩
    simp [Decoder.dispatch, Message.type, href, hshares]
  case orderDelete ref =>
    refine ⟨_, ?_, delete_holds d ref⟩
    simp [Decoder.dispatch, Message.type, show be64 p.encode 11 = some ref from hreads]
  case orderReplace orig fresh shares price =>
    obtain ⟨horig, hfresh, hshares, hprice⟩ := hreads
    refine ⟨_, ?_, replace_holds d orig fresh shares price⟩
    simp [Decoder.dispatch, Message.type, horig, hfresh, hshares, hprice, toEnginePrice_eq]
  -- The other types change nothing.
  all_goals exact ⟨(d, p.delta none), rfl, rfl, rfl, rfl⟩

theorem apply_encode_follows (p : Packet) (d : Decoder) :
    ∃ d' out, d.apply p.encode = some (d', out) ∧ d.Follows p d' out := by
  obtain ⟨⟨d', out⟩, hdispatch, h⟩ := dispatch_encode p d.countDecoded
  exact ⟨d'.countLive, out, by rw [p.apply_encode, hdispatch]; rfl, h.live, h.delta, h.pending⟩

/-- What a message says to a table of orders. -/
def Message.event : Message → OrderEvent
  | .addOrder ref side shares _ price | .addOrderMpid ref side shares _ price _ =>
    .add ref ⟨price.toNat, shares, side.toSide⟩
  | .orderExecuted ref shares _ | .orderExecutedPrice ref shares _ _ _ | .orderCancel ref shares => .cut ref shares
  | .orderDelete ref => .drop ref
  | .orderReplace orig fresh shares price => .replace orig fresh shares price.toNat
  | .trade .. | .systemEvent _ | .stockDirectory _ | .tradingAction _ | .regSho _ | .marketParticipant _ => .quiet

theorem ofBody?_encode (p : Packet) : OrderEvent.ofBody? p.encode = some p.message.event := by
  have hbody : OrderEvent.ofBody? p.encode = OrderEvent.ofType? p.message.type p.encode := by
    have htype : p.encode[0]? = some p.message.type.toByte := rfl
    simp [OrderEvent.ofBody?, htype, ItchType.ofByte?_toByte, p.length_encode]
  have hreads := p.reads_encode
  rw [hbody]
  cases hm : p.message
  all_goals rw [hm] at hreads
  case addOrder ref side shares stock price | addOrderMpid ref side shares stock price mpid =>
    obtain ⟨href, hside, hshares, hprice⟩ := hreads
    simp [OrderEvent.ofType?, Message.type, Message.event, href, hside, hshares, hprice, toEnginePrice_eq,
      side.ofByte_toByte]
  case orderExecuted ref shares _ | orderExecutedPrice ref shares _ _ _ | orderCancel ref shares =>
    obtain ⟨href, hshares⟩ := hreads
    simp [OrderEvent.ofType?, Message.type, Message.event, href, hshares]
  case orderDelete ref =>
    simp [OrderEvent.ofType?, Message.type, Message.event, show be64 p.encode 11 = some ref from hreads]
  case orderReplace orig fresh shares price =>
    obtain ⟨horig, hfresh, hshares, hprice⟩ := hreads
    simp [OrderEvent.ofType?, Message.type, Message.event, horig, hfresh, hshares, hprice, toEnginePrice_eq]
  all_goals rfl

end Packets

/-! ### Other bodies -/

section Bodies
variable {d : Decoder} {body rest : List UInt8}

theorem exists_byte {k : Nat} (h : rest.length = k + 1) : ∃ b r, rest = [b] ++ r ∧ r.length = k := by
  obtain ⟨front, r, rfl, hfront, hr⟩ := exists_split h
  obtain ⟨b, rfl⟩ := List.length_eq_one_iff.mp hfront
  exact ⟨b, r, rfl, hr⟩

theorem exists_be64 {k : Nat} (h : rest.length = k + 8) :
    ∃ (v : UInt64) (r : List UInt8), rest = toBE 8 v.toNat ++ r ∧ r.length = k := by
  obtain ⟨v, r, rfl, hr⟩ := exists_toBE h
  exact ⟨UInt64.ofNat v, r, congrArg (· ++ r) (toBE_mod 8 v).symm, hr⟩

theorem exists_be32 {k : Nat} (h : rest.length = k + 4) :
    ∃ (v : UInt32) (r : List UInt8), rest = toBE 4 v.toNat ++ r ∧ r.length = k := by
  obtain ⟨v, r, rfl, hr⟩ := exists_toBE h
  exact ⟨UInt32.ofNat v, r, congrArg (· ++ r) (toBE_mod 4 v).symm, hr⟩

theorem exists_be16 {k : Nat} (h : rest.length = k + 2) :
    ∃ (v : UInt16) (r : List UInt8), rest = toBE 2 v.toNat ++ r ∧ r.length = k := by
  obtain ⟨v, r, rfl, hr⟩ := exists_toBE h
  exact ⟨UInt16.ofNat v, r, congrArg (· ++ r) (toBE_mod 2 v).symm, hr⟩

theorem exists_be48 {k : Nat} (h : rest.length = k + 6) :
    ∃ (v : BitVec 48) (r : List UInt8), rest = toBE 6 v.toNat ++ r ∧ r.length = k := by
  obtain ⟨v, r, rfl, hr⟩ := exists_toBE h
  exact ⟨BitVec.ofNat 48 v, r, congrArg (· ++ r) (toBE_mod 6 v).symm, hr⟩

/-- The fields that both adds begin with, whatever their side byte. -/
theorem exists_add_fields {k : Nat} (h : rest.length = k + 25) :
    ∃ (ref : UInt64) (side : UInt8) (shares : UInt32) (stock : Octets 8) (price : UInt32) (r : List UInt8),
      rest = toBE 8 ref.toNat ++ ([side] ++ (toBE 4 shares.toNat ++ (stock.bytes ++ (toBE 4 price.toNat ++ r)))) ∧
        r.length = k := by
  obtain ⟨ref, r1, rfl, h1⟩ := exists_be64 h
  obtain ⟨side, r2, rfl, h2⟩ := exists_byte h1
  obtain ⟨shares, r3, rfl, h3⟩ := exists_be32 h2
  obtain ⟨stock, r4, rfl, hstock, h4⟩ := exists_split (show r3.length = k + 4 + 8 from h3)
  obtain ⟨price, r5, rfl, h5⟩ := exists_be32 h4
  exact ⟨ref, side, shares, ⟨stock, hstock⟩, price, r5, rfl, h5⟩

theorem exists_side (side : UInt8) : (∃ s : BookSide, s.toByte = side) ∨ (side ≠ 66 ∧ side ≠ 83) := by
  by_cases hbuy : side = 66
  · exact Or.inl ⟨.buy, hbuy.symm⟩
  · by_cases hsell : side = 83
    · exact Or.inl ⟨.sell, hsell.symm⟩
    · exact Or.inr ⟨hbuy, hsell⟩

/-- Bytes of the right number are the fields of a message, or an add with no side. -/
theorem exists_message (t : ItchType) (hlen : 11 + rest.length = t.length) :
    (∃ m : Message, m.type = t ∧ m.fields = rest) ∨
      (t = .kAddOrder ∨ t = .kAddOrderMpid) ∧ rest[8]? ≠ some 66 ∧ rest[8]? ≠ some 83 := by
  -- Each field takes its bytes off the rest, and none are left after the last.
  have hlen : rest.length = t.length - 11 := by omega
  cases t <;> simp only [ItchType.length, Nat.reduceSub] at hlen
  case kSystemEvent =>
    obtain ⟨b, r, rfl, hr⟩ := exists_byte hlen
    obtain rfl := List.eq_nil_of_length_eq_zero hr
    exact Or.inl ⟨.systemEvent b, rfl, rfl⟩
  case kStockDirectory => exact Or.inl ⟨.stockDirectory ⟨rest, hlen⟩, rfl, rfl⟩
  case kTradingAction => exact Or.inl ⟨.tradingAction ⟨rest, hlen⟩, rfl, rfl⟩
  case kRegSho => exact Or.inl ⟨.regSho ⟨rest, hlen⟩, rfl, rfl⟩
  case kMarketParticipant => exact Or.inl ⟨.marketParticipant ⟨rest, hlen⟩, rfl, rfl⟩
  case kAddOrder =>
    obtain ⟨ref, side, shares, stock, price, r, rfl, hr⟩ := exists_add_fields hlen
    obtain rfl := List.eq_nil_of_length_eq_zero hr
    rcases exists_side side with ⟨s, rfl⟩ | hodd
    · exact Or.inl ⟨.addOrder ref s shares stock price, rfl, by simp [Message.fields]⟩
    · refine Or.inr ⟨Or.inl rfl, ?_⟩
      rw [(add_fields ref side shares price stock []).2.1]
      simpa using hodd
  case kAddOrderMpid =>
    obtain ⟨ref, side, shares, stock, price, r, rfl, hmpid⟩ := exists_add_fields hlen
    rcases exists_side side with ⟨s, rfl⟩ | hodd
    · exact Or.inl ⟨.addOrderMpid ref s shares stock price ⟨r, hmpid⟩, rfl, rfl⟩
    · refine Or.inr ⟨Or.inr rfl, ?_⟩
      rw [(add_fields ref side shares price stock r).2.1]
      simpa using hodd
  case kOrderExecuted =>
    obtain ⟨ref, r1, rfl, h1⟩ := exists_be64 hlen
    obtain ⟨shares, r2, rfl, h2⟩ := exists_be32 h1
    obtain ⟨matchNumber, r3, rfl, h3⟩ := exists_be64 h2
    obtain rfl := List.eq_nil_of_length_eq_zero h3
    exact Or.inl ⟨.orderExecuted ref shares matchNumber, rfl, by simp [Message.fields]⟩
  case kOrderExecutedPrice =>
    obtain ⟨ref, r1, rfl, h1⟩ := exists_be64 hlen
    obtain ⟨shares, r2, rfl, h2⟩ := exists_be32 h1
    obtain ⟨matchNumber, r3, rfl, h3⟩ := exists_be64 h2
    obtain ⟨printable, r4, rfl, h4⟩ := exists_byte h3
    obtain ⟨price, r5, rfl, h5⟩ := exists_be32 h4
    obtain rfl := List.eq_nil_of_length_eq_zero h5
    exact Or.inl ⟨.orderExecutedPrice ref shares matchNumber printable price, rfl, by simp [Message.fields]⟩
  case kOrderCancel =>
    obtain ⟨ref, r1, rfl, h1⟩ := exists_be64 hlen
    obtain ⟨shares, r2, rfl, h2⟩ := exists_be32 h1
    obtain rfl := List.eq_nil_of_length_eq_zero h2
    exact Or.inl ⟨.orderCancel ref shares, rfl, by simp [Message.fields]⟩
  case kOrderDelete =>
    obtain ⟨ref, r1, rfl, h1⟩ := exists_be64 hlen
    obtain rfl := List.eq_nil_of_length_eq_zero h1
    exact Or.inl ⟨.orderDelete ref, rfl, by simp [Message.fields]⟩
  case kOrderReplace =>
    obtain ⟨orig, r1, rfl, h1⟩ := exists_be64 hlen
    obtain ⟨fresh, r2, rfl, h2⟩ := exists_be64 h1
    obtain ⟨shares, r3, rfl, h3⟩ := exists_be32 h2
    obtain ⟨price, r4, rfl, h4⟩ := exists_be32 h3
    obtain rfl := List.eq_nil_of_length_eq_zero h4
    exact Or.inl ⟨.orderReplace orig fresh shares price, rfl, by simp [Message.fields]⟩
  case kTrade =>
    obtain ⟨ref, side, shares, stock, price, r, rfl, hr⟩ := exists_add_fields hlen
    obtain ⟨matchNumber, r1, rfl, h1⟩ := exists_be64 hr
    obtain rfl := List.eq_nil_of_length_eq_zero h1
    exact Or.inl ⟨.trade ref side shares stock price matchNumber, rfl, by simp [Message.fields]⟩

theorem exists_header (h : 11 ≤ body.length) :
    ∃ (b : UInt8) (stockLocate trackingNumber : UInt16) (timestamp : BitVec 48) (r : List UInt8),
      body = [b] ++ (toBE 2 stockLocate.toNat ++ (toBE 2 trackingNumber.toNat ++ toBE 6 timestamp.toNat)) ++ r := by
  have hlen : body.length = body.length - 11 + 11 := (Nat.sub_add_cancel h).symm
  generalize body.length - 11 = k at hlen
  obtain ⟨b, r1, rfl, h1⟩ := exists_byte hlen
  obtain ⟨stockLocate, r2, rfl, h2⟩ := exists_be16 h1
  obtain ⟨trackingNumber, r3, rfl, h3⟩ := exists_be16 h2
  obtain ⟨timestamp, r4, rfl, -⟩ := exists_be48 h3
  exact ⟨b, stockLocate, trackingNumber, timestamp, r4, by simp⟩

theorem ItchType.toByte_of_ofByte? {b : UInt8} {t : ItchType} (h : ItchType.ofByte? b = some t) : t.toByte = b := by
  unfold ofByte? at h
  simpa using List.find?_some h

/-- A body of the length of its type is a packet, or an add with no side. -/
theorem exists_packet {b : UInt8} {t : ItchType} (hb : body[0]? = some b) (ht : ItchType.ofByte? b = some t)
    (hlen : body.length = t.length) :
    (∃ p : Packet, p.encode = body) ∨ OddSide body := by
  have hlong : 11 ≤ body.length := by
    rw [hlen]
    cases t <;> decide
  obtain ⟨b, stockLocate, trackingNumber, timestamp, rest, rfl⟩ := exists_header hlong
  obtain rfl := Option.some_inj.mp hb
  have hbyte := ItchType.toByte_of_ofByte? ht
  let header := [b] ++ (toBE 2 stockLocate.toNat ++ (toBE 2 trackingNumber.toNat ++ toBE 6 timestamp.toNat))
  have hheader : header.length = 11 := by simp [header]
  have hrest : 11 + rest.length = t.length := by rw [← hlen, List.length_append, hheader]
  rcases exists_message t hrest with ⟨m, hm, rfl⟩ | ⟨hadd, hodd⟩
  · exact Or.inl ⟨⟨stockLocate, trackingNumber, timestamp, m⟩, by simp [Packet.encode, Packet.header, hm, hbyte]⟩
  · have hside : (header ++ rest)[19]? = rest[8]? := getElem?_append_add hheader 8
    refine Or.inr ⟨?_, hside ▸ hodd.1, hside ▸ hodd.2⟩
    rcases hadd with rfl | rfl
    · exact Or.inl ⟨congrArg some hbyte.symm, hlen⟩
    · exact Or.inr ⟨congrArg some hbyte.symm, hlen⟩

theorem readHeader_type {h : Header} (hh : readHeader body = some h) : body[0]? = some h.type := by
  obtain ⟨type, htype, hh⟩ := Option.bind_eq_some_iff.mp hh
  obtain ⟨_, -, hh⟩ := Option.bind_eq_some_iff.mp hh
  obtain ⟨_, -, hh⟩ := Option.bind_eq_some_iff.mp hh
  obtain ⟨_, -, hh⟩ := Option.bind_eq_some_iff.mp hh
  cases hh
  exact htype

theorem OddSide.type (hodd : OddSide body) :
    ∃ b t, body[0]? = some b ∧ ItchType.ofByte? b = some t ∧ (t = .kAddOrder ∨ t = .kAddOrderMpid) ∧
      body.length = t.length := by
  rcases hodd.1 with ⟨h0, hlen⟩ | ⟨h0, hlen⟩
  · exact ⟨65, .kAddOrder, h0, rfl, Or.inl rfl, hlen⟩
  · exact ⟨70, .kAddOrderMpid, h0, rfl, Or.inr rfl, hlen⟩

theorem OddSide.length (hodd : OddSide body) : 19 < body.length := by
  rcases hodd.1 with ⟨-, hlen⟩ | ⟨-, hlen⟩ <;> omega

/-- With a side byte it is a packet. -/
theorem OddSide.exists_packet (hodd : OddSide body) : ∃ p : Packet, p.encode = body.set 19 83 := by
  obtain ⟨b, t, hb, ht, -, hlen⟩ := hodd.type
  have hb' : (body.set 19 83)[0]? = some b := by rw [List.getElem?_set_ne (by decide), hb]
  rcases Itch50.exists_packet hb' ht (by rw [List.length_set, hlen]) with hp | ⟨-, -, hsell⟩
  · exact hp
  · exact absurd (List.getElem?_set_self hodd.length) hsell

/-- The decoder takes an add with no side as a sell. -/
theorem apply_set_side (d : Decoder) (hodd : OddSide body) : d.apply (body.set 19 83) = d.apply body := by
  obtain ⟨b, t, hb, ht, hadd, -⟩ := hodd.type
  have hget : ∀ i, i ≠ 19 → (body.set 19 83)[i]? = body[i]? := fun i hi => List.getElem?_set_ne (Ne.symm hi)
  have hheader : readHeader (body.set 19 83) = readHeader body := by
    simp [readHeader, be16, be48, beLoop, hget]
  have hset : (body.set 19 83)[19]? = some 83 := List.getElem?_set_self hodd.length
  obtain ⟨side, hside⟩ := byte_of_lt body 19 hodd.length
  have hne : side ≠ 66 := fun h => hodd.2.1 (by rw [hside, h])
  have href : be64 (body.set 19 83) 11 = be64 body 11 := by simp [be64, beLoop, hget]
  have hshares : be32 (body.set 19 83) 20 = be32 body 20 := by simp [be32, hget]
  have hprice : be32 (body.set 19 83) 32 = be32 body 32 := by simp [be32, hget]
  have hdispatch : ∀ (d' : Decoder) out, d'.dispatch t (body.set 19 83) out = d'.dispatch t body out := by
    intro d' out
    rcases hadd with rfl | rfl <;> simp [Decoder.dispatch, href, hshares, hprice, hset, hside, hne]
  unfold Decoder.apply
  rw [List.length_set, hheader]
  cases hh : readHeader body with
  | none => rfl
  | some h =>
    have hb' : h.type = b := Option.some_inj.mp ((readHeader_type hh).symm.trans hb)
    simp [hb', ht, hdispatch]

/-- A body that is neither a packet nor an add with no side. -/
theorem apply_of_not_packet (d : Decoder) (h : 11 ≤ body.length) (hp : ∀ p : Packet, p.encode ≠ body)
    (hodd : ¬OddSide body) :
    ∃ d' out, d.apply body = some (d', out) ∧ out.valid = false ∧ d'.orders = d.orders ∧ d'.pending = d.pending := by
  obtain ⟨hd, hhd, -⟩ := readHeader_of_le body h
  have hne : body.length ≠ 0 := by omega
  cases ht : ItchType.ofByte? hd.type with
  | none => exact ⟨d.countIgnored, {}, by simp [Decoder.apply, hne, hhd, ht], rfl, rfl, rfl⟩
  | some t =>
    have hexp : expectedLength hd.type = t.length := by simp [expectedLength, ht]
    by_cases hlen : body.length = t.length
    · rcases exists_packet (readHeader_type hhd) ht hlen with ⟨p, hbody⟩ | hside
      · exact absurd hbody (hp p)
      · exact absurd hside hodd
    · exact ⟨d.countMalformed, {}, by simp [Decoder.apply, hne, hhd, ht, hexp, hlen], rfl, rfl, rfl⟩

end Bodies

/-- The decoder does to its table exactly what a packet says about the live orders; an add whose side byte names no
    side counts as a sell, and every other body of at least a header's length changes nothing. -/
theorem decode_refines (d : Decoder) :
    (∀ p : Packet, ∃ d' out, d.apply p.encode = some (d', out) ∧ d.Follows p d' out) ∧
    (∀ body, OddSide body →
      ∃ p : Packet, p.encode = body.set 19 83 ∧ ∃ d' out, d.apply body = some (d', out) ∧ d.Follows p d' out) ∧
    ∀ body, 11 ≤ body.length → (∀ p : Packet, p.encode ≠ body) → ¬OddSide body →
      ∃ d' out, d.apply body = some (d', out) ∧ out.valid = false ∧ d'.orders = d.orders ∧ d'.pending = d.pending := by
  refine ⟨fun p => apply_encode_follows p d, fun body hodd => ?_, fun body => apply_of_not_packet d⟩
  obtain ⟨p, hp⟩ := hodd.exists_packet
  refine ⟨p, hp, ?_⟩
  rw [← apply_set_side d hodd, ← hp]
  exact apply_encode_follows p d

end Hft.Itch50
