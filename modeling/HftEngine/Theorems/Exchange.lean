import HftEngine.Exchange
import HftEngine.Theorems.ItchParser

/-! Orders and reports on the wire: every one has its 40 bytes, and every 40 bytes are one's. -/

namespace Hft

open Bytes

/-! ### The packed layout -/

/-- A record made of the fields of the layout, as they are read from bytes. -/
def unpacked {α : Type} (mk : UInt64 → UInt64 → Int → UInt32 → UInt32 → UInt8 → UInt8 → UInt16 → UInt32 → α)
    (m : List UInt8) : α :=
  mk (UInt64.ofNat (leField m 0 8)) (UInt64.ofNat (leField m 8 8)) (BitVec.ofNat 64 (leField m 16 8)).toInt
    (UInt32.ofNat (leField m 24 4)) (UInt32.ofNat (leField m 28 4)) (UInt8.ofNat (leField m 32 1))
    (UInt8.ofNat (leField m 33 1)) (UInt16.ofNat (leField m 34 2)) (UInt32.ofNat (leField m 36 4))

section
variable (id mdTimestamp : UInt64) (price : Int) (symbol size : UInt32) (side tag : UInt8) (flags : UInt16)
  (pad : UInt32)

@[simp] theorem length_packed : (packed id mdTimestamp price symbol size side tag flags pad).length = 40 := by
  simp [packed]

/-- Every field is read back from its place; a price that its field cannot hold is cut to it. -/
theorem unpacked_packed {α : Type}
    (mk : UInt64 → UInt64 → Int → UInt32 → UInt32 → UInt8 → UInt8 → UInt16 → UInt32 → α) (r : List UInt8) :
    unpacked mk (packed id mdTimestamp price symbol size side tag flags pad ++ r) =
      mk id mdTimestamp (BitVec.ofInt 64 price).toInt symbol size side tag flags pad := by
  have h8 := fun v off n (rest : List UInt8) => leField_append (r := rest) (length_toLE 8 v) off n
  have h4 := fun v off n (rest : List UInt8) => leField_append (r := rest) (length_toLE 4 v) off n
  have h2 := fun v off n (rest : List UInt8) => leField_append (r := rest) (length_toLE 2 v) off n
  have h1 := fun (b : UInt8) off n (rest : List UInt8) =>
    leField_append (r := rest) (List.length_singleton (a := b)) off n
  generalize hm : packed id mdTimestamp price symbol size side tag flags pad ++ r = m
  simp only [packed, List.append_assoc] at hm
  have hid : leField m 0 8 = id.toNat := hm ▸ leField_toLE id.toNat_lt
  have hmdTimestamp : leField m 8 8 = mdTimestamp.toNat :=
    hm ▸ (h8 _ 0 8 _).trans (leField_toLE mdTimestamp.toNat_lt)
  have hprice : leField m 16 8 = (BitVec.ofInt 64 price).toNat :=
    hm ▸ (h8 _ 8 8 _).trans ((h8 _ 0 8 _).trans (leField_toLE (BitVec.isLt _)))
  have hsymbol : leField m 24 4 = symbol.toNat :=
    hm ▸ (h8 _ 16 4 _).trans ((h8 _ 8 4 _).trans ((h8 _ 0 4 _).trans (leField_toLE symbol.toNat_lt)))
  have hsize : leField m 28 4 = size.toNat :=
    hm ▸ (h8 _ 20 4 _).trans ((h8 _ 12 4 _).trans ((h8 _ 4 4 _).trans ((h4 _ 0 4 _).trans
      (leField_toLE size.toNat_lt))))
  have hside : leField m 32 1 = side.toNat :=
    hm ▸ (h8 _ 24 1 _).trans ((h8 _ 16 1 _).trans ((h8 _ 8 1 _).trans ((h4 _ 4 1 _).trans ((h4 _ 0 1 _).trans
      (leField_byte side)))))
  have htag : leField m 33 1 = tag.toNat :=
    hm ▸ (h8 _ 25 1 _).trans ((h8 _ 17 1 _).trans ((h8 _ 9 1 _).trans ((h4 _ 5 1 _).trans ((h4 _ 1 1 _).trans
      ((h1 _ 0 1 _).trans (leField_byte tag))))))
  have hflags : leField m 34 2 = flags.toNat :=
    hm ▸ (h8 _ 26 2 _).trans ((h8 _ 18 2 _).trans ((h8 _ 10 2 _).trans ((h4 _ 6 2 _).trans ((h4 _ 2 2 _).trans
      ((h1 _ 1 2 _).trans ((h1 _ 0 2 _).trans (leField_toLE flags.toNat_lt)))))))
  have hpad : leField m 36 4 = pad.toNat :=
    hm ▸ (h8 _ 28 4 _).trans ((h8 _ 20 4 _).trans ((h8 _ 12 4 _).trans ((h4 _ 8 4 _).trans ((h4 _ 4 4 _).trans
      ((h1 _ 3 4 _).trans ((h1 _ 2 4 _).trans ((h2 _ 0 4 _).trans (leField_toLE pad.toNat_lt))))))))
  rw [unpacked, hid, hmdTimestamp, hprice, hsymbol, hsize, hside, htag, hflags, hpad]
  simp only [UInt64.ofNat_toNat, UInt32.ofNat_toNat, UInt16.ofNat_toNat, UInt8.ofNat_toNat, BitVec.ofNat_toNat,
    BitVec.setWidth_eq]

end

/-- A field is read from the bytes up to its end only. -/
theorem leField_take {m : List UInt8} {k off n : Nat} (h : off + n ≤ k) :
    leField (m.take k) off n = leField m off n := by
  rw [leField, leField, List.drop_take, List.take_take, Nat.min_eq_left (by omega)]

/-- Forty bytes are those of the record that they spell. -/
theorem unpacked_eq {m : List UInt8} (hlen : m.length = 40) : unpacked packed m = m := by
  have hfield : ∀ off n, off + n ≤ 40 → toLE n (leField m off n) = (m.drop off).take n := fun off n h =>
    toLE_leField (by rw [hlen]; exact h)
  have hlt := leField_lt m
  have h64 : ∀ off, (UInt64.ofNat (leField m off 8)).toNat = leField m off 8 := fun off =>
    UInt64.toNat_ofNat_of_lt' (hlt off 8)
  have h32 : ∀ off, (UInt32.ofNat (leField m off 4)).toNat = leField m off 4 := fun off =>
    UInt32.toNat_ofNat_of_lt' (hlt off 4)
  have h16 : (UInt16.ofNat (leField m 34 2)).toNat = leField m 34 2 := UInt16.toNat_ofNat_of_lt' (hlt 34 2)
  have hprice : (BitVec.ofInt 64 (BitVec.ofNat 64 (leField m 16 8)).toInt).toNat = leField m 16 8 := by
    rw [BitVec.ofInt_toInt, BitVec.toNat_ofNat]
    exact Nat.mod_eq_of_lt (hlt 16 8)
  have hbyte : ∀ off, [UInt8.ofNat (leField m off 1)] = toLE 1 (leField m off 1) := fun _ => rfl
  have hlast : (m.drop 36).take 4 = m.drop 36 := List.take_of_length_le (by rw [List.length_drop, hlen])
  unfold unpacked packed
  simp only [h64, h32, h16, hprice, hbyte]
  rw [hfield 0 8 (by decide), hfield 8 8 (by decide), hfield 16 8 (by decide), hfield 24 4 (by decide),
    hfield 28 4 (by decide), hfield 32 1 (by decide), hfield 33 1 (by decide), hfield 34 2 (by decide),
    hfield 36 4 (by decide), hlast, slice_append m 34 2, slice_append m 33 1, slice_append m 32 1, slice_append m 28 4,
    slice_append m 24 4, slice_append m 16 8, slice_append m 8 8, slice_append m 0 8, List.drop_zero]

theorem unpacked_take {α : Type} {mk : UInt64 → UInt64 → Int → UInt32 → UInt32 → UInt8 → UInt8 → UInt16 → UInt32 → α}
    (m : List UInt8) : unpacked mk (m.take 40) = unpacked mk m := by
  unfold unpacked
  rw [leField_take (by decide : 0 + 8 ≤ 40), leField_take (by decide : 8 + 8 ≤ 40),
    leField_take (by decide : 16 + 8 ≤ 40), leField_take (by decide : 24 + 4 ≤ 40),
    leField_take (by decide : 28 + 4 ≤ 40), leField_take (by decide : 32 + 1 ≤ 40),
    leField_take (by decide : 33 + 1 ≤ 40), leField_take (by decide : 34 + 2 ≤ 40),
    leField_take (by decide : 36 + 4 ≤ 40)]

theorem packed_unpacked {m : List UInt8} (hlen : 40 ≤ m.length) : unpacked packed m = m.take 40 := by
  rw [← unpacked_take]
  exact unpacked_eq (List.length_take_of_le hlen)

theorem toInt_cut {price : Int} (h : -2 ^ 63 ≤ price ∧ price < 2 ^ 63) : (BitVec.ofInt 64 price).toInt = price := by
  rw [BitVec.toInt_ofInt]
  exact Int.bmod_eq_of_le_mul_two (by have := h.1; omega) (by have := h.2; omega)

/-! ### Orders and reports -/

namespace OrderRequest

/-- The order as it arrives: a price that the field cannot hold is cut to it. -/
def onWire (o : OrderRequest) : OrderRequest := { o with price := (BitVec.ofInt 64 o.price).toInt }

/-- Bytes after the datagram's own are not read. -/
theorem ofDatagram?_datagram (o : OrderRequest) (r : List UInt8) : ofDatagram? (o.datagram ++ r) = some o.onWire := by
  have hlong : ¬(o.datagram ++ r).length < kOrderSize := by simp [datagram, kOrderSize]
  rw [ofDatagram?, if_neg hlong]
  exact congrArg some (unpacked_packed _ _ _ _ _ _ _ _ _ OrderRequest.mk r)

theorem datagram_of_ofDatagram? {m : List UInt8} {o : OrderRequest} (h : ofDatagram? m = some o) :
    o.datagram = m.take kOrderSize ∧ (-2 ^ 63 ≤ o.price ∧ o.price < 2 ^ 63) := by
  obtain ⟨hlong, ho⟩ := Option.ite_none_left_eq_some.mp h
  obtain rfl := Option.some_inj.mp ho
  exact ⟨packed_unpacked (Nat.not_lt.mp hlong), BitVec.le_toInt _, BitVec.toInt_lt⟩

end OrderRequest

namespace ExecReport

def onWire (r : ExecReport) : ExecReport := { r with fillPrice := (BitVec.ofInt 64 r.fillPrice).toInt }

theorem ofDatagram?_datagram (r : ExecReport) (rest : List UInt8) :
    ofDatagram? (r.datagram ++ rest) = some r.onWire := by
  have hlong : ¬(r.datagram ++ rest).length < kExecSize := by simp [datagram, kExecSize]
  rw [ofDatagram?, if_neg hlong]
  exact congrArg some (unpacked_packed _ _ _ _ _ _ _ _ _ ExecReport.mk rest)

theorem datagram_of_ofDatagram? {m : List UInt8} {r : ExecReport} (h : ofDatagram? m = some r) :
    r.datagram = m.take kExecSize ∧ (-2 ^ 63 ≤ r.fillPrice ∧ r.fillPrice < 2 ^ 63) := by
  obtain ⟨hlong, hr⟩ := Option.ite_none_left_eq_some.mp h
  obtain rfl := Option.some_inj.mp hr
  exact ⟨packed_unpacked (Nat.not_lt.mp hlong), BitVec.le_toInt _, BitVec.toInt_lt⟩

end ExecReport

/-- A datagram is read as an order exactly when it begins with the bytes of that order and its field holds the price,
    and as a report in the same way: neither is misread, and none that its sender put there is lost. -/
theorem wire_round_trip :
    (∀ m o, OrderRequest.ofDatagram? m = some o ↔ (-2 ^ 63 ≤ o.price ∧ o.price < 2 ^ 63) ∧ o.datagram <+: m) ∧
    ∀ m r, ExecReport.ofDatagram? m = some r ↔
      (-2 ^ 63 ≤ r.fillPrice ∧ r.fillPrice < 2 ^ 63) ∧ r.datagram <+: m := by
  refine ⟨fun m o => ⟨fun h => ?_, ?_⟩, fun m r => ⟨fun h => ?_, ?_⟩⟩
  · obtain ⟨hbytes, hprice⟩ := OrderRequest.datagram_of_ofDatagram? h
    exact ⟨hprice, hbytes ▸ List.take_prefix kOrderSize m⟩
  · rintro ⟨hprice, rest, rfl⟩
    rw [o.ofDatagram?_datagram, OrderRequest.onWire, toInt_cut hprice]
  · obtain ⟨hbytes, hprice⟩ := ExecReport.datagram_of_ofDatagram? h
    exact ⟨hprice, hbytes ▸ List.take_prefix kExecSize m⟩
  · rintro ⟨hprice, rest, rfl⟩
    rw [r.ofDatagram?_datagram, ExecReport.onWire, toInt_cut hprice]

end Hft
