import HftEngine.ItchParser
import HftEngine.Lib.Frames

/-! Every message has its bytes and every 32 bytes are a message's. -/

namespace Hft

open Bytes

variable {m : ItchMessage} {src pre r : List UInt8} {k n off : Nat}

/-! ### Fields -/

theorem leField_append (hpre : pre.length = k) (off n : Nat) : leField (pre ++ r) (k + off) n = leField r off n := by
  rw [leField, ← List.drop_drop, List.drop_left' hpre]
  rfl

/-- A field that holds a number reads as that number. -/
theorem leField_toLE {v : Nat} (hv : v < 256 ^ n) : leField (toLE n v ++ r) 0 n = v := by
  rw [leField, List.drop_zero, List.take_left' (length_toLE n v), le_toLE, Nat.mod_eq_of_lt hv]

theorem leField_of_toLE {v : Nat} (hv : v < 256 ^ n) : leField (toLE n v) 0 n = v := by
  simpa using leField_toLE (r := []) hv

theorem leField_byte (b : UInt8) : leField ([b] ++ r) 0 1 = b.toNat := by
  simp [leField, le]

theorem leField_left (h : off + n ≤ src.length) : leField (src ++ r) off n = leField src off n := by
  rw [leField, leField, List.drop_append_of_le_length (by omega), List.take_append_of_le_length]
  rw [List.length_drop]
  omega

theorem leField_lt (src : List UInt8) (off n : Nat) : leField src off n < 256 ^ n := by
  rw [leField]
  calc le ((src.drop off).take n) < 256 ^ ((src.drop off).take n).length := le_lt _
    _ ≤ 256 ^ n := Nat.pow_le_pow_right (by decide) (List.length_take_le n _)

/-- The bytes of a field are those that it was read from. -/
theorem toLE_leField (h : off + n ≤ src.length) : toLE n (leField src off n) = (src.drop off).take n := by
  have hlen : ((src.drop off).take n).length = n := by
    rw [List.length_take, List.length_drop]
    omega
  have hbytes := toLE_le ((src.drop off).take n)
  rw [hlen] at hbytes
  rw [leField, hbytes]

/-! ### Messages -/

@[simp] theorem length_encodeMessage (m : ItchMessage) : (encodeMessage m).length = kMsgSize := by
  simp [encodeMessage, kMsgSize]

/-- A price that the field can hold. -/
def Int64Price (m : ItchMessage) : Prop := -2 ^ 63 ≤ m.price ∧ m.price < 2 ^ 63

theorem parse_encode (h : Int64Price m) : parseMessage (encodeMessage m) = some m := by
  have h8 := fun v off n (rest : List UInt8) => leField_append (r := rest) (length_toLE 8 v) off n
  have h4 := fun v off n (rest : List UInt8) => leField_append (r := rest) (length_toLE 4 v) off n
  have h1 := fun (b : UInt8) off n (rest : List UInt8) =>
    leField_append (r := rest) (List.length_singleton (a := b)) off n
  have hprice : (BitVec.ofNat 64 (BitVec.ofInt 64 m.price).toNat).toInt = m.price := by
    rw [BitVec.ofNat_toNat, BitVec.setWidth_eq, BitVec.toInt_ofInt]
    exact Int.bmod_eq_of_le_mul_two (by have := h.1; omega) (by have := h.2; omega)
  have htimestamp : leField (encodeMessage m) 0 8 = m.timestamp.toNat := leField_toLE m.timestamp.toNat_lt
  have hpriceField : leField (encodeMessage m) 8 8 = (BitVec.ofInt 64 m.price).toNat :=
    (h8 _ 0 8 _).trans (leField_toLE (BitVec.isLt _))
  have hsymbol : leField (encodeMessage m) 16 4 = m.symbol.toNat :=
    (h8 _ 8 4 _).trans ((h8 _ 0 4 _).trans (leField_toLE m.symbol.toNat_lt))
  have hsize : leField (encodeMessage m) 20 4 = m.size.toNat :=
    (h8 _ 12 4 _).trans ((h8 _ 4 4 _).trans ((h4 _ 0 4 _).trans (leField_toLE m.size.toNat_lt)))
  have hseq : leField (encodeMessage m) 24 4 = m.seq.toNat :=
    (h8 _ 16 4 _).trans ((h8 _ 8 4 _).trans ((h4 _ 4 4 _).trans ((h4 _ 0 4 _).trans (leField_toLE m.seq.toNat_lt))))
  have htype : leField (encodeMessage m) 28 1 = m.type.toNat :=
    (h8 _ 20 1 _).trans ((h8 _ 12 1 _).trans ((h4 _ 8 1 _).trans ((h4 _ 4 1 _).trans ((h4 _ 0 1 _).trans
      (leField_byte m.type)))))
  have hside : leField (encodeMessage m) 29 1 = m.side.toNat :=
    (h8 _ 21 1 _).trans ((h8 _ 13 1 _).trans ((h4 _ 9 1 _).trans ((h4 _ 5 1 _).trans ((h4 _ 1 1 _).trans
      ((h1 _ 0 1 _).trans (leField_byte m.side))))))
  have hflags : leField (encodeMessage m) 30 2 = m.flags.toNat :=
    (h8 _ 22 2 _).trans ((h8 _ 14 2 _).trans ((h4 _ 10 2 _).trans ((h4 _ 6 2 _).trans ((h4 _ 2 2 _).trans
      ((h1 _ 1 2 _).trans ((h1 _ 0 2 _).trans (leField_of_toLE m.flags.toNat_lt)))))))
  have hlen : ¬(encodeMessage m).length < kMsgSize := by
    rw [length_encodeMessage]
    exact Nat.lt_irrefl _
  rw [parseMessage, if_neg hlen, htimestamp, hpriceField, hsymbol, hsize, hseq, htype, hside, hflags, hprice]
  simp

/-- The bytes at `off`, and the rest. -/
theorem slice_append (src : List UInt8) (off n : Nat) : (src.drop off).take n ++ src.drop (off + n) = src.drop off := by
  rw [← List.drop_drop]
  exact List.take_append_drop n _

theorem encode_parse (hlen : src.length = kMsgSize) :
    ∃ m, parseMessage src = some m ∧ Int64Price m ∧ encodeMessage m = src := by
  have hfield : ∀ off n, off + n ≤ 32 → toLE n (leField src off n) = (src.drop off).take n := fun off n h =>
    toLE_leField (by rw [hlen]; exact h)
  have hlt := leField_lt src
  have h64 : ∀ off, (UInt64.ofNat (leField src off 8)).toNat = leField src off 8 := fun off =>
    UInt64.toNat_ofNat_of_lt' (hlt off 8)
  have h32 : ∀ off, (UInt32.ofNat (leField src off 4)).toNat = leField src off 4 := fun off =>
    UInt32.toNat_ofNat_of_lt' (hlt off 4)
  have h16 : (UInt16.ofNat (leField src 30 2)).toNat = leField src 30 2 := UInt16.toNat_ofNat_of_lt' (hlt 30 2)
  have hprice : (BitVec.ofInt 64 (BitVec.ofNat 64 (leField src 8 8)).toInt).toNat = leField src 8 8 := by
    rw [BitVec.ofInt_toInt, BitVec.toNat_ofNat]
    exact Nat.mod_eq_of_lt (hlt 8 8)
  have hbyte : ∀ off, [UInt8.ofNat (leField src off 1)] = toLE 1 (leField src off 1) := fun _ => rfl
  have hlast : (src.drop 30).take 2 = src.drop 30 :=
    List.take_of_length_le (by rw [List.length_drop, hlen]; decide)
  refine ⟨_, if_neg (by omega), ⟨BitVec.le_toInt _, BitVec.toInt_lt⟩, ?_⟩
  unfold encodeMessage
  simp only [h64, h32, h16, hprice, hbyte]
  rw [hfield 0 8 (by decide), hfield 8 8 (by decide), hfield 16 4 (by decide), hfield 20 4 (by decide),
    hfield 24 4 (by decide), hfield 28 1 (by decide), hfield 29 1 (by decide), hfield 30 2 (by decide), hlast,
    slice_append src 29 1, slice_append src 28 1, slice_append src 24 4, slice_append src 20 4, slice_append src 16 4,
    slice_append src 8 8, slice_append src 0 8, List.drop_zero]

/-- A message is read from its own bytes only. -/
theorem parse_append (hlen : src.length = kMsgSize) : parseMessage (src ++ r) = parseMessage src := by
  have hleft : ∀ off n, off + n ≤ 32 → leField (src ++ r) off n = leField src off n := fun off n h =>
    leField_left (by rw [hlen]; exact h)
  have hlong : ¬(src ++ r).length < kMsgSize := by
    rw [List.length_append]
    omega
  rw [parseMessage, parseMessage, if_neg hlong, if_neg (by omega), hleft 0 8 (by decide), hleft 8 8 (by decide),
    hleft 16 4 (by decide), hleft 20 4 (by decide), hleft 24 4 (by decide), hleft 28 1 (by decide),
    hleft 29 1 (by decide), hleft 30 2 (by decide)]

end Hft
