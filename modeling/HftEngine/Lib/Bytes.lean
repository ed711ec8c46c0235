import Mathlib.Data.List.Basic
import Mathlib.Data.Nat.ModEq

/-! Numbers as bytes, least or most significant first. -/

namespace Bytes

/-- The number that bytes spell, least significant first. -/
def le : List UInt8 → Nat
  | [] => 0
  | b :: bs => b.toNat + 256 * le bs

/-- The number that bytes spell, most significant first. -/
def be : List UInt8 → Nat
  | [] => 0
  | b :: bs => b.toNat * 256 ^ bs.length + be bs

def toLE : Nat → Nat → List UInt8
  | 0, _ => []
  | n + 1, v => UInt8.ofNat v :: toLE n (v / 256)

def toBE : Nat → Nat → List UInt8
  | 0, _ => []
  | n + 1, v => UInt8.ofNat (v / 256 ^ n) :: toBE n v

section
variable {n : Nat} {bs : List UInt8}

@[simp] theorem length_toLE (n v : Nat) : (toLE n v).length = n := by
  induction n generalizing v with
  | zero => rfl
  | succ n ih => rw [toLE, List.length_cons, ih]

@[simp] theorem length_toBE (n v : Nat) : (toBE n v).length = n := by
  induction n with
  | zero => rfl
  | succ n ih => rw [toBE, List.length_cons, ih]

theorem le_lt (bs : List UInt8) : le bs < 256 ^ bs.length := by
  induction bs with
  | nil => exact Nat.zero_lt_one
  | cons b bs ih =>
    have := b.toNat_lt
    rw [le, List.length_cons, Nat.pow_succ]
    omega

theorem be_lt (bs : List UInt8) : be bs < 256 ^ bs.length := by
  induction bs with
  | nil => exact Nat.zero_lt_one
  | cons b bs ih =>
    have hb : b.toNat + 1 ≤ 256 := b.toNat_lt
    calc be (b :: bs) < b.toNat * 256 ^ bs.length + 256 ^ bs.length := Nat.add_lt_add_left ih _
      _ = (b.toNat + 1) * 256 ^ bs.length := (Nat.succ_mul _ _).symm
      _ ≤ 256 * 256 ^ bs.length := Nat.mul_le_mul_right _ hb
      _ = 256 ^ (b :: bs).length := (Nat.pow_succ' ..).symm

theorem le_toLE (n v : Nat) : le (toLE n v) = v % 256 ^ n := by
  induction n generalizing v with
  | zero => rw [Nat.pow_zero, Nat.mod_one]; rfl
  | succ n ih =>
    have hbyte : (UInt8.ofNat v).toNat = v % 256 := UInt8.toNat_ofNat'
    have hpow : 256 ^ (n + 1) = 256 * 256 ^ n := Nat.pow_succ'
    rw [toLE, le, ih, hbyte, hpow, Nat.mod_mul]

theorem be_toBE (n v : Nat) : be (toBE n v) = v % 256 ^ n := by
  induction n with
  | zero => rw [Nat.pow_zero, Nat.mod_one]; rfl
  | succ n ih =>
    have hbyte : (UInt8.ofNat (v / 256 ^ n)).toNat = v / 256 ^ n % 256 := UInt8.toNat_ofNat'
    rw [toBE, be, ih, length_toBE, hbyte, Nat.mod_pow_succ, Nat.mul_comm, Nat.add_comm]

theorem toBE_mod (n v : Nat) : toBE n (v % 256 ^ n) = toBE n v := by
  have hall : ∀ k ≤ n, toBE k (v % 256 ^ n) = toBE k v := by
    intro k
    induction k with
    | zero => exact fun _ => rfl
    | succ k ih =>
      intro hk
      obtain ⟨d, rfl⟩ := Nat.exists_eq_add_of_le hk
      rw [toBE, toBE, ih (by omega)]
      congr 1
      refine UInt8.toNat_inj.mp ?_
      rw [UInt8.toNat_ofNat', UInt8.toNat_ofNat', Nat.add_assoc, Nat.add_comm 1 d, Nat.pow_add,
        Nat.mod_mul_right_div_self, Nat.pow_succ, Nat.mod_mul_left_mod]
  exact hall n (Nat.le_refl n)

/-- Bytes are the bytes of their number. -/
theorem toBE_be (bs : List UInt8) : toBE bs.length (be bs) = bs := by
  induction bs with
  | nil => rfl
  | cons b bs ih =>
    have hlt := be_lt bs
    have hpos : 0 < 256 ^ bs.length := Nat.pow_pos (by decide)
    have hhead : be (b :: bs) / 256 ^ bs.length = b.toNat := by
      rw [be, Nat.add_comm, Nat.add_mul_div_right _ _ hpos, Nat.div_eq_of_lt hlt, Nat.zero_add]
    have htail : be (b :: bs) % 256 ^ bs.length = be bs := by
      rw [be, Nat.add_comm, Nat.add_mul_mod_self_right, Nat.mod_eq_of_lt hlt]
    rw [List.length_cons, toBE, hhead, ← toBE_mod, htail, ih, UInt8.ofNat_toNat]

theorem toLE_le (bs : List UInt8) : toLE bs.length (le bs) = bs := by
  induction bs with
  | nil => rfl
  | cons b bs ih =>
    have hb := b.toNat_lt
    have hhead : UInt8.ofNat (le (b :: bs)) = b := by
      refine UInt8.toNat_inj.mp ?_
      rw [UInt8.toNat_ofNat', le]
      omega
    have htail : le (b :: bs) / 256 = le bs := by
      rw [le]
      omega
    rw [List.length_cons, toLE, hhead, htail, ih]

/-- The first bytes of a long enough list, and the rest. -/
theorem exists_split {k : Nat} (h : bs.length = k + n) :
    ∃ front rest, bs = front ++ rest ∧ front.length = n ∧ rest.length = k :=
  ⟨bs.take n, bs.drop n, (List.take_append_drop n bs).symm, List.length_take_of_le (by omega), by
    rw [List.length_drop]; omega⟩

/-- The first bytes of a long enough list spell a number. -/
theorem exists_toBE {k : Nat} (h : bs.length = k + n) : ∃ v rest, bs = toBE n v ++ rest ∧ rest.length = k := by
  obtain ⟨front, rest, rfl, rfl, hrest⟩ := exists_split h
  exact ⟨be front, rest, by rw [toBE_be], hrest⟩

end

end Bytes
