import HftEngine.Lib.Positions

/-! Tables of a power-of-two size, indexed by the low bits of a 64-bit number. -/

namespace Hft

/-- A `std::size_t` template argument that passes the power-of-two assertion of `OrderGateway`; a table
    that is indexed has a slot. -/
structure TableSize where
  val : UInt64
  pos : 0 < val
  power_of_two : val &&& (val - 1) = 0

/-- The capacity of an `SpscQueue`: its assertions also ask for two slots. -/
structure Capacity extends TableSize where
  two_le : 2 ≤ val

def TableSize.mask (c : TableSize) : UInt64 := c.val - 1

theorem TableSize.toNat_mask (c : TableSize) : c.mask.toNat = c.val.toNat - 1 :=
  UInt64.toNat_sub_of_le _ _ (UInt64.le_iff_toNat_le.mpr (UInt64.lt_iff_toNat_lt.mp c.pos))

theorem TableSize.mask_lt (c : TableSize) (x : UInt64) : (x &&& c.mask).toNat < c.val.toNat := by
  have hpos : 0 < c.val.toNat := UInt64.lt_iff_toNat_lt.mp c.pos
  have hle : (x &&& c.mask).toNat ≤ c.mask.toNat := by
    rw [UInt64.toNat_and]
    exact Nat.and_le_right
  rw [c.toNat_mask] at hle
  omega

/-- The slot `x & mask` of a table. -/
def TableSize.slot (c : TableSize) (x : UInt64) : Fin c.val.toNat := ⟨(x &&& c.mask).toNat, c.mask_lt x⟩

theorem TableSize.slot_ofCount (c : TableSize) (n : Nat) : (c.slot (Positions.ofCount n)).val = n % c.val.toNat :=
  Positions.toNat_and_mask c.pos c.power_of_two n

namespace Table

variable {α : Type} {n : Nat} {buf : Vector α n} {i j : Fin n} {v : α}

@[simp] theorem get_set_self : (buf.set i v i.isLt).get i = v := by
  show (buf.set i.val v i.isLt)[i.val] = v
  simp

theorem get_set_ne (h : i ≠ j) : (buf.set i v i.isLt).get j = buf.get j := by
  have hne : i.val ≠ j.val := fun heq => h (Fin.ext heq)
  show (buf.set i.val v i.isLt)[j.val] = buf[j.val]
  simp [hne]

@[simp] theorem get_replicate : (Vector.replicate n v).get i = v := by
  show (Vector.replicate n v)[i.val] = v
  simp

end Table

end Hft
