import HftEngine.Itch50
import HftEngine.Lib.Bytes

/-! The BinaryFILE framing (`itch50.hpp`): message bodies, each behind a two-byte big-endian length. -/

namespace Hft.Itch50

/-- A buffer with the cursor of its reader. -/
structure BinaryFileReader where
  data : List UInt8
  cur : Nat := 0
  deriving DecidableEq, Repr

/-- A body in a buffer: where it starts and its length. -/
structure Frame where
  off : Nat
  len : Nat
  deriving DecidableEq, Repr

namespace BinaryFileReader

/-- The next body; `none` at the end of the buffer or on a truncated final message, where the cursor stays. -/
def next? (r : BinaryFileReader) : Option (Frame × BinaryFileReader) :=
  if r.data.length - r.cur < 2 then none
  else do
    let n := (← be16 r.data r.cur).toNat
    if n = 0 ∨ r.data.length - r.cur - 2 < n then none
    else return (⟨r.cur + 2, n⟩, { r with cur := r.cur + 2 + n })

/-- The bytes of a body. -/
def body (r : BinaryFileReader) (f : Frame) : List UInt8 := (r.data.drop f.off).take f.len

variable {r r' : BinaryFileReader} {f : Frame}

theorem next?_inv (h : r.next? = some (f, r')) :
    0 < f.len ∧ f.off = r.cur + 2 ∧ f.off + f.len ≤ r.data.length ∧ r' = { r with cur := f.off + f.len } := by
  obtain ⟨-, h⟩ := Option.ite_none_left_eq_some.mp h
  obtain ⟨n, -, h⟩ := Option.bind_eq_some_iff.mp h
  obtain ⟨hn, h⟩ := Option.ite_none_left_eq_some.mp h
  cases h
  refine ⟨?_, rfl, ?_, rfl⟩
  · show 0 < n.toNat
    omega
  · show r.cur + 2 + n.toNat ≤ r.data.length
    omega

/-- The loop `while (reader.next(body, len))`: the frames that its body sees. -/
def readAll (r : BinaryFileReader) : List Frame :=
  match _h : r.next? with
  | none => []
  | some (f, r') => f :: r'.readAll
termination_by r.data.length - r.cur
decreasing_by
  obtain ⟨hpos, hoff, hle, rfl⟩ := next?_inv _h
  show r.data.length - (f.off + f.len) < r.data.length - r.cur
  omega

/-- What the first calls of `next` return. -/
def calls (r : BinaryFileReader) : Nat → List (Option Frame)
  | 0 => []
  | k + 1 =>
    match r.next? with
    | none => none :: r.calls k
    | some (f, r') => some f :: r'.calls k

/-- The bodies of a whole buffer. -/
def readBodies (data : List UInt8) : List (List UInt8) :=
  (readAll { data }).map (body { data })

end BinaryFileReader

/-- A body behind its length. -/
def frame (body : List UInt8) : List UInt8 := Bytes.toBE 2 body.length ++ body

/-- The bytes of a file of bodies. -/
def stream (bodies : List (List UInt8)) : List UInt8 := bodies.flatMap frame

end Hft.Itch50
