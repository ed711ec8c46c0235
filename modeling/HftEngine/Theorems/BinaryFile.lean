import HftEngine.BinaryFile
import HftEngine.Theorems.Decoder

/-! Which reads of the decoder stay inside the message: all but those of a header that the body is too short for. -/

namespace Hft.Itch50

section
variable {m body : List UInt8} {off : Nat}

theorem beLoop_of_lt {n : Nat} {v : UInt64} (hn : 0 < n) (h : m.length < off + n) : beLoop m n off v = none := by
  induction n generalizing off v with
  | zero => exact absurd hn (Nat.lt_irrefl 0)
  | succ n ih =>
    cases hb : m[off]? with
    | none => simp [beLoop, hb]
    | some b =>
      have hlt : off < m.length := (List.getElem?_eq_some_iff.mp hb).1
      have hrest : beLoop m n (off + 1) ((v <<< 8) ||| b.toUInt64) = none := ih (by omega) (by omega)
      simp [beLoop, hb, hrest]

/-- The header spans eleven bytes. -/
theorem readHeader_of_lt (h : m.length < 11) : readHeader m = none := by
  have htime : be48 m 5 = none := beLoop_of_lt (by decide) h
  simp [readHeader, htime]

/-- Every read of a call lies inside the message exactly when the message is empty or has room for a header. -/
theorem apply_isSome_iff (d : Decoder) : (d.apply body).isSome = true ↔ body.length = 0 ∨ 11 ≤ body.length := by
  constructor
  · intro hsome
    by_contra hshort
    have hne : body.length ≠ 0 := fun h => hshort (Or.inl h)
    have hlt : body.length < 11 := by omega
    rw [Decoder.apply, if_neg hne, readHeader_of_lt hlt] at hsome
    cases hsome
  · rintro (hzero | hlong)
    · rw [Decoder.apply, if_pos hzero]
      rfl
    · obtain ⟨-, r, -, hr, -⟩ := apply_spec d hlong
      rw [hr]
      rfl

end

namespace BinaryFileReader

variable {r r' : BinaryFileReader} {f : Frame}

theorem length_body (h : r.next? = some (f, r')) : (r.body f).length = f.len := by
  obtain ⟨-, -, hle, -⟩ := next?_inv h
  rw [body, List.length_take, List.length_drop]
  omega

end BinaryFileReader

/-- The decoder stays inside the message exactly when it is empty or has room for a header; of the bodies that the
    reader finds in a buffer, those are the ones of at least eleven bytes. -/
theorem reads_inside_iff (d : Decoder) :
    (∀ body : List UInt8, (d.apply body).isSome = true ↔ body.length = 0 ∨ 11 ≤ body.length) ∧
    ∀ r r' : BinaryFileReader, ∀ f, r.next? = some (f, r') →
      ((d.apply (r.body f)).isSome = true ↔ 11 ≤ f.len) := by
  refine ⟨fun body => apply_isSome_iff d, fun r r' f h => ?_⟩
  have hpos := (BinaryFileReader.next?_inv h).1
  rw [apply_isSome_iff, BinaryFileReader.length_body h]
  omega

/-- A framed body of one byte at the end of a buffer: the header read leaves the message and the buffer. -/
theorem short_body_read_outside :
    let r : BinaryFileReader := { data := [0, 1, 65] }
    ∃ f r', r.next? = some (f, r') ∧ f.off + f.len = r.data.length ∧ f.len = 1 ∧ r.body f = [65] ∧
      Decoder.apply {} (r.body f) = none :=
  ⟨⟨2, 1⟩, _, rfl, rfl, rfl, rfl, rfl⟩

end Hft.Itch50
