import HftEngine.Theorems.OrderProtocol

/-! Reading a file of bodies gives the bodies back, and a file cut anywhere gives those whose frames are whole. -/

namespace Hft.Itch50

open Bytes

namespace BinaryFileReader

variable {r r' : BinaryFileReader} {f : Frame}

theorem readAll_of_none (h : r.next? = none) : r.readAll = [] := by
  rw [readAll]
  split
  · rfl
  · rename_i hsome
    rw [h] at hsome
    cases hsome

theorem readAll_of_some (h : r.next? = some (f, r')) : r.readAll = f :: r'.readAll := by
  rw [readAll]
  split
  · rename_i hnone
    rw [h] at hnone
    cases hnone
  · rename_i hsome
    rw [h] at hsome
    cases hsome
    rfl

/-! ### The loop over any buffer -/

/-- The frames lie behind the cursor and inside the buffer, and in order without overlap. -/
structure Laid (r : BinaryFileReader) (frames : List Frame) : Prop where
  inside : ∀ f ∈ frames, r.cur ≤ f.off ∧ 0 < f.len ∧ f.off + f.len ≤ r.data.length
  ordered : frames.Pairwise fun f g => f.off + f.len ≤ g.off

theorem Laid.cons (h : r.next? = some (f, r')) {frames : List Frame} (hl : Laid r' frames) : Laid r (f :: frames) := by
  obtain ⟨hpos, hoff, hle, rfl⟩ := next?_inv h
  have hrest : ∀ g ∈ frames, f.off + f.len ≤ g.off ∧ 0 < g.len ∧ g.off + g.len ≤ r.data.length := hl.inside
  refine ⟨?_, List.pairwise_cons.mpr ⟨fun g hg => (hrest g hg).1, hl.ordered⟩⟩
  intro g hg
  rcases List.mem_cons.mp hg with rfl | hg
  · exact ⟨by omega, hpos, hle⟩
  · obtain ⟨hafter, hgpos, hgle⟩ := hrest g hg
    exact ⟨by omega, hgpos, hgle⟩

theorem laid_readAll (r : BinaryFileReader) : Laid r r.readAll := by
  induction r using readAll.induct with
  | case1 r hnone =>
    rw [readAll_of_none hnone]
    exact ⟨by simp, List.Pairwise.nil⟩
  | case2 r f r' hsome ih =>
    rw [readAll_of_some hsome]
    exact ih.cons hsome

theorem calls_of_none (h : r.next? = none) (k : Nat) : r.calls k = List.replicate k none := by
  induction k with
  | zero => rfl
  | succ k ih => rw [calls, h, ih, List.replicate_succ]

/-- The calls return the frames of the loop, and nothing after them. -/
theorem calls_eq (r : BinaryFileReader) (k : Nat) :
    r.calls k = (r.readAll.map some).take k ++ List.replicate (k - r.readAll.length) none := by
  induction r using readAll.induct generalizing k with
  | case1 r hnone =>
    rw [readAll_of_none hnone, calls_of_none hnone]
    simp
  | case2 r f r' hsome ih =>
    rw [readAll_of_some hsome]
    cases k with
    | zero => simp [calls]
    | succ k =>
      rw [calls, hsome]
      simp [ih k]

/-! ### A file of bodies -/

section
variable {pre body rest : List UInt8} {cut : Nat}

theorem length_frame (body : List UInt8) : (frame body).length = 2 + body.length := by
  rw [frame, List.length_append, length_toBE]

theorem be16_frame (pre rest : List UInt8) (hlen : body.length ≤ 65535) :
    ∃ v, be16 (pre ++ (toBE 2 body.length ++ rest)) pre.length = some v ∧ v.toNat = body.length := by
  have hv : (UInt16.ofNat body.length).toNat = body.length := by
    rw [UInt16.toNat_ofNat']
    omega
  refine ⟨UInt16.ofNat body.length, ?_, hv⟩
  have hread := be16_toBE (r := rest) (UInt16.ofNat body.length)
  rw [hv] at hread
  exact (be16_append (k := pre.length) rfl 0).trans hread

/-- A whole frame at the cursor is the next one. -/
theorem next?_frame (hpos : 1 ≤ body.length) (hlen : body.length ≤ 65535) :
    next? ⟨pre ++ (frame body ++ rest), pre.length⟩ =
      some (⟨pre.length + 2, body.length⟩, ⟨pre ++ (frame body ++ rest), (pre ++ frame body).length⟩) := by
  obtain ⟨v, hread, hv⟩ := be16_frame pre (body ++ rest) hlen
  have hleft : (pre ++ (frame body ++ rest)).length - pre.length = 2 + body.length + rest.length := by
    rw [List.length_append, List.length_append, length_frame]
    omega
  have hcur : pre.length + 2 + body.length = (pre ++ frame body).length := by
    rw [List.length_append, length_frame]
    omega
  rw [← List.append_assoc (toBE 2 body.length)] at hread
  simp only [next?, hleft]
  rw [if_neg (by omega), frame, hread]
  simp only [Option.bind_eq_bind, Option.bind_some, hv]
  rw [if_neg (by omega), hcur]
  rfl

/-- A cut inside the frame at the cursor ends the file. -/
theorem next?_cut (hlen : body.length ≤ 65535) (hcut : cut < 2 + body.length) :
    next? ⟨pre ++ (frame body).take cut, pre.length⟩ = none := by
  have hleft : (pre ++ (frame body).take cut).length - pre.length = cut := by
    rw [List.length_append, List.length_take, length_frame]
    omega
  simp only [next?, hleft]
  by_cases hshort : cut < 2
  · exact if_pos hshort
  · have htake : (frame body).take cut = toBE 2 body.length ++ body.take (cut - 2) := by
      rw [frame, List.take_append, length_toBE, List.take_of_length_le (by rw [length_toBE]; omega)]
    obtain ⟨v, hread, hv⟩ := be16_frame pre (body.take (cut - 2)) hlen
    rw [if_neg hshort, htake, hread]
    simp only [Option.bind_eq_bind, Option.bind_some, hv]
    exact if_pos (by omega)

end

/-- How many frames of the file are whole before the cut. -/
def whole : List (List UInt8) → Nat → Nat
  | [], _ => 0
  | b :: bodies, cut => if cut < 2 + b.length then 0 else whole bodies (cut - (2 + b.length)) + 1

theorem lt_whole_iff {bodies : List (List UInt8)} {cut i : Nat} (hi : i < bodies.length) :
    i < whole bodies cut ↔ (stream (bodies.take (i + 1))).length ≤ cut := by
  induction bodies generalizing cut i with
  | nil => exact absurd hi (Nat.not_lt_zero i)
  | cons b bodies ih =>
    have hlength : (stream ((b :: bodies).take (i + 1))).length = 2 + b.length + (stream (bodies.take i)).length := by
      rw [List.take_succ_cons, stream, List.flatMap_cons, List.length_append, length_frame]
      rfl
    rw [hlength, whole]
    split
    · omega
    · cases i with
      | zero =>
        have hnil : (stream (bodies.take 0)).length = 0 := rfl
        omega
      | succ i =>
        have := @ih (cut - (2 + b.length)) i (Nat.lt_of_succ_lt_succ hi)
        omega

/-- The loop from the cursor finds the bodies whose frames are whole. -/
theorem map_body_readAll {bodies : List (List UInt8)} (hbody : ∀ b ∈ bodies, 1 ≤ b.length ∧ b.length ≤ 65535)
    (pre : List UInt8) (cut : Nat) :
    let r : BinaryFileReader := ⟨pre ++ (stream bodies).take cut, pre.length⟩
    r.readAll.map r.body = bodies.take (whole bodies cut) := by
  induction bodies generalizing pre cut with
  | nil =>
    have hend : next? ⟨pre ++ (stream []).take cut, pre.length⟩ = none := by
      simp [next?, stream]
    show (readAll _).map _ = _
    rw [readAll_of_none hend]
    rfl
  | cons b bodies ih =>
    obtain ⟨hpos, hlen⟩ := hbody b List.mem_cons_self
    have hstream : stream (b :: bodies) = frame b ++ stream bodies := rfl
    show (readAll _).map _ = _
    rw [whole, hstream]
    split
    · rename_i hcut
      rw [List.take_append_of_le_length (by rw [length_frame]; omega), readAll_of_none (next?_cut hlen hcut)]
      rfl
    · rename_i hcut
      have htake : (frame b ++ stream bodies).take cut = frame b ++ (stream bodies).take (cut - (2 + b.length)) := by
        rw [List.take_append, length_frame, List.take_of_length_le (by rw [length_frame]; omega)]
      have hfirst : body ⟨pre ++ (frame b ++ (stream bodies).take (cut - (2 + b.length))), pre.length⟩
          ⟨pre.length + 2, b.length⟩ = b := by
        have hprefix : (pre ++ toBE 2 b.length).length = pre.length + 2 := by
          rw [List.length_append, length_toBE]
        simp only [body, frame]
        rw [← hprefix, List.append_assoc, ← List.append_assoc pre, List.drop_left, List.take_left]
      have hrest := ih (fun c hc => hbody c (List.mem_cons_of_mem b hc)) (pre ++ frame b) (cut - (2 + b.length))
      rw [List.append_assoc] at hrest
      rw [htake, readAll_of_some (next?_frame hpos hlen), List.map_cons, hfirst, List.take_succ_cons]
      exact congrArg (b :: ·) hrest

theorem whole_stream (bodies : List (List UInt8)) : whole bodies (stream bodies).length = bodies.length := by
  induction bodies with
  | nil => rfl
  | cons b bodies ih =>
    have hlength : (stream (b :: bodies)).length = 2 + b.length + (stream bodies).length := by
      rw [stream, List.flatMap_cons, List.length_append, length_frame]
      rfl
    rw [hlength, whole, if_neg (by omega), Nat.add_sub_cancel_left, ih]
    rfl

theorem readBodies_take {bodies : List (List UInt8)} (hbody : ∀ b ∈ bodies, 1 ≤ b.length ∧ b.length ≤ 65535)
    (cut : Nat) : readBodies ((stream bodies).take cut) = bodies.take (whole bodies cut) :=
  map_body_readAll hbody [] cut

/-- A file gives its bodies back, and cut anywhere it gives those whose frames are whole. Over any buffer the loop
    ends, its frames lie inside, in order and apart, and every later call returns nothing. -/
theorem file_round_trip (bodies : List (List UInt8)) (hbody : ∀ b ∈ bodies, 1 ≤ b.length ∧ b.length ≤ 65535) :
    readBodies (stream bodies) = bodies ∧
    (∀ cut, ∃ m, readBodies ((stream bodies).take cut) = bodies.take m ∧
      ∀ i < bodies.length, (i < m ↔ (stream (bodies.take (i + 1))).length ≤ cut)) ∧
    ∀ data : List UInt8, let r : BinaryFileReader := { data }
      Laid r r.readAll ∧
      ∀ k, r.calls k = (r.readAll.map some).take k ++ List.replicate (k - r.readAll.length) none := by
  refine ⟨?_, fun cut => ⟨whole bodies cut, readBodies_take hbody cut, fun i hi => lt_whole_iff hi⟩,
    fun data => ⟨laid_readAll _, calls_eq _⟩⟩
  have hall := readBodies_take hbody (stream bodies).length
  rwa [List.take_length, whole_stream, List.take_length] at hall

theorem file_round_trip_pair :
    readBodies [0, 1, 65, 0, 2, 66, 67] = [[65], [66, 67]] ∧ readBodies [0, 1, 65, 0, 2, 66] = [[65]] := by
  obtain ⟨hread, hcut, -⟩ := file_round_trip [[65], [66, 67]] (by simp)
  obtain ⟨m, htake, hwhole⟩ := hcut 6
  have hm : m = 1 := by
    have hfirst := (hwhole 0 (by decide)).mpr (by decide)
    have hsecond := mt (hwhole 1 (by decide)).mp (by decide)
    omega
  subst hm
  exact ⟨hread, htake⟩

end BinaryFileReader

end Hft.Itch50
