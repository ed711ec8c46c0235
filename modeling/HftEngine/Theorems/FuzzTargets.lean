import HftEngine.FuzzTargets
import HftEngine.Lib.Frames
import HftEngine.Theorems.BookWindow
import HftEngine.Theorems.ItchParser

/-! What the fuzz targets look for does not happen: on arbitrary bytes the book keeps its invariants after every
    message, and the frame reader hands out as many messages as there are whole frames. -/

namespace Hft

open Frames (frames)

namespace FuzzBook

open BookView (Rounding Refines)

variable {round : Rat → Rat} {data : List UInt8} {b : BookView kTicks}

/-- The messages of a buffer. -/
def messages (data : List UInt8) : List ItchMessage := (frames kMsgSize data).filterMap parseMessage

/-! ### Frames -/

theorem parse_of_le {src : List UInt8} (h : kMsgSize ≤ src.length) : ∃ m, parseMessage src = some m :=
  ⟨_, if_neg (Nat.not_lt.mpr h)⟩

/-- A round of the loop reads its frame and no byte after it. -/
theorem parse_drop {i : Nat} (hi : i < data.length / kMsgSize) :
    parseMessage (data.drop (i * kMsgSize)) = parseMessage ((data.drop (kMsgSize * i)).take kMsgSize) := by
  have hlen : ((data.drop (kMsgSize * i)).take kMsgSize).length = kMsgSize :=
    Frames.length_of_mem_frames (List.mem_map.mpr ⟨i, List.mem_range.mpr hi, rfl⟩)
  conv_lhs => rw [Nat.mul_comm, ← List.take_append_drop kMsgSize (data.drop (kMsgSize * i))]
  exact parse_append hlen

theorem map_parse (data : List UInt8) :
    (List.range (data.length / kMsgSize)).map (fun i => parseMessage (data.drop (i * kMsgSize))) =
      (messages data).map some := by
  have hparse : ∀ f ∈ frames kMsgSize data, ∃ m, parseMessage f = some m := fun f hf =>
    parse_of_le (Nat.le_of_eq (Frames.length_of_mem_frames hf).symm)
  have hmap : (frames kMsgSize data).map parseMessage = (messages data).map some := by
    unfold messages
    generalize frames kMsgSize data = fs at hparse
    induction fs with
    | nil => rfl
    | cons f fs ih =>
      obtain ⟨m, hm⟩ := hparse f List.mem_cons_self
      have hrest := ih fun g hg => hparse g (List.mem_cons_of_mem f hg)
      rw [List.map_cons, List.filterMap_cons_some hm, List.map_cons, hm, hrest]
  rw [← hmap, frames, List.map_map]
  exact List.map_congr_left fun i hi => parse_drop (List.mem_range.mp hi)

/-! ### The book -/

/-- A book of the target after any messages. -/
structure Good (b : BookView kTicks) : Prop where
  levels : ∃ A, Refines b A
  base_eq : b.base = base
  tick_eq : b.tick = tick

theorem good_book : Good book := ⟨⟨_, BookView.refines_new⟩, rfl, rfl⟩

theorem Good.apply (h : Good b) (m : ItchMessage) : Good (b.apply m) where
  levels := by
    obtain ⟨A, hA⟩ := h.levels
    exact hA.apply_any m
  base_eq := BookView.apply_base.1.trans h.base_eq
  tick_eq := BookView.apply_base.2.trans h.tick_eq

theorem Good.check (hr : Rounding round) (h : Good b) : check round b = pure () := by
  obtain ⟨A, hA⟩ := h.levels
  obtain ⟨hbid, hask⟩ := hA.bestLevels (by rw [h.tick_eq]; decide)
  rw [h.base_eq, h.tick_eq] at hbid hask
  obtain ⟨hlow, hhigh⟩ := BookView.imbalance_range hr b
  unfold FuzzBook.check
  cases hb : b.hasBid with
  | false =>
    cases ha : b.hasAsk with
    | false => simp [require, hlow, hhigh]
    | true =>
      obtain ⟨hpos, hsize, hfrom, hto⟩ := hask ha
      simp [require, hlow, hhigh, hpos, hsize, hfrom, hto]
  | true =>
    obtain ⟨hpos, hsize, hfrom, hto⟩ := hbid hb
    cases ha : b.hasAsk with
    | false => simp [require, hlow, hhigh, hpos, hsize, hfrom, hto]
    | true =>
      obtain ⟨hpos', hsize', hfrom', hto'⟩ := hask ha
      simp [require, hlow, hhigh, hpos, hsize, hfrom, hto, hpos', hsize', hfrom', hto']

theorem Good.step (hr : Rounding round) (h : Good b) {i : Nat} {m : ItchMessage}
    (hm : parseMessage (data.drop (i * kMsgSize)) = some m) :
    step round data b i = if base - 2 ^ 63 ≤ m.price then .ok (b.apply m) else .error .undefined := by
  unfold FuzzBook.step
  rw [hm]
  dsimp only
  by_cases hprice : base - 2 ^ 63 ≤ m.price
  · rw [if_pos hprice, if_neg (by omega), (h.apply m).check hr]
    rfl
  · rw [if_neg hprice, if_pos (by omega)]
    rfl

/-- The rounds of the loop over some frames. -/
theorem Good.foldlM (hr : Rounding round) {is : List Nat} {ms : List ItchMessage} (h : Good b)
    (hms : is.map (fun i => parseMessage (data.drop (i * kMsgSize))) = ms.map some) :
    is.foldlM (FuzzBook.step round data) b =
      if ∀ m ∈ ms, base - 2 ^ 63 ≤ m.price then .ok (b.applyAll ms) else .error .undefined := by
  induction is generalizing ms b with
  | nil =>
    obtain rfl : ms = [] := List.map_eq_nil_iff.mp hms.symm
    rfl
  | cons i is ih =>
    cases ms with
    | nil => cases hms
    | cons m ms =>
      obtain ⟨hm, hrest⟩ := List.cons.inj hms
      rw [List.foldlM_cons, h.step hr hm]
      by_cases hprice : base - 2 ^ 63 ≤ m.price
      · rw [if_pos hprice]
        refine (ih (h.apply m) hrest).trans ?_
        simp only [List.forall_mem_cons, hprice, true_and]
        rfl
      · rw [if_neg hprice, if_neg fun hall => hprice (hall m List.mem_cons_self)]
        rfl

end FuzzBook

namespace FuzzItch

theorem loop_eq (size : Nat) (r : FeedReader) (seen : Nat) (h : seen + r.rest.length / kMsgSize ≤ size) :
    loop size r seen = .ok (seen + r.rest.length / kMsgSize) := by
  have hpos : 0 < kMsgSize := by decide
  fun_induction loop size r seen with
  | case1 r seen hmore hnone =>
    obtain ⟨m, hm⟩ := FuzzBook.parse_of_le (of_decide_eq_true hmore)
    rw [FeedReader.next, hm] at hnone
    cases hnone
  | case2 r seen hmore m r' hnext hlt =>
    have hone := Nat.div_pos (of_decide_eq_true hmore) hpos
    omega
  | case3 r seen hmore m r' hnext hle ih =>
    obtain ⟨_, -, hr'⟩ := Option.bind_eq_some_iff.mp hnext
    cases hr'
    have hdiv : r.rest.length / kMsgSize = (r.rest.drop kMsgSize).length / kMsgSize + 1 := by
      rw [List.length_drop]
      exact Nat.div_eq_sub_div hpos (of_decide_eq_true hmore)
    rw [ih (by dsimp only; omega), hdiv]
    exact congrArg _ (by dsimp only; omega)
  | case4 r seen hlast =>
    have hlt : r.rest.length < kMsgSize := by simpa [FeedReader.hasNext] using hlast
    rw [Nat.div_eq_of_lt hlt]
    rfl

end FuzzItch

/-- Neither target ever traps: the one over the book ends in 0 unless a price is so low that the subtraction from it is
    undefined, and the one over the reader always does. -/
theorem fuzz_targets_pass {round : Rat → Rat} (hr : BookView.Rounding round) (data : List UInt8) :
    (FuzzBook.testOneInput round data =
      if ∀ m ∈ FuzzBook.messages data, FuzzBook.base - 2 ^ 63 ≤ m.price then .ok () else .error .undefined) ∧
    FuzzItch.testOneInput data = .ok () := by
  constructor
  · unfold FuzzBook.testOneInput
    rw [FuzzBook.good_book.foldlM hr (FuzzBook.map_parse data)]
    split <;> rfl
  · unfold FuzzItch.testOneInput
    have hloop := FuzzItch.loop_eq data.length ⟨data⟩ 0 (by rw [Nat.zero_add]; exact Nat.div_le_self _ _)
    rw [hloop, Nat.zero_add]
    exact if_pos (beq_self_eq_true _)

/-- A zero-size add over an add of the largest size, and a price that folds onto the lowest level. -/
theorem fuzz_targets_pass_folded :
    let data := encodeMessage
        { type := MsgType.kAdd.toByte, side := Side.kBuy.toByte, price := 900500, size := 4294967295 } ++
      (encodeMessage { type := MsgType.kAdd.toByte, side := Side.kBuy.toByte, price := 900600 } ++
        encodeMessage { type := MsgType.kAdd.toByte, side := Side.kSell.toByte, price := 899950, size := 1 })
    FuzzBook.testOneInput (fun x => x) data = .ok () ∧ FuzzItch.testOneInput data = .ok () := by
  intro data
  obtain ⟨hbook, hreader⟩ := fuzz_targets_pass BookView.Rounding.id data
  exact ⟨hbook.trans (if_pos (by decide +kernel)), hreader⟩

end Hft
