import HftEngine.Theorems.Decoder
import HftEngine.Lib.Transition

/-! Which orders are live in the decoder: those with shares left, as long as no message brings an order without any. -/

namespace Hft.Itch50

open Transition

/-! ### The table -/

namespace OrderEvent

/-- An order that comes in has shares. -/
def BringsShares : OrderEvent → Prop
  | add _ o => o.shares ≠ 0
  | replace _ _ shares _ => shares ≠ 0
  | quiet | cut _ _ | drop _ => True

/-- A removal that does not itself ask for zero shares. -/
def Takes : OrderEvent → Prop
  | cut _ shares => shares ≠ 0
  | drop _ => True
  | quiet | add _ _ | replace _ _ _ _ => False

instance : DecidablePred BringsShares
  | add _ o => inferInstanceAs (Decidable (o.shares ≠ 0))
  | replace _ _ shares _ => inferInstanceAs (Decidable (shares ≠ 0))
  | quiet | cut _ _ | drop _ => isTrue trivial

end OrderEvent

/-- Every order in the table has shares left. -/
def Resting (orders : OrderTable) : Prop := ∀ ref o, orders.lookup ref = some o → o.shares ≠ 0

section
variable {orders : OrderTable} {ref : UInt64} {o : Order}

theorem Resting.insert_iff (h : Resting orders) : Resting (orders.insert ref o) ↔ o.shares ≠ 0 := by
  refine ⟨fun hins => hins ref o (AList.lookup_insert _), fun hne r x hx => ?_⟩
  by_cases hr : r = ref
  · subst hr
    rw [AList.lookup_insert] at hx
    exact Option.some.inj hx ▸ hne
  · rw [AList.lookup_insert_ne hr] at hx
    exact h r x hx

theorem Resting.erase (h : Resting orders) (ref : UInt64) : Resting (orders.erase ref) := by
  intro r x hx
  by_cases hr : r = ref
  · subst hr
    rw [AList.lookup_erase] at hx
    cases hx
  · rw [AList.lookup_erase_ne hr] at hx
    exact h r x hx

/-- The orders that rest on the book. -/
def restingCount (orders : OrderTable) : Nat := orders.entries.countP fun e => e.2.shares ≠ 0

theorem Resting.count_eq (h : Resting orders) : restingCount orders = orders.entries.length :=
  List.countP_eq_length.mpr fun e he => decide_eq_true (h e.1 e.2 (AList.mem_lookup_iff.mpr he))

end

/-! ### One message -/

section
variable {d : Decoder} {out : LevelDelta} {ref orig fresh : UInt64} {shares : UInt32} {price : Int}

/-- What a message makes of a table of resting orders: they still rest exactly when an order that it brings has shares,
    and what it takes is not nothing. -/
structure Keeps (e : OrderEvent) (r : Decoder × LevelDelta) : Prop where
  resting : Resting r.1.orders ↔ e.BringsShares
  taken : e.Takes → r.2.valid = true → r.2.size ≠ 0

theorem keeps_of_quiet {e : OrderEvent} (hd : Resting d.orders) (he : e.BringsShares) (ho : out.valid = false) :
    Keeps e (d, out) :=
  ⟨iff_of_true hd he, fun _ hvalid => by rw [ho] at hvalid; cases hvalid⟩

theorem reduce_keeps (type : MsgType) (hd : Resting d.orders) (ho : out.valid = false) :
    Keeps (.cut ref shares) (d.reduce ref shares type out) := by
  unfold Decoder.reduce
  cases hl : d.orders.lookup ref with
  | none => exact keeps_of_quiet hd trivial ho
  | some o =>
    have hne := hd ref o hl
    refine ⟨iff_of_true ?_ trivial, fun hshares _ => ?_⟩
    · dsimp only
      generalize (if shares ≥ o.shares then o.shares else shares) = taken
      split
      · exact hd.erase ref
      · next hleft => exact hd.insert_iff.mpr hleft
    · dsimp only
      split
      · exact hne
      · exact hshares

theorem delete_keeps (hd : Resting d.orders) (ho : out.valid = false) : Keeps (.drop ref) (d.delete ref out) := by
  unfold Decoder.delete
  cases hl : d.orders.lookup ref with
  | none => exact keeps_of_quiet hd trivial ho
  | some o => exact ⟨iff_of_true (hd.erase ref) trivial, fun _ _ => hd ref o hl⟩

theorem replace_keeps (hd : Resting d.orders) : Keeps (.replace orig fresh shares price)
    (d.replace orig fresh shares price out) := by
  unfold Decoder.replace
  cases hl : d.orders.lookup orig with
  | none => exact ⟨hd.insert_iff, False.elim⟩
  | some old => exact ⟨(hd.erase orig).insert_iff, False.elim⟩

/-- The switch, one case for each event. -/
theorem Dispatched.keeps {e : OrderEvent} {r : Decoder × LevelDelta} (h : Dispatched d out e r) (hd : Resting d.orders)
    (ho : out.valid = false) : Keeps e r := by
  cases h with
  | quiet => exact keeps_of_quiet hd trivial ho
  | add ref hside => exact ⟨hd.insert_iff, False.elim⟩
  | cut ref shares htype => exact reduce_keeps _ hd ho
  | drop ref => exact delete_keeps hd ho
  | replace orig fresh shares price => exact replace_keeps hd

/-- A call, and the count of live orders after it. -/
theorem Applied.keeps {e : OrderEvent} {r : Decoder × LevelDelta} (h : Applied d e r) (hd : Resting d.orders) :
    Keeps e r ∧ (r.1.stats.liveOrders = UInt64.ofNat r.1.orders.entries.length ∨
      r.1.stats.liveOrders = d.stats.liveOrders ∧ r.1.orders = d.orders) := by
  cases h with
  | ignored | malformed => exact ⟨keeps_of_quiet hd trivial rfl, Or.inr ⟨rfl, rfl⟩⟩
  | decoded ho hdis =>
    have hkeeps := hdis.keeps hd ho
    exact ⟨⟨hkeeps.resting, hkeeps.taken⟩, Or.inl rfl⟩

end

/-! ### Runs -/

namespace Decoder

inductive Call
  | apply (body : List UInt8)
  | takePending

/-- A call on a body of at least a header, or a call for the pending delta. -/
def next? (d : Decoder) : Call → Option Decoder
  | .apply body => if 11 ≤ body.length then (d.apply body).map Prod.fst else none
  | .takePending => some d.takePending.2

def Step (d : Decoder) (c : Call) (d' : Decoder) : Prop := d.next? c = some d'

/-- The orders that are live are those that rest on the book, and a removal that is reported takes shares unless its
    message asks for none. -/
structure Sound (d : Decoder) : Prop where
  resting : Resting d.orders
  counted : d.stats.liveOrders = UInt64.ofNat (restingCount d.orders)
  taken : ∀ body d' out, 11 ≤ body.length → d.apply body = some (d', out) →
    ∀ e ∈ OrderEvent.ofBody? body, e.Takes → out.valid = true → out.size ≠ 0

/-- No order comes in without shares. -/
def Call.BringsShares : Call → Prop
  | .apply body => ∀ e ∈ OrderEvent.ofBody? body, e.BringsShares
  | .takePending => True

instance : DecidablePred Call.BringsShares
  | .apply body => inferInstanceAs (Decidable (∀ e ∈ OrderEvent.ofBody? body, e.BringsShares))
  | .takePending => isTrue trivial

variable {d d' : Decoder} {c : Call}

theorem sound_of_resting (hd : Resting d.orders)
    (hcount : d.stats.liveOrders = UInt64.ofNat d.orders.entries.length) : d.Sound where
  resting := hd
  counted := by rw [hcount, hd.count_eq]
  taken body d' out hlen happly e he htakes hvalid := by
    obtain ⟨e', r, he', happly', hspec⟩ := apply_spec d hlen
    obtain rfl : e' = e := Option.some.inj (he'.symm.trans he)
    obtain rfl : r = (d', out) := Option.some.inj (happly'.symm.trans happly)
    exact (hspec.keeps hd).1.taken htakes hvalid

theorem Sound.counted_length (h : d.Sound) : d.stats.liveOrders = UInt64.ofNat d.orders.entries.length := by
  rw [h.counted, h.resting.count_eq]

/-- From a sound state a call leads to a sound state exactly when it brings no order without shares. -/
theorem Sound.step_iff (h : d.Sound) (hs : d.Step c d') : d'.Sound ↔ c.BringsShares := by
  cases c with
  | apply body =>
    obtain ⟨hlen, hs⟩ := Option.ite_none_right_eq_some.mp hs
    obtain ⟨e, r, he, happly, hspec⟩ := apply_spec d hlen
    obtain ⟨hkeeps, hcount⟩ := hspec.keeps h.resting
    rw [happly] at hs
    cases hs
    have hbrings : (Call.apply body).BringsShares ↔ e.BringsShares :=
      ⟨fun hall => hall e he, fun hb e' he' => Option.some.inj (he.symm.trans he') ▸ hb⟩
    rw [hbrings, ← hkeeps.resting]
    refine ⟨Sound.resting, fun hresting => sound_of_resting hresting ?_⟩
    rcases hcount with hcount | ⟨hsame, horders⟩
    · exact hcount
    · show r.1.stats.liveOrders = UInt64.ofNat r.1.orders.entries.length
      rw [hsame, horders]
      exact h.counted_length
  | takePending =>
    cases hs
    exact iff_of_true (sound_of_resting h.resting h.counted_length) trivial

theorem sound_init : Sound {} :=
  sound_of_resting (fun ref o ho => by cases ho) rfl

/-- The live orders are those with shares left, in every state of a run, exactly when no Add and no Replace of the run
    brings an order without shares; and no body of at least a header is refused. -/
theorem sound_iff_brings_shares {h : List (Decoder × Call)} (hr : Run Step {} h d) :
    (((∀ p ∈ h, p.1.Sound) ∧ d.Sound) ↔ ∀ p ∈ h, p.2.BringsShares) ∧
    ∀ body, 11 ≤ body.length → ∃ d', d.Step (.apply body) d' := by
  refine ⟨hr.exact (C := fun _ c => c.BringsShares) sound_init (fun _ hsound hc hs => (hsound.step_iff hs).mpr hc)
    (fun _ hsound hc hs hsound' => hc ((hsound.step_iff hs).mp hsound')), fun body hlen => ?_⟩
  obtain ⟨-, r, -, happly, -⟩ := apply_spec d hlen
  exact ⟨r.1, by rw [Step, next?, if_pos hlen, happly]; rfl⟩

/-- An Add of 300 under reference 1 and its execution in full. -/
theorem sound_iff_brings_shares_add :
    let add : List UInt8 := [65, 0, 42, 0, 0, 0, 0, 0, 0, 0, 1, 0, 0, 0, 0, 0, 0, 0, 1, 66, 0, 0, 1, 44,
      84, 69, 83, 84, 32, 32, 32, 32, 0, 1, 134, 160]
    let execute : List UInt8 := [69, 0, 42, 0, 0, 0, 0, 0, 0, 0, 2, 0, 0, 0, 0, 0, 0, 0, 1, 0, 0, 1, 44,
      0, 0, 0, 0, 0, 0, 0, 9]
    ∃ h d, Run Step {} h d ∧ h.map Prod.snd = [Call.apply add, .takePending, .apply execute] ∧ d.Sound := by
  intro add execute
  have hsome : ([Call.apply add, .takePending, .apply execute].foldlM next? {}).isSome := by decide +kernel
  obtain ⟨d, hd⟩ := Option.isSome_iff_exists.mp hsome
  obtain ⟨h, hr, hlabels⟩ := Run.of_foldlM hd
  refine ⟨h, d, hr, hlabels, ((sound_iff_brings_shares hr).1.mpr fun p hp => ?_).2⟩
  have hmem : p.2 ∈ [Call.apply add, .takePending, .apply execute] := hlabels ▸ List.mem_map_of_mem hp
  have hall : ∀ c ∈ [Call.apply add, .takePending, .apply execute], c.BringsShares := by decide +kernel
  exact hall _ hmem

/-- An Add of no shares is live, and its Delete reports a removal of nothing. -/
theorem add_of_none_is_live :
    let add : List UInt8 := [65, 0, 42, 0, 0, 0, 0, 0, 0, 0, 1, 0, 0, 0, 0, 0, 0, 0, 1, 66, 0, 0, 0, 0,
      84, 69, 83, 84, 32, 32, 32, 32, 0, 1, 134, 160]
    let delete : List UInt8 := [68, 0, 42, 0, 0, 0, 0, 0, 0, 0, 2, 0, 0, 0, 0, 0, 0, 0, 1]
    ∃ d, Run Step {} [({}, .apply add)] d ∧ d.stats.liveOrders = 1 ∧ restingCount d.orders = 0 ∧
      (d.apply delete).map (fun r => (r.2.valid, r.2.type, r.2.size)) = some (true, .kCancel, 0) ∧ ¬d.Sound := by
  intro add delete
  have hrun : (next? {} (.apply add)).map (fun d => (d.stats.liveOrders, restingCount d.orders,
      (d.apply delete).map (fun r => (r.2.valid, r.2.type, r.2.size)))) =
      some (1, 0, some (true, .kCancel, 0)) := by decide +kernel
  obtain ⟨d, hd, hstate⟩ := Option.map_eq_some_iff.mp hrun
  obtain ⟨hlive, hstate⟩ := Prod.mk.inj hstate
  obtain ⟨hcount, hdelta⟩ := Prod.mk.inj hstate
  refine ⟨d, Run.nil.snoc hd, hlive, hcount, hdelta, fun hsound => ?_⟩
  have hcounted := hsound.counted
  rw [hlive, hcount] at hcounted
  exact absurd hcounted (by decide)

end Decoder

end Hft.Itch50
