import HftEngine.Theorems.Decoder
import HftEngine.Lib.Transition

/-! Conservation of shares in the decoder: what was added to a level and not removed from it is what its live
    orders hold. -/

namespace Hft.Itch50

open Transition

/-! ### Live shares -/

section Live
variable (level : Side → Int → Bool) {orders : OrderTable} {ref : UInt64} {o : Order} {taken : UInt32}

theorem liveIn_insert (h : ref ∉ orders) :
    liveIn (orders.insert ref o) level = portion level o.side o.price o.shares + liveIn orders level :=
  Tally.total_insert_of_notMem h

theorem liveIn_of_lookup (h : orders.lookup ref = some o) :
    liveIn orders level =
      portion level o.side o.price o.shares + liveIn (orders.erase ref) level :=
  Tally.total_of_lookup h

theorem portion_sub (htaken : taken ≤ o.shares) :
    portion level o.side o.price (o.shares - taken) + portion level o.side o.price taken =
      portion level o.side o.price o.shares := by
  have hsub := UInt32.toNat_sub_of_le _ _ htaken
  have hle := UInt32.le_iff_toNat_le.mp htaken
  unfold portion
  split <;> omega

@[simp] theorem portion_zero {side : Side} {price : Int} : portion level side price 0 = 0 := by
  unfold portion
  split <;> rfl

theorem liveIn_keep (h : orders.lookup ref = some o) (htaken : taken ≤ o.shares) :
    liveIn (orders.keep ref o (o.shares - taken)) level + portion level o.side o.price taken =
      liveIn orders level := by
  have hsub := portion_sub level htaken
  have hlive := liveIn_of_lookup level h
  unfold OrderTable.keep
  split
  · next hzero =>
    rw [hzero, portion_zero] at hsub
    omega
  · have hins : liveIn (orders.insert ref { o with shares := o.shares - taken }) level =
        portion level o.side o.price (o.shares - taken) + liveIn (orders.erase ref) level :=
      Tally.total_insert
    omega

end Live

/-! ### Emitted shares -/

section Emitted
variable {deltas deltas' : List LevelDelta} {level : Side → Int → Bool} {delta : LevelDelta} {type : MsgType}
  {side : Side} {price : Int} {size : UInt32}

@[simp] theorem added_append : added (deltas ++ deltas') level = added deltas level + added deltas' level := by
  simp [added]

@[simp] theorem removed_append :
    removed (deltas ++ deltas') level = removed deltas level + removed deltas' level := by
  simp [removed]

@[simp] theorem added_cons : added (delta :: deltas) level = added [delta] level + added deltas level := by
  simp [added]

@[simp] theorem removed_cons : removed (delta :: deltas) level = removed [delta] level + removed deltas level := by
  simp [removed]

variable (level)

theorem LevelDelta.Moves.of_add (h : delta.Moves .kAdd side price size) :
    added [delta] level = portion level side price size ∧ removed [delta] level = 0 := by
  simp [added, removed, LevelDelta.sizeIn, h.type, h.side, h.price, h.size]

theorem LevelDelta.Moves.of_removal (h : delta.Moves type side price size)
    (htype : type = .kExecute ∨ type = .kCancel) :
    added [delta] level = 0 ∧ removed [delta] level = portion level side price size := by
  rcases htype with rfl | rfl <;> simp [added, removed, LevelDelta.sizeIn, h.type, h.side, h.price, h.size]

end Emitted

/-! ### One event -/

section Step
variable (level : Side → Int → Bool) {orders orders' : OrderTable} {e : OrderEvent} {deltas : List LevelDelta}

/-- An event that introduces a fresh reference, and that names a live original when it replaces shares, moves
    exactly the shares that its deltas report. -/
theorem Effect.conserves (h : Effect orders e orders' deltas) (fresh : ∀ ref ∈ e.newRef?, ref ∉ orders)
    (known : e.Resolves orders) :
    liveIn orders level + added deltas level = liveIn orders' level + removed deltas level := by
  cases h with
  | quiet => rfl
  | add _ hd =>
    have hnew := fresh _ rfl
    have := hd.of_add level
    rw [liveIn_insert level hnew]
    omega
  | cut he ho htaken htype hd =>
    have := hd.of_removal level htype
    have := liveIn_keep level ho htaken
    omega
  | @replace orig ref shares price old removal insertion ho hr hi =>
    have hnew : ref ∉ orders.erase orig := fun hmem => fresh _ rfl (AList.mem_erase.mp hmem).2
    have hremoval := hr.of_removal level (Or.inr rfl)
    have hinsertion := hi.of_add level
    have hold := liveIn_of_lookup level ho
    have hins := liveIn_insert level (o := ⟨price, shares, old.side⟩) hnew
    rw [added_cons, removed_cons]
    simp only at hins
    omega
  | @unknown orig ref shares price ho =>
    have hzero : shares = 0 := known.resolve_left (AList.lookup_eq_none.mp ho)
    rw [liveIn_insert level (fresh _ rfl), hzero, portion_zero, Nat.zero_add]
    rfl

theorem Effect.covered (h : Effect orders e orders' deltas) {ds : List LevelDelta} (hds : ds <+: deltas) :
    removed ds level ≤ liveIn orders level + added ds level := by
  cases h with
  | quiet | unknown =>
    rw [List.prefix_nil.mp hds]
    exact Nat.zero_le _
  | add _ hd =>
    rcases List.prefix_cons_iff.mp hds with rfl | ⟨_, rfl, hrest⟩
    · exact Nat.zero_le _
    · have := hd.of_add level
      rw [List.prefix_nil.mp hrest]
      omega
  | cut he ho htaken htype hd =>
    rcases List.prefix_cons_iff.mp hds with rfl | ⟨_, rfl, hrest⟩
    · exact Nat.zero_le _
    · have := hd.of_removal level htype
      have := liveIn_keep level ho htaken
      rw [List.prefix_nil.mp hrest]
      omega
  | @replace orig ref shares price old removal insertion ho hr hi =>
    have hremoval := hr.of_removal level (Or.inr rfl)
    have hinsertion := hi.of_add level
    have hold := liveIn_of_lookup level ho
    rcases List.prefix_cons_iff.mp hds with rfl | ⟨_, rfl, hrest⟩
    · exact Nat.zero_le _
    · rw [added_cons, removed_cons]
      rcases List.prefix_cons_iff.mp hrest with rfl | ⟨_, rfl, hlast⟩
      · simp only [added, removed, List.map_nil, List.sum_nil] at *
        omega
      · rw [List.prefix_nil.mp hlast]
        omega

/-- The shares of an unresolved Replace rest in the table and no delta reports them. -/
theorem Effect.unreported (h : Effect orders e orders' deltas) (fresh : ∀ ref ∈ e.newRef?, ref ∉ orders)
    (hunknown : ¬e.Resolves orders) :
    ∃ price, liveIn orders' (priceLevel .kBuy price) ≠ liveIn orders (priceLevel .kBuy price) ∧ deltas = [] := by
  cases h with
  | quiet he =>
    cases e with
    | replace => simp [OrderEvent.newRef?] at he
    | quiet | add | cut | drop => exact absurd trivial hunknown
  | add => exact absurd trivial hunknown
  | cut he =>
    cases e with
    | replace => simp [OrderEvent.newRef?] at he
    | quiet | add | cut | drop => exact absurd trivial hunknown
  | replace ho => exact absurd (Or.inl (AList.lookup_isSome.mp (by simp [ho]))) hunknown
  | @unknown orig ref shares price ho =>
    refine ⟨price, ?_, rfl⟩
    have hpos : shares.toNat ≠ 0 := fun hz => hunknown (Or.inr (UInt32.toNat_inj.mp hz))
    rw [liveIn_insert _ (fresh _ rfl)]
    simp only [portion, priceLevel, BEq.rfl, Bool.and_self, ↓reduceIte]
    omega

end Step

/-! ### Whole streams -/

namespace Feed

variable {s t : Feed} {body : List UInt8} {h : List (Feed × List UInt8)}

theorem Step.effect (hs : s.Step body t) (hp : s.decoder.pending = {}) :
    ∃ e deltas, OrderEvent.ofBody? body = some e ∧ (∀ ref ∈ e.newRef?, ref ∉ s.decoder.orders) ∧
      Effect s.decoder.orders e t.decoder.orders deltas ∧ t.emitted = s.emitted ++ deltas ∧
      t.decoder.pending = {} := by
  obtain ⟨hlen, hfresh, hnext⟩ := hs
  obtain ⟨e, d', deltas, he, hfeed, heffect, hp'⟩ := feed_effect hlen hp
  have ht : { decoder := d', emitted := s.emitted ++ deltas } = t := by simpa [next?, hfeed] using hnext
  subst ht
  exact ⟨e, deltas, he, fun ref href => hfresh ref (by simpa [he] using href), heffect, rfl, hp'⟩

/-- Every body of at least a header that introduces no live reference has a step. -/
theorem Step.exists (hp : s.decoder.pending = {}) (hlen : 11 ≤ body.length)
    (hfresh : FreshRef s.decoder.orders body) : ∃ t, s.Step body t := by
  obtain ⟨e, d', deltas, -, hfeed, -⟩ := feed_effect hlen hp
  exact ⟨_, hlen, hfresh, by simp only [next?, hfeed]; rfl⟩

theorem Step.after (hlen : 11 ≤ body.length) (hfresh : FreshRef s.decoder.orders body)
    (hnext : (s.next? body).isSome) : s.Step body (s.after body) := by
  obtain ⟨t, ht⟩ := Option.isSome_iff_exists.mp hnext
  exact ⟨hlen, hfresh, by simp [Feed.after, ht]⟩

theorem pending_of_reachable (hr : Reachable Step {} s) : s.decoder.pending = {} := by
  refine hr.invariant (I := fun s => s.decoder.pending = {}) rfl fun hp hs => ?_
  obtain ⟨_, _, -, -, -, -, hp'⟩ := Step.effect hs hp
  exact hp'

theorem balanced_init : Balanced {} where
  level _ _ := rfl
  covered ds hds _ _ := by
    rw [List.prefix_nil.mp hds]
    exact Nat.zero_le _

theorem Balanced.step (hb : s.Balanced) (hs : s.Step body t) (hp : s.decoder.pending = {})
    (hresolves : ∀ e ∈ OrderEvent.ofBody? body, e.Resolves s.decoder.orders) : t.Balanced := by
  obtain ⟨e, deltas, he, hfresh, heffect, hemitted, -⟩ := hs.effect hp
  refine ⟨fun side price => ?_, fun ds hds side price => ?_⟩
  · have hflow := heffect.conserves (priceLevel side price) hfresh (hresolves e he)
    have hlevel := hb.level side price
    rw [hemitted, added_append, removed_append]
    omega
  · rw [hemitted] at hds
    rcases List.prefix_or_prefix_of_prefix hds (List.prefix_append s.emitted deltas) with hds' | ⟨ds', rfl⟩
    · exact hb.covered ds hds' side price
    · have hflow := heffect.covered (priceLevel side price) ((List.prefix_append_right_inj _).mp hds)
      have hlevel := hb.level side price
      rw [added_append, removed_append]
      omega

theorem Balanced.not_step (hb : s.Balanced) (hs : s.Step body t) (hp : s.decoder.pending = {})
    (hunknown : ¬∀ e ∈ OrderEvent.ofBody? body, e.Resolves s.decoder.orders) : ¬t.Balanced := by
  intro hb'
  obtain ⟨e, deltas, he, hfresh, heffect, hemitted, -⟩ := hs.effect hp
  have hunresolved : ¬e.Resolves s.decoder.orders := fun hr => hunknown fun e' he' => by
    rw [he] at he'
    exact Option.some.inj he' ▸ hr
  obtain ⟨price, hne, rfl⟩ := heffect.unreported hfresh hunresolved
  have hlevel := hb.level .kBuy price
  have hlevel' := hb'.level .kBuy price
  rw [hemitted, List.append_nil] at hlevel'
  omega

/-- The deltas balance after every message of a stream exactly when every Replace of the stream names a live
    original or brings no shares; and no message of at least a header is refused. -/
theorem deltas_balance_iff {h : List (Feed × List UInt8)} {t : Feed} (hr : Run Step {} h t) :
    (((∀ p ∈ h, p.1.Balanced) ∧ t.Balanced) ↔
      ∀ p ∈ h, ∀ e ∈ OrderEvent.ofBody? p.2, e.Resolves p.1.decoder.orders) ∧
    ∀ body, 11 ≤ body.length → FreshRef t.decoder.orders body → ∃ u, t.Step body u :=
  ⟨hr.exact (C := fun s body => ∀ e ∈ OrderEvent.ofBody? body, e.Resolves s.decoder.orders) balanced_init
      (fun hreach hb hc hs => hb.step hs (pending_of_reachable hreach) hc)
      (fun hreach hb hc hs => hb.not_step hs (pending_of_reachable hreach) hc),
    fun _ hlen hfresh => Step.exists (pending_of_reachable hr.reachable) hlen hfresh⟩

/-- An Add of 300 at 10.00 under reference 1, then its Replace by 450 at 11.00 under reference 2. -/
theorem deltas_balance_replace :
    let add : List UInt8 := [65, 0, 42, 0, 0, 0, 0, 0, 0, 0, 1, 0, 0, 0, 0, 0, 0, 0, 1, 66, 0, 0, 1, 44,
      84, 69, 83, 84, 32, 32, 32, 32, 0, 1, 134, 160]
    let replace : List UInt8 := [85, 0, 42, 0, 0, 0, 0, 0, 0, 0, 2, 0, 0, 0, 0, 0, 0, 0, 1,
      0, 0, 0, 0, 0, 0, 0, 2, 0, 0, 1, 194, 0, 1, 173, 176]
    let s := Feed.after {} add
    ((∀ p ∈ [({}, add), (s, replace)], p.1.Balanced) ∧ (s.after replace).Balanced) ∧
    ∀ body, 11 ≤ body.length → FreshRef (s.after replace).decoder.orders body → ∃ u, (s.after replace).Step body u := by
  intro add replace s
  have hs : Step {} add s := Step.after (by decide) (by decide +kernel) (by decide +kernel)
  have ht : Step s replace (s.after replace) := Step.after (by decide) (by decide +kernel) (by decide +kernel)
  have hexact := deltas_balance_iff ((Run.nil.snoc hs).snoc ht)
  exact ⟨hexact.1.mpr (by decide +kernel), hexact.2⟩

/-- A Replace whose original was never seen, then the Delete of its replacement: 100 shares rest on the buy side
    with no add, and then 100 shares leave a level that nothing was added to. -/
theorem unknown_replace_unbalanced :
    let replace : List UInt8 := [85, 0, 42, 0, 0, 0, 0, 0, 0, 0, 1, 0, 0, 0, 0, 0, 0, 0, 1,
      0, 0, 0, 0, 0, 0, 0, 2, 0, 0, 0, 100, 0, 1, 134, 160]
    let delete : List UInt8 := [68, 0, 42, 0, 0, 0, 0, 0, 0, 0, 2, 0, 0, 0, 0, 0, 0, 0, 2]
    let s := Feed.after {} replace
    Run Step {} [({}, replace), (s, delete)] (s.after delete) ∧
    ¬((∀ p ∈ [({}, replace), (s, delete)], p.1.Balanced) ∧ (s.after delete).Balanced) ∧
    s.emitted = [] ∧ liveIn s.decoder.orders (priceLevel .kBuy 100000) = 100 ∧
    removed (s.after delete).emitted (priceLevel .kBuy 100000) = 100 ∧
    added (s.after delete).emitted (priceLevel .kBuy 100000) = 0 := by
  intro replace delete s
  have hs : Step {} replace s := Step.after (by decide) (by decide +kernel) (by decide +kernel)
  have ht : Step s delete (s.after delete) := Step.after (by decide) (by decide +kernel) (by decide +kernel)
  refine ⟨(Run.nil.snoc hs).snoc ht, fun hb => ?_, by decide +kernel, by decide +kernel, by decide +kernel,
    by decide +kernel⟩
  have hlevel := (hb.1 (s, delete) (by simp)).level .kBuy 100000
  exact absurd hlevel (by decide +kernel)

end Feed

end Hft.Itch50
