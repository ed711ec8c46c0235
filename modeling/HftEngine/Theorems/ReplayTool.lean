import HftEngine.ReplayTool
import HftEngine.Theorems.BinaryStream
import HftEngine.Theorems.BookWindow
import HftEngine.Theorems.Replay

/-! The report of the replay tool on a whole file: every count is the count of what it names, no price is folded back
    into the window, and no check of the book ever fails. -/

namespace Hft

namespace Itch50

/-! ### What a body counts as -/

inductive Kind
  | decoded | ignored | malformed
  deriving DecidableEq, Repr

def Kind.of (body : List UInt8) : Kind :=
  match body[0]?.bind ItchType.ofByte? with
  | none => .ignored
  | some t => if body.length = t.length then .decoded else .malformed

def Stats.count (s : Stats) : Kind → UInt64
  | .decoded => s.decoded
  | .ignored => s.ignored
  | .malformed => s.malformed

section
variable {d : Decoder} {out : LevelDelta} {body : List UInt8} {e : OrderEvent} {r : Decoder × LevelDelta}

theorem Dispatched.count (h : Dispatched d out e r) (k : Kind) : r.1.stats.count k = d.stats.count k := by
  cases h with
  | quiet | add => rfl
  | cut ref shares =>
    unfold Decoder.reduce
    cases d.orders.lookup ref <;> cases k <;> rfl
  | drop ref =>
    unfold Decoder.delete
    cases d.orders.lookup ref <;> cases k <;> rfl
  | replace orig fresh shares price =>
    unfold Decoder.replace
    cases d.orders.lookup orig <;> cases k <;> rfl

/-- A call counts its body once, under its kind, and the live orders are those of the table. -/
theorem apply_counts (hlen : 11 ≤ body.length) (hlive : d.stats.liveOrders = UInt64.ofNat d.orders.entries.length) :
    ∃ r, d.apply body = some r ∧ r.1.stats.liveOrders = UInt64.ofNat r.1.orders.entries.length ∧
      ∀ k, r.1.stats.count k = d.stats.count k + if Kind.of body = k then 1 else 0 := by
  obtain ⟨hd, hhd, htype⟩ := readHeader_of_le body hlen
  have hne : body.length ≠ 0 := by omega
  have hbind : body[0]?.bind ItchType.ofByte? = ItchType.ofByte? hd.type := by rw [htype]; rfl
  unfold Kind.of
  rw [hbind]
  cases hof : ItchType.ofByte? hd.type with
  | none =>
    refine ⟨_, by simp [Decoder.apply, hne, hhd, hof]; rfl, hlive, fun k => ?_⟩
    cases k <;> simp [Decoder.countIgnored, Stats.count]
  | some t =>
    have hexp : expectedLength hd.type = t.length := by simp [expectedLength, hof]
    by_cases hl : body.length = t.length
    · obtain ⟨e, r, -, hdis, hspec⟩ := dispatch_spec d.countDecoded
        { timestampNs := hd.timestampNs, stockLocate := hd.stockLocate } hl
      refine ⟨(r.1.countLive, r.2), by simp [Decoder.apply, hne, hhd, hof, hexp, ← hl, hdis], rfl, fun k => ?_⟩
      have hcount : r.1.countLive.stats.count k = r.1.stats.count k := by cases k <;> rfl
      rw [hcount, hspec.count k]
      cases k <;> simp [Decoder.countDecoded, Stats.count, hl]
    · refine ⟨_, by simp [Decoder.apply, hne, hhd, hof, hexp, hl]; rfl, hlive, fun k => ?_⟩
      cases k <;> simp [Decoder.countMalformed, Stats.count, hl]

/-- The price that an event brings has 32 bits. -/
theorem newPrice_lt (he : OrderEvent.ofBody? body = some e) {price : Int} (hp : price ∈ e.newPrice?) :
    0 ≤ price ∧ price < 2 ^ 32 := by
  have hbound : ∀ p : UInt32, 0 ≤ toEnginePrice p ∧ toEnginePrice p < 2 ^ 32 := fun p => by
    have := p.toNat_lt
    rw [toEnginePrice_eq]
    omega
  obtain ⟨type, -, he⟩ := Option.bind_eq_some_iff.mp he
  split at he
  · cases he
    cases hp
  · next t _ =>
    split at he
    · cases t
      case kAddOrder | kAddOrderMpid =>
        simp only [OrderEvent.ofType?, Option.bind_eq_bind, Option.bind_eq_some_iff] at he
        obtain ⟨_, -, _, -, _, -, p, -, he⟩ := he
        cases he
        cases hp
        exact hbound p
      case kOrderReplace =>
        simp only [OrderEvent.ofType?, Option.bind_eq_bind, Option.bind_eq_some_iff] at he
        obtain ⟨_, -, _, -, _, -, p, -, he⟩ := he
        cases he
        cases hp
        exact hbound p
      case kOrderExecuted | kOrderExecutedPrice | kOrderCancel =>
        simp only [OrderEvent.ofType?, Option.bind_eq_bind, Option.bind_eq_some_iff] at he
        obtain ⟨_, -, _, -, he⟩ := he
        cases he
        cases hp
      case kOrderDelete =>
        simp only [OrderEvent.ofType?, Option.bind_eq_bind, Option.bind_eq_some_iff] at he
        obtain ⟨_, -, he⟩ := he
        cases he
        cases hp
      all_goals
        cases he
        cases hp
    · cases he
      cases hp

end

end Itch50

namespace ReplayTool

open Itch50
open BookView (InWindow Refines Rounding)

variable {round : Rat → Rat} {t : ReplayTool} {body : List UInt8} {bodies : List (List UInt8)} {ds : List LevelDelta}
  {d : LevelDelta}

/-! ### One delta -/

/-- A window of cent ticks with every price of the decoder in it. -/
def wide : NumTicks := ⟨2147483647, by decide, by decide⟩

theorem tick_pos : 0 < tick := by decide

theorem inWindow_wide {price : Int} (h : 0 ≤ price ∧ price < 2 ^ 32) : InWindow wide 0 tick price := by
  refine ⟨h.1, ?_⟩
  show price < 0 + 2147483647 * 100
  omega

theorem not_folds {price : Int} (h : InWindow wide 0 tick price) : ¬BookView.Folds kTicks 0 tick price := by
  obtain ⟨hlow, hhigh⟩ := h
  have hhigh : price < 0 + 2147483647 * 100 := hhigh
  rintro (⟨k, hk, hcopy, -⟩ | ⟨k, hlt, -⟩)
  · have hcopy : 0 + 2 ^ 32 * (k : Int) * 100 ≤ price := hcopy
    omega
  · omega

def inside (d : LevelDelta) : Bool := decide (InWindow kTicks 0 tick d.price)

/-- What the inner loop makes of the deltas so far. -/
structure Booked (ds : List LevelDelta) (t : ReplayTool) : Prop where
  deltas : t.deltas = UInt64.ofNat ds.length
  base_eq : t.book.base = 0
  tick_eq : t.book.tick = tick
  refines : Refines t.book (LevelBook.run 0 tick ((ds.filter inside).map (·.toMessage)))
  outOfRange : t.book.outOfRange = UInt64.ofNat (ds.countP fun d => !inside d)
  passes : t.invariantFailures = 0

theorem failures_eq_zero (hr : Rounding round) {b : BookView kTicks} (h : b.BestLevels) : failures round b = 0 := by
  have hbid : ¬(b.hasBid = true ∧ b.bestBidSize = 0) := fun hb => by
    have := (h.bid hb.1).1
    rw [hb.2] at this
    exact absurd this (by decide)
  have hask : ¬(b.hasAsk = true ∧ b.bestAskSize = 0) := fun ha => by
    have := (h.ask ha.1).1
    rw [ha.2] at this
    exact absurd this (by decide)
  unfold failures
  rw [if_neg hbid, if_neg hask, if_pos (BookView.imbalance_range hr b)]
  rfl

theorem run_snoc (msgs : List ItchMessage) (m : ItchMessage) :
    LevelBook.run 0 tick (msgs ++ [m]) = (LevelBook.run 0 tick msgs).apply 0 tick m := by
  unfold LevelBook.run
  rw [List.foldl_append]
  rfl

theorem Booked.delta (hr : Rounding round) (h : Booked ds t) (hd : InWindow wide 0 tick d.price) :
    Booked (ds ++ [d]) (t.delta round d) := by
  obtain ⟨hdeltas, hbase, htick, hrefines, hout, hfail⟩ := h
  have hpos : 0 < t.book.tick := htick ▸ tick_pos
  have hbook : Refines (t.book.apply d.toMessage)
      (LevelBook.run 0 tick (((ds ++ [d]).filter inside).map (·.toMessage))) ∧
      (t.book.apply d.toMessage).outOfRange = UInt64.ofNat ((ds ++ [d]).countP fun d => !inside d) := by
    by_cases hin : InWindow kTicks 0 tick d.price
    · have hwindow : InWindow kTicks t.book.base t.book.tick d.toMessage.price := by
        rw [hbase, htick]
        exact hin
      have hinside : inside d = true := decide_eq_true hin
      refine ⟨?_, ?_⟩
      · rw [List.filter_append, List.filter_cons_of_pos hinside, List.map_append]
        refine (run_snoc _ _).symm ▸ ?_
        have := hrefines.apply hpos hwindow
        rwa [hbase, htick] at this
      · rw [BookView.outOfRange_apply hpos hwindow, hout, List.countP_append]
        simp [hinside]
    · have hidx : ¬(0 ≤ t.book.toIndex d.toMessage.price ∧ t.book.toIndex d.toMessage.price < kTicks.val) := by
        rw [BookView.toIndex_iff hpos (by rw [hbase, htick]; exact hin), hbase, htick]
        exact not_folds hd
      have hinside : inside d = false := decide_eq_false hin
      rw [BookView.apply_of_no_index hidx]
      refine ⟨?_, ?_⟩
      · rw [List.filter_append, List.filter_cons_of_neg (by simp [hinside]), List.filter_nil, List.append_nil]
        exact ⟨hrefines.levels, hrefines.bestBid, hrefines.bestAsk⟩
      · show t.book.outOfRange + 1 = _
        rw [hout, List.countP_append, UInt64.ofNat_add]
        simp [hinside]
  obtain ⟨hrefines', hout'⟩ := hbook
  have htick' : (t.book.apply d.toMessage).tick = tick := BookView.apply_base.2.trans htick
  refine ⟨?_, BookView.apply_base.1.trans hbase, htick', hrefines', hout', ?_⟩
  · show t.deltas + 1 = _
    rw [hdeltas, List.length_append, UInt64.ofNat_add]
    rfl
  · show t.invariantFailures + failures round (t.book.apply d.toMessage) = 0
    rw [hfail, failures_eq_zero hr (hrefines'.bestLevels (htick' ▸ tick_pos))]
    rfl

/-- What a delta leaves alone. -/
theorem foldl_delta_kept (round : Rat → Rat) (new : List LevelDelta) (t : ReplayTool) :
    (new.foldl (ReplayTool.delta round) t).decoder = t.decoder ∧
      (new.foldl (ReplayTool.delta round) t).messages = t.messages ∧
      (new.foldl (ReplayTool.delta round) t).byType = t.byType := by
  induction new generalizing t with
  | nil => exact ⟨rfl, rfl, rfl⟩
  | cons d new ih => exact ih (t.delta round d)

theorem Booked.foldl (hr : Rounding round) {new : List LevelDelta} (h : Booked ds t)
    (hnew : ∀ d ∈ new, InWindow wide 0 tick d.price) : Booked (ds ++ new) (new.foldl (ReplayTool.delta round) t) := by
  induction new generalizing ds t with
  | nil => simpa using h
  | cons d new ih =>
    rw [List.foldl_cons, List.append_cons]
    exact ih (h.delta hr (hnew d List.mem_cons_self)) fun d' hd' => hnew d' (List.mem_cons_of_mem _ hd')

/-! ### One body -/

/-- The state of the tool after the bodies so far. -/
structure Reports (bodies : List (List UInt8)) (t : ReplayTool) : Prop where
  messages : t.messages = UInt64.ofNat bodies.length
  byType : ∀ c : Fin 128, t.byType.get c = UInt64.ofNat (bodies.countP fun b => b[0]? == some (UInt8.ofNat c))
  kinds : ∀ k, t.decoder.stats.count k = UInt64.ofNat (bodies.countP fun b => Kind.of b == k)
  live : t.decoder.stats.liveOrders = UInt64.ofNat t.decoder.orders.entries.length
  /-- The book gets what the decoder emits for the bodies. -/
  booked : ∃ ds, bodies.foldlM Feed.next? {} = some ⟨t.decoder, ds⟩ ∧ Booked ds t
  drained : t.decoder.pending = {}
  placed : Placed wide 0 tick t.decoder.orders

theorem toNat_ofNat_fin (c : Fin 128) : (UInt8.ofNat c).toNat = c := by
  rw [UInt8.toNat_ofNat']
  exact Nat.mod_eq_of_lt (by omega)

theorem byType_countType (t : ReplayTool) (type : UInt8) (c : Fin 128) :
    (t.countType type).byType.get c = t.byType.get c + if type = UInt8.ofNat c then 1 else 0 := by
  have hc := toNat_ofNat_fin c
  unfold countType
  split
  · next hlt =>
    show (t.byType.set type.toNat (t.byType[type.toNat] + 1))[(c : Nat)] = t.byType[(c : Nat)] + _
    by_cases heq : type = UInt8.ofNat c
    · have htype : type.toNat = c := by rw [heq, hc]
      simp [heq, hc]
    · have hne : type.toNat ≠ c := fun h => heq (UInt8.toNat_inj.mp (h.trans hc.symm))
      rw [Vector.getElem_set_ne _ _ hne, if_neg heq, UInt64.add_zero]
  · next hge =>
    have hne : type ≠ UInt8.ofNat c := fun h => hge (by rw [h, hc]; exact c.isLt)
    rw [if_neg hne, UInt64.add_zero]

theorem Reports.message (hr : Rounding round) (h : Reports bodies t) (hlen : 11 ≤ body.length) :
    ∃ t', t.message round body = some t' ∧ Reports (bodies ++ [body]) t' := by
  obtain ⟨hmessages, hbyType, hkinds, hlive, ⟨ds, hds, hbooked⟩, hdrained, hplaced⟩ := h
  obtain ⟨type, htype⟩ := byte_of_lt body 0 (by omega)
  obtain ⟨e, d', new, he, hfeed, heffect, hdrained'⟩ := feed_effect hlen hdrained
  obtain ⟨r, happly, hlive', hcount⟩ := apply_counts hlen hlive
  have hr' : r.1.drain r.2 = (d', new) := by
    rw [Decoder.feed, happly] at hfeed
    exact Option.some.inj hfeed
  have hnew : ∀ price ∈ e.newPrice?, InWindow wide 0 tick price := fun price hp => inWindow_wide (newPrice_lt he hp)
  have hwide : ∀ d ∈ new, InWindow wide 0 tick d.price := fun d hd =>
    heffect.deltas_inWindow hplaced hnew _ (List.mem_map_of_mem hd)
  obtain ⟨horders, hstats⟩ := drain_kept r.1 r.2
  rw [hr'] at horders hstats
  let t₁ : ReplayTool := { t.countType type with decoder := d' }
  have hcounted : Booked ds t₁ := by
    obtain ⟨h1, h2, h3, h4, h5, h6⟩ := hbooked
    unfold t₁ countType
    split <;> exact ⟨h1, h2, h3, h4, h5, h6⟩
  have hone : t₁.messages = t.messages + 1 := by
    unfold t₁ countType
    split <;> rfl
  obtain ⟨hdecoder, hmessages', hbyType'⟩ := foldl_delta_kept round new t₁
  have hadd : ∀ p : List UInt8 → Bool, UInt64.ofNat ((bodies ++ [body]).countP p) =
      UInt64.ofNat (bodies.countP p) + if p body then 1 else 0 := fun p => by
    rw [List.countP_append, UInt64.ofNat_add, List.countP_singleton]
    split <;> rfl
  refine ⟨new.foldl (ReplayTool.delta round) t₁, by simp [ReplayTool.message, htype, hfeed, t₁], ?_, fun c => ?_,
    fun k => ?_, ?_, ⟨ds ++ new, ?_, hcounted.foldl hr hwide⟩, ?_, ?_⟩
  · rw [hmessages', hone, hmessages, List.length_append, UInt64.ofNat_add]
    rfl
  · rw [hbyType', hadd]
    refine (byType_countType t type c).trans ?_
    rw [hbyType c, htype]
    simp
  · rw [hdecoder, hadd, ← hkinds k]
    refine (congrArg (Stats.count · k) hstats).trans ((hcount k).trans ?_)
    simp
  · rw [hdecoder]
    show d'.stats.liveOrders = UInt64.ofNat d'.orders.entries.length
    rw [hstats, horders]
    exact hlive'
  · rw [List.foldlM_append, hds, hdecoder]
    simp [Feed.next?, hfeed, t₁]
  · rw [hdecoder]
    exact hdrained'
  · rw [hdecoder]
    exact heffect.placed hplaced hnew

/-! ### Whole files -/

theorem Reports.foldlM (hr : Rounding round) {more : List (List UInt8)} (h : Reports bodies t)
    (hlen : ∀ body ∈ more, 11 ≤ body.length) :
    ∃ t', more.foldlM (ReplayTool.message round) t = some t' ∧ Reports (bodies ++ more) t' := by
  induction more generalizing bodies t with
  | nil => exact ⟨t, rfl, by rwa [List.append_nil]⟩
  | cons body more ih =>
    obtain ⟨t₁, hmessage, h₁⟩ := h.message hr (hlen body List.mem_cons_self)
    obtain ⟨t', hrest, h'⟩ := ih h₁ fun b hb => hlen b (List.mem_cons_of_mem _ hb)
    exact ⟨t', by rw [List.foldlM_cons, hmessage]; exact hrest, by rwa [List.append_cons]⟩

end ReplayTool

end Hft
