import HftEngine.ClosedLoop
import HftEngine.Theorems.Exchange
import HftEngine.Theorems.OrderPath
import HftEngine.Theorems.SimExchange
import Mathlib.Data.List.Nodup

/-! The engine and the exchange over links that may lose, double and reorder: every report answers an order that was
    sent, and so both positions are short one order, flat or long one order. -/

namespace Hft

open Transition
open Threads (Label)

/-! ### The exchange -/

namespace SimExchange

variable {ρ : Type} {draw : ρ → UInt64 × ρ} {s t : SimExchange ρ} {now now' : UInt64} {type : MsgType} {side : Side}
  {px spread : Int} {size : UInt32}

theorem sent_flush (s : SimExchange ρ) : s.sent <+: s.flush.sent := by
  unfold flush
  split
  · exact List.prefix_append _ _
  · exact List.prefix_refl _

theorem sent_emit (h : s.emit now type side px size = some t) : s.sent <+: t.sent := by
  obtain ⟨dgram, -, h⟩ := Option.bind_eq_some_iff.mp h
  obtain rfl := Option.some.inj h
  split
  · exact sent_flush { s with seq := _, dgram, dgramMsgs := _, feedCount := _, emitted := _ }
  · exact List.prefix_refl _

theorem sent_start (h : s.start now now' = some t) : s.sent <+: t.sent := by
  obtain ⟨u, hu, h⟩ := Option.bind_eq_some_iff.mp h
  obtain ⟨u', hu', h⟩ := Option.bind_eq_some_iff.mp h
  obtain rfl := Option.some.inj h
  exact (sent_emit hu).trans ((sent_emit hu').trans (sent_flush _))

theorem sent_quoteBid (h : s.quoteBid draw now now' spread = some t) : s.sent <+: t.sent := by
  obtain ⟨u, hu, h⟩ := Option.bind_eq_some_iff.mp h
  have hadd := sent_emit h
  exact (sent_emit hu).trans hadd

theorem sent_quoteAsk (h : s.quoteAsk draw now now' spread = some t) : s.sent <+: t.sent := by
  obtain ⟨u, hu, h⟩ := Option.bind_eq_some_iff.mp h
  have hadd := sent_emit h
  exact (sent_emit hu).trans hadd

theorem sent_step (h : s.step draw now now' = some t) : s.sent <+: t.sent := by
  unfold step at h
  dsimp only at h
  split at h
  · have hbid := sent_quoteBid h
    exact hbid
  · have hask := sent_quoteAsk h
    exact hask

end SimExchange

namespace Exchange

variable {ρ : Type} {draw : ρ → UInt64 × ρ} {s t : Exchange ρ} {now now' : UInt64}

/-- What a step of the exchange does besides moving on: it quotes, or it takes a datagram from its socket. -/
inductive Effect (s t : Exchange ρ) : Prop
  | quotes (hrx : t.orderRx = s.orderRx) (hfills : t.fills = s.fills) (hsent : s.quotes.sent <+: t.quotes.sent)
  | skip {m : List UInt8} (hrx : s.orderRx = m :: t.orderRx) (hm : OrderRequest.ofDatagram? m = none)
      (hfills : t.fills = s.fills) (hquotes : t.quotes = s.quotes)
  | fill {m : List UInt8} {o : OrderRequest} (hrx : s.orderRx = m :: t.orderRx)
      (hm : OrderRequest.ofDatagram? m = some o) (hfills : t.fills = s.fills ++ [fill o])
      (hquotes : t.quotes = s.quotes)

theorem effect_of_next (h : s.next? draw now now' = some t) : Effect s t := by
  unfold next? at h
  split at h
  · obtain ⟨quotes, hq, rfl⟩ := Option.map_eq_some_iff.mp h
    exact .quotes rfl rfl (SimExchange.sent_start hq)
  · split at h
    · obtain rfl := Option.some.inj h
      exact .quotes rfl rfl (List.prefix_refl _)
    · obtain rfl := Option.some.inj h
      exact .quotes rfl rfl (SimExchange.sent_flush _)
  · obtain ⟨quotes, hq, rfl⟩ := Option.map_eq_some_iff.mp h
    exact .quotes rfl rfl (SimExchange.sent_step hq)
  · obtain rfl := Option.some.inj h
    unfold serve
    split
    · exact .quotes rfl rfl (List.prefix_refl _)
    · next m rx hrx =>
      split
      · next hm => exact .skip hrx hm rfl rfl
      · next o hm => exact .fill hrx hm rfl rfl
  · cases h

end Exchange

/-! ### The wire, as a thread sees it -/

namespace Snapshot

variable {z : EngineSizes} {v v' : Snapshot z} {t : Stage} {tsc : UInt64}

/-- A thread adds to the orders on the wire at most. -/
structure Outlet (v v' : Snapshot z) : Prop where
  market : v'.world.market = v.world.market
  arrived : v'.world.arrived = v.world.arrived
  kills : v'.world.kills = v.world.kills
  sent : ∃ more, v'.world.sent = v.world.sent ++ more

theorem Move.outlet (hm : v.Move (.thread t tsc) v') : Outlet v v' := by
  have same : ∃ more, v.world.sent = v.world.sent ++ more := ⟨[], (List.append_nil _).symm⟩
  cases t with
  | feed =>
    obtain ⟨rx, hworld⟩ := (FeedMove.kept hm).world
    constructor <;> rw [hworld]
    exact same
  | strategy =>
    cases hm with
    | head | noFill | takeFill | fill | noEvent | takeEvent | push | full => exact ⟨rfl, rfl, rfl, same⟩
    | @event ev hpc =>
      rcases v.strategy.afterEvent_cases ev v.world with ⟨strat, -, heq⟩ | ⟨strat, o, -, heq⟩
      · simp only [heq]
        exact ⟨rfl, rfl, rfl, same⟩
      · simp only [heq]
        exact ⟨rfl, rfl, rfl, same⟩
  | gateway =>
    cases hm with
    | head | noReport | short | push | full | noOrder | takeOrder | check => exact ⟨rfl, rfl, rfl, same⟩
    | @report k m rx rep hpc hrx hm =>
      unfold GatewayThread.handle
      split <;> exact ⟨rfl, rfl, rfl, same⟩
    | @send o hpc => exact ⟨rfl, rfl, rfl, [o], rfl⟩

/-- Up to as many orders as there are ids no id is given twice. -/
theorem OrderPath.eq_of_id (h : OrderPath v) (hfew : v.world.emitted.length ≤ UInt64.size) {o o' : OrderRequest}
    (ho : o ∈ v.world.sent ++ v.gateway.pc.sending) (ho' : o' ∈ v.world.sent ++ v.gateway.pc.sending)
    (hid : o.orderId = o'.orderId) : o = o' := by
  have hmem : ∀ o ∈ v.world.sent ++ v.gateway.pc.sending, o ∈ v.world.emitted.map Prod.fst := fun o ho => by
    rw [h.orders]
    exact List.mem_append_left _ (h.wire.subset ho)
  have hnodup : ((v.world.emitted.map Prod.fst).map OrderRequest.orderId).Nodup := by
    rw [List.map_map]
    refine (h.ids ▸ (List.nodup_range.map_on fun i hi j hj hij => ?_) :)
    have hlt : ∀ k ∈ List.range v.world.emitted.length, k < UInt64.size := fun k hk =>
      Nat.lt_of_lt_of_le (List.mem_range.mp hk) hfew
    have hmod := congrArg UInt64.toNat hij
    rw [UInt64.toNat_ofNat', UInt64.toNat_ofNat'] at hmod
    have hi := hlt i hi
    have hj := hlt j hj
    unfold UInt64.size at hi hj
    omega
  exact List.inj_on_of_nodup_map hnodup (hmem o ho) (hmem o' ho') hid

theorem Recorded.emitsSize {w : World} {a : OrderLoop} {ev : LoopEvent} {cfg : EngineConfig}
    (h : Recorded cfg w a ev) : OrderLoop.EmitsSize cfg.strategy.orderSize.toNat ev := by
  cases ev with
  | emit o => exact congrArg UInt32.toNat h
  | pass | drop | report | deliver => trivial

end Snapshot

namespace RingEngine

variable {z : EngineSizes} {cfg : EngineConfig} {f f' : RingEngine z} {t : Stage} {tsc : UInt64}

theorem outlet (hr : Reachable Step (start z cfg) f) (hs : f.Step (.thread t tsc) f') :
    f'.world.market = f.world.market ∧ f'.world.arrived = f.world.arrived ∧ f'.world.kills = f.world.kills ∧
      ∃ more, f'.world.sent = f.world.sent ++ more := by
  obtain ⟨v, hv, -⟩ := invariant (I := fun _ => True) trivial (fun _ _ => trivial) hr
  obtain ⟨v', hv', hmove⟩ := shows_step hr hv hs
  rw [← hv.world, ← hv'.world]
  rcases hmove with rfl | hmove
  · exact ⟨rfl, rfl, rfl, [], (List.append_nil _).symm⟩
  · obtain ⟨hmarket, harrived, hkills, hsent⟩ := Snapshot.Move.outlet hmove
    exact ⟨hmarket, harrived, hkills, hsent⟩

end RingEngine

/-! ### Steps of the whole -/

namespace ClosedLoop

variable {z : EngineSizes} {ρ : Type} {draw : ρ → UInt64 × ρ} {cfg : EngineConfig} {c : SimConfig} {rng : ρ}
  {s t : ClosedLoop z ρ} {e : ClosedEvent}

/-- The whole with one datagram less on a link. -/
def drop (s : ClosedLoop z ρ) (l : Link) (i : Nat) : ClosedLoop z ρ :=
  { s with links := Function.update s.links l ((s.links l).eraseIdx i) }

def withWorld (s : ClosedLoop z ρ) (world : World) : ClosedLoop z ρ :=
  { s with engine := { s.engine with world } }

inductive Move (draw : ρ → UInt64 × ρ) (s : ClosedLoop z ρ) : ClosedEvent → ClosedLoop z ρ → Prop
  | thread {t : Stage} {tsc : UInt64} {engine : RingEngine z} (hs : s.engine.Step (.thread t tsc) engine) :
      Move draw s (.thread t tsc) (s.withEngine engine)
  | exchange {now now' : UInt64} {exchange : Exchange ρ} (hs : s.exchange.next? draw now now' = some exchange) :
      Move draw s (.exchange now now') (s.withExchange exchange)
  | market {i : Nat} {d : List UInt8} (hd : (s.links .feed)[i]? = some d) :
      Move draw s (.deliver .feed i) ((s.drop .feed i).withWorld { s.engine.world with
        feedRx := s.engine.world.feedRx ++ [d]
        market := s.engine.world.market ++ [d] })
  | order {i : Nat} {d : List UInt8} (hd : (s.links .orders)[i]? = some d) :
      Move draw s (.deliver .orders i) { s.drop .orders i with
        exchange := { s.exchange with orderRx := s.exchange.orderRx ++ [d] } }
  | fill {i : Nat} {d : List UInt8} (hd : (s.links .fills)[i]? = some d) :
      Move draw s (.deliver .fills i) ((s.drop .fills i).withWorld { s.engine.world with
        fillRx := s.engine.world.fillRx ++ [d]
        arrived := s.engine.world.arrived ++ [d] })
  | lose {l : Link} {i : Nat} : Move draw s (.lose l i) (s.drop l i)
  | copy {l : Link} {i : Nat} {d : List UInt8} (hd : (s.links l)[i]? = some d) :
      Move draw s (.copy l i) { s with links := put s.links l [d] }
  | setKill {b : Bool} :
      Move draw s (.setKill b) (s.withWorld { s.engine.world with kill := b, kills := s.engine.world.kills ++ [b] })
  | stop : Move draw s .stop (s.withWorld { s.engine.world with running := false })
  | halt : Move draw s .halt { s with exchange := { s.exchange with running := false } }

theorem Step.move (h : s.Step draw e t) : s.Move draw e t := by
  unfold Step next? at h
  split at h
  · obtain ⟨engine, hs, rfl⟩ := Option.map_eq_some_iff.mp h
    exact .thread hs
  · obtain ⟨exchange, hs, rfl⟩ := Option.map_eq_some_iff.mp h
    exact .exchange hs
  · next l i =>
    obtain ⟨d, hd, h⟩ := Option.bind_eq_some_iff.mp h
    cases l <;> cases h
    · exact .market hd
    · exact .order hd
    · exact .fill hd
  · cases h
    exact .lose
  · obtain ⟨d, hd, h⟩ := Option.bind_eq_some_iff.mp h
    cases h
    exact .copy hd
  · cases h
    exact .setKill
  · cases h
    exact .stop
  · cases h
    exact .halt

/-- The engine of a closed loop makes a step of its own or none. -/
theorem Move.engine (hm : s.Move draw e t) : t.engine = s.engine ∧ reading e = none ∨
    ∃ l, s.engine.Step l t.engine ∧ RingEngine.reading l = reading e := by
  cases hm with
  | thread hs => exact Or.inr ⟨_, hs, rfl⟩
  | exchange | order | lose | copy | halt => exact Or.inl ⟨rfl, rfl⟩
  | @market i d hd => exact Or.inr ⟨.outside (.market d), rfl, rfl⟩
  | @fill i d hd => exact Or.inr ⟨.outside (.report d), rfl, rfl⟩
  | @setKill b => exact Or.inr ⟨.outside (.setKill b), rfl, rfl⟩
  | stop => exact Or.inr ⟨.outside .stop, rfl, rfl⟩

theorem Move.reachable (hm : s.Move draw e t) (hr : Reachable RingEngine.Step (RingEngine.start z cfg) s.engine) :
    Reachable RingEngine.Step (RingEngine.start z cfg) t.engine := by
  rcases hm.engine with ⟨hsame, -⟩ | ⟨l, hl, -⟩
  · exact hsame ▸ hr
  · exact hr.next hl

theorem engine_reachable (hr : Reachable (Step draw) (start z cfg c rng) s) :
    Reachable RingEngine.Step (RingEngine.start z cfg) s.engine :=
  hr.invariant (I := fun s => Reachable RingEngine.Step (RingEngine.start z cfg) s.engine) .refl
    fun hi hs => hs.move.reachable hi

/-! ### Links -/

@[simp] theorem put_self {links : Link → List (List UInt8)} {l : Link} {ds : List (List UInt8)} :
    put links l ds l = links l ++ ds := Function.update_self ..

theorem put_ne {links : Link → List (List UInt8)} {l l' : Link} {ds : List (List UInt8)} (h : l' ≠ l) :
    put links l ds l' = links l' := Function.update_of_ne h ..

theorem mem_put {links : Link → List (List UInt8)} {l l' : Link} {d x : List UInt8} (hx : x ∈ links l)
    (hd : d ∈ put links l [x] l') : d ∈ links l' := by
  by_cases hl : l' = l
  · subst hl
    rw [put_self] at hd
    rcases List.mem_append.mp hd with hd | hd
    · exact hd
    · exact List.mem_singleton.mp hd ▸ hx
  · rwa [put_ne hl] at hd

@[simp] theorem drop_self {l : Link} {i : Nat} : (s.drop l i).links l = (s.links l).eraseIdx i :=
  Function.update_self ..

theorem drop_ne {l l' : Link} {i : Nat} (h : l' ≠ l) : (s.drop l i).links l' = s.links l' := Function.update_of_ne h ..

theorem mem_drop {l l' : Link} {i : Nat} {d : List UInt8} (hd : d ∈ (s.drop l i).links l') : d ∈ s.links l' := by
  by_cases hl : l' = l
  · subst hl
    rw [drop_self] at hd
    exact List.mem_of_mem_eraseIdx hd
  · rwa [drop_ne hl] at hd

@[simp] theorem withEngine_feed {engine : RingEngine z} : (s.withEngine engine).links .feed = s.links .feed := rfl

@[simp] theorem withEngine_fills {engine : RingEngine z} : (s.withEngine engine).links .fills = s.links .fills := rfl

theorem withEngine_orders {engine : RingEngine z} {more : List OrderRequest}
    (hmore : engine.world.sent = s.engine.world.sent ++ more) :
    (s.withEngine engine).links .orders = s.links .orders ++ more.map OrderRequest.datagram := by
  dsimp only [withEngine]
  rw [put_self, hmore, List.drop_left]

@[simp] theorem withExchange_orders {exchange : Exchange ρ} :
    (s.withExchange exchange).links .orders = s.links .orders := rfl

theorem withExchange_feed {exchange : Exchange ρ} {more : List (List UInt8)}
    (hmore : exchange.quotes.sent = s.exchange.quotes.sent ++ more) :
    (s.withExchange exchange).links .feed = s.links .feed ++ more := by
  dsimp only [withExchange]
  rw [put_ne (by decide), put_self, hmore, List.drop_left]

theorem withExchange_fills {exchange : Exchange ρ} {more : List ExecReport}
    (hmore : exchange.fills = s.exchange.fills ++ more) :
    (s.withExchange exchange).links .fills = s.links .fills ++ more.map ExecReport.datagram := by
  dsimp only [withExchange]
  rw [put_self, put_ne (by decide), hmore, List.drop_left]

/-! ### What is under way -/

/-- Every datagram under way was sent by its sender, and every report answers an order that was sent. -/
structure Authentic (s : ClosedLoop z ρ) : Prop where
  feed : ∀ d ∈ s.links .feed, d ∈ s.exchange.quotes.sent
  market : ∀ d ∈ s.engine.world.market, d ∈ s.exchange.quotes.sent
  orders : ∀ d ∈ s.links .orders, ∃ o ∈ s.engine.world.sent, d = o.datagram
  orderRx : ∀ d ∈ s.exchange.orderRx, ∃ o ∈ s.engine.world.sent, d = o.datagram
  answers : ∀ r ∈ s.exchange.fills, ∃ o ∈ s.engine.world.sent, r = Exchange.fill o.onWire
  fills : ∀ d ∈ s.links .fills, ∃ r ∈ s.exchange.fills, d = r.datagram
  arrived : ∀ d ∈ s.engine.world.arrived, ∃ r ∈ s.exchange.fills, d = r.datagram

theorem authentic_start : Authentic (start z cfg c rng) := by
  constructor <;> exact fun d hd => by cases hd

/-- With less on the links there is nothing new to ask. -/
theorem Authentic.fewer (h : Authentic s) (he : t.engine.world.sent = s.engine.world.sent)
    (hx : t.exchange = s.exchange) (hm : t.engine.world.market = s.engine.world.market)
    (ha : t.engine.world.arrived = s.engine.world.arrived) (hl : ∀ l, ∀ d ∈ t.links l, d ∈ s.links l) :
    Authentic t := by
  obtain ⟨hfeed, hmarket, horders, horderRx, hanswers, hfills, harrived⟩ := h
  constructor <;> simp only [he, hx, hm, ha]
  · exact fun d hd => hfeed d (hl _ d hd)
  · exact hmarket
  · exact fun d hd => horders d (hl _ d hd)
  · exact horderRx
  · exact hanswers
  · exact fun d hd => hfills d (hl _ d hd)
  · exact harrived

theorem Authentic.thread {engine : RingEngine z} {more : List OrderRequest} (h : Authentic s)
    (hm : engine.world.market = s.engine.world.market) (ha : engine.world.arrived = s.engine.world.arrived)
    (hsent : engine.world.sent = s.engine.world.sent ++ more) : Authentic (s.withEngine engine) := by
  obtain ⟨hfeed, hmarket, horders, horderRx, hanswers, hfills, harrived⟩ := h
  have grows : ∀ {P : OrderRequest → Prop}, (∃ o ∈ s.engine.world.sent, P o) → ∃ o ∈ engine.world.sent, P o := by
    rintro P ⟨o, ho, hp⟩
    exact ⟨o, hsent ▸ List.mem_append_left _ ho, hp⟩
  refine ⟨hfeed, ?_, ?_, fun d hd => grows (horderRx d hd), fun d hd => grows (hanswers d hd), hfills, ?_⟩
  · exact fun d hd => hmarket d (hm ▸ hd)
  · rw [withEngine_orders hsent]
    intro d hd
    rcases List.mem_append.mp hd with hd | hd
    · exact grows (horders d hd)
    · obtain ⟨o, ho, rfl⟩ := List.mem_map.mp hd
      exact ⟨o, hsent ▸ List.mem_append_right _ ho, rfl⟩
  · exact fun d hd => harrived d (ha ▸ hd)

/-- The exchange quotes, or it answers an order that is an engine's own. -/
theorem Authentic.exchange {exchange : Exchange ρ} (h : Authentic s) (he : Exchange.Effect s.exchange exchange) :
    Authentic (s.withExchange exchange) := by
  obtain ⟨hfeed, hmarket, horders, horderRx, hanswers, hfills, harrived⟩ := h
  have hquotes : s.exchange.quotes.sent <+: exchange.quotes.sent := by
    cases he with
    | quotes _ _ hsent => exact hsent
    | skip _ _ _ hq | fill _ _ _ hq => exact hq ▸ List.prefix_refl _
  obtain ⟨dgrams, hdgrams⟩ := hquotes
  obtain ⟨more, hmore, hnew⟩ : ∃ more, exchange.fills = s.exchange.fills ++ more ∧
      ∀ r ∈ more, ∃ o ∈ s.engine.world.sent, r = Exchange.fill o.onWire := by
    cases he with
    | quotes _ hf _ | skip _ _ hf _ => exact ⟨[], hf.trans (List.append_nil _).symm, fun r hr => by cases hr⟩
    | @fill m o hrx hm hf _ =>
      refine ⟨_, hf, fun r hr => ?_⟩
      obtain rfl := List.mem_singleton.mp hr
      obtain ⟨o', ho', hdgram⟩ := horderRx m (hrx ▸ List.mem_cons_self)
      have hdec := OrderRequest.ofDatagram?_datagram o' []
      rw [List.append_nil, ← hdgram, hm] at hdec
      exact ⟨o', ho', congrArg Exchange.fill (Option.some.inj hdec)⟩
  have hrx : ∀ d ∈ exchange.orderRx, d ∈ s.exchange.orderRx := by
    cases he with
    | quotes hrx _ _ => exact fun d hd => hrx ▸ hd
    | skip hrx _ _ _ | fill hrx _ _ _ => exact fun d hd => hrx ▸ List.mem_cons_of_mem _ hd
  have sub : ∀ {d : List UInt8}, d ∈ s.exchange.quotes.sent → d ∈ exchange.quotes.sent := fun hd =>
    hdgrams ▸ List.mem_append_left _ hd
  have reported : ∀ {d : List UInt8}, (∃ r ∈ s.exchange.fills, d = r.datagram) →
      ∃ r ∈ exchange.fills, d = r.datagram := by
    rintro d ⟨r, hr, hd⟩
    exact ⟨r, hmore ▸ List.mem_append_left _ hr, hd⟩
  refine ⟨?_, fun d hd => sub (hmarket d hd), horders, fun d hd => horderRx d (hrx d hd), ?_, ?_,
    fun d hd => reported (harrived d hd)⟩
  · rw [withExchange_feed hdgrams.symm]
    intro d hd
    rcases List.mem_append.mp hd with hd | hd
    · exact sub (hfeed d hd)
    · exact hdgrams ▸ List.mem_append_right _ hd
  · intro r hr
    dsimp only [withExchange] at hr
    rw [hmore] at hr
    exact (List.mem_append.mp hr).elim (hanswers r) (hnew r)
  · rw [withExchange_fills hmore]
    intro d hd
    rcases List.mem_append.mp hd with hd | hd
    · exact reported (hfills d hd)
    · obtain ⟨r, hr, rfl⟩ := List.mem_map.mp hd
      exact ⟨r, hmore ▸ List.mem_append_right _ hr, rfl⟩

theorem Authentic.move (h : Authentic s) (hr : Reachable RingEngine.Step (RingEngine.start z cfg) s.engine)
    (hm : s.Move draw e t) : Authentic t := by
  cases hm with
  | @thread st tsc engine hs =>
    obtain ⟨hmarket, harrived, -, more, hsent⟩ := RingEngine.outlet hr hs
    exact h.thread hmarket harrived hsent
  | exchange hs => exact h.exchange (Exchange.effect_of_next hs)
  | @market i d hd =>
    obtain hless := h.fewer (t := s.drop .feed i) rfl rfl rfl rfl fun l d hd => mem_drop hd
    refine { hless with market := fun x hx => ?_ }
    rcases List.mem_append.mp hx with hx | hx
    · exact h.market x hx
    · exact List.mem_singleton.mp hx ▸ h.feed d (List.mem_of_getElem? hd)
  | @order i d hd =>
    obtain hless := h.fewer (t := s.drop .orders i) rfl rfl rfl rfl fun l d hd => mem_drop hd
    refine { hless with orderRx := fun x hx => ?_ }
    rcases List.mem_append.mp hx with hx | hx
    · exact h.orderRx x hx
    · exact List.mem_singleton.mp hx ▸ h.orders d (List.mem_of_getElem? hd)
  | @fill i d hd =>
    obtain hless := h.fewer (t := s.drop .fills i) rfl rfl rfl rfl fun l d hd => mem_drop hd
    refine { hless with arrived := fun x hx => ?_ }
    rcases List.mem_append.mp hx with hx | hx
    · exact h.arrived x hx
    · exact List.mem_singleton.mp hx ▸ h.fills d (List.mem_of_getElem? hd)
  | lose => exact h.fewer rfl rfl rfl rfl fun l d hd => mem_drop hd
  | copy hd => exact h.fewer rfl rfl rfl rfl fun l d hd' => mem_put (List.mem_of_getElem? hd) hd'
  | setKill | stop | halt => exact { h with }

theorem authentic_of_reachable (hr : Reachable (Step draw) (start z cfg c rng) s) : Authentic s := by
  have hboth := hr.invariant
    (I := fun s => Reachable RingEngine.Step (RingEngine.start z cfg) s.engine ∧ Authentic s)
    ⟨.refl, authentic_start⟩ fun hi hs => by
      obtain ⟨hr, hi⟩ := hi
      exact ⟨hs.move.reachable hr, hi.move hr hs.move⟩
  exact hboth.2

/-! ### Positions -/

/-- The exchange fills orders in full on their own side, and ids that do not repeat tell one order from another. -/
theorem Authentic.complies {v : Snapshot z} {evs : List (OrderLoop × LoopEvent)} {a : OrderLoop} (h : Authentic s)
    (hw : v.world = s.engine.world) (hpath : v.OrderPath) (hm : Snapshot.Matched cfg v evs a)
    (hfew : v.world.emitted.length ≤ UInt64.size) :
    ∀ p ∈ evs, OrderLoop.Complies p.1 p.2 ∧ OrderLoop.FillsFull p.1 p.2 := by
  rintro ⟨b, ev⟩ hp
  cases ev with
  | emit | pass | drop | deliver => exact ⟨trivial, trivial⟩
  | report r =>
    have hanswer : ∀ o, b.phase = .working o → r.side = o.side ∧ r.fillSize = o.size := by
      intro o ho
      obtain ⟨m, harrived, hdec⟩ := hm.recorded _ hp
      obtain ⟨r', hr', rfl⟩ := h.arrived m (hw ▸ harrived)
      obtain ⟨o', ho', rfl⟩ := h.answers r' hr'
      have hback := ExecReport.ofDatagram?_datagram (Exchange.fill o'.onWire) []
      rw [List.append_nil, hdec] at hback
      obtain rfl := Option.some.inj hback
      have hid : o'.orderId = o.orderId := by
        obtain ⟨-, u, hs⟩ := hm.run.history _ hp
        cases hs with
        | report ho'' hid =>
          cases ho''.symm.trans ho
          exact hid
      have hsent : o ∈ v.world.sent ++ v.gateway.pc.sending := by
        rw [hm.tracks.sent]
        exact OrderLoop.working_sent hm.run _ hp o ho
      obtain rfl := hpath.eq_of_id hfew (List.mem_append_left _ (hw ▸ ho')) hsent hid
      exact ⟨rfl, rfl⟩
    exact ⟨fun o ho => ⟨(hanswer o ho).1, UInt32.le_of_eq (hanswer o ho).2⟩, fun o ho => (hanswer o ho).2⟩

/-- The paths of the engine, and a run of the order loop with full fills only. -/
theorem filled_of_reachable (hr : Reachable (Step draw) (start z cfg c rng) s)
    (hfew : s.engine.world.emitted.length ≤ UInt64.size) :
    ∃ v evs a, RingEngine.Shows s.engine v ∧ Snapshot.Matched cfg v evs a ∧
      ∀ p ∈ evs, OrderLoop.EmitsSize cfg.strategy.orderSize.toNat p.2 ∧ OrderLoop.Complies p.1 p.2 ∧
        OrderLoop.FillsFull p.1 p.2 := by
  obtain ⟨v, hv, hs⟩ := RingEngine.sound_of_reachable (engine_reachable hr)
  obtain ⟨evs, a, hm⟩ := hs.loop
  have hcomplies := (authentic_of_reachable hr).complies hv.world hs.orders hm (hv.world ▸ hfew)
  exact ⟨v, evs, a, hv, hm, fun p hp => ⟨(hm.recorded p hp).emitsSize, hcomplies p hp⟩⟩

/-- Whatever the links lose, double or reorder, and however the threads and the exchange interleave, both positions are
    short one order, flat or long one order, as long as the ids do not repeat. -/
theorem positions_one_order (hr : Reachable (Step draw) (start z cfg c rng) s)
    (hfew : s.engine.world.emitted.length ≤ UInt64.size) :
    OrderLoop.OneOrder cfg.strategy.orderSize.toNat s.engine.strategy.runner.strat.position ∧
      OrderLoop.OneOrder cfg.strategy.orderSize.toNat s.engine.gateway.gateway.risk.position := by
  obtain ⟨v, evs, a, hv, hm, hfilled⟩ := filled_of_reachable hr hfew
  rw [← hv.strategy, ← hv.gateway, hm.tracks.strategyPos, hm.tracks.gatePos]
  exact OrderLoop.oneOrder_of_run hm.run hfilled

theorem positions_one_order_doubled :
    ∃ s, after? Engine.least Engine.hundreds quotes doubled = some s ∧ s.engine.gateway.gateway.fillsUnmatched = 1 ∧
      OrderLoop.OneOrder 100 s.engine.strategy.runner.strat.position ∧
      OrderLoop.OneOrder 100 s.engine.gateway.gateway.risk.position := by
  have hrun : ((after? Engine.least Engine.hundreds quotes doubled).map fun s =>
      (s.engine.gateway.gateway.fillsUnmatched, s.engine.world.emitted.length)) = some (1, 1) := by decide +kernel
  obtain ⟨s, hs, hcounts⟩ := Option.map_eq_some_iff.mp hrun
  obtain ⟨hunmatched, hone⟩ := Prod.mk.inj hcounts
  exact ⟨s, hs, hunmatched, positions_one_order (Reachable.of_foldlM hs) (hone ▸ by decide)⟩

/-- Under limits that an order fits in, no reason is left to drop it. -/
theorem ne_drop {v : Snapshot z} {evs : List (OrderLoop × LoopEvent)} {a : OrderLoop}
    (hm : Snapshot.Matched cfg v evs a) (hpos : 0 < cfg.strategy.orderSize)
    (hsize : cfg.strategy.orderSize ≤ cfg.risk.maxOrderSize)
    (hmax : (cfg.strategy.orderSize.toNat : Int) ≤ cfg.risk.maxPosition) (hrate : cfg.cyclesPerToken = 0)
    (hkill : true ∉ v.world.kills)
    (hfilled : ∀ p ∈ evs, OrderLoop.EmitsSize cfg.strategy.orderSize.toNat p.2 ∧ OrderLoop.Complies p.1 p.2) :
    ∀ p ∈ evs, p.2 ≠ .drop := by
  rintro ⟨b, ev⟩ hp rfl
  have hwithin := (OrderLoop.within_of_run hm.run hfilled).1 _ hp
  have hcause : Snapshot.Recorded cfg v.world b .drop := hm.recorded _ hp
  obtain ⟨-, u, hs⟩ := hm.run.history _ hp
  cases hs with
  | @drop o ho =>
    have hlen : o.size = cfg.strategy.orderSize := UInt32.toNat_inj.mp (hwithin.order o (by rw [ho]; rfl))
    have hproj : -(cfg.strategy.orderSize.toNat : Int) ≤ b.gatePos + o.signedSize ∧
        b.gatePos + o.signedSize ≤ cfg.strategy.orderSize.toNat :=
      hwithin.projected ((OrderLoop.ledger_of_run hm.run).1 _ hp) ho
    rcases hcause o ho with hkilled | hzero | hband | hrated
    · exact hkill hkilled
    · rw [hlen] at hzero
      rcases hzero with hzero | hbig
      · exact absurd (hzero ▸ hpos) (by decide)
      · exact absurd hsize (UInt32.not_le.mpr hbig)
    · omega
    · exact hrated hrate

/-- Under limits that an order fits in and with the kill switch left alone, the gate refuses nothing: every order that
    was emitted is on the wire or on its way there. -/
theorem nothing_refused (hr : Reachable (Step draw) (start z cfg c rng) s)
    (hfew : s.engine.world.emitted.length ≤ UInt64.size) (hpos : 0 < cfg.strategy.orderSize)
    (hsize : cfg.strategy.orderSize ≤ cfg.risk.maxOrderSize)
    (hmax : (cfg.strategy.orderSize.toNat : Int) ≤ cfg.risk.maxPosition) (hrate : cfg.cyclesPerToken = 0)
    (hkill : true ∉ s.engine.world.kills) :
    s.engine.gateway.gateway.riskRejected = 0 ∧
      ∃ v, RingEngine.Shows s.engine v ∧ s.engine.world.emitted.map Prod.fst = s.engine.world.sent ++
        (v.gateway.pc.sending ++ (v.gateway.pc.heldOrders ++ v.orderQ.items ++ v.strategy.pc.heldOrders)) := by
  obtain ⟨v, hv, hs⟩ := RingEngine.sound_of_reachable (engine_reachable hr)
  obtain ⟨evs, a, hm⟩ := hs.loop
  have hcomplies := (authentic_of_reachable hr).complies hv.world hs.orders hm (hv.world ▸ hfew)
  have hfilled : ∀ p ∈ evs, OrderLoop.EmitsSize cfg.strategy.orderSize.toNat p.2 ∧ OrderLoop.Complies p.1 p.2 :=
    fun p hp => ⟨(hm.recorded p hp).emitsSize, (hcomplies p hp).1⟩
  have hundropped := OrderLoop.undropped_of_run hm.run
    (ne_drop hm hpos hsize hmax hrate (hv.world ▸ hkill) hfilled)
  refine ⟨?_, v, hv, ?_⟩
  · rw [← hv.gateway, hm.tracks.rejected]
    cases hphase : a.phase with
    | dropped o => exact absurd hphase (hundropped.phase o)
    | idle | queued | working | reported => rfl
  · rw [← hv.world, hs.orders.orders, hm.tracks.checked, hundropped.sent, ← hm.tracks.sent]
    exact List.append_assoc _ _ _

theorem nothing_refused_doubled :
    ∃ s, after? Engine.least Engine.hundreds quotes doubled = some s ∧ s.engine.world.emitted.length = 1 ∧
      (s.engine.gateway.gateway.riskRejected = 0 ∧
        ∃ v, RingEngine.Shows s.engine v ∧ s.engine.world.emitted.map Prod.fst = s.engine.world.sent ++
          (v.gateway.pc.sending ++ (v.gateway.pc.heldOrders ++ v.orderQ.items ++ v.strategy.pc.heldOrders))) := by
  have hrun : ((after? Engine.least Engine.hundreds quotes doubled).map fun s =>
      (s.engine.world.emitted.length, s.engine.world.kills)) = some (1, []) := by decide +kernel
  obtain ⟨s, hs, hstate⟩ := Option.map_eq_some_iff.mp hrun
  obtain ⟨hone, hkills⟩ := Prod.mk.inj hstate
  exact ⟨s, hs, hone, nothing_refused (Reachable.of_foldlM hs) (hone ▸ by decide) (by decide) (by decide) (by decide)
    rfl (by simp [hkills])⟩

end ClosedLoop

end Hft
