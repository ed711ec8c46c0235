import Mathlib.Data.List.Induction
import Mathlib.Data.List.Nodup

/-! Requests and replies that meet by a key. The first reply to a request settles it; every other reply is stray. -/

namespace RequestReply

inductive Act (α β : Type)
  | send (a : α)
  | reply (b : β)

structure Book (α β : Type) where
  working : List α := []
  settled : List β := []
  stray : List β := []

section
variable {α β κ : Type} [DecidableEq κ]

/-- The requests of a log. -/
def sends (log : List (Act α β)) : List α := log.filterMap fun | .send a => some a | .reply _ => none

def replies (log : List (Act α β)) : List β := log.filterMap fun | .send _ => none | .reply b => some b

variable (key : α → κ) (replyKey : β → κ)

/-- A request with the reply's key works. -/
def Book.Hits (k : Book α β) (b : β) : Prop := ∃ a ∈ k.working, key a = replyKey b

instance (k : Book α β) (b : β) : Decidable (k.Hits key replyKey b) :=
  inferInstanceAs (Decidable (∃ a ∈ k.working, key a = replyKey b))

def Book.act (k : Book α β) : Act α β → Book α β
  | .send a => { k with working := k.working ++ [a] }
  | .reply b =>
    if k.Hits key replyKey b then
      { k with working := k.working.filter fun a => key a ≠ replyKey b, settled := k.settled ++ [b] }
    else { k with stray := k.stray ++ [b] }

def book (log : List (Act α β)) : Book α β := log.foldl (Book.act key replyKey) {}

variable {key replyKey} {log : List (Act α β)} {x : Act α β} {a : α} {b : β}

@[simp] theorem book_nil : book key replyKey ([] : List (Act α β)) = {} := rfl

@[simp] theorem book_snoc : book key replyKey (log ++ [x]) = (book key replyKey log).act key replyKey x := by
  simp [book]

@[simp] theorem sends_snoc_send : sends (log ++ [.send a]) = sends log ++ [a] := by simp [sends]
@[simp] theorem sends_snoc_reply : sends (log ++ [.reply b]) = sends log := by simp [sends]
@[simp] theorem replies_snoc_send : replies (log ++ [.send a]) = replies log := by simp [replies]
@[simp] theorem replies_snoc_reply : replies (log ++ [.reply b]) = replies log ++ [b] := by simp [replies]

theorem mem_sends : a ∈ sends log ↔ .send a ∈ log := by
  simp only [sends, List.mem_filterMap]
  constructor
  · rintro ⟨x, hx, h⟩
    cases x <;> simp_all
  · exact fun h => ⟨_, h, rfl⟩

theorem mem_replies : b ∈ replies log ↔ .reply b ∈ log := by
  simp only [replies, List.mem_filterMap]
  constructor
  · rintro ⟨x, hx, h⟩
    cases x <;> simp_all
  · exact fun h => ⟨_, h, rfl⟩

/-- A place in a log with one act more is the last place or a place of the log. -/
theorem split_snoc {pre post : List (Act α β)} {y : Act α β} (h : log ++ [x] = pre ++ y :: post) :
    (log = pre ∧ x = y) ∨ ∃ post', log = pre ++ y :: post' := by
  rcases List.eq_nil_or_concat post with rfl | ⟨post', z, rfl⟩
  · obtain ⟨hlog, hx⟩ := List.append_inj' h rfl
    exact Or.inl ⟨hlog, List.singleton_inj.mp hx⟩
  · have h' : log ++ [x] = (pre ++ y :: post') ++ [z] := by simpa using h
    exact Or.inr ⟨post', (List.append_inj' h' rfl).1⟩

/-! ### One act -/

theorem act_hit {k : Book α β} (h : k.Hits key replyKey b) :
    k.act key replyKey (.reply b) =
      { k with working := k.working.filter fun a => key a ≠ replyKey b, settled := k.settled ++ [b] } := if_pos h

theorem act_miss {k : Book α β} (h : ¬k.Hits key replyKey b) :
    k.act key replyKey (.reply b) = { k with stray := k.stray ++ [b] } := if_neg h

/-! ### The book of a log -/

theorem working_sublist (log : List (Act α β)) : ((book key replyKey log).working).Sublist (sends log) := by
  induction log using List.reverseRecOn with
  | nil => exact List.Sublist.refl _
  | append_singleton log x ih =>
    cases x with
    | send a => simpa [Book.act] using ih
    | reply b =>
      rw [book_snoc, sends_snoc_reply]
      by_cases hb : (book key replyKey log).Hits key replyKey b
      · rw [act_hit hb]
        exact List.filter_sublist.trans ih
      · rw [act_miss hb]
        exact ih

theorem working_nodup (hkeys : ((sends log).map key).Nodup) :
    ((book key replyKey log).working.map key).Nodup :=
  hkeys.sublist ((working_sublist log).map key)

theorem length_replies (log : List (Act α β)) :
    (replies log).length = (book key replyKey log).settled.length + (book key replyKey log).stray.length := by
  induction log using List.reverseRecOn with
  | nil => rfl
  | append_singleton log x ih =>
    cases x with
    | send a => simpa [Book.act] using ih
    | reply b =>
      rw [book_snoc, replies_snoc_reply, List.length_append]
      by_cases hb : (book key replyKey log).Hits key replyKey b
      · rw [act_hit hb, List.length_append, ih]
        exact Nat.add_right_comm _ _ _
      · rw [act_miss hb, List.length_append, ih]
        exact Nat.add_assoc _ _ _

theorem sent_of_settled (hb : b ∈ (book key replyKey log).settled) : ∃ a ∈ sends log, key a = replyKey b := by
  induction log using List.reverseRecOn generalizing b with
  | nil => cases hb
  | append_singleton log x ih =>
    cases x with
    | send a =>
      rw [book_snoc] at hb
      obtain ⟨a', ha', hk⟩ := ih hb
      exact ⟨a', by simp [ha'], hk⟩
    | reply b' =>
      rw [sends_snoc_reply]
      by_cases hb' : (book key replyKey log).Hits key replyKey b'
      · rw [book_snoc, act_hit hb'] at hb
        rcases List.mem_append.mp hb with hb | hb
        · exact ih hb
        · obtain rfl := List.mem_singleton.mp hb
          obtain ⟨a, ha, hk⟩ := hb'
          exact ⟨a, (working_sublist log).subset ha, hk⟩
      · rw [book_snoc, act_miss hb'] at hb
        exact ih hb

/-- With distinct keys a request works until a reply to it is settled. -/
theorem mem_working (hkeys : ((sends log).map key).Nodup) :
    a ∈ (book key replyKey log).working ↔
      a ∈ sends log ∧ ∀ b ∈ (book key replyKey log).settled, replyKey b ≠ key a := by
  induction log using List.reverseRecOn with
  | nil => simp [sends]
  | append_singleton log x ih =>
    cases x with
    | send a' =>
      rw [sends_snoc_send, List.map_append, List.nodup_append] at hkeys
      obtain ⟨hold, -, hnew⟩ := hkeys
      have hfresh : ∀ b ∈ (book key replyKey log).settled, replyKey b ≠ key a' := by
        intro b hb heq
        obtain ⟨a, ha, hk⟩ := sent_of_settled hb
        exact hnew _ (List.mem_map_of_mem ha) _ (by simp) (hk.trans heq)
      have hsend : book key replyKey (log ++ [.send a']) =
        { book key replyKey log with working := (book key replyKey log).working ++ [a'] } := book_snoc
      rw [sends_snoc_send, hsend, List.mem_append, List.mem_append, List.mem_singleton, ih hold]
      constructor
      · rintro (⟨ha, hall⟩ | rfl)
        · exact ⟨Or.inl ha, hall⟩
        · exact ⟨Or.inr rfl, hfresh⟩
      · rintro ⟨ha | rfl, hall⟩
        · exact Or.inl ⟨ha, hall⟩
        · exact Or.inr rfl
    | reply b =>
      rw [sends_snoc_reply] at hkeys ⊢
      rw [book_snoc]
      by_cases hb : (book key replyKey log).Hits key replyKey b
      · rw [act_hit hb]
        simp only [List.mem_filter, ih hkeys, List.mem_append, List.mem_singleton, decide_eq_true_eq]
        constructor
        · rintro ⟨⟨ha, hall⟩, hne⟩
          refine ⟨ha, fun b' hb' => ?_⟩
          rcases hb' with hb' | rfl
          · exact hall b' hb'
          · exact hne.symm
        · rintro ⟨ha, hall⟩
          exact ⟨⟨ha, fun b' hb' => hall b' (Or.inl hb')⟩, (hall b (Or.inr rfl)).symm⟩
      · rw [act_miss hb]
        exact ih hkeys

/-- A reply settles a request exactly when its key was sent and no earlier reply with that key was settled. -/
theorem hits_iff (hkeys : ((sends log).map key).Nodup) :
    (book key replyKey log).Hits key replyKey b ↔
      (∃ a ∈ sends log, key a = replyKey b) ∧
        ∀ b' ∈ (book key replyKey log).settled, replyKey b' ≠ replyKey b := by
  constructor
  · rintro ⟨a, ha, hk⟩
    obtain ⟨hsent, hall⟩ := (mem_working hkeys).mp ha
    exact ⟨⟨a, hsent, hk⟩, hk ▸ hall⟩
  · rintro ⟨⟨a, ha, hk⟩, hall⟩
    exact ⟨a, (mem_working hkeys).mpr ⟨ha, hk ▸ hall⟩, hk⟩

theorem settled_nodup (hkeys : ((sends log).map key).Nodup) :
    ((book key replyKey log).settled.map replyKey).Nodup := by
  induction log using List.reverseRecOn with
  | nil => exact List.nodup_nil
  | append_singleton log x ih =>
    cases x with
    | send a =>
      rw [sends_snoc_send, List.map_append] at hkeys
      rw [book_snoc]
      exact ih hkeys.of_append_left
    | reply b =>
      rw [sends_snoc_reply] at hkeys
      rw [book_snoc]
      by_cases hb : (book key replyKey log).Hits key replyKey b
      · rw [act_hit hb, List.map_append, List.map_singleton, List.nodup_append]
        refine ⟨ih hkeys, List.nodup_singleton _, fun k hk k' hk' => ?_⟩
        obtain ⟨b', hb', rfl⟩ := List.mem_map.mp hk
        obtain rfl := List.mem_singleton.mp hk'
        exact ((hits_iff hkeys).mp hb).2 b' hb'
      · rw [act_miss hb]
        exact ih hkeys

theorem length_filter_key {l : List α} (hkeys : (l.map key).Nodup) (ha : a ∈ l) :
    (l.filter fun a' => key a' ≠ key a).length + 1 = l.length := by
  induction l with
  | nil => cases ha
  | cons a' l ih =>
    simp only [List.map_cons, List.nodup_cons, List.mem_map, not_exists, not_and] at hkeys
    by_cases hk : key a' = key a
    · have hall : l.filter (fun a' => key a' ≠ key a) = l :=
        List.filter_eq_self.mpr fun x hx => decide_eq_true fun hxa => hkeys.1 x hx (hxa.trans hk.symm)
      rw [List.filter_cons_of_neg (by simpa using hk), hall, List.length_cons]
    · rcases List.mem_cons.mp ha with rfl | ha
      · exact absurd rfl hk
      · rw [List.filter_cons_of_pos (by simpa using hk), List.length_cons, List.length_cons, ih hkeys.2 ha]

/-- Every request is settled or works. -/
theorem length_sends (hkeys : ((sends log).map key).Nodup) :
    (sends log).length = (book key replyKey log).settled.length + (book key replyKey log).working.length := by
  induction log using List.reverseRecOn with
  | nil => rfl
  | append_singleton log x ih =>
    cases x with
    | send a =>
      rw [sends_snoc_send, List.map_append] at hkeys
      rw [book_snoc, sends_snoc_send, List.length_append, ih hkeys.of_append_left]
      simp only [Book.act, List.length_append]
      exact Nat.add_assoc _ _ _
    | reply b =>
      rw [sends_snoc_reply] at hkeys ⊢
      rw [book_snoc, ih hkeys]
      by_cases hb : (book key replyKey log).Hits key replyKey b
      · obtain ⟨a, ha, hk⟩ := id hb
        have hlen := length_filter_key (working_nodup hkeys) ha
        rw [act_hit hb, ← hk]
        simp only [List.length_append, List.length_singleton]
        omega
      · rw [act_miss hb]

end

end RequestReply
