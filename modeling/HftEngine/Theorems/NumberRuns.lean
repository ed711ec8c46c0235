import HftEngine.Theorems.Config

/-! What the parser makes of the runs of number characters: which calls of `parse_number` a text leads to, and when the
    number of each is the whole run's. -/

namespace Hft

namespace JsonValue

variable {δ : Type}

/-- The numbers in a value. -/
inductive Stores : JsonValue δ → δ → Prop
  | number {d : δ} : Stores (.number d) d
  | array {vs : List (JsonValue δ)} {w : JsonValue δ} {d : δ} : w ∈ vs → Stores w d → Stores (.array vs) d
  | object {ms : List (List UInt8 × JsonValue δ)} {e : List UInt8 × JsonValue δ} {d : δ} : e ∈ ms → Stores e.2 d →
    Stores (.object ms) d

end JsonValue

namespace Config

open Cursor

variable {δ : Type}

/-! ### The calls -/

section
variable (stod : List UInt8 → Except StodError δ)

mutual

/-- The cursors at which `parse_value` calls `parse_number`, in their order. -/
def valueCalls : (fuel : Nat) → Cursor → List Cursor
  | 0, _ => []
  | fuel + 1, c =>
    let c := c.skipWs
    if c.peek = byte '{' then objectCalls fuel c
    else if c.peek = byte '[' then arrayCalls fuel c
    else if c.peek = byte '\"' ∨ c.peek = byte 't' ∨ c.peek = byte 'f' ∨ c.peek = byte 'n' then []
    else [c]

def objectCalls : (fuel : Nat) → Cursor → List Cursor
  | 0, _ => []
  | fuel + 1, c =>
    let c := c.get.2.skipWs
    if c.peek = byte '}' then [] else membersCalls fuel c

def membersCalls : (fuel : Nat) → Cursor → List Cursor
  | 0, _ => []
  | fuel + 1, c =>
    match parseString c.skipWs with
    | .error _ => []
    | .ok (_, c) =>
      let (b, c) := c.skipWs.get
      if b ≠ byte ':' then []
      else
        valueCalls fuel c ++
          match parseValue stod fuel c with
          | .error _ => []
          | .ok (_, c) => if c.skipWs.get.1 = byte ',' then membersCalls fuel c.skipWs.get.2 else []

def arrayCalls : (fuel : Nat) → Cursor → List Cursor
  | 0, _ => []
  | fuel + 1, c =>
    let c := c.get.2.skipWs
    if c.peek = byte ']' then [] else itemsCalls fuel c

def itemsCalls : (fuel : Nat) → Cursor → List Cursor
  | 0, _ => []
  | fuel + 1, c =>
    valueCalls fuel c ++
      match parseValue stod fuel c with
      | .error _ => []
      | .ok (_, c) => if c.skipWs.get.1 = byte ',' then itemsCalls fuel c.skipWs.get.2 else []

end

def numberCalls (text : List UInt8) : List Cursor :=
  valueCalls stod (3 * text.length + 3) (⟨text, 0⟩ : Cursor).skipWs

end

/-! ### One number -/

/-- The number characters that come next. -/
def Cursor.run (c : Cursor) : List UInt8 := c.rest.takeWhile isNumberChar

/-- `std::stod` on number characters: the longest literal that starts them is converted, `valueOf` the value of one that
    is in range. -/
structure LongestPrefix (valueOf : List UInt8 → Option δ) (stod : List UInt8 → Except StodError δ) : Prop where
  throws : ∀ t, Chars t → (∀ p, p <+: t → ¬IsLiteral p) → stod t = .error .invalidArgument
  converts : ∀ t p, Chars t → p <+: t → IsLiteral p → (∀ q, q <+: t → IsLiteral q → q.length ≤ p.length) →
    stod t = match valueOf p with
      | some d => .ok d
      | none => .error .outOfRange

/-- `parse_number` consumes the whole run, which is a literal, for its value. -/
def ReadsWhole (valueOf : List UInt8 → Option δ) (stod : List UInt8 → Except StodError δ) (c : Cursor) : Prop :=
  ∃ d c', parseNumber stod c = .ok (.number d, c') ∧ c.rest = c.run ++ c'.rest ∧ IsLiteral c.run ∧
    valueOf c.run = some d

section
variable {valueOf : List UInt8 → Option δ} {stod : List UInt8 → Except StodError δ} {c c' : Cursor} {v : JsonValue δ}
  {d : δ} {t : List UInt8}

theorem Cursor.run_chars (c : Cursor) : Chars c.run := List.all_eq_true.mp List.all_takeWhile

theorem isNumberChar_of_isSign {b : UInt8} (h : b = byte '-' ∨ b = byte '+') : isNumberChar b = true := by
  rcases h with rfl | rfl <;> decide

/-- Without a number character nothing is converted; else the whole run is. -/
theorem parseNumber_eq (δ : Type) (c : Cursor) :
    (∃ e, ∀ stod : List UInt8 → Except StodError δ, parseNumber stod c = .error e) ∨
      ∃ c' : Cursor, c.rest = c.run ++ c'.rest ∧ ∀ stod : List UInt8 → Except StodError δ, parseNumber stod c =
        match stod c.run with
        | .ok d => .ok (.number d, c')
        | .error e => .error (.stod e) := by
  obtain ⟨rest, i⟩ := c
  -- The sign and the characters after it are one run.
  obtain ⟨sign, rest', hrest, hsign, hcursor⟩ : ∃ sign rest', rest = sign ++ rest' ∧ Chars sign ∧
      (if (⟨rest, i⟩ : Cursor).peek = byte '-' ∨ (⟨rest, i⟩ : Cursor).peek = byte '+' then
        (⟨rest, i⟩ : Cursor).get.2 else ⟨rest, i⟩) = ⟨rest', i + sign.length⟩ := by
    split_ifs with hpeek
    · cases rest with
      | nil =>
        have hzero : ¬((0 : UInt8) = byte '-' ∨ (0 : UInt8) = byte '+') := by decide
        exact absurd hpeek hzero
      | cons b rest =>
        exact ⟨[b], rest, rfl, fun _ hb => List.mem_singleton.mp hb ▸ isNumberChar_of_isSign hpeek, rfl⟩
    · exact ⟨[], rest, rfl, fun _ hb => absurd hb List.not_mem_nil, rfl⟩
  have hrun : Cursor.run ⟨rest, i⟩ = sign ++ rest'.takeWhile isNumberChar := by
    rw [Cursor.run, hrest, List.takeWhile_append_of_pos hsign]
  have hsplit : rest = Cursor.run ⟨rest, i⟩ ++ rest'.drop (rest'.takeWhile isNumberChar).length := by
    rw [hrun, List.append_assoc, List.prefix_iff_eq_append.mp (List.takeWhile_prefix isNumberChar), ← hrest]
  have htake : rest.take (i + sign.length + (rest'.takeWhile isNumberChar).length - i) = Cursor.run ⟨rest, i⟩ := by
    have hlength : i + sign.length + (rest'.takeWhile isNumberChar).length - i = (Cursor.run ⟨rest, i⟩).length := by
      rw [hrun, List.length_append]
      omega
    rw [hlength]
    exact (List.prefix_iff_eq_take.mp (List.takeWhile_prefix isNumberChar)).symm
  unfold parseNumber
  simp only [hcursor, advance, htake]
  by_cases hempty : (rest'.takeWhile isNumberChar).isEmpty = true
  · exact Or.inl ⟨_, fun stod => if_pos hempty⟩
  · exact Or.inr ⟨_, hsplit, fun stod => if_neg hempty⟩

theorem parseNumber_inv (h : parseNumber stod c = .ok (v, c')) :
    ∃ d, v = .number d ∧ stod c.run = .ok d ∧ c.rest = c.run ++ c'.rest := by
  rcases parseNumber_eq δ c with ⟨e, heq⟩ | ⟨c'', hsplit, heq⟩
  · rw [heq] at h
    cases h
  · rw [heq] at h
    cases hd : stod c.run with
    | error e =>
      rw [hd] at h
      cases h
    | ok d =>
      rw [hd] at h
      obtain ⟨rfl, rfl⟩ := Prod.mk.inj (Except.ok.inj h)
      exact ⟨d, rfl, rfl, hsplit⟩

theorem parseNumber_congr {stod' : List UInt8 → Except StodError δ} (h : stod c.run = stod' c.run) :
    parseNumber stod c = parseNumber stod' c := by
  rcases parseNumber_eq δ c with ⟨e, heq⟩ | ⟨c', -, heq⟩
  · rw [heq, heq]
  · rw [heq, heq, h]

/-- What a conversion says of its text: some literal starts it. -/
theorem LongestPrefix.startsLiteral (h : LongestPrefix valueOf stod) (ht : Chars t) (hd : stod t = .ok d) :
    startsLiteral t = true := by
  by_contra hstarts
  have hthrows := h.throws t ht fun p hp hliteral => by
    obtain ⟨rest, rfl⟩ := hp
    exact hstarts (startsLiteral_append hliteral.startsLiteral rest)
  rw [hthrows] at hd
  cases hd

/-- A literal is converted as a whole. -/
theorem LongestPrefix.valueOf_eq (h : LongestPrefix valueOf stod) (hliteral : IsLiteral t) (hd : stod t = .ok d) :
    valueOf t = some d := by
  have hconverts := h.converts t t hliteral.chars (List.prefix_refl t) hliteral fun q hq _ => hq.length_le
  rw [hconverts] at hd
  cases hvalue : valueOf t with
  | none =>
    rw [hvalue] at hd
    cases hd
  | some d' =>
    rw [hvalue] at hd
    exact congrArg some (Except.ok.inj hd)

theorem LongestPrefix.readsWhole_iff (h : LongestPrefix valueOf stod) (hparse : parseNumber stod c = .ok (v, c')) :
    ReadsWhole valueOf stod c ↔ wellPlaced c.run = true := by
  obtain ⟨d, rfl, hd, hsplit⟩ := parseNumber_inv hparse
  constructor
  · rintro ⟨-, -, -, -, hliteral, -⟩
    exact hliteral.wellPlaced
  · intro hplaced
    have hliteral := isLiteral_iff.mpr ⟨c.run_chars, hplaced, h.startsLiteral c.run_chars hd⟩
    exact ⟨d, c', hparse, hsplit, hliteral, h.valueOf_eq hliteral hd⟩

end

/-! ### A whole text -/

section
variable {stod : List UInt8 → Except StodError δ} {known known' : δ → Prop} {calls calls' : List Cursor}
  {v w : JsonValue δ} {fuel : Nat} {c c' : Cursor} {obj : List (List UInt8 × JsonValue δ)} {arr : List (JsonValue δ)}

/-- The number that a call returns. -/
def Yields (stod : List UInt8 → Except StodError δ) (c : Cursor) (d : δ) : Prop :=
  ∃ c', parseNumber stod c = .ok (.number d, c')

/-- Every call returned a number, and the numbers of the value are from the calls or were known before them. -/
structure Traced (stod : List UInt8 → Except StodError δ) (known : δ → Prop) (calls : List Cursor) (v : JsonValue δ) :
    Prop where
  returned : ∀ c ∈ calls, ∃ d, Yields stod c d
  stored : ∀ d, v.Stores d → known d ∨ ∃ c ∈ calls, Yields stod c d

theorem Traced.nil (h : ∀ d, v.Stores d → known d) : Traced stod known [] v :=
  ⟨fun _ hc => absurd hc List.not_mem_nil, fun d hd => Or.inl (h d hd)⟩

theorem Traced.append (h : Traced stod known calls w) (h' : Traced stod known' calls' v)
    (hknown : ∀ d, known' d → known d ∨ w.Stores d) : Traced stod known (calls ++ calls') v := by
  constructor
  · intro c hc
    exact (List.mem_append.mp hc).elim (h.returned c) (h'.returned c)
  · intro d hd
    have hleft : w.Stores d → known d ∨ ∃ c ∈ calls ++ calls', Yields stod c d := fun hw =>
      (h.stored d hw).imp_right fun ⟨c, hc, hy⟩ => ⟨c, List.mem_append_left _ hc, hy⟩
    rcases h'.stored d hd with hd | ⟨c, hc, hy⟩
    · exact (hknown d hd).elim Or.inl hleft
    · exact Or.inr ⟨c, List.mem_append_right _ hc, hy⟩

theorem parseBool_stores {d : δ} (h : parseBool c = .ok (v, c')) : ¬v.Stores d := by
  unfold parseBool at h
  split_ifs at h
  · obtain ⟨rfl, -⟩ := Prod.mk.inj (Except.ok.inj h)
    rintro ⟨⟩
  · obtain ⟨rfl, -⟩ := Prod.mk.inj (Except.ok.inj h)
    rintro ⟨⟩

theorem parseNull_stores {d : δ} (h : parseNull c = .ok (v, c')) : ¬v.Stores d := by
  unfold parseNull at h
  split_ifs at h
  obtain ⟨rfl, -⟩ := Prod.mk.inj (Except.ok.inj h)
  rintro ⟨⟩

theorem membersLoop_inv (h : membersLoop stod (fuel + 1) obj c = .ok (v, c')) :
    ∃ key c₁ w c₂, parseString c.skipWs = .ok (key, c₁) ∧ c₁.skipWs.get.1 = byte ':' ∧
      parseValue stod fuel c₁.skipWs.get.2 = .ok (w, c₂) ∧
      (c₂.skipWs.get.1 = byte ',' ∧
          membersLoop stod fuel (SortedMap.emplace obj (key, w)) c₂.skipWs.get.2 = .ok (v, c') ∨
        c₂.skipWs.get.1 ≠ byte ',' ∧ v = .object (SortedMap.emplace obj (key, w))) := by
  rw [membersLoop] at h
  dsimp only at h
  split_ifs at h
  cases hkey : parseString c.skipWs with
  | error e => simp only [hkey, bind, Except.bind] at h; cases h
  | ok p =>
    obtain ⟨key, c₁⟩ := p
    simp only [hkey, bind, Except.bind] at h
    split_ifs at h with hcolon
    cases hvalue : parseValue stod fuel c₁.skipWs.get.2 with
    | error e => simp only [hvalue] at h; cases h
    | ok p =>
      obtain ⟨w, c₂⟩ := p
      simp only [hvalue] at h
      refine ⟨key, c₁, w, c₂, rfl, not_not.mp hcolon, hvalue, ?_⟩
      split_ifs at h with hcomma hclose
      · exact Or.inl ⟨hcomma, h⟩
      · exact Or.inr ⟨hcomma, (Prod.mk.inj (Except.ok.inj h)).1.symm⟩

theorem itemsLoop_inv (h : itemsLoop stod (fuel + 1) arr c = .ok (v, c')) :
    ∃ w c₁, parseValue stod fuel c = .ok (w, c₁) ∧
      (c₁.skipWs.get.1 = byte ',' ∧ itemsLoop stod fuel (arr ++ [w]) c₁.skipWs.get.2 = .ok (v, c') ∨
        c₁.skipWs.get.1 ≠ byte ',' ∧ v = .array (arr ++ [w])) := by
  rw [itemsLoop] at h
  cases hvalue : parseValue stod fuel c with
  | error e => simp only [hvalue, bind, Except.bind] at h; cases h
  | ok p =>
    obtain ⟨w, c₁⟩ := p
    simp only [hvalue, bind, Except.bind] at h
    refine ⟨w, c₁, rfl, ?_⟩
    split_ifs at h with hcomma hclose
    · exact Or.inl ⟨hcomma, h⟩
    · exact Or.inr ⟨hcomma, (Prod.mk.inj (Except.ok.inj h)).1.symm⟩

structure TracedAt (stod : List UInt8 → Except StodError δ) (fuel : Nat) : Prop where
  value : ∀ {c v c'}, parseValue stod fuel c = .ok (v, c') → Traced stod (fun _ => False) (valueCalls stod fuel c) v
  object : ∀ {c v c'}, parseObject stod fuel c = .ok (v, c') → Traced stod (fun _ => False) (objectCalls stod fuel c) v
  array : ∀ {c v c'}, parseArray stod fuel c = .ok (v, c') → Traced stod (fun _ => False) (arrayCalls stod fuel c) v
  members : ∀ {obj c v c'}, membersLoop stod fuel obj c = .ok (v, c') →
    Traced stod (JsonValue.object obj).Stores (membersCalls stod fuel c) v
  items : ∀ {arr c v c'}, itemsLoop stod fuel arr c = .ok (v, c') →
    Traced stod (JsonValue.array arr).Stores (itemsCalls stod fuel c) v

theorem stores_nil {d : δ} : ¬(JsonValue.array []).Stores d ∧ ¬(JsonValue.object []).Stores d := by
  constructor
  · rintro ⟨⟩
    rename_i hw _
    exact List.not_mem_nil hw
  · rintro ⟨⟩
    rename_i he _
    exact List.not_mem_nil he

theorem stores_append {d : δ} (h : (JsonValue.array (arr ++ [w])).Stores d) :
    (JsonValue.array arr).Stores d ∨ w.Stores d := by
  cases h with
  | array hmem hd =>
    rcases List.mem_append.mp hmem with hmem | hmem
    · exact Or.inl (.array hmem hd)
    · exact Or.inr (List.mem_singleton.mp hmem ▸ hd)

theorem stores_emplace {key : List UInt8} {d : δ} (h : (JsonValue.object (SortedMap.emplace obj (key, w))).Stores d) :
    (JsonValue.object obj).Stores d ∨ w.Stores d := by
  cases h with
  | object hmem hd =>
    rcases SortedMap.mem_emplace hmem with rfl | hmem
    · exact Or.inr hd
    · exact Or.inl (.object hmem hd)

theorem Traced.of_known (h : Traced stod known calls v) (hknown : ∀ d, ¬known d) :
    Traced stod (fun _ => False) calls v :=
  ⟨h.returned, fun d hd => Or.inr ((h.stored d hd).resolve_left (hknown d))⟩

theorem Traced.after (h : Traced stod (fun _ => False) calls w) (h' : Traced stod known' calls' v)
    (hknown : ∀ d, known' d → known d ∨ w.Stores d) : Traced stod known (calls ++ calls') v :=
  Traced.append ⟨h.returned, fun d hd => Or.inr ((h.stored d hd).resolve_left id)⟩ h' hknown

/-- By the recursion of the parser. -/
theorem tracedAt (stod : List UInt8 → Except StodError δ) : ∀ fuel, TracedAt stod fuel
  | 0 => ⟨nofun, nofun, nofun, nofun, nofun⟩
  | fuel + 1 => by
    have ih := tracedAt stod fuel
    refine ⟨fun {c v c'} h => ?_, fun {c v c'} h => ?_, fun {c v c'} h => ?_, fun {obj c v c'} h => ?_,
      fun {arr c v c'} h => ?_⟩
    · rw [parseValue] at h
      rw [valueCalls]
      dsimp only at h ⊢
      split_ifs at h with hobject harray hquote hbool hnull
      · rw [if_pos hobject]
        exact ih.object h
      · rw [if_neg hobject, if_pos harray]
        exact ih.array h
      · rw [if_neg hobject, if_neg harray, if_pos (Or.inl hquote)]
        cases hs : parseString c.skipWs with
        | error e => rw [hs] at h; cases h
        | ok p =>
          rw [hs] at h
          obtain ⟨rfl, -⟩ := Prod.mk.inj (Except.ok.inj h)
          exact .nil fun d hd => by cases hd
      · rw [if_neg hobject, if_neg harray, if_pos (Or.inr (or_assoc.mp (Or.inl hbool)))]
        exact .nil fun d hd => parseBool_stores h hd
      · rw [if_neg hobject, if_neg harray, if_pos (Or.inr (Or.inr (Or.inr hnull)))]
        exact .nil fun d hd => parseNull_stores h hd
      · rw [if_neg hobject, if_neg harray, if_neg (by tauto)]
        obtain ⟨d, rfl, -, -⟩ := parseNumber_inv h
        refine ⟨fun c hc => List.mem_singleton.mp hc ▸ ⟨d, c', h⟩, fun d' hd' => Or.inr ?_⟩
        cases hd'
        exact ⟨c.skipWs, List.mem_singleton_self _, c', h⟩
    · rw [parseObject] at h
      rw [objectCalls]
      split_ifs at h ⊢
      · obtain ⟨rfl, -⟩ := Prod.mk.inj (Except.ok.inj h)
        exact .nil fun d hd => stores_nil.2 hd
      · exact (ih.members h).of_known fun d => stores_nil.2
    · rw [parseArray] at h
      rw [arrayCalls]
      split_ifs at h ⊢
      · obtain ⟨rfl, -⟩ := Prod.mk.inj (Except.ok.inj h)
        exact .nil fun d hd => stores_nil.1 hd
      · exact (ih.items h).of_known fun d => stores_nil.1
    · obtain ⟨key, c₁, w, c₂, hkey, hcolon, hvalue, hnext⟩ := membersLoop_inv h
      rw [membersCalls]
      simp only [hkey, hcolon, hvalue, ne_eq, not_true_eq_false, if_false]
      rcases hnext with ⟨hcomma, hloop⟩ | ⟨hcomma, rfl⟩
      · rw [if_pos hcomma]
        exact (ih.value hvalue).after (ih.members hloop) fun d => stores_emplace
      · rw [if_neg hcomma]
        exact (ih.value hvalue).after (.nil fun d hd => hd) fun d => stores_emplace
    · obtain ⟨w, c₁, hvalue, hnext⟩ := itemsLoop_inv h
      rw [itemsCalls]
      simp only [hvalue]
      rcases hnext with ⟨hcomma, hloop⟩ | ⟨hcomma, rfl⟩
      · rw [if_pos hcomma]
        exact (ih.value hvalue).after (ih.items hloop) fun d => stores_append
      · rw [if_neg hcomma]
        exact (ih.value hvalue).after (.nil fun d hd => hd) fun d => stores_append

theorem parse_traced {text : List UInt8} (h : parse stod text = .ok v) :
    Traced stod (fun _ => False) (numberCalls stod text) v := by
  rw [parse, parseDocument] at h
  cases hvalue : parseValue stod (3 * text.length + 3) (⟨text, 0⟩ : Cursor).skipWs with
  | error e => simp only [hvalue, bind, Except.bind] at h; cases h
  | ok p =>
    simp only [hvalue, bind, Except.bind] at h
    split_ifs at h
    exact Except.ok.inj h ▸ (tracedAt stod _).value hvalue

/-! The calls are all that `std::stod` is asked. -/

def Agree (stod stod' : List UInt8 → Except StodError δ) (calls : List Cursor) : Prop :=
  ∀ c ∈ calls, stod c.run = stod' c.run

structure AgreesAt (stod stod' : List UInt8 → Except StodError δ) (fuel : Nat) : Prop where
  value : ∀ c, Agree stod stod' (valueCalls stod fuel c) → parseValue stod fuel c = parseValue stod' fuel c
  object : ∀ c, Agree stod stod' (objectCalls stod fuel c) → parseObject stod fuel c = parseObject stod' fuel c
  array : ∀ c, Agree stod stod' (arrayCalls stod fuel c) → parseArray stod fuel c = parseArray stod' fuel c
  members : ∀ obj c, Agree stod stod' (membersCalls stod fuel c) →
    membersLoop stod fuel obj c = membersLoop stod' fuel obj c
  items : ∀ arr c, Agree stod stod' (itemsCalls stod fuel c) → itemsLoop stod fuel arr c = itemsLoop stod' fuel arr c

theorem agreesAt (stod stod' : List UInt8 → Except StodError δ) : ∀ fuel, AgreesAt stod stod' fuel
  | 0 => ⟨fun _ _ => rfl, fun _ _ => rfl, fun _ _ => rfl, fun _ _ _ => rfl, fun _ _ _ => rfl⟩
  | fuel + 1 => by
    have ih := agreesAt stod stod' fuel
    refine ⟨fun c h => ?_, fun c h => ?_, fun c h => ?_, fun obj c h => ?_, fun arr c h => ?_⟩
    · rw [valueCalls] at h
      rw [parseValue, parseValue]
      dsimp only at h ⊢
      split_ifs with hobject harray hquote hbool hnull
      · rw [if_pos hobject] at h
        exact ih.object _ h
      · rw [if_neg hobject, if_pos harray] at h
        exact ih.array _ h
      · rfl
      · rfl
      · rfl
      · rw [if_neg hobject, if_neg harray, if_neg (by tauto)] at h
        exact parseNumber_congr (h _ (List.mem_singleton_self _))
    · rw [objectCalls] at h
      rw [parseObject, parseObject]
      split_ifs at h ⊢
      · rfl
      · exact ih.members [] _ h
    · rw [arrayCalls] at h
      rw [parseArray, parseArray]
      split_ifs at h ⊢
      · rfl
      · exact ih.items [] _ h
    · rw [membersCalls] at h
      rw [membersLoop, membersLoop]
      dsimp only
      split_ifs
      · rfl
      · cases hkey : parseString c.skipWs with
        | error e => rfl
        | ok p =>
          simp only [hkey] at h
          simp only [bind, Except.bind]
          split_ifs at h ⊢
          · rfl
          · rw [← ih.value _ fun c hc => h c (List.mem_append_left _ hc)]
            cases hvalue : parseValue stod fuel p.2.skipWs.get.2 with
            | error e => rfl
            | ok q =>
              simp only [hvalue] at h
              dsimp only
              split_ifs with hcomma
              · rw [if_pos hcomma] at h
                exact ih.members _ _ fun c hc => h c (List.mem_append_right _ hc)
              · rfl
              · rfl
    · rw [itemsCalls] at h
      rw [itemsLoop, itemsLoop, ← ih.value c fun c hc => h c (List.mem_append_left _ hc)]
      cases hvalue : parseValue stod fuel c with
      | error e => rfl
      | ok q =>
        simp only [hvalue] at h
        simp only [bind, Except.bind]
        split_ifs with hcomma
        · rw [if_pos hcomma] at h
          exact ih.items _ _ fun c hc => h c (List.mem_append_right _ hc)
        · rfl
        · rfl

/-- No conversion but those of the listed runs decides what a text is parsed to. -/
theorem parse_congr {stod' : List UInt8 → Except StodError δ} {text : List UInt8}
    (h : Agree stod stod' (numberCalls stod text)) : parse stod text = parse stod' text := by
  rw [parse, parse, parseDocument, parseDocument, (agreesAt stod stod' _).value _ h]

variable {valueOf : List UInt8 → Option δ} {text : List UInt8}

/-- In an accepted text, every run is one literal, consumed as a whole for its value, where its signs, points and
    exponents stand as in a literal; and the numbers of the value are then these literals'. -/
theorem whole_iff_wellPlaced (hstod : LongestPrefix valueOf stod) (h : parse stod text = .ok v) :
    ((∀ c ∈ numberCalls stod text, ReadsWhole valueOf stod c) ∧
      ∀ d, v.Stores d → ∃ c ∈ numberCalls stod text, IsLiteral c.run ∧ valueOf c.run = some d) ↔
    ∀ c ∈ numberCalls stod text, wellPlaced c.run = true := by
  have htraced := parse_traced h
  have hiff : ∀ c ∈ numberCalls stod text, (ReadsWhole valueOf stod c ↔ wellPlaced c.run = true) := fun c hc => by
    obtain ⟨d, c', hparse⟩ := htraced.returned c hc
    exact hstod.readsWhole_iff hparse
  constructor
  · rintro ⟨hwhole, -⟩ c hc
    exact (hiff c hc).mp (hwhole c hc)
  · intro hplaced
    refine ⟨fun c hc => (hiff c hc).mpr (hplaced c hc), fun d hd => ?_⟩
    obtain ⟨c, hc, c', hparse⟩ := (htraced.stored d hd).resolve_left id
    obtain ⟨d', c'', hparse', -, hliteral, hvalue⟩ := (hiff c hc).mpr (hplaced c hc)
    rw [hparse] at hparse'
    obtain ⟨hd', -⟩ := Prod.mk.inj (Except.ok.inj hparse')
    exact ⟨c, hc, hliteral, JsonValue.number.inj hd' ▸ hvalue⟩

end

/-! ### Runs -/

/-- The longest literal that starts a text, for its value. -/
def stodOf (valueOf : List UInt8 → Option δ) (t : List UInt8) : Except StodError δ :=
  match longestLiteral t with
  | none => .error .invalidArgument
  | some p =>
    match valueOf p with
    | some d => .ok d
    | none => .error .outOfRange

theorem longestPrefix_stodOf (valueOf : List UInt8 → Option δ) : LongestPrefix valueOf (stodOf valueOf) where
  throws t _ h := by rw [stodOf, longestLiteral_eq_none h]
  converts t p _ hp hliteral hlongest := by rw [stodOf, longestLiteral_eq_some hp hliteral hlongest]

/-- Two numbers in range. -/
def inRange (t : List UInt8) : Option Int :=
  if t = ['1', '.', '0', '0', '0'].map byte then some 1
  else if t = ['-', '2', 'E', '+', '1'].map byte then some (-20)
  else none

/-- A million is stored as one: from its second point on, the run is dropped. -/
theorem second_point_is_discarded :
    parse (stodOf inRange) (['[', '1', '.', '0', '0', '0', '.', '0', '0', '0', ']'].map byte) =
        .ok (.array [.number 1]) ∧
      ¬∀ c ∈ numberCalls (stodOf inRange) (['[', '1', '.', '0', '0', '0', '.', '0', '0', '0', ']'].map byte),
        ReadsWhole inRange (stodOf inRange) c := by
  refine ⟨rfl, fun hwhole => ?_⟩
  obtain ⟨-, -, -, -, hliteral, -⟩ :=
    hwhole ⟨['1', '.', '0', '0', '0', '.', '0', '0', '0', ']'].map byte, 1⟩ (by decide +kernel)
  exact absurd hliteral (by decide +kernel)

theorem whole_iff_wellPlaced_pair :
    parse (stodOf inRange) (['[', '1', '.', '0', '0', '0', ',', '-', '2', 'E', '+', '1', ']'].map byte) =
        .ok (.array [.number 1, .number (-20)]) ∧
      ∀ c ∈ numberCalls (stodOf inRange)
          (['[', '1', '.', '0', '0', '0', ',', '-', '2', 'E', '+', '1', ']'].map byte),
        ReadsWhole inRange (stodOf inRange) c :=
  have hparse : parse (stodOf inRange)
      (['[', '1', '.', '0', '0', '0', ',', '-', '2', 'E', '+', '1', ']'].map byte) =
      .ok (.array [.number 1, .number (-20)]) := rfl
  ⟨hparse, ((whole_iff_wellPlaced (longestPrefix_stodOf inRange) hparse).mpr (by decide +kernel)).1⟩

end Config

end Hft
