import HftEngine.Literal

/-! The parser inverts every serialisation: what each routine reads from the text of its construct, by recursion on the
    derivation of the text. -/

namespace Hft.Config

open Cursor

/-! ### The cursor -/

section
variable {b : UInt8} {rest ws : List UInt8} {i : Nat}

@[simp] theorem peek_cons : (⟨b :: rest, i⟩ : Cursor).peek = b := rfl

@[simp] theorem get_cons : (⟨b :: rest, i⟩ : Cursor).get = (b, ⟨rest, i + 1⟩) := rfl

theorem skipWs_cons (h : isSpace b = false) : (⟨b :: rest, i⟩ : Cursor).skipWs = ⟨b :: rest, i⟩ := by
  simp [skipWs, advance, h]

theorem skipWs_space (h : isSpace b = true) : (⟨b :: rest, i⟩ : Cursor).skipWs = (⟨rest, i + 1⟩ : Cursor).skipWs := by
  simp [skipWs, advance, h, Nat.add_comm, Nat.add_left_comm]

theorem skipWs_append (hws : IsBlank ws) :
    (⟨ws ++ rest, i⟩ : Cursor).skipWs = (⟨rest, i + ws.length⟩ : Cursor).skipWs := by
  induction ws generalizing i with
  | nil => rfl
  | cons b ws ih =>
    have hb : isSpace b = true := by simpa [isSpace] using hws b List.mem_cons_self
    rw [List.cons_append, skipWs_space hb, ih fun b' hb' => hws b' (List.mem_cons_of_mem b hb'), List.length_cons,
      Nat.add_assoc, Nat.add_comm 1]

theorem skipWs_skipWs (c : Cursor) : c.skipWs.skipWs = c.skipWs := by
  obtain ⟨rest, i⟩ := c
  induction rest generalizing i with
  | nil => rfl
  | cons b rest ih =>
    by_cases hb : isSpace b = true
    · rw [skipWs_space hb, ih]
    · rw [Bool.not_eq_true] at hb
      rw [skipWs_cons hb, skipWs_cons hb]

end

/-! ### Strings -/

section
variable {s t rest : List UInt8} {i : Nat}

theorem unescape_of_mem {e c : UInt8} (h : (e, c) ∈ escapes) : unescape e = c := by
  have hall : escapes.all fun x => unescape x.1 = x.2 := by decide
  exact of_decide_eq_true (List.all_eq_true.mp hall _ h)

theorem stringLoop_quote (rest : List UInt8) (i : Nat) (out : List UInt8) :
    stringLoop (byte '\"' :: rest) i out = .ok (out, ⟨rest, i + 1⟩) := by
  rw [stringLoop.eq_def]
  rfl

theorem stringLoop_raw {c : UInt8} (h0 : c ≠ 0) (hquote : c ≠ byte '\"') (hslash : c ≠ byte '\\') (rest : List UInt8)
    (i : Nat) (out : List UInt8) : stringLoop (c :: rest) i out = stringLoop rest (i + 1) (out ++ [c]) := by
  rw [stringLoop.eq_def]
  dsimp only
  rw [if_neg h0, if_neg hquote, if_neg hslash]

theorem stringLoop_escape (e : UInt8) (rest : List UInt8) (i : Nat) (out : List UInt8) :
    stringLoop (byte '\\' :: e :: rest) i out = stringLoop rest (i + 2) (out ++ [unescape e]) := by
  rw [stringLoop.eq_def]
  rfl

theorem SerialChars.loop (h : SerialChars s t) (rest : List UInt8) (i : Nat) (out : List UInt8) :
    ∃ j, stringLoop (t ++ byte '\"' :: rest) i out = .ok (out ++ s, ⟨rest, j⟩) := by
  induction h generalizing i out with
  | nil => exact ⟨i + 1, by rw [List.append_nil]; exact stringLoop_quote rest i out⟩
  | @raw c s t h0 hquote hslash _ ih =>
    obtain ⟨j, hj⟩ := ih (i + 1) (out ++ [c])
    refine ⟨j, ?_⟩
    rw [List.cons_append, stringLoop_raw h0 hquote hslash, hj, List.append_assoc]
    rfl
  | @escaped e c s t hmem _ ih =>
    obtain ⟨j, hj⟩ := ih (i + 2) (out ++ [c])
    refine ⟨j, ?_⟩
    rw [List.cons_append, List.cons_append, stringLoop_escape, unescape_of_mem hmem, hj, List.append_assoc]
    rfl

theorem SerialString.parse (h : SerialString s t) (rest : List UInt8) (i : Nat) :
    ∃ j, parseString ⟨t ++ rest, i⟩ = .ok (s, ⟨rest, j⟩) := by
  obtain ⟨h⟩ := h
  obtain ⟨j, hj⟩ := SerialChars.loop h rest (i + 1) []
  refine ⟨j, ?_⟩
  rw [List.cons_append, List.append_assoc, parseString, get_cons]
  dsimp only
  rw [if_neg (by decide)]
  exact hj

end

/-! ### Numbers -/

section
variable {t rest : List UInt8} {i : Nat}

theorem IsDigits.digits (h : IsDigits t) : Digits t := fun d hd => decide_eq_true (h.2 d hd)

theorem IsNumber.isLiteral (h : IsNumber t) : IsLiteral t := by
  obtain ⟨hsign, ⟨hint, -⟩, hfrac, hexp⟩ := h
  refine .mk ?_ hint.digits ?_ (Or.inl hint.1) ?_
  · exact hsign.imp_right fun h => ⟨byte '-', by decide, h⟩
  · exact hfrac.imp_right fun ⟨ds, hds, h⟩ => ⟨ds, hds.digits, h⟩
  · rcases hexp with rfl | ⟨e, s, ds, he, hs, hds, rfl⟩
    · exact Or.inl rfl
    · have hsign : IsSign s := hs.imp_right fun h => h.elim (⟨_, by decide, ·⟩) (⟨_, by decide, ·⟩)
      exact Or.inr ⟨e, s, ds, decide_eq_true he, hsign, hds.digits, hds.1, rfl⟩

theorem IsNumber.chars (h : IsNumber t) : ∀ b ∈ t, isNumberChar b = true := h.isLiteral.chars

/-- A number starts with a digit, or with a sign before a digit. -/
theorem IsNumber.head (h : IsNumber t) :
    ∃ d t', (t = d :: t' ∨ t = byte '-' :: d :: t') ∧ byte '0' ≤ d ∧ d ≤ byte '9' := by
  obtain ⟨hsign, ⟨⟨hne, hint⟩, -⟩, -, -⟩ := h
  obtain ⟨d, ds, rfl⟩ := List.exists_cons_of_ne_nil hne
  rcases hsign with rfl | rfl
  · exact ⟨d, _, Or.inl rfl, hint d List.mem_cons_self⟩
  · exact ⟨d, _, Or.inr rfl, hint d List.mem_cons_self⟩

/-- What does not go on with a number. -/
def Stops (rest : List UInt8) : Prop := ∀ b, rest.head? = some b → isNumberChar b = false

theorem takeWhile_stops (ht : ∀ b ∈ t, isNumberChar b = true) (hrest : Stops rest) :
    (t ++ rest).takeWhile isNumberChar = t := by
  rw [List.takeWhile_append_of_pos ht]
  cases rest with
  | nil => rw [List.takeWhile_nil, List.append_nil]
  | cons b rest => rw [List.takeWhile_cons_of_neg (by simp [hrest b rfl]), List.append_nil]

variable {δ : Type} {stod : List UInt8 → Except StodError δ} {d : δ}

theorem IsNumber.parse (h : IsNumber t) (hstod : stod t = .ok d) (hrest : Stops rest) (i : Nat) :
    parseNumber stod ⟨t ++ rest, i⟩ = .ok (.number d, ⟨rest, i + t.length⟩) := by
  obtain ⟨b, t', ht, h0, h9⟩ := h.head
  have hchars := h.chars
  rw [parseNumber]
  dsimp only
  rcases ht with rfl | rfl
  · have hsign : ¬(b = byte '-' ∨ b = byte '+') := by
      rintro (rfl | rfl)
      · exact absurd h0 (by decide)
      · exact absurd h0 (by decide)
    rw [List.cons_append, peek_cons, if_neg hsign]
    dsimp only
    rw [← List.cons_append, takeWhile_stops hchars hrest, if_neg (by simp)]
    simp only [advance, Nat.add_sub_cancel_left, List.take_left, List.drop_left, hstod]
  · rw [List.cons_append, peek_cons, if_pos (Or.inl rfl), get_cons]
    dsimp only
    rw [takeWhile_stops (fun c hc => hchars c (List.mem_cons_of_mem _ hc)) hrest, if_neg (by simp)]
    have hlen : i + 1 + (b :: t').length - i = (byte '-' :: b :: t').length := by
      simp only [List.length_cons]
      omega
    have htake : (byte '-' :: ((b :: t') ++ rest)).take (byte '-' :: b :: t').length = byte '-' :: b :: t' := by
      rw [← List.cons_append, List.take_left]
    simp only [advance, hlen, htake, List.drop_left, hstod]
    congr 3
    simp only [List.length_cons]
    omega

end

/-! ### Values -/

section
variable {δ : Type} {doubleOf : List UInt8 → Option δ} {v : JsonValue δ} {t rest : List UInt8}

/-- What can follow a value: the end of the text, or the end or the next part of an array or object. -/
def Follows (rest : List UInt8) : Prop := ∀ b, rest.head? = some b → b ∈ [byte ',', byte ']', byte '}']

theorem Follows.skipWs (h : Follows rest) (i : Nat) : (⟨rest, i⟩ : Cursor).skipWs = ⟨rest, i⟩ := by
  cases rest with
  | nil => rfl
  | cons b rest =>
    have hall : [byte ',', byte ']', byte '}'].all fun b => isSpace b = false := by decide
    exact skipWs_cons (of_decide_eq_true (List.all_eq_true.mp hall b (h b rfl)))

theorem isNumberChar_blank {b : UInt8} (h : b ∈ [byte ' ', byte '\t', byte '\n', byte '\r']) :
    isNumberChar b = false := by
  have hall : [byte ' ', byte '\t', byte '\n', byte '\r'].all fun b => isNumberChar b = false := by decide
  exact of_decide_eq_true (List.all_eq_true.mp hall b h)

theorem Follows.stops {ws : List UInt8} (h : Follows rest) (hws : IsBlank ws) : Stops (ws ++ rest) := by
  intro b hb
  cases ws with
  | nil =>
    have hall : [byte ',', byte ']', byte '}'].all fun b => isNumberChar b = false := by decide
    exact of_decide_eq_true (List.all_eq_true.mp hall b (h b hb))
  | cons b' ws =>
    have hbb : b' = b := by simpa using hb
    exact isNumberChar_blank (hbb ▸ hws b' List.mem_cons_self)

theorem isSpace_eq_false {b : UInt8} (h : isNumberChar b = true) : isSpace b = false := by
  by_contra hb
  rw [Bool.not_eq_false] at hb
  have hmem : b ∈ [byte ' ', byte '\t', byte '\n', byte '\r'] := by simpa [isSpace] using hb
  rw [isNumberChar_blank hmem] at h
  exact absurd h Bool.false_ne_true

theorem ne_of_isNumberChar {b c : UInt8} (hb : isNumberChar b = true) (hc : isNumberChar c = false) : b ≠ c := by
  rintro rfl
  rw [hb] at hc
  exact absurd hc.symm Bool.false_ne_true

theorem IsNumber.exists_cons (h : IsNumber t) : ∃ b t', t = b :: t' ∧ isNumberChar b = true := by
  obtain ⟨d, t', rfl | rfl, -, -⟩ := h.head
  · exact ⟨_, _, rfl, h.chars _ List.mem_cons_self⟩
  · exact ⟨_, _, rfl, h.chars _ List.mem_cons_self⟩

/-- The first character of a value is no blank and closes nothing. -/
theorem Serial.head (h : Serial doubleOf v t) : ∃ b t', t = b :: t' ∧ isSpace b = false ∧ b ≠ byte ']' := by
  cases h with
  | number hnum hd =>
    obtain ⟨b, t', rfl, hb⟩ := hnum.exists_cons
    exact ⟨b, t', rfl, isSpace_eq_false hb, ne_of_isNumberChar hb (by decide)⟩
  | string hs =>
    obtain ⟨hs⟩ := hs
    exact ⟨_, _, rfl, by decide, by decide⟩
  | _ => exact ⟨_, _, rfl, by decide, by decide⟩

variable {stod : List UInt8 → Except StodError δ}

theorem parseValue_skipWs (fuel : Nat) (c : Cursor) : parseValue stod fuel c.skipWs = parseValue stod fuel c := by
  cases fuel with
  | zero => rw [parseValue, parseValue]
  | succ fuel => rw [parseValue, parseValue, skipWs_skipWs]

theorem itemsLoop_skipWs (fuel : Nat) (arr : List (JsonValue δ)) (c : Cursor) :
    itemsLoop stod fuel arr c.skipWs = itemsLoop stod fuel arr c := by
  cases fuel with
  | zero => rw [itemsLoop, itemsLoop]
  | succ fuel => rw [itemsLoop, itemsLoop, parseValue_skipWs]

theorem membersLoop_skipWs (fuel : Nat) (obj : List (List UInt8 × JsonValue δ)) (c : Cursor) :
    membersLoop stod fuel obj c.skipWs = membersLoop stod fuel obj c := by
  cases fuel with
  | zero => rw [membersLoop, membersLoop]
  | succ fuel => rw [membersLoop, membersLoop, skipWs_skipWs]

/-! What each routine does with the first character of its text. -/

theorem parseValue_object (fuel : Nat) (rest : List UInt8) (i : Nat) :
    parseValue stod (fuel + 1) ⟨byte '{' :: rest, i⟩ = parseObject stod fuel ⟨byte '{' :: rest, i⟩ := by
  rw [parseValue, skipWs_cons (by decide)]
  rfl

theorem parseValue_array (fuel : Nat) (rest : List UInt8) (i : Nat) :
    parseValue stod (fuel + 1) ⟨byte '[' :: rest, i⟩ = parseArray stod fuel ⟨byte '[' :: rest, i⟩ := by
  rw [parseValue, skipWs_cons (by decide)]
  rfl

theorem parseValue_string {s : List UInt8} (h : SerialString s t) (fuel : Nat) (rest : List UInt8) (i : Nat) :
    ∃ j, parseValue stod (fuel + 1) ⟨t ++ rest, i⟩ = .ok (.string s, ⟨rest, j⟩) := by
  obtain ⟨j, hj⟩ := h.parse rest i
  obtain ⟨h⟩ := h
  refine ⟨j, ?_⟩
  rw [List.cons_append] at hj ⊢
  rw [parseValue, skipWs_cons (by decide)]
  dsimp only
  rw [peek_cons, if_neg (by decide), if_neg (by decide), if_pos rfl, hj]
  rfl

theorem parseValue_number {d : δ} (h : IsNumber t) (hstod : stod t = .ok d) (hrest : Stops rest) (fuel i : Nat) :
    parseValue stod (fuel + 1) ⟨t ++ rest, i⟩ = .ok (.number d, ⟨rest, i + t.length⟩) := by
  have hparse := h.parse hstod hrest i
  obtain ⟨b, t', rfl, hb⟩ := h.exists_cons
  rw [List.cons_append] at hparse ⊢
  rw [parseValue, skipWs_cons (isSpace_eq_false hb)]
  dsimp only
  rw [peek_cons, if_neg (ne_of_isNumberChar hb (by decide)), if_neg (ne_of_isNumberChar hb (by decide)),
    if_neg (ne_of_isNumberChar hb (by decide)),
    if_neg (not_or.mpr ⟨ne_of_isNumberChar hb (by decide), ne_of_isNumberChar hb (by decide)⟩),
    if_neg (ne_of_isNumberChar hb (by decide)), hparse]

theorem parseArray_blank {ws : List UInt8} (hws : IsBlank ws) (fuel : Nat) (rest : List UInt8) (i : Nat) :
    ∃ j, parseArray stod (fuel + 1) ⟨byte '[' :: (ws ++ byte ']' :: rest), i⟩ = .ok (.array [], ⟨rest, j⟩) := by
  refine ⟨i + 1 + ws.length + 1, ?_⟩
  rw [parseArray, get_cons, skipWs_append hws, skipWs_cons (by decide)]
  rfl

theorem parseObject_blank {ws : List UInt8} (hws : IsBlank ws) (fuel : Nat) (rest : List UInt8) (i : Nat) :
    ∃ j, parseObject stod (fuel + 1) ⟨byte '{' :: (ws ++ byte '}' :: rest), i⟩ = .ok (.object [], ⟨rest, j⟩) := by
  refine ⟨i + 1 + ws.length + 1, ?_⟩
  rw [parseObject, get_cons, skipWs_append hws, skipWs_cons (by decide)]
  rfl

/-- After an item. -/
theorem itemsLoop_of_parseValue {fuel : Nat} {c c' : Cursor} {arr : List (JsonValue δ)} {b : UInt8} {j : Nat}
    (hparse : parseValue stod fuel c = .ok (v, c')) (hskip : c'.skipWs = ⟨b :: rest, j⟩) :
    itemsLoop stod (fuel + 1) arr c =
      if b = byte ',' then itemsLoop stod fuel (arr ++ [v]) ⟨rest, j + 1⟩
      else if b = byte ']' then .ok (.array (arr ++ [v]), ⟨rest, j + 1⟩)
      else .error (Cursor.fail ⟨rest, j + 1⟩ "expected ',' or ']' in array") := by
  simp only [itemsLoop, hparse, bind, Except.bind, hskip, get_cons]

/-- After a member. -/
theorem membersLoop_of_parseValue {fuel : Nat} {c c₁ c₂ : Cursor} {obj : List (List UInt8 × JsonValue δ)}
    {key : List UInt8} {b : UInt8} {i j : Nat} {t : List UInt8} (hquote : c.skipWs.peek = byte '\"')
    (hkey : parseString c.skipWs = .ok (key, c₁)) (hcolon : c₁.skipWs = ⟨byte ':' :: t, i⟩)
    (hparse : parseValue stod fuel ⟨t, i + 1⟩ = .ok (v, c₂)) (hskip : c₂.skipWs = ⟨b :: rest, j⟩) :
    membersLoop stod (fuel + 1) obj c =
      if b = byte ',' then membersLoop stod fuel (SortedMap.emplace obj (key, v)) ⟨rest, j + 1⟩
      else if b = byte '}' then .ok (.object (SortedMap.emplace obj (key, v)), ⟨rest, j + 1⟩)
      else .error (Cursor.fail ⟨rest, j + 1⟩ "expected ',' or '\x7d' in object") := by
  simp only [membersLoop, hquote, ne_eq, not_true_eq_false, if_false, hkey, bind, Except.bind, hcolon, get_cons, hparse,
    hskip]

theorem SerialPadded.peek_skipWs (h : SerialPadded doubleOf v t) (rest : List UInt8) (i : Nat) :
    (⟨t ++ rest, i⟩ : Cursor).skipWs.peek ≠ byte ']' := by
  obtain ⟨hws, hv, -⟩ := h
  obtain ⟨b, t', rfl, hspace, hb⟩ := hv.head
  rw [List.append_assoc, skipWs_append hws, List.cons_append, List.cons_append, skipWs_cons hspace]
  exact hb

theorem SerialItems.peek_skipWs {vs : List (JsonValue δ)} (h : SerialItems doubleOf vs t) (rest : List UInt8)
    (i : Nat) : (⟨t ++ rest, i⟩ : Cursor).skipWs.peek ≠ byte ']' := by
  cases h with
  | one h => exact h.peek_skipWs rest i
  | cons h _ =>
    rw [List.append_assoc]
    exact h.peek_skipWs _ i

theorem SerialMember.skipWs {e : List UInt8 × JsonValue δ} (h : SerialMember doubleOf e t) (rest : List UInt8)
    (i : Nat) : ∃ t' j, (⟨t ++ rest, i⟩ : Cursor).skipWs = ⟨byte '\"' :: t', j⟩ := by
  obtain ⟨hws, ⟨hk⟩, -, -⟩ := h
  rw [List.append_assoc, skipWs_append hws]
  exact ⟨_, _, skipWs_cons (by decide)⟩

theorem SerialMembers.skipWs {es : List (List UInt8 × JsonValue δ)} (h : SerialMembers doubleOf es t)
    (rest : List UInt8) (i : Nat) : ∃ t' j, (⟨t ++ rest, i⟩ : Cursor).skipWs = ⟨byte '\"' :: t', j⟩ := by
  cases h with
  | one h => exact h.skipWs rest i
  | cons h _ =>
    rw [List.append_assoc]
    exact h.skipWs _ i

theorem follows_cons {b : UInt8} (hb : b ∈ [byte ',', byte ']', byte '}']) (rest : List UInt8) :
    Follows (b :: rest) := by
  rintro _ ⟨⟩
  exact hb

theorem parseArray_items {fuel i : Nat} (h : (⟨t, i + 1⟩ : Cursor).skipWs.peek ≠ byte ']') :
    parseArray stod (fuel + 1) ⟨byte '[' :: t, i⟩ = itemsLoop stod fuel [] ⟨t, i + 1⟩ := by
  rw [parseArray, get_cons]
  dsimp only
  rw [if_neg h, itemsLoop_skipWs]

theorem parseObject_members {fuel i : Nat} (h : (⟨t, i + 1⟩ : Cursor).skipWs.peek ≠ byte '}') :
    parseObject stod (fuel + 1) ⟨byte '{' :: t, i⟩ = membersLoop stod fuel [] ⟨t, i + 1⟩ := by
  rw [parseObject, get_cons]
  dsimp only
  rw [if_neg h, membersLoop_skipWs]

theorem parseValue_literal (i : Nat) (fuel : Nat) (rest : List UInt8) :
    parseValue stod (fuel + 1) ⟨[byte 'n', byte 'u', byte 'l', byte 'l'] ++ rest, i⟩ = .ok (.null, ⟨rest, i + 4⟩) ∧
      parseValue stod (fuel + 1) ⟨[byte 't', byte 'r', byte 'u', byte 'e'] ++ rest, i⟩ =
        .ok (.bool true, ⟨rest, i + 4⟩) ∧
      parseValue stod (fuel + 1) ⟨[byte 'f', byte 'a', byte 'l', byte 's', byte 'e'] ++ rest, i⟩ =
        .ok (.bool false, ⟨rest, i + 5⟩) := by
  refine ⟨?_, ?_, ?_⟩
  · rw [parseValue, List.cons_append, skipWs_cons (by decide)]
    rfl
  · rw [parseValue, List.cons_append, skipWs_cons (by decide)]
    rfl
  · rw [parseValue, List.cons_append, skipWs_cons (by decide)]
    rfl

theorem peek_skipWs_members {es : List (List UInt8 × JsonValue δ)} (h : SerialMembers doubleOf es t)
    (rest : List UInt8) (i : Nat) : (⟨t ++ rest, i⟩ : Cursor).skipWs.peek ≠ byte '}' := by
  obtain ⟨t', j, hskip⟩ := h.skipWs rest i
  rw [hskip]
  exact (by decide : byte '\"' ≠ byte '}')

/-- A whole number in range is converted to its double. -/
def Converts (doubleOf : List UInt8 → Option δ) (stod : List UInt8 → Except StodError δ) : Prop :=
  ∀ t d, IsNumber t → doubleOf t = some d → stod t = .ok d

mutual

theorem Serial.parse (hstod : Converts doubleOf stod) {v : JsonValue δ} {t : List UInt8} : Serial doubleOf v t →
    ∀ (fuel i : Nat) (rest : List UInt8), 3 * t.length ≤ fuel → Stops rest →
      ∃ j, parseValue stod fuel ⟨t ++ rest, i⟩ = .ok (v, ⟨rest, j⟩)
  | h, 0, i, rest, hfuel, _ => by
    obtain ⟨b, t', rfl, -⟩ := h.head
    exact absurd hfuel (by simp)
  | .null, fuel + 1, i, rest, _, _ => ⟨i + 4, (parseValue_literal i fuel rest).1⟩
  | .boolTrue, fuel + 1, i, rest, _, _ => ⟨i + 4, (parseValue_literal i fuel rest).2.1⟩
  | .boolFalse, fuel + 1, i, rest, _, _ => ⟨i + 5, (parseValue_literal i fuel rest).2.2⟩
  | .number hnum hd, fuel + 1, i, rest, _, hrest => ⟨_, parseValue_number hnum (hstod _ _ hnum hd) hrest fuel i⟩
  | .string hs, fuel + 1, i, rest, _, _ => parseValue_string hs fuel rest i
  | .emptyArray hws, fuel + 2, i, rest, _, _ => by
    rw [List.cons_append, List.append_assoc, parseValue_array]
    exact parseArray_blank hws fuel rest i
  | .array hvs, fuel + 2, i, rest, hfuel, _ => by
    rw [List.cons_append, List.append_assoc, parseValue_array, parseArray_items (hvs.peek_skipWs _ (i + 1))]
    exact hvs.parse hstod fuel [] (i + 1) rest (by simp at hfuel; omega)
  | .emptyObject hws, fuel + 2, i, rest, _, _ => by
    rw [List.cons_append, List.append_assoc, parseValue_object]
    exact parseObject_blank hws fuel rest i
  | .object hms hperm hes, fuel + 2, i, rest, hfuel, _ => by
    have hparse := hes.parse hstod fuel [] (i + 1) rest (by simp at hfuel; omega)
    rw [SortedMap.foldl_emplace hms hperm] at hparse
    rw [List.cons_append, List.append_assoc, parseValue_object,
      parseObject_members (peek_skipWs_members hes _ (i + 1))]
    exact hparse

theorem SerialPadded.parse (hstod : Converts doubleOf stod) {v : JsonValue δ} {t : List UInt8} :
    SerialPadded doubleOf v t →
    ∀ (fuel i : Nat) (rest : List UInt8), 3 * t.length ≤ fuel → Follows rest →
      ∃ c j, parseValue stod fuel ⟨t ++ rest, i⟩ = .ok (v, c) ∧ c.skipWs = ⟨rest, j⟩
  | @SerialPadded.mk _ _ _ ws _ ws' hws hv hws', fuel, i, rest, hfuel, hrest => by
    obtain ⟨j, hj⟩ := hv.parse hstod fuel (i + ws.length) (ws' ++ rest) (by simp at hfuel; omega) (hrest.stops hws')
    refine ⟨_, j + ws'.length, ?_, (skipWs_append hws').trans (hrest.skipWs _)⟩
    rw [List.append_assoc, List.append_assoc, ← parseValue_skipWs, skipWs_append hws, parseValue_skipWs]
    exact hj

theorem SerialItems.parse (hstod : Converts doubleOf stod) {vs : List (JsonValue δ)} {t : List UInt8} :
    SerialItems doubleOf vs t →
    ∀ (fuel : Nat) (arr : List (JsonValue δ)) (i : Nat) (rest : List UInt8), 3 * t.length < fuel →
      ∃ j, itemsLoop stod fuel arr ⟨t ++ byte ']' :: rest, i⟩ = .ok (.array (arr ++ vs), ⟨rest, j⟩)
  | .one hv, fuel + 1, arr, i, rest, hfuel => by
    obtain ⟨c, j, hparse, hskip⟩ := hv.parse hstod fuel i (byte ']' :: rest) (by omega) (follows_cons (by decide) rest)
    exact ⟨j + 1, (itemsLoop_of_parseValue hparse hskip).trans rfl⟩
  | @SerialItems.cons _ _ v vs _ t' hv hvs, fuel + 1, arr, i, rest, hfuel => by
    rw [List.length_append, List.length_cons] at hfuel
    obtain ⟨c, j, hparse, hskip⟩ := hv.parse hstod fuel i (byte ',' :: (t' ++ byte ']' :: rest)) (by omega)
      (follows_cons (by decide) _)
    obtain ⟨k, hk⟩ := hvs.parse hstod fuel (arr ++ [v]) (j + 1) rest (by omega)
    refine ⟨k, ?_⟩
    rw [List.append_assoc, List.cons_append, itemsLoop_of_parseValue hparse hskip, if_pos rfl, hk, List.append_assoc]
    rfl

theorem SerialMember.parse (hstod : Converts doubleOf stod) {e : List UInt8 × JsonValue δ} {t : List UInt8} :
    SerialMember doubleOf e t →
    ∀ (fuel : Nat) (obj : List (List UInt8 × JsonValue δ)) (i : Nat) {b : UInt8} (rest : List UInt8),
      3 * t.length ≤ fuel → b ∈ [byte ',', byte ']', byte '}'] →
      ∃ j, membersLoop stod (fuel + 1) obj ⟨t ++ b :: rest, i⟩ =
        if b = byte ',' then membersLoop stod fuel (SortedMap.emplace obj e) ⟨rest, j + 1⟩
        else if b = byte '}' then .ok (.object (SortedMap.emplace obj e), ⟨rest, j + 1⟩)
        else .error (Cursor.fail ⟨rest, j + 1⟩ "expected ',' or '\x7d' in object")
  | @SerialMember.mk _ _ k v ws k' ws' t hws hk hws' hv, fuel, obj, i, b, rest, hfuel, hb => by
    obtain ⟨i₁, hkey⟩ := hk.parse (ws' ++ byte ':' :: (t ++ b :: rest)) (i + ws.length)
    obtain ⟨c, j, hparse, hskip⟩ := hv.parse hstod fuel (i₁ + ws'.length + 1) (b :: rest) (by simp at hfuel; omega)
      (follows_cons hb rest)
    have hquote : (⟨k' ++ (ws' ++ byte ':' :: (t ++ b :: rest)), i + ws.length⟩ : Cursor).skipWs =
        ⟨k' ++ (ws' ++ byte ':' :: (t ++ b :: rest)), i + ws.length⟩ := by
      obtain ⟨hk⟩ := hk
      exact skipWs_cons (by decide)
    have hpeek : (⟨k' ++ (ws' ++ byte ':' :: (t ++ b :: rest)), i + ws.length⟩ : Cursor).peek = byte '\"' := by
      obtain ⟨hk⟩ := hk
      rfl
    have hskipKey : (⟨ws ++ (k' ++ (ws' ++ byte ':' :: t)) ++ b :: rest, i⟩ : Cursor).skipWs =
        ⟨k' ++ (ws' ++ byte ':' :: (t ++ b :: rest)), i + ws.length⟩ := by
      rw [List.append_assoc, skipWs_append hws, List.append_assoc, List.append_assoc, List.cons_append, hquote]
    exact ⟨j, membersLoop_of_parseValue (by rw [hskipKey, hpeek]) (by rw [hskipKey, hkey])
      ((skipWs_append hws').trans (skipWs_cons (by decide))) hparse hskip⟩

theorem SerialMembers.parse (hstod : Converts doubleOf stod) {es : List (List UInt8 × JsonValue δ)} {t : List UInt8} :
    SerialMembers doubleOf es t →
    ∀ (fuel : Nat) (obj : List (List UInt8 × JsonValue δ)) (i : Nat) (rest : List UInt8), 3 * t.length < fuel →
      ∃ j, membersLoop stod fuel obj ⟨t ++ byte '}' :: rest, i⟩ =
        .ok (.object (es.foldl SortedMap.emplace obj), ⟨rest, j⟩)
  | .one he, fuel + 1, obj, i, rest, hfuel => by
    obtain ⟨j, hj⟩ := he.parse hstod fuel obj i rest (by omega) (by decide : byte '}' ∈ [byte ',', byte ']', byte '}'])
    exact ⟨j + 1, hj.trans rfl⟩
  | @SerialMembers.cons _ _ e _ _ t' he hes, fuel + 1, obj, i, rest, hfuel => by
    rw [List.length_append, List.length_cons] at hfuel
    obtain ⟨j, hj⟩ := he.parse hstod fuel obj i (t' ++ byte '}' :: rest) (by omega)
      (by decide : byte ',' ∈ [byte ',', byte ']', byte '}'])
    obtain ⟨k, hk⟩ := hes.parse hstod fuel (SortedMap.emplace obj e) (j + 1) rest (by omega)
    refine ⟨k, ?_⟩
    rw [List.append_assoc, List.cons_append, hj, if_pos rfl]
    exact hk

end

theorem SerialPadded.document (hstod : Converts doubleOf stod) (h : SerialPadded doubleOf v t) :
    Config.parse stod t = .ok v := by
  obtain ⟨c, j, hparse, hskip⟩ := h.parse hstod (3 * t.length + 3) 0 [] (by omega) (fun _ hb => by cases hb)
  rw [List.append_nil] at hparse
  simp only [Config.parse, parseDocument, parseValue_skipWs, hparse, bind, Except.bind, hskip]
  rfl

end

/-! ### The bound -/

section
variable {α δ : Type} {stod : List UInt8 → Except StodError δ} {fuel n : Nat} {c c' : Cursor}

/-- A routine that ends, and does not go back. -/
structure Ends (n : Nat) (r : Except ParseError (α × Cursor)) : Prop where
  ne_outOfFuel : r ≠ .error .outOfFuel
  length_le : ∀ {x c}, r = .ok (x, c) → c.rest.length ≤ n

theorem Ends.fail (i : Nat) (msg : String) : Ends n (.error (.fail i msg) : Except ParseError (α × Cursor)) :=
  ⟨by simp, fun h => by cases h⟩

theorem Ends.ok {x : α} (h : c.rest.length ≤ n) : Ends n (.ok (x, c)) :=
  ⟨by simp, fun h' => by cases h'; exact h⟩

theorem Ends.mono {m : Nat} {r : Except ParseError (α × Cursor)} (h : Ends n r) (hle : n ≤ m) : Ends m r :=
  ⟨h.1, fun hr => Nat.le_trans (h.2 hr) hle⟩

theorem Ends.bind {β : Type} {m : Nat} {r : Except ParseError (α × Cursor)}
    {f : α × Cursor → Except ParseError (β × Cursor)} (h : Ends n r)
    (hf : ∀ x c, c.rest.length ≤ n → Ends m (f (x, c))) : Ends m (r >>= f) := by
  cases r with
  | error e => exact ⟨fun he => h.1 (congrArg _ (Except.error.inj he)), fun hr => by cases hr⟩
  | ok p => exact hf p.1 p.2 (h.2 rfl)

theorem length_skipWs_le (c : Cursor) : c.skipWs.rest.length ≤ c.rest.length := by
  rw [Cursor.skipWs, advance, List.length_drop]
  omega

theorem length_get_lt {b : UInt8} (h : c.get.1 = b) (hb : b ≠ 0) : c.get.2.rest.length < c.rest.length := by
  obtain ⟨rest, i⟩ := c
  cases rest with
  | nil => exact absurd h.symm hb
  | cons b' rest => exact Nat.lt_succ_self _

theorem ends_stringLoop (rest : List UInt8) (i : Nat) (out : List UInt8) :
    Ends rest.length (stringLoop rest i out) := by
  fun_induction stringLoop rest i out with
  | case1 => exact Ends.fail _ _
  | case2 => exact Ends.fail _ _
  | case3 => exact Ends.ok (Nat.le_succ _)
  | case4 => exact Ends.fail _ _
  | case5 _ _ _ _ _ _ ih => exact ih.mono (by simp only [List.length_cons]; omega)
  | case6 _ _ _ _ _ _ _ ih => exact ih.mono (Nat.le_succ _)

theorem ends_parseString (c : Cursor) : Ends c.rest.length (parseString c) := by
  rw [parseString]
  dsimp only
  split_ifs with hquote
  · exact Ends.fail _ _
  · exact (ends_stringLoop ..).mono (Nat.le_of_lt (length_get_lt (not_not.mp hquote) (by decide)))

theorem length_advance_le (c : Cursor) (k : Nat) : (c.advance k).rest.length ≤ c.rest.length := by
  rw [advance, List.length_drop]
  omega

theorem length_get_le (c : Cursor) : c.get.2.rest.length ≤ c.rest.length := by
  obtain ⟨rest, i⟩ := c
  cases rest with
  | nil => exact Nat.le_refl _
  | cons b rest => exact Nat.le_succ _

theorem ends_parseBool (c : Cursor) : Ends c.rest.length (parseBool (δ := δ) c) := by
  unfold parseBool
  split_ifs
  · exact Ends.ok (length_advance_le c 4)
  · exact Ends.ok (length_advance_le c 5)
  · exact Ends.fail _ _

theorem ends_parseNull (c : Cursor) : Ends c.rest.length (parseNull c : Except ParseError (JsonValue δ × Cursor)) := by
  unfold parseNull
  split_ifs
  · exact Ends.ok (length_advance_le c 4)
  · exact Ends.fail _ _

theorem ends_parseNumber (c : Cursor) : Ends c.rest.length (parseNumber stod c) := by
  rw [parseNumber]
  dsimp only
  have hsign : (if c.peek = byte '-' ∨ c.peek = byte '+' then c.get.2 else c).rest.length ≤ c.rest.length := by
    split_ifs
    · exact length_get_le c
    · exact Nat.le_refl _
  generalize (if c.peek = byte '-' ∨ c.peek = byte '+' then c.get.2 else c) = c' at hsign ⊢
  split_ifs
  · exact Ends.fail _ _
  · split
    · exact Ends.ok (Nat.le_trans (length_advance_le _ _) hsign)
    · exact ⟨by simp, fun h => by cases h⟩

/-- Enough fuel: three calls for each character at most. -/
structure EndsAt (stod : List UInt8 → Except StodError δ) (fuel : Nat) : Prop where
  value : ∀ c, 3 * c.rest.length + 3 ≤ fuel → Ends c.rest.length (parseValue stod fuel c)
  object : ∀ c, c.rest ≠ [] → 3 * c.rest.length + 2 ≤ fuel → Ends c.rest.length (parseObject stod fuel c)
  array : ∀ c, c.rest ≠ [] → 3 * c.rest.length + 2 ≤ fuel → Ends c.rest.length (parseArray stod fuel c)
  members : ∀ obj c, 3 * c.rest.length + 4 ≤ fuel → Ends c.rest.length (membersLoop stod fuel obj c)
  items : ∀ arr c, 3 * c.rest.length + 4 ≤ fuel → Ends c.rest.length (itemsLoop stod fuel arr c)

theorem ne_nil_of_peek {b : UInt8} (h : c.peek = b) (hb : b ≠ 0) : c.rest ≠ [] := by
  intro hnil
  rw [Cursor.peek, hnil] at h
  exact hb h.symm

theorem length_get_of_ne_nil (h : c.rest ≠ []) : c.get.2.rest.length + 1 = c.rest.length := by
  obtain ⟨b, rest, hrest⟩ := List.exists_cons_of_ne_nil h
  rw [Cursor.get, hrest]
  rfl

theorem endsAt (stod : List UInt8 → Except StodError δ) : ∀ fuel, EndsAt stod fuel
  | 0 => ⟨by omega, by omega, by omega, by omega, by omega⟩
  | fuel + 1 => by
    have ih := endsAt stod fuel
    refine ⟨fun c hfuel => ?_, fun c hne hfuel => ?_, fun c hne hfuel => ?_, fun obj c hfuel => ?_,
      fun arr c hfuel => ?_⟩
    · have hskip := length_skipWs_le c
      rw [parseValue]
      dsimp only
      split_ifs with hobject harray
      · exact (ih.object _ (ne_nil_of_peek hobject (by decide)) (by omega)).mono hskip
      · exact (ih.array _ (ne_nil_of_peek harray (by decide)) (by omega)).mono hskip
      · exact Ends.bind (ends_parseString _) fun s c' hc' => Ends.ok (Nat.le_trans hc' hskip)
      · exact (ends_parseBool _).mono hskip
      · exact (ends_parseNull _).mono hskip
      · exact (ends_parseNumber _).mono hskip
    · have hget := length_get_of_ne_nil hne
      have hskip := length_skipWs_le c.get.2
      rw [parseObject]
      split_ifs
      · exact Ends.ok (Nat.le_trans (length_get_le _) (by omega))
      · exact (ih.members [] _ (by omega)).mono (by omega)
    · have hget := length_get_of_ne_nil hne
      have hskip := length_skipWs_le c.get.2
      rw [parseArray]
      split_ifs
      · exact Ends.ok (Nat.le_trans (length_get_le _) (by omega))
      · exact (ih.items [] _ (by omega)).mono (by omega)
    · have hskip := length_skipWs_le c
      rw [membersLoop]
      dsimp only
      split_ifs
      · exact Ends.fail _ _
      · refine Ends.bind (ends_parseString _) fun key c₁ hc₁ => ?_
        have hcolon := Nat.le_trans (length_get_le c₁.skipWs) (length_skipWs_le c₁)
        dsimp only
        split_ifs
        · exact Ends.fail _ _
        · refine Ends.bind (ih.value _ (by omega)) fun v c₂ hc₂ => ?_
          have hskip₂ := length_skipWs_le c₂
          have hget := length_get_le c₂.skipWs
          dsimp only
          split_ifs with hcomma
          · have hlt := length_get_lt hcomma (by decide)
            exact (ih.members _ _ (by omega)).mono (by omega)
          · exact Ends.ok (by omega)
          · exact Ends.fail _ _
    · rw [itemsLoop]
      refine Ends.bind (ih.value c (by omega)) fun v c₂ hc₂ => ?_
      have hskip₂ := length_skipWs_le c₂
      have hget := length_get_le c₂.skipWs
      dsimp only
      split_ifs with hcomma
      · have hlt := length_get_lt hcomma (by decide)
        exact (ih.items _ _ (by omega)).mono (by omega)
      · exact Ends.ok (by omega)
      · exact Ends.fail _ _

/-- The bound of the model is never reached. -/
theorem parse_ne_outOfFuel (stod : List UInt8 → Except StodError δ) (text : List UInt8) :
    parse stod text ≠ .error .outOfFuel := by
  have hends := (endsAt stod (3 * text.length + 3)).value ⟨text, 0⟩ (Nat.le_refl _)
  intro hfuel
  rw [parse, parseDocument, parseValue_skipWs] at hfuel
  cases hr : parseValue stod (3 * text.length + 3) ⟨text, 0⟩ with
  | error e =>
    rw [hr] at hfuel hends
    exact hends.1 (congrArg _ (Except.error.inj hfuel))
  | ok p =>
    rw [hr] at hfuel
    simp only [bind, Except.bind] at hfuel
    split_ifs at hfuel
    exact absurd (Except.error.inj hfuel) (by simp [Cursor.fail])

end

end Hft.Config

/-! ### Paths -/

namespace Hft.JsonValue

section
variable {δ : Type} {key : List UInt8} {keys : List (List UInt8)}

theorem takeWhile_key (h : byte '.' ∉ key) : key.takeWhile (· ≠ byte '.') = key := by
  have hall : ∀ b ∈ key, decide (b ≠ byte '.') = true := fun b hb => decide_eq_true (ne_of_mem_of_not_mem hb h)
  calc key.takeWhile (· ≠ byte '.') = (key ++ []).takeWhile (· ≠ byte '.') := by rw [List.append_nil]
    _ = key ++ [].takeWhile (· ≠ byte '.') := List.takeWhile_append_of_pos hall
    _ = key := List.append_nil key

theorem takeWhile_key_append (h : byte '.' ∉ key) (rest : List UInt8) :
    (key ++ byte '.' :: rest).takeWhile (· ≠ byte '.') = key := by
  rw [List.takeWhile_append_of_pos fun b hb => decide_eq_true (ne_of_mem_of_not_mem hb h),
    List.takeWhile_cons_of_neg (by simp), List.append_nil]

theorem joinDots_cons (key key' : List UInt8) (keys : List (List UInt8)) :
    joinDots (key :: key' :: keys) = key ++ byte '.' :: joinDots (key' :: keys) := by
  simp [joinDots, List.intercalate, List.intersperse]

theorem findLoop_succ (rounds : Nat) (v : JsonValue δ) (dotted : List UInt8) :
    findLoop (rounds + 1) v dotted =
      (v.member? (dotted.takeWhile (· ≠ byte '.'))).bind fun cur =>
        match dotted.drop (dotted.takeWhile (· ≠ byte '.')).length with
        | [] => some cur
        | _ :: dotted => findLoop rounds cur dotted := by
  cases v with
  | object o =>
    rw [findLoop, member?]
    cases o.lookup (dotted.takeWhile (· ≠ byte '.')) <;> rfl
  | _ => rfl

/-- One round of the loop for each key. -/
theorem findLoop_eq : ∀ {keys : List (List UInt8)} {rounds : Nat} {v : JsonValue δ}, (∀ k ∈ keys, byte '.' ∉ k) →
    keys ≠ [] → (joinDots keys).length < rounds → findLoop rounds v (joinDots keys) = v.at? keys
  | [key], rounds + 1, v, hdots, _, _ => by
    have hjoin : joinDots [key] = key := by simp [joinDots, List.intercalate, List.intersperse]
    rw [hjoin, findLoop_succ, takeWhile_key (hdots key List.mem_cons_self), List.drop_length]
    rfl
  | key :: key' :: keys, rounds + 1, v, hdots, _, hrounds => by
    rw [joinDots_cons] at hrounds ⊢
    rw [findLoop_succ, takeWhile_key_append (hdots key List.mem_cons_self), List.drop_left, at?, List.foldlM_cons]
    rw [List.length_append, List.length_cons] at hrounds
    congr 1
    funext cur
    exact findLoop_eq (fun k hk => hdots k (List.mem_cons_of_mem key hk)) (List.cons_ne_nil _ _) (by omega)

theorem find_joinDots (v : JsonValue δ) (hne : keys ≠ []) (hdots : ∀ k ∈ keys, byte '.' ∉ k) :
    v.find (joinDots keys) = v.at? keys :=
  findLoop_eq hdots hne (Nat.lt_succ_self _)

theorem member?_eq_none {v : JsonValue δ} :
    v.member? key = none ↔ (∀ o, v ≠ .object o) ∨ ∃ o, v = .object o ∧ ∀ w, (key, w) ∉ o := by
  cases v with
  | object o =>
    simp only [member?, List.lookup_eq_none_iff, ne_eq, object.injEq, exists_eq_left']
    constructor
    · exact fun h => Or.inr fun w hw => absurd (h _ hw) (by simp)
    · rintro (h | h) x hx
      · exact absurd rfl (h o)
      · simp only [bne_iff_ne, ne_eq]
        rintro rfl
        exact h x.2 hx
  | _ => simp [member?]

theorem at?_cons (v : JsonValue δ) (key : List UInt8) (keys : List (List UInt8)) :
    v.at? (key :: keys) = (v.member? key).bind fun w => w.at? keys := List.foldlM_cons

/-- The lookup that fails. -/
theorem at?_eq_none {v : JsonValue δ} :
    v.at? keys = none ↔ ∃ before key after cur, keys = before ++ key :: after ∧ v.at? before = some cur ∧
      cur.member? key = none := by
  induction keys generalizing v with
  | nil => simp [at?]
  | cons k keys ih =>
    rw [at?_cons]
    constructor
    · intro hnone
      cases hk : v.member? k with
      | none => exact ⟨[], k, keys, v, rfl, rfl, hk⟩
      | some w =>
        rw [hk] at hnone
        obtain ⟨before, key, after, cur, rfl, hcur, hmember⟩ := ih.mp hnone
        refine ⟨k :: before, key, after, cur, rfl, ?_, hmember⟩
        rw [at?_cons, hk]
        exact hcur
    · rintro ⟨before, key, after, cur, hkeys, hcur, hmember⟩
      cases before with
      | nil =>
        obtain ⟨rfl, rfl⟩ := List.cons.inj hkeys
        obtain rfl : v = cur := Option.some.inj hcur
        rw [hmember]
        rfl
      | cons k' before =>
        obtain ⟨rfl, rfl⟩ := List.cons.inj hkeys
        rw [at?_cons] at hcur
        obtain ⟨w, hw, hcur⟩ := Option.bind_eq_some_iff.mp hcur
        rw [hw]
        exact ih.mpr ⟨before, key, after, cur, rfl, hcur, hmember⟩

end

end Hft.JsonValue

namespace Hft.Config

section
variable {δ : Type} {doubleOf : List UInt8 → Option δ} {stod : List UInt8 → Except StodError δ}

/-- Every text of a value is parsed to it, and a path finds what the lookups of its keys find. -/
theorem parse_inverts (hstod : Converts doubleOf stod) :
    (∀ (v : JsonValue δ) (text : List UInt8), SerialPadded doubleOf v text → parse stod text = .ok v) ∧
    ∀ (root : JsonValue δ) (keys : List (List UInt8)), keys ≠ [] → (∀ k ∈ keys, byte '.' ∉ k) →
      root.find (JsonValue.joinDots keys) = root.at? keys ∧
      (root.find (JsonValue.joinDots keys) = none ↔
        ∃ before key after cur, keys = before ++ key :: after ∧ root.at? before = some cur ∧
          ((∀ o, cur ≠ .object o) ∨ ∃ o, cur = .object o ∧ ∀ w, (key, w) ∉ o)) := by
  refine ⟨fun v text h => h.document hstod, fun root keys hne hdots => ?_⟩
  have hfind := root.find_joinDots hne hdots
  refine ⟨hfind, ?_⟩
  rw [hfind, JsonValue.at?_eq_none]
  simp only [JsonValue.member?_eq_none]

end

theorem isBlank_nil : IsBlank [] := fun _ hb => absurd hb List.not_mem_nil

theorem isBlank_space : IsBlank [byte ' '] := fun _ hb => List.mem_singleton.mp hb ▸ List.mem_cons_self

theorem isNumber_minus_two : IsNumber [byte '-', byte '2'] :=
  have hdigit : byte '0' ≤ byte '2' ∧ byte '2' ≤ byte '9' := by decide
  @IsNumber.mk [byte '-'] [byte '2'] [] [] (Or.inr rfl)
    ⟨⟨List.cons_ne_nil _ _, fun _ hd => List.mem_singleton.mp hd ▸ hdigit⟩, by decide⟩ (Or.inl rfl) (Or.inl rfl)

/-- One number in range. -/
def minusTwo (t : List UInt8) : Option Int := if t = [byte '-', byte '2'] then some (-2) else none

def stodMinusTwo (t : List UInt8) : Except StodError Int :=
  match minusTwo t with
  | some d => .ok d
  | none => .error .invalidArgument

theorem converts_minusTwo : Converts minusTwo stodMinusTwo := fun t d _ hd => by rw [stodMinusTwo, hd]

/-- An object with its later key first and a line feed escaped; a path of two keys. -/
theorem parse_inverts_nested :
    parse stodMinusTwo (['{', ' ', '\"', 'b', '\"', ':', '\"', '\\', 'n', '\"', ',',
      '\"', 'a', '\"', ':', '{', '\"', 'b', '\"', ':', '-', '2', '}', '}'].map byte) =
      .ok (.object [([byte 'a'], .object [([byte 'b'], .number (-2))]), ([byte 'b'], .string [byte '\n'])]) ∧
    (JsonValue.object [([byte 'a'], .object [([byte 'b'], .number (-2 : Int))])]).find
      (JsonValue.joinDots [[byte 'a'], [byte 'b']]) = some (.number (-2)) := by
  obtain ⟨hparse, hfind⟩ := parse_inverts converts_minusTwo
  have hkey : ∀ c : Char, byte c ≠ 0 → byte c ≠ byte '\"' → byte c ≠ byte '\\' →
      SerialString [byte c] (byte '\"' :: ([byte c] ++ [byte '\"'])) := fun c h0 hquote hslash =>
    .mk (.raw h0 hquote hslash .nil)
  have hstring : SerialString [byte '\n'] (byte '\"' :: ([byte '\\', byte 'n'] ++ [byte '\"'])) :=
    .mk (.escaped (by decide) .nil)
  have hnumber : SerialPadded minusTwo (.number (-2)) ([] ++ ([byte '-', byte '2'] ++ [])) :=
    .mk isBlank_nil (.number isNumber_minus_two rfl) isBlank_nil
  have hinner := Serial.object (List.pairwise_singleton _ ([byte 'b'], .number (-2 : Int))) (List.Perm.refl _)
    (.one (.mk isBlank_nil (hkey 'b' (by decide) (by decide) (by decide)) isBlank_nil hnumber))
  have houter : Serial minusTwo
      (.object [([byte 'a'], .object [([byte 'b'], .number (-2))]), ([byte 'b'], .string [byte '\n'])]) _ := .object
    (by simp [SortedMap.Sorted]; decide) (List.Perm.swap _ _ _)
    (.cons (.mk isBlank_space (hkey 'b' (by decide) (by decide) (by decide)) isBlank_nil
        (.mk isBlank_nil (.string hstring) isBlank_nil))
      (.one (.mk isBlank_nil (hkey 'a' (by decide) (by decide) (by decide)) isBlank_nil
        (.mk isBlank_nil hinner isBlank_nil))))
  refine ⟨hparse _ _ (.mk isBlank_nil houter isBlank_nil), ?_⟩
  rw [(hfind _ [[byte 'a'], [byte 'b']] (by decide) (by decide)).1]
  rfl

end Hft.Config
