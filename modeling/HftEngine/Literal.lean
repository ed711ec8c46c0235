import HftEngine.Json

/-! Decimal floating-point literals, and the rule of their signs, points and exponents: which runs of number characters
    are literals, and the longest literal that starts one. -/

namespace Hft.Config

/-! ### The characters and the literals -/

/-- Made of number characters. -/
def Chars (t : List UInt8) : Prop := ∀ b ∈ t, isNumberChar b = true

def isDigit (b : UInt8) : Bool := b ≥ byte '0' ∧ b ≤ byte '9'

def isSign (b : UInt8) : Bool := b = byte '+' ∨ b = byte '-'

def isExp (b : UInt8) : Bool := b = byte 'e' ∨ b = byte 'E'

def IsSign (s : List UInt8) : Prop := s = [] ∨ ∃ b, isSign b = true ∧ s = [b]

def Digits (ds : List UInt8) : Prop := ∀ d ∈ ds, isDigit d = true

def IsFraction (frac : List UInt8) : Prop := frac = [] ∨ ∃ ds, Digits ds ∧ frac = byte '.' :: ds

def IsExponent (exp : List UInt8) : Prop :=
  exp = [] ∨ ∃ e s ds, isExp e = true ∧ IsSign s ∧ Digits ds ∧ ds ≠ [] ∧ exp = e :: (s ++ ds)

/-- An optional sign; digits with at most one point, before or after some digit; an optional exponent. -/
inductive IsLiteral : List UInt8 → Prop
  | mk {sign int frac exp : List UInt8} : IsSign sign → Digits int → IsFraction frac →
    (int ≠ [] ∨ ∃ d ∈ frac, isDigit d = true) → IsExponent exp → IsLiteral (sign ++ (int ++ (frac ++ exp)))

/-! ### The rule -/

def afterSign : List UInt8 → List UInt8
  | [] => []
  | b :: t => if isSign b then t else b :: t

def startsDigit (t : List UInt8) : Bool := t.head?.any isDigit

/-- Digits, or a sign and digits, come next. -/
def startsExponent (t : List UInt8) : Bool := startsDigit (afterSign t)

/-- A digit, or a point and a digit, comes next. -/
def startsMantissa : List UInt8 → Bool
  | [] => false
  | b :: t => isDigit b || (b == byte '.' && startsDigit t)

/-- The characters that some literal starts. -/
def startsLiteral (t : List UInt8) : Bool := startsMantissa (afterSign t)

/-- Whether a sign, a point and an exponent may stand here; and so on. A sign stands first or right after `e`, a point
    once and before `e`, and `e` once and before digits or a sign and digits. -/
def placed : (sign point exp : Bool) → List UInt8 → Bool
  | _, _, _, [] => true
  | sign, point, exp, b :: t =>
    if isSign b then sign && placed false point exp t
    else if b = byte '.' then point && placed false false exp t
    else if isExp b then exp && startsExponent t && placed true false false t
    else placed false point exp t

def wellPlaced (t : List UInt8) : Bool := placed true true true t

section
variable {b d e : UInt8} {s ds t rest : List UInt8} {sign point exp : Bool}

/-! The kinds of characters exclude each other. -/

theorem isNumberChar_iff :
    isNumberChar b = true ↔ isDigit b = true ∨ b = byte '.' ∨ isExp b = true ∨ isSign b = true := by
  simp only [isNumberChar, isDigit, isExp, isSign, decide_eq_true_eq, or_assoc]

theorem isSign_of_isDigit (h : isDigit b = true) : isSign b = false := by
  simp only [isDigit, decide_eq_true_eq] at h
  simp only [isSign, decide_eq_false_iff_not]
  rintro (rfl | rfl)
  · exact absurd h (by decide)
  · exact absurd h (by decide)

theorem isExp_of_isDigit (h : isDigit b = true) : isExp b = false := by
  simp only [isDigit, decide_eq_true_eq] at h
  simp only [isExp, decide_eq_false_iff_not]
  rintro (rfl | rfl)
  · exact absurd h (by decide)
  · exact absurd h (by decide)

theorem ne_point_of_isDigit (h : isDigit b = true) : b ≠ byte '.' := by
  rintro rfl
  exact absurd h (by decide)

theorem isSign_of_isExp (h : isExp b = true) : isSign b = false := by
  simp only [isExp, decide_eq_true_eq] at h
  rcases h with rfl | rfl <;> decide

theorem ne_point_of_isExp (h : isExp b = true) : b ≠ byte '.' := by
  rintro rfl
  exact absurd h (by decide)

/-! What the rule says of each part. -/

theorem placed_sign (h : isSign b = true) : placed sign point exp (b :: t) = (sign && placed false point exp t) := by
  rw [placed, if_pos h]

theorem placed_point : placed sign point exp (byte '.' :: t) = (point && placed false false exp t) := rfl

theorem placed_exp (h : isExp b = true) :
    placed sign point exp (b :: t) = (exp && startsExponent t && placed true false false t) := by
  rw [placed, if_neg (by rw [isSign_of_isExp h]; decide), if_neg (ne_point_of_isExp h), if_pos h]

theorem placed_digit (h : isDigit b = true) : placed sign point exp (b :: t) = placed false point exp t := by
  rw [placed, if_neg (by rw [isSign_of_isDigit h]; decide), if_neg (ne_point_of_isDigit h),
    if_neg (by rw [isExp_of_isDigit h]; decide)]

theorem Digits.of_cons (h : Digits (d :: ds)) : isDigit d = true ∧ Digits ds :=
  ⟨h d List.mem_cons_self, fun d' hd' => h d' (List.mem_cons_of_mem d hd')⟩

theorem Digits.placed (h : Digits ds) (rest : List UInt8) :
    placed sign point exp (ds ++ rest) = placed (sign && ds.isEmpty) point exp rest := by
  induction ds generalizing sign with
  | nil => simp
  | cons d ds ih =>
    obtain ⟨hd, hds⟩ := h.of_cons
    rw [List.cons_append, placed_digit hd, ih hds]
    simp

theorem afterSign_of_isDigit (h : isDigit d = true) : afterSign (d :: t) = d :: t := by
  rw [afterSign, isSign_of_isDigit h]
  rfl

theorem IsSign.startsExponent (h : IsSign s) (hds : Digits ds) (hne : ds ≠ []) : startsExponent (s ++ ds) = true := by
  obtain ⟨d, ds, rfl⟩ := List.exists_cons_of_ne_nil hne
  obtain ⟨hd, -⟩ := hds.of_cons
  rcases h with rfl | ⟨b, hb, rfl⟩
  · rw [List.nil_append, Config.startsExponent, afterSign_of_isDigit hd]
    exact hd
  · rw [List.singleton_append, Config.startsExponent, afterSign, if_pos hb]
    exact hd

theorem IsExponent.placed {t : List UInt8} (h : IsExponent t) : placed sign point true t = true := by
  rcases h with rfl | ⟨e, s, ds, he, hs, hds, hne, rfl⟩
  · rfl
  · rw [placed_exp he, hs.startsExponent hds hne, Bool.and_self, Bool.true_and]
    rcases hs with rfl | ⟨b, hb, rfl⟩
    · rw [List.nil_append, ← List.append_nil ds, hds.placed]
      rfl
    · rw [List.singleton_append, placed_sign hb, ← List.append_nil ds, hds.placed]
      rfl

theorem IsFraction.placed {int frac t : List UInt8} (h : IsFraction frac) (hint : Digits int) (hexp : IsExponent t) :
    Config.placed sign true true (int ++ (frac ++ t)) = true := by
  rw [hint.placed]
  rcases h with rfl | ⟨ds, hds, rfl⟩
  · exact hexp.placed
  · rw [List.cons_append, placed_point, hds.placed, Bool.true_and]
    exact hexp.placed

theorem IsLiteral.wellPlaced (h : IsLiteral t) : wellPlaced t = true := by
  obtain ⟨hsign, hint, hfrac, -, hexp⟩ := h
  rcases hsign with rfl | ⟨b, hb, rfl⟩
  · exact hfrac.placed hint hexp
  · rw [List.singleton_append, Config.wellPlaced, placed_sign hb, Bool.true_and]
    exact hfrac.placed hint hexp

/-! What is where the rule allows it. -/

theorem Chars.of_cons (h : Chars (b :: t)) : isNumberChar b = true ∧ Chars t :=
  ⟨h b List.mem_cons_self, fun b' hb' => h b' (List.mem_cons_of_mem b hb')⟩

theorem Chars.of_append (h : Chars (s ++ t)) : Chars s ∧ Chars t :=
  ⟨fun b hb => h b (List.mem_append_left t hb), fun b hb => h b (List.mem_append_right s hb)⟩

/-- No sign, no point and no exponent may stand: only digits are left. -/
theorem Chars.digits (h : Chars t) (hplaced : placed false false false t = true) : Digits t := by
  induction t with
  | nil => exact fun d hd => absurd hd List.not_mem_nil
  | cons b t ih =>
    obtain ⟨hb, ht⟩ := h.of_cons
    rcases isNumberChar_iff.mp hb with hb | rfl | hb | hb
    · rw [placed_digit hb] at hplaced
      exact List.forall_mem_cons.mpr ⟨hb, ih ht hplaced⟩
    · rw [placed_point] at hplaced
      exact absurd hplaced Bool.false_ne_true
    · rw [placed_exp hb] at hplaced
      exact absurd hplaced Bool.false_ne_true
    · rw [placed_sign hb] at hplaced
      exact absurd hplaced Bool.false_ne_true

theorem exists_digits (t : List UInt8) :
    ∃ ds rest, t = ds ++ rest ∧ Digits ds ∧ ∀ b, rest.head? = some b → isDigit b = false := by
  induction t with
  | nil => exact ⟨[], [], rfl, fun d hd => absurd hd List.not_mem_nil, fun b hb => by cases hb⟩
  | cons b t ih =>
    by_cases hb : isDigit b = true
    · obtain ⟨ds, rest, rfl, hds, hrest⟩ := ih
      exact ⟨b :: ds, rest, rfl, List.forall_mem_cons.mpr ⟨hb, hds⟩, hrest⟩
    · refine ⟨[], b :: t, rfl, fun d hd => absurd hd List.not_mem_nil, ?_⟩
      rintro _ ⟨⟩
      exact Bool.not_eq_true _ ▸ hb

theorem exists_of_startsDigit (h : startsDigit t = true) : ∃ d t', t = d :: t' ∧ isDigit d = true := by
  cases t with
  | nil => exact absurd h Bool.false_ne_true
  | cons d t => exact ⟨d, t, rfl, h⟩

theorem Chars.exponent (h : Chars (e :: t)) (he : isExp e = true) (hplaced : placed sign point exp (e :: t) = true) :
    IsExponent (e :: t) := by
  obtain ⟨-, ht⟩ := h.of_cons
  rw [placed_exp he, Bool.and_eq_true, Bool.and_eq_true] at hplaced
  obtain ⟨⟨-, hstarts⟩, hplaced⟩ := hplaced
  obtain ⟨d, t', htail, hd⟩ := exists_of_startsDigit hstarts
  cases t with
  | nil => exact absurd htail (by simp [afterSign])
  | cons b t =>
    rw [afterSign] at htail
    split_ifs at htail with hb
    · subst htail
      rw [placed_sign hb] at hplaced
      exact Or.inr ⟨e, [b], d :: t', he, Or.inr ⟨b, hb, rfl⟩, ht.of_cons.2.digits hplaced, List.cons_ne_nil _ _, rfl⟩
    · obtain ⟨rfl, rfl⟩ := List.cons.inj htail
      rw [placed_digit hd] at hplaced
      exact Or.inr ⟨e, [], b :: t, he, Or.inl rfl, List.forall_mem_cons.mpr ⟨hd, ht.of_cons.2.digits hplaced⟩,
        List.cons_ne_nil _ _, rfl⟩

/-- After the digits before the point. -/
theorem Chars.fraction (h : Chars t) (hplaced : placed false point true t = true)
    (hhead : ∀ b, t.head? = some b → isDigit b = false) :
    ∃ frac exp, t = frac ++ exp ∧ IsFraction frac ∧ IsExponent exp := by
  cases t with
  | nil => exact ⟨[], [], rfl, Or.inl rfl, Or.inl rfl⟩
  | cons b t =>
    obtain ⟨hb, ht⟩ := h.of_cons
    rcases isNumberChar_iff.mp hb with hb | rfl | hb | hb
    · rw [hhead b rfl] at hb
      exact absurd hb Bool.false_ne_true
    · rw [placed_point, Bool.and_eq_true] at hplaced
      obtain ⟨ds, rest, rfl, hds, hrest⟩ := exists_digits t
      obtain ⟨-, hplaced⟩ := hplaced
      rw [hds.placed, Bool.false_and] at hplaced
      refine ⟨byte '.' :: ds, rest, rfl, Or.inr ⟨ds, hds, rfl⟩, ?_⟩
      -- Only an exponent may follow the digits after the point.
      cases rest with
      | nil => exact Or.inl rfl
      | cons b rest =>
        rcases isNumberChar_iff.mp ht.of_append.2.of_cons.1 with hb | rfl | hb | hb
        · rw [hrest b rfl] at hb
          exact absurd hb Bool.false_ne_true
        · rw [placed_point] at hplaced
          exact absurd hplaced Bool.false_ne_true
        · exact ht.of_append.2.exponent hb hplaced
        · rw [placed_sign hb] at hplaced
          exact absurd hplaced Bool.false_ne_true
    · exact ⟨[], b :: t, rfl, Or.inl rfl, h.exponent hb hplaced⟩
    · rw [placed_sign hb] at hplaced
      exact absurd hplaced Bool.false_ne_true

theorem exists_sign (t : List UInt8) (h : placed true point exp t = true) :
    ∃ s, IsSign s ∧ t = s ++ afterSign t ∧ placed false point exp (afterSign t) = true := by
  cases t with
  | nil => exact ⟨[], Or.inl rfl, rfl, rfl⟩
  | cons b t =>
    by_cases hb : isSign b = true
    · rw [placed_sign hb, Bool.true_and] at h
      rw [afterSign, if_pos hb]
      exact ⟨[b], Or.inr ⟨b, hb, rfl⟩, rfl, h⟩
    · rw [afterSign, if_neg hb]
      refine ⟨[], Or.inl rfl, rfl, ?_⟩
      rw [placed, if_neg hb] at h ⊢
      exact h

/-! What every literal starts with. -/

theorem startsDigit_append (h : startsDigit s = true) (t : List UInt8) : startsDigit (s ++ t) = true := by
  obtain ⟨d, s, rfl, hd⟩ := exists_of_startsDigit h
  exact hd

theorem startsMantissa_append (h : startsMantissa s = true) (t : List UInt8) : startsMantissa (s ++ t) = true := by
  cases s with
  | nil => exact absurd h Bool.false_ne_true
  | cons b s =>
    rw [startsMantissa, Bool.or_eq_true, Bool.and_eq_true] at h
    rw [List.cons_append, startsMantissa, Bool.or_eq_true, Bool.and_eq_true]
    exact h.imp_right (And.imp_right fun hs => startsDigit_append hs t)

theorem startsLiteral_append (h : startsLiteral s = true) (t : List UInt8) : startsLiteral (s ++ t) = true := by
  cases s with
  | nil => exact absurd h Bool.false_ne_true
  | cons b s =>
    rw [startsLiteral, afterSign] at h
    rw [List.cons_append, startsLiteral, afterSign]
    split_ifs at h ⊢
    · exact startsMantissa_append h t
    · exact startsMantissa_append h t

theorem isSign_of_startsMantissa (h : startsMantissa (b :: t) = true) : isSign b = false := by
  rw [startsMantissa, Bool.or_eq_true, Bool.and_eq_true, beq_iff_eq] at h
  rcases h with hb | ⟨rfl, -⟩
  · exact isSign_of_isDigit hb
  · decide

theorem IsSign.startsLiteral (h : IsSign s) (ht : startsMantissa t = true) : startsLiteral (s ++ t) = true := by
  rcases h with rfl | ⟨b, hb, rfl⟩
  · cases t with
    | nil => exact absurd ht Bool.false_ne_true
    | cons b t =>
      rw [List.nil_append, Config.startsLiteral, afterSign, if_neg (by rw [isSign_of_startsMantissa ht]; decide)]
      exact ht
  · rw [List.singleton_append, Config.startsLiteral, afterSign, if_pos hb]
    exact ht

/-- The first character after the sign tells whether a literal has a digit. -/
theorem IsFraction.startsMantissa_iff {int frac exp : List UInt8} (h : IsFraction frac) (hint : Digits int)
    (hexp : IsExponent exp) :
    startsMantissa (int ++ (frac ++ exp)) = true ↔ int ≠ [] ∨ ∃ d ∈ frac, isDigit d = true := by
  cases int with
  | cons d int => simp [startsMantissa, hint.of_cons.1]
  | nil =>
    -- An exponent starts with no digit and no point.
    have hexp' : startsDigit exp = false ∧ startsMantissa exp = false := by
      rcases hexp with rfl | ⟨e, s, ds, he, -, -, -, rfl⟩
      · exact ⟨rfl, rfl⟩
      · have hd : isDigit e = false := by
          by_contra hd
          rw [isExp_of_isDigit (Bool.not_eq_false _ ▸ hd)] at he
          exact Bool.false_ne_true he
        simp [startsDigit, startsMantissa, hd, ne_point_of_isExp he]
    rcases h with rfl | ⟨ds, hds, rfl⟩
    · simp [hexp'.2]
    · have hpoint : isDigit (byte '.') = false := by decide
      cases ds with
      | nil => simp [startsMantissa, hpoint, hexp'.1]
      | cons d ds => simp [startsMantissa, startsDigit, hds.of_cons.1]

theorem IsLiteral.startsLiteral (h : IsLiteral t) : startsLiteral t = true := by
  obtain ⟨hsign, hint, hfrac, hdigit, hexp⟩ := h
  exact hsign.startsLiteral ((hfrac.startsMantissa_iff hint hexp).mpr hdigit)

theorem IsSign.chars (h : IsSign s) : Chars s := by
  rcases h with rfl | ⟨b, hb, rfl⟩
  · exact fun b hb => absurd hb List.not_mem_nil
  · exact fun b' hb' => isNumberChar_iff.mpr (Or.inr (Or.inr (Or.inr (List.mem_singleton.mp hb' ▸ hb))))

theorem Digits.chars (h : Digits ds) : Chars ds := fun b hb => isNumberChar_iff.mpr (Or.inl (h b hb))

theorem Chars.append (hs : Chars s) (ht : Chars t) : Chars (s ++ t) := List.forall_mem_append.mpr ⟨hs, ht⟩

theorem Chars.cons (hb : isNumberChar b = true) (ht : Chars t) : Chars (b :: t) := List.forall_mem_cons.mpr ⟨hb, ht⟩

theorem IsLiteral.chars (h : IsLiteral t) : Chars t := by
  have hnil : Chars [] := fun b hb => absurd hb List.not_mem_nil
  obtain ⟨hsign, hint, hfrac, -, hexp⟩ := h
  refine hsign.chars.append (hint.chars.append (Chars.append ?_ ?_))
  · rcases hfrac with rfl | ⟨ds, hds, rfl⟩
    · exact hnil
    · exact hds.chars.cons (by decide)
  · rcases hexp with rfl | ⟨e, s, ds, he, hs, hds, -, rfl⟩
    · exact hnil
    · exact (hs.chars.append hds.chars).cons (isNumberChar_iff.mpr (Or.inr (Or.inr (Or.inl he))))

/-- A run of number characters is a literal where the rule holds and some literal starts it. -/
theorem isLiteral_iff : IsLiteral t ↔ Chars t ∧ wellPlaced t = true ∧ startsLiteral t = true := by
  refine ⟨fun h => ⟨h.chars, h.wellPlaced, h.startsLiteral⟩, ?_⟩
  rintro ⟨hchars, hwell, hstarts⟩
  obtain ⟨s, hs, ht, hplaced⟩ := exists_sign t hwell
  rw [startsLiteral] at hstarts
  obtain ⟨int, rest, hu, hint, hrest⟩ := exists_digits (afterSign t)
  rw [hu] at ht hstarts hplaced
  rw [hint.placed, Bool.false_and] at hplaced
  rw [ht] at hchars ⊢
  obtain ⟨frac, exp, rfl, hfrac, hexp⟩ := hchars.of_append.2.of_append.2.fraction hplaced hrest
  exact .mk hs hint hfrac ((hfrac.startsMantissa_iff hint hexp).mp hstarts) hexp

end

/-! ### The longest literal that starts a run -/

instance : DecidablePred IsLiteral := fun t =>
  decidable_of_iff (t.all isNumberChar = true ∧ wellPlaced t = true ∧ startsLiteral t = true)
    (by rw [List.all_eq_true]; exact isLiteral_iff.symm)

/-- The longest of the first `n` characters and fewer. -/
def longestUpTo (t : List UInt8) : Nat → Option (List UInt8)
  | 0 => none
  | n + 1 => if IsLiteral (t.take (n + 1)) then some (t.take (n + 1)) else longestUpTo t n

def longestLiteral (t : List UInt8) : Option (List UInt8) := longestUpTo t t.length

section
variable {p t : List UInt8} {n : Nat}

theorem not_isLiteral_nil : ¬IsLiteral [] := fun h => absurd h.startsLiteral Bool.false_ne_true

theorem longestUpTo_eq_none (h : ∀ p, p <+: t → ¬IsLiteral p) : longestUpTo t n = none := by
  induction n with
  | zero => rfl
  | succ n ih => rw [longestUpTo, if_neg (h _ (List.take_prefix _ t)), ih]

theorem longestUpTo_eq_some (hp : p <+: t) (hliteral : IsLiteral p)
    (hlongest : ∀ q, q <+: t → IsLiteral q → q.length ≤ p.length) (hn : p.length ≤ n) (hnt : n ≤ t.length) :
    longestUpTo t n = some p := by
  induction n with
  | zero => exact absurd (List.eq_nil_of_length_eq_zero (Nat.le_zero.mp hn) ▸ hliteral) not_isLiteral_nil
  | succ n ih =>
    rcases Nat.lt_or_eq_of_le hn with hlt | heq
    · have hlong : ¬IsLiteral (t.take (n + 1)) := fun h => by
        have hle := hlongest _ (List.take_prefix _ t) h
        rw [List.length_take_of_le hnt] at hle
        omega
      rw [longestUpTo, if_neg hlong, ih (Nat.lt_succ_iff.mp hlt) (by omega)]
    · rw [List.prefix_iff_eq_take.mp hp, heq] at hliteral
      rw [longestUpTo, if_pos hliteral, ← heq, ← List.prefix_iff_eq_take.mp hp]

theorem longestLiteral_eq_none (h : ∀ p, p <+: t → ¬IsLiteral p) : longestLiteral t = none := longestUpTo_eq_none h

theorem longestLiteral_eq_some (hp : p <+: t) (hliteral : IsLiteral p)
    (hlongest : ∀ q, q <+: t → IsLiteral q → q.length ≤ p.length) : longestLiteral t = some p :=
  longestUpTo_eq_some hp hliteral hlongest hp.length_le (Nat.le_refl _)

end

end Hft.Config
