import HftEngine.Config

/-! What the texts of a JSON value are, and what lies at a path of keys in one. -/

namespace Hft

namespace Config

/-! ### Tokens -/

def IsBlank (ws : List UInt8) : Prop := ∀ b ∈ ws, b ∈ [byte ' ', byte '\t', byte '\n', byte '\r']

def IsDigits (ds : List UInt8) : Prop := ds ≠ [] ∧ ∀ d ∈ ds, byte '0' ≤ d ∧ d ≤ byte '9'

/-- A minus sign or none; digits without leading zeros; a fraction or none; an exponent or none. -/
inductive IsNumber : List UInt8 → Prop
  | mk {sign int frac exp : List UInt8} :
    (sign = [] ∨ sign = [byte '-']) →
    (IsDigits int ∧ (int.head? = some (byte '0') → int = [byte '0'])) →
    (frac = [] ∨ ∃ ds, IsDigits ds ∧ frac = byte '.' :: ds) →
    (exp = [] ∨ ∃ e s ds, (e = byte 'e' ∨ e = byte 'E') ∧ (s = [] ∨ s = [byte '+'] ∨ s = [byte '-']) ∧ IsDigits ds ∧
      exp = e :: (s ++ ds)) →
    IsNumber (sign ++ (int ++ (frac ++ exp)))

/-- The escapes and the characters that they stand for. -/
def escapes : List (UInt8 × UInt8) :=
  [(byte '\"', byte '\"'), (byte '\\', byte '\\'), (byte '/', byte '/'), (byte 'n', byte '\n'), (byte 't', byte '\t'),
    (byte 'r', byte '\r'), (byte 'b', 8), (byte 'f', 12)]

/-- A string between its quotes, each character raw or escaped. -/
inductive SerialChars : List UInt8 → List UInt8 → Prop
  | nil : SerialChars [] []
  | raw {c : UInt8} {s t : List UInt8} : c ≠ 0 → c ≠ byte '\"' → c ≠ byte '\\' → SerialChars s t →
    SerialChars (c :: s) (c :: t)
  | escaped {e c : UInt8} {s t : List UInt8} : (e, c) ∈ escapes → SerialChars s t →
    SerialChars (c :: s) (byte '\\' :: e :: t)

inductive SerialString : List UInt8 → List UInt8 → Prop
  | mk {s t : List UInt8} : SerialChars s t → SerialString s (byte '\"' :: (t ++ [byte '\"']))

/-! ### Values -/

section
variable {δ : Type} (doubleOf : List UInt8 → Option δ)

mutual

/-- The texts of a value, `doubleOf` the double of a number in range. The members of an object stand in any order. -/
inductive Serial : JsonValue δ → List UInt8 → Prop
  | null : Serial .null [byte 'n', byte 'u', byte 'l', byte 'l']
  | boolTrue : Serial (.bool true) [byte 't', byte 'r', byte 'u', byte 'e']
  | boolFalse : Serial (.bool false) [byte 'f', byte 'a', byte 'l', byte 's', byte 'e']
  | number {t : List UInt8} {d : δ} : IsNumber t → doubleOf t = some d → Serial (.number d) t
  | string {s t : List UInt8} : SerialString s t → Serial (.string s) t
  | emptyArray {ws : List UInt8} : IsBlank ws → Serial (.array []) (byte '[' :: (ws ++ [byte ']']))
  | array {vs : List (JsonValue δ)} {t : List UInt8} : SerialItems vs t →
    Serial (.array vs) (byte '[' :: (t ++ [byte ']']))
  | emptyObject {ws : List UInt8} : IsBlank ws → Serial (.object []) (byte '{' :: (ws ++ [byte '}']))
  | object {ms es : List (List UInt8 × JsonValue δ)} {t : List UInt8} : SortedMap.Sorted ms → ms.Perm es →
    SerialMembers es t → Serial (.object ms) (byte '{' :: (t ++ [byte '}']))

/-- A text with blanks around it. -/
inductive SerialPadded : JsonValue δ → List UInt8 → Prop
  | mk {v : JsonValue δ} {ws t ws' : List UInt8} : IsBlank ws → Serial v t → IsBlank ws' →
    SerialPadded v (ws ++ (t ++ ws'))

inductive SerialItems : List (JsonValue δ) → List UInt8 → Prop
  | one {v : JsonValue δ} {t : List UInt8} : SerialPadded v t → SerialItems [v] t
  | cons {v : JsonValue δ} {vs : List (JsonValue δ)} {t t' : List UInt8} : SerialPadded v t → SerialItems vs t' →
    SerialItems (v :: vs) (t ++ byte ',' :: t')

inductive SerialMembers : List (List UInt8 × JsonValue δ) → List UInt8 → Prop
  | one {e : List UInt8 × JsonValue δ} {t : List UInt8} : SerialMember e t → SerialMembers [e] t
  | cons {e : List UInt8 × JsonValue δ} {es : List (List UInt8 × JsonValue δ)} {t t' : List UInt8} : SerialMember e t →
    SerialMembers es t' → SerialMembers (e :: es) (t ++ byte ',' :: t')

inductive SerialMember : List UInt8 × JsonValue δ → List UInt8 → Prop
  | mk {k : List UInt8} {v : JsonValue δ} {ws k' ws' t : List UInt8} : IsBlank ws → SerialString k k' → IsBlank ws' →
    SerialPadded v t → SerialMember (k, v) (ws ++ (k' ++ (ws' ++ byte ':' :: t)))

end

end

end Config

/-! ### Paths -/

namespace JsonValue

variable {δ : Type}

/-- The value of a member, if the value is an object with that key. -/
def member? (v : JsonValue δ) (key : List UInt8) : Option (JsonValue δ) :=
  match v with
  | object o => o.lookup key
  | _ => none

/-- Successive lookups. -/
def at? (v : JsonValue δ) (keys : List (List UInt8)) : Option (JsonValue δ) := keys.foldlM member? v

def joinDots (keys : List (List UInt8)) : List UInt8 := [byte '.'].intercalate keys

end JsonValue

end Hft
