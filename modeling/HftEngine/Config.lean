import HftEngine.Lib.SortedMap

/-! The JSON configuration (`config.hpp`): a value, its lookup by dotted path, and the recursive-descent parser. Text is
    a list of bytes; `std::stod` is a parameter. -/

namespace Hft

/-- A character of the source text. -/
def byte (c : Char) : UInt8 := c.toUInt8

/-- `JsonValue`, with the numbers `δ` of `double`; an object is a `std::map`, its members in the order of their keys. -/
inductive JsonValue (δ : Type)
  | null
  | bool (b : Bool)
  | number (d : δ)
  | string (s : List UInt8)
  | array (vs : List (JsonValue δ))
  | object (ms : List (List UInt8 × JsonValue δ))

variable {δ : Type}

namespace JsonValue

/-- The loop of `find`, with a bound on its rounds: the path from `start` on. -/
def findLoop : (rounds : Nat) → (cur : JsonValue δ) → (dotted : List UInt8) → Option (JsonValue δ)
  | 0, _, _ => none
  | rounds + 1, cur, dotted =>
    let key := dotted.takeWhile (· ≠ byte '.')
    match cur with
    | object o =>
      match o.lookup key with
      | none => none
      | some cur =>
        match dotted.drop key.length with
        | [] => some cur
        | _ :: dotted => findLoop rounds cur dotted
    | _ => none

def find (v : JsonValue δ) (dotted : List UInt8) : Option (JsonValue δ) := findLoop (dotted.length + 1) v dotted

end JsonValue

namespace Config

/-- The exceptions of `std::stod`. -/
inductive StodError
  | invalidArgument | outOfRange
  deriving DecidableEq, Repr

inductive ParseError
  | fail (offset : Nat) (msg : String)
  | stod (e : StodError)
  /-- No outcome of the source: the recursion reached the bound of the model. -/
  | outOfFuel
  deriving DecidableEq, Repr

/-- The parser's place in the text: `i_` and the text from there on. -/
structure Cursor where
  rest : List UInt8
  i : Nat
  deriving DecidableEq, Repr

namespace Cursor

def peek (c : Cursor) : UInt8 := c.rest.headD 0

def get (c : Cursor) : UInt8 × Cursor :=
  match c.rest with
  | [] => (0, c)
  | b :: rest => (b, ⟨rest, c.i + 1⟩)

def advance (c : Cursor) (n : Nat) : Cursor := ⟨c.rest.drop n, c.i + n⟩

def isSpace (b : UInt8) : Bool := b = byte ' ' ∨ b = byte '\t' ∨ b = byte '\n' ∨ b = byte '\r'

def skipWs (c : Cursor) : Cursor := c.advance (c.rest.takeWhile isSpace).length

def fail (c : Cursor) (msg : String) : ParseError := .fail c.i msg

end Cursor

open Cursor

/-! ### Strings, literals and numbers -/

/-- The character that an escape stands for. -/
def unescape (e : UInt8) : UInt8 :=
  if e = byte 'n' then byte '\n'
  else if e = byte 't' then byte '\t'
  else if e = byte 'r' then byte '\r'
  else if e = byte 'b' then 8
  else if e = byte 'f' then 12
  else e

/-- The loop of `parse_string`: `rest` and `i` are the cursor. -/
def stringLoop : (rest : List UInt8) → (i : Nat) → (out : List UInt8) → Except ParseError (List UInt8 × Cursor)
  | [], i, _ => .error (.fail i "unterminated string")
  | c :: rest, i, out =>
    if c = 0 then .error (.fail (i + 1) "unterminated string")
    else if c = byte '\"' then .ok (out, ⟨rest, i + 1⟩)
    else if c = byte '\\' then
      match rest with
      -- The escape of the end of the text is a NUL, and so is the next character.
      | [] => .error (.fail (i + 1) "unterminated string")
      | e :: rest => stringLoop rest (i + 2) (out ++ [unescape e])
    else stringLoop rest (i + 1) (out ++ [c])

def parseString (c : Cursor) : Except ParseError (List UInt8 × Cursor) :=
  let (b, c) := c.get
  if b ≠ byte '\"' then .error (c.fail "expected '\"'") else stringLoop c.rest c.i []

def parseBool (c : Cursor) : Except ParseError (JsonValue δ × Cursor) :=
  if c.rest.take 4 = [byte 't', byte 'r', byte 'u', byte 'e'] then .ok (.bool true, c.advance 4)
  else if c.rest.take 5 = [byte 'f', byte 'a', byte 'l', byte 's', byte 'e'] then .ok (.bool false, c.advance 5)
  else .error (c.fail "invalid literal")

def parseNull (c : Cursor) : Except ParseError (JsonValue δ × Cursor) :=
  if c.rest.take 4 = [byte 'n', byte 'u', byte 'l', byte 'l'] then .ok (.null, c.advance 4)
  else .error (c.fail "invalid literal")

def isNumberChar (b : UInt8) : Bool :=
  (b ≥ byte '0' ∧ b ≤ byte '9') ∨ b = byte '.' ∨ b = byte 'e' ∨ b = byte 'E' ∨ b = byte '+' ∨ b = byte '-'

section
variable (stod : List UInt8 → Except StodError δ)

def parseNumber (c : Cursor) : Except ParseError (JsonValue δ × Cursor) :=
  let start := c
  let c := if c.peek = byte '-' ∨ c.peek = byte '+' then c.get.2 else c
  let run := c.rest.takeWhile isNumberChar
  if run.isEmpty then .error (c.fail "invalid number")
  else
    let c := c.advance run.length
    match stod (start.rest.take (c.i - start.i)) with
    | .ok d => .ok (.number d, c)
    | .error e => .error (.stod e)

/-! ### Values, with a bound on the depth of the calls -/

mutual

def parseValue : (fuel : Nat) → Cursor → Except ParseError (JsonValue δ × Cursor)
  | 0, _ => .error .outOfFuel
  | fuel + 1, c =>
    let c := c.skipWs
    if c.peek = byte '{' then parseObject fuel c
    else if c.peek = byte '[' then parseArray fuel c
    else if c.peek = byte '\"' then do
      let (s, c) ← parseString c
      .ok (.string s, c)
    else if c.peek = byte 't' ∨ c.peek = byte 'f' then parseBool c
    else if c.peek = byte 'n' then parseNull c
    else parseNumber stod c

def parseObject : (fuel : Nat) → Cursor → Except ParseError (JsonValue δ × Cursor)
  | 0, _ => .error .outOfFuel
  | fuel + 1, c =>
    let c := c.get.2.skipWs
    if c.peek = byte '}' then .ok (.object [], c.get.2) else membersLoop fuel [] c

def membersLoop : (fuel : Nat) → (obj : List (List UInt8 × JsonValue δ)) → Cursor →
    Except ParseError (JsonValue δ × Cursor)
  | 0, _, _ => .error .outOfFuel
  | fuel + 1, obj, c => do
    let c := c.skipWs
    if c.peek ≠ byte '\"' then .error (c.fail "expected string key in object")
    else
      let (key, c) ← parseString c
      let (b, c) := c.skipWs.get
      if b ≠ byte ':' then .error (c.fail "expected ':' after key")
      else
        let (v, c) ← parseValue fuel c
        let obj := SortedMap.emplace obj (key, v)
        let (b, c) := c.skipWs.get
        if b = byte ',' then membersLoop fuel obj c
        else if b = byte '}' then .ok (.object obj, c)
        else .error (c.fail "expected ',' or '\x7d' in object")

def parseArray : (fuel : Nat) → Cursor → Except ParseError (JsonValue δ × Cursor)
  | 0, _ => .error .outOfFuel
  | fuel + 1, c =>
    let c := c.get.2.skipWs
    if c.peek = byte ']' then .ok (.array [], c.get.2) else itemsLoop fuel [] c

def itemsLoop : (fuel : Nat) → (arr : List (JsonValue δ)) → Cursor → Except ParseError (JsonValue δ × Cursor)
  | 0, _, _ => .error .outOfFuel
  | fuel + 1, arr, c => do
    let (v, c) ← parseValue fuel c
    let arr := arr ++ [v]
    let (b, c) := c.skipWs.get
    if b = byte ',' then itemsLoop fuel arr c
    else if b = byte ']' then .ok (.array arr, c)
    else .error (c.fail "expected ',' or ']' in array")

end

def parseDocument (fuel : Nat) (c : Cursor) : Except ParseError (JsonValue δ) := do
  let (v, c) ← parseValue stod fuel c.skipWs
  let c := c.skipWs
  if c.rest ≠ [] then .error (c.fail "trailing characters after JSON document") else .ok v

def parse (text : List UInt8) : Except ParseError (JsonValue δ) :=
  parseDocument stod (3 * text.length + 3) ⟨text, 0⟩

end

end Config

end Hft
