/-
Reading JSON text. Each function reads one construct at the front of the characters and returns
it with the rest. The depth of nesting and the number of items are bounded by the length of the
text, which is where `Json.parse?` takes its bound from.
-/
import RelSql.Json.Basic
import RelSql.Text.Digits

namespace RelSql.Json.Reader

def isSpace (c : Char) : Bool := c == ' ' || c == '\t' || c == '\n' || c == '\r'

def skipSpace (cs : List Char) : List Char := cs.dropWhile isSpace

/-! ## Strings -/

/-- The character of a one-letter escape. -/
def escaped? : Char → Option Char
  | '"' => some '"'
  | '\\' => some '\\'
  | '/' => some '/'
  | 'b' => some '\x08'
  | 'f' => some '\x0c'
  | 'n' => some '\n'
  | 'r' => some '\r'
  | 't' => some '\t'
  | _ => none

def isHighSurrogate (n : Nat) : Bool := 0xD800 ≤ n && n < 0xDC00

def isLowSurrogate (n : Nat) : Bool := 0xDC00 ≤ n && n < 0xE000

/-- The units up to the closing quote, and what follows it. A unit is the number of a character or
of an escape. -/
def stringBody : List Char → Option (List Nat × List Char)
  | [] => none
  | '"' :: rest => some ([], rest)
  | '\\' :: 'u' :: a :: b :: c :: d :: rest => do
    let n ← Digits.hexNumber? [a, b, c, d]
    let (units, tail) ← stringBody rest
    return (n :: units, tail)
  | '\\' :: e :: rest => do
    let c ← escaped? e
    let (units, tail) ← stringBody rest
    return (c.toNat :: units, tail)
  | c :: rest =>
    if c.toNat < 0x20 || c == '\\' then none
    else do
      let (units, tail) ← stringBody rest
      return (c.toNat :: units, tail)

/-- The text of a row of units. Two surrogates that make a pair are one character; half of a pair
is none. -/
def ofUnits? : List Nat → Option (List Char)
  | [] => some []
  | n :: rest =>
    if isLowSurrogate n then none
    else if isHighSurrogate n then
      match rest with
      | low :: rest' =>
        if isLowSurrogate low then
          (ofUnits? rest').map
            (Char.ofNat (0x10000 + 0x400 * (n - 0xD800) + (low - 0xDC00)) :: ·)
        else none
      | [] => none
    else (ofUnits? rest).map (Char.ofNat n :: ·)

def text? (units : List Nat) : Option String := (ofUnits? units).map String.ofList

/-! ## Numbers -/

def digits (cs : List Char) : List Char × List Char :=
  (cs.takeWhile Char.isDigit, cs.dropWhile Char.isDigit)

/-- The whole part: no leading zero unless it is the only digit. -/
def wholePart (cs : List Char) : Option (List Char × List Char) :=
  match digits cs with
  | ([], _) => none
  | ('0' :: _ :: _, _) => none
  | (ds, rest) => some (ds, rest)

/-- The fraction with its point, empty when there is none. -/
def fractionPart : List Char → Option (List Char × List Char)
  | '.' :: rest => match digits rest with
    | ([], _) => none
    | (ds, rest') => some ('.' :: ds, rest')
  | cs => some ([], cs)

/-- The exponent with its mark, empty when there is none. -/
def exponentPart : List Char → Option (List Char × List Char)
  | c :: rest =>
    if c == 'e' || c == 'E' then
      let (sign, body) := match rest with
        | '+' :: r => (['+'], r)
        | '-' :: r => (['-'], r)
        | r => ([], r)
      match digits body with
      | ([], _) => none
      | (ds, rest') => some (c :: sign ++ ds, rest')
    else some ([], c :: rest)
  | [] => some ([], [])

def unsigned (negative : Bool) (cs : List Char) : Option (Json × List Char) := do
  let (whole, rest) ← wholePart cs
  let (fraction, rest) ← fractionPart rest
  let (exponent, rest) ← exponentPart rest
  let text := (if negative then ['-'] else []) ++ whole ++ fraction ++ exponent
  if fraction.isEmpty && exponent.isEmpty && !(negative && whole == ['0']) then
    let n : Int := Digits.value whole
    return (.integer (if negative then -n else n), rest)
  else
    -- minus zero is no integer
    return (.number (String.ofList text), rest)

def number : List Char → Option (Json × List Char)
  | '-' :: rest => unsigned true rest
  | cs => unsigned false cs

/-! ## Values -/

def word? (word : String) (cs : List Char) : Option (List Char) :=
  if word.toList.isPrefixOf cs then some (cs.drop word.length) else none

/-- A value made of what was read. -/
def orUnreadable {α : Type} (make : α → Json) : Option α → Json
  | some a => make a
  | none => .unreadable

/-- A field in front of others; all are lost when one of the names is unreadable. -/
def pushField (name : List Nat) (field : Json) (more : Option (List (String × Json))) :
    Option (List (String × Json)) := do
  return (← text? name, field) :: (← more)

mutual

/-- A value, blanks before it ignored. -/
def value : Nat → List Char → Option (Json × List Char)
  | 0, _ => none
  | fuel + 1, cs =>
    match skipSpace cs with
    | '"' :: rest => do
      let (s, rest) ← stringBody rest
      return (orUnreadable .string (text? s), rest)
    | '[' :: rest =>
      match skipSpace rest with
      | ']' :: rest => some (.array [], rest)
      | _ => do
        let (items, rest) ← items fuel rest
        return (.array items, rest)
    | '\x7b' :: rest =>
      match skipSpace rest with
      | '\x7d' :: rest => some (.object [], rest)
      | _ => do
        let (fields, rest) ← fields fuel rest
        return (orUnreadable .object fields, rest)
    | 'n' :: rest => do
      let rest ← word? "ull" rest
      return (.null, rest)
    | 't' :: rest => do
      let rest ← word? "rue" rest
      return (.bool true, rest)
    | 'f' :: rest => do
      let rest ← word? "alse" rest
      return (.bool false, rest)
    | cs => number cs

/-- The items of an array that is not empty, up to its bracket. -/
def items : Nat → List Char → Option (List Json × List Char)
  | 0, _ => none
  | fuel + 1, cs => do
    let (item, rest) ← value fuel cs
    match skipSpace rest with
    | ',' :: rest =>
      let (more, rest) ← items fuel rest
      return (item :: more, rest)
    | ']' :: rest => return ([item], rest)
    | _ => none

/-- The fields of an object that is not empty, unless a name is unreadable, up to its brace. -/
def fields : Nat → List Char → Option (Option (List (String × Json)) × List Char)
  | 0, _ => none
  | fuel + 1, cs =>
    match skipSpace cs with
    | '"' :: rest => do
      let (name, rest) ← stringBody rest
      match skipSpace rest with
      | ':' :: rest =>
        let (field, rest) ← value fuel rest
        match skipSpace rest with
        | ',' :: rest =>
          let (more, rest) ← fields fuel rest
          return (pushField name field more, rest)
        | '\x7d' :: rest => return (pushField name field (some []), rest)
        | _ => none
      | _ => none
    | _ => none

end

end RelSql.Json.Reader

namespace RelSql.Json

/-- Reads a text that holds one value and nothing else but blanks. -/
def parse? (text : String) : Option Json := do
  let cs := text.toList
  let (value, rest) ← Reader.value (2 * cs.length + 2) cs
  if (Reader.skipSpace rest).isEmpty then some value else none

end RelSql.Json
