/-
Writing JSON text without blanks. Quotes, backslashes and control characters are escaped, and all
other characters stand for themselves. What is unreadable is written as null.
-/
import RelSql.Json.Basic
import RelSql.Text.Digits

namespace RelSql.Json

def escapeChar (c : Char) : List Char :=
  match c with
  | '"' => ['\\', '"']
  | '\\' => ['\\', '\\']
  | '\n' => ['\\', 'n']
  | '\r' => ['\\', 'r']
  | '\t' => ['\\', 't']
  | '\x08' => ['\\', 'b']
  | '\x0c' => ['\\', 'f']
  | _ =>
    if c.toNat < 0x20 then
      ['\\', 'u', '0', '0', Digits.hexDigit false (c.toNat / 16), Digits.hexDigit false (c.toNat % 16)]
    else [c]

def quote (s : String) : String := "\"" ++ String.ofList (s.toList.flatMap escapeChar) ++ "\""

mutual

/-- The text of a value, fields in their order. -/
def toText : Json → String
  | null | unreadable => "null"
  | bool b => if b then "true" else "false"
  | integer i => Digits.ofInt i
  | number text => text
  | string s => quote s
  | array items => "[" ++ ",".intercalate (itemTexts items) ++ "]"
  | object fields => "\x7b" ++ ",".intercalate (fieldTexts fields) ++ "\x7d"

def itemTexts : List Json → List String
  | [] => []
  | j :: rest => toText j :: itemTexts rest

def fieldTexts : List (String × Json) → List String
  | [] => []
  | (name, j) :: rest => (quote name ++ ":" ++ toText j) :: fieldTexts rest

end

end RelSql.Json
