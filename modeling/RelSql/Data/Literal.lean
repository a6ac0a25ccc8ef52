/-
The literal that a constant has in query text. Text is quoted, bytes are hexadecimal, whole
decimals keep a cast so that the store does not take them for integers, and floating-point numbers
have the fewest digits that read back, never an exponent.
-/
import RelSql.Data.Constant
import RelSql.Data.Facets
import RelSql.Error
import RelSql.Number.Shortest
import RelSql.Text.Quoted

namespace RelSql

namespace Literal

/-- Bytes as `X'0AFF'`. -/
def ofBytes (bytes : List UInt8) : String :=
  "X'" ++ String.ofList (Digits.hex true bytes) ++ "'"

/-- Whole decimals with this many digits stand without a cast. -/
def castLimit : Nat := 20

def ofDecimal (d : Decimal) : String :=
  let digits := (Digits.decimal d.mantissa.natAbs).length
  if d.scale ≠ 0 || digits ≥ castLimit then d.toText
  else
    "CAST(" ++ d.toText ++ " AS DECIMAL(" ++
      Digits.ofNat (max digits Facets.defaultPrecision) ++ "))"

/-- Half-way digits go up. -/
def floatTie : Binary.Tie := .up

/-- A floating-point number by its bits; `width` names it in the message for what is not finite. -/
def ofFloat (format : Binary.Format) (width : String) (bits : Nat) : Except Error String :=
  match Binary.Number.ofBits format bits with
  | .finite negative m =>
    let digits := if m.mantissa = 0 then ['0'] else (m.shortest floatTie).positional
    .ok (String.ofList (if negative then '-' :: digits else digits))
  | .infinite negative => .error (.badArgument (.nonFinite width negative))
  | .undefined => .error (.badArgument (.nonFinite width false))

def ofDateTime (t : Calendar.DateTime) : String := "'" ++ t.compact ++ "+000'"

end Literal

/-- The literal of a constant; offsets and times of day have none. -/
def Constant.literal : Constant → Except Error String
  | .boolean b => .ok (if b then "1" else "0")
  | .byte v => .ok (Digits.ofNat v.toNat)
  | .sbyte v => .ok (Digits.ofInt v.toInt)
  | .int16 v => .ok (Digits.ofInt v.toInt)
  | .int32 v => .ok (Digits.ofInt v.toInt)
  | .int64 v => .ok (Digits.ofInt v.toInt)
  | .string s => .ok (Quoted.quote s)
  | .binary bytes => .ok (Literal.ofBytes bytes)
  | .guid g => .ok (Literal.ofBytes (Guid.storedOrder g))
  | .dateTime t => .ok (Literal.ofDateTime t)
  | .decimal d => .ok (Literal.ofDecimal d)
  | .double bits => Literal.ofFloat .double "double" bits.toNat
  | .single bits => Literal.ofFloat .single "single" bits.toNat
  | .dateTimeOffset _ => .error (.unsupported (.literal .dateTimeOffset))
  | .time _ => .error (.unsupported (.literal .time))

end RelSql
