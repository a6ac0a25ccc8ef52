/-
Constants: one value of one scalar kind. Floating-point numbers are kept as bits, identifiers and
binaries as bytes.
-/
import RelSql.Calendar
import RelSql.Data.Kind
import RelSql.Number.Binary
import RelSql.Number.Decimal

namespace RelSql

/-- A globally unique identifier, its sixteen bytes in the order in which they are written. -/
abbrev Guid := Vector UInt8 16

namespace Guid

/-- The byte order of stored identifiers: the first three groups are reversed. -/
def storedOrder (g : Guid) : List UInt8 :=
  let b := g.toList
  (b.take 4).reverse ++ ((b.drop 4).take 2).reverse ++ ((b.drop 6).take 2).reverse ++ b.drop 8

/-- The text with hyphens, in lower case. -/
def toText (g : Guid) : String :=
  let cs := Digits.hex false g.toList
  let part (start count : Nat) := String.ofList ((cs.drop start).take count)
  "-".intercalate [part 0 8, part 8 4, part 12 4, part 16 4, part 20 12]

/-- Reads thirty-two hexadecimal digits, hyphens between them ignored. -/
def parse? (text : String) : Option Guid := do
  let bytes ← Digits.unhex? (text.toList.filter (· != '-'))
  if h : bytes.toArray.size = 16 then some ⟨bytes.toArray, h⟩ else none

end Guid

inductive Constant where
  | binary (bytes : List UInt8)
  | boolean (value : Bool)
  | byte (value : UInt8)
  | sbyte (value : Int8)
  | dateTime (value : Calendar.DateTime)
  | dateTimeOffset (value : Calendar.OffsetDateTime)
  | time (value : Calendar.Time)
  | decimal (value : Decimal)
  | double (bits : UInt64)
  | single (bits : UInt32)
  | guid (value : Guid)
  | int16 (value : Int16)
  | int32 (value : Int32)
  | int64 (value : Int64)
  | string (value : String)
deriving Inhabited

namespace Constant

def kind : Constant → Kind
  | binary _ => .binary
  | boolean _ => .boolean
  | byte _ => .byte
  | sbyte _ => .sbyte
  | dateTime _ => .dateTime
  | dateTimeOffset _ => .dateTimeOffset
  | time _ => .time
  | decimal _ => .decimal
  | double _ => .double
  | single _ => .single
  | guid _ => .guid
  | int16 _ => .int16
  | int32 _ => .int32
  | int64 _ => .int64
  | string _ => .string

/-- Equality of values of one kind: floating-point numbers by their value, readings of clocks by
the instant that they name, decimals by mantissa and scale. -/
def beq : Constant → Constant → Bool
  | binary a, binary b => a == b
  | boolean a, boolean b => a == b
  | byte a, byte b => a == b
  | sbyte a, sbyte b => a == b
  | dateTime a, dateTime b => a == b
  | dateTimeOffset a, dateTimeOffset b => a.sameInstant b
  | time a, time b => a == b
  | decimal a, decimal b => a == b
  | double a, double b => Binary.numEq .double a.toNat b.toNat
  | single a, single b => Binary.numEq .single a.toNat b.toNat
  | guid a, guid b => a == b
  | int16 a, int16 b => a == b
  | int32 a, int32 b => a == b
  | int64 a, int64 b => a == b
  | string a, string b => a == b
  | _, _ => false

instance : BEq Constant := ⟨beq⟩

end Constant

end RelSql
