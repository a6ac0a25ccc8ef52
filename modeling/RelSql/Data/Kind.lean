/-
The scalar kinds that a member, a constant or a parameter can have.
-/
namespace RelSql

inductive Kind where
  | binary
  | boolean
  | byte
  | sbyte
  | dateTime
  | dateTimeOffset
  | time
  | decimal
  | double
  | single
  | guid
  | int16
  | int32
  | int64
  | string
deriving Repr, DecidableEq, Inhabited

namespace Kind

def all : List Kind :=
  [binary, boolean, byte, sbyte, dateTime, dateTimeOffset, time, decimal, double, single, guid,
    int16, int32, int64, string]

/-- The name of a kind in documents and messages. -/
def name : Kind → String
  | binary => "Binary"
  | boolean => "Boolean"
  | byte => "Byte"
  | sbyte => "SByte"
  | dateTime => "DateTime"
  | dateTimeOffset => "DateTimeOffset"
  | time => "Time"
  | decimal => "Decimal"
  | double => "Double"
  | single => "Single"
  | guid => "Guid"
  | int16 => "Int16"
  | int32 => "Int32"
  | int64 => "Int64"
  | string => "String"

def ofName? (text : String) : Option Kind := all.find? (·.name == text)

def isInteger : Kind → Bool
  | byte | sbyte | int16 | int32 | int64 => true
  | _ => false

def isNumeric (k : Kind) : Bool :=
  k.isInteger || match k with
    | decimal | double | single => true
    | _ => false

/-- The type that the management schema gives to values of this kind, where it has one. -/
def schemaName : Kind → Option String
  | boolean => some "boolean"
  | int16 => some "sint16"
  | int32 => some "sint32"
  | int64 => some "sint64"
  | byte => some "uint8"
  | decimal => some "uint64"
  | single => some "real32"
  | double => some "real64"
  | string => some "string"
  | dateTime => some "datetime"
  | binary | sbyte | dateTimeOffset | time | guid => none

end Kind

end RelSql
