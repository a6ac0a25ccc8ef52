/-
Parameters of a command, as a client passes them to the store.
-/
import RelSql.Data.StoreType
import RelSql.Expr.Function
import RelSql.Modification.Basic

namespace RelSql

/-- The type under which a client passes a value. -/
inductive DbType where
  | ansiString
  | ansiStringFixedLength
  | string
  | stringFixedLength
  | binary
  | boolean
  | byte
  | sbyte
  | int16
  | int32
  | int64
  | decimal
  | double
  | single
  | dateTime
  | dateTimeOffset
  | time
  | guid
deriving Repr, DecidableEq, Inhabited

namespace DbType

def name : DbType → String
  | ansiString => "AnsiString"
  | ansiStringFixedLength => "AnsiStringFixedLength"
  | string => "String"
  | stringFixedLength => "StringFixedLength"
  | binary => "Binary"
  | boolean => "Boolean"
  | byte => "Byte"
  | sbyte => "SByte"
  | int16 => "Int16"
  | int32 => "Int32"
  | int64 => "Int64"
  | decimal => "Decimal"
  | double => "Double"
  | single => "Single"
  | dateTime => "DateTime"
  | dateTimeOffset => "DateTimeOffset"
  | time => "Time"
  | guid => "Guid"

/-- Identifiers travel as text of fixed length. -/
def ofKind (facets : Facets) : Kind → DbType
  | .string =>
    match facets.isUnicode, facets.isFixedLength with
    | true, true => stringFixedLength
    | true, false => string
    | false, true => ansiStringFixedLength
    | false, false => ansiString
  | .guid => ansiStringFixedLength
  | .binary => binary
  | .boolean => boolean
  | .byte => byte
  | .sbyte => sbyte
  | .int16 => int16
  | .int32 => int32
  | .int64 => int64
  | .decimal => decimal
  | .double => double
  | .single => single
  | .dateTime => dateTime
  | .dateTimeOffset => dateTimeOffset
  | .time => time

end DbType

/-- The name of the direction that a mode gives. -/
def ParameterMode.directionName : ParameterMode → String
  | input => "Input"
  | output => "Output"
  | inputOutput => "InputOutput"
  | returnValue => "ReturnValue"

/-- A value comes back through the parameter. -/
def ParameterMode.isOutput (mode : ParameterMode) : Bool := mode != .input

structure Parameter where
  name : String
  dbType : DbType
  direction : ParameterMode
  size : Option Nat
  nullable : Bool
  storeType : Option String
  value : Option Constant
deriving Inhabited

namespace Parameter

def isNameStart (c : Char) : Bool := c.isAlpha || c == '_'

def isNameChar (c : Char) : Bool := c.isAlphanum || c == '_'

/-- An identifier of ASCII letters, digits and underscores that does not start with a digit. -/
def isIdentifier : List Char → Bool
  | [] => false
  | c :: rest => isNameStart c && rest.all isNameChar

/-- An identifier, with or without the mark `@` before it. -/
def isValidName (name : String) : Bool :=
  match name.toList with
  | '@' :: rest => isIdentifier rest
  | cs => isIdentifier cs

/-- The length of an identifier's text. -/
def guidTextLength : Nat := 36

/-- Sizes are signed numbers of 32 bits. -/
def maxSize : Nat := Nat.pow 2 31 - 1

/-- The size of a value: given for identifiers, limited for text and binaries, and unlimited where
such a value comes back. -/
def sizeOf? (facets : Facets) (mode : ParameterMode) : Kind → Option Nat
  | .guid => some guidTextLength
  | .string | .binary =>
    match facets.maxLength with
    | some length => some (min length maxSize)
    | none => if mode.isOutput then some maxSize else none
  | _ => none

/-- A declared parameter, without a value. -/
def ofType (name : String) (type : DataType) (mode : ParameterMode) : Except Error Parameter := do
  if !isValidName name then throw (.badArgument (.parameterName name))
  match type with
  | .primitive kind facets =>
    return {
      name
      dbType := DbType.ofKind facets kind
      direction := mode
      size := sizeOf? facets mode kind
      nullable := facets.isNullable
      storeType := (StoreType.ofKind? facets kind).map StoreType.toText
      value := none }
  | _ => throw (.badArgument (.parameterType name))

/-- The input parameter for a constant; it is nullable only without a value. -/
def ofRecord (record : ParameterRecord) : Except Error Parameter := do
  let p ← ofType record.name (.scalar record.kind) .input
  return { p with nullable := record.value.isNone, value := record.value }

end Parameter

end RelSql
