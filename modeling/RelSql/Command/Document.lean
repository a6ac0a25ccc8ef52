/-
Commands as documents. Values are tagged with their kind. A floating-point number has the fewest
digits that read back, positional within a range of magnitudes that depends on its width and with
an exponent outside it.
-/
import RelSql.Command.Basic
import RelSql.Json.Writer
import RelSql.Number.Shortest

namespace RelSql

namespace Constant

/-! ## Floating-point numbers -/

/-- The places of the decimal point between which numbers are written positionally. -/
structure FloatDocument where
  format : Binary.Format
  leastPoint : Int
  greatestPoint : Int

def FloatDocument.double : FloatDocument := ⟨.double, -4, 16⟩

def FloatDocument.single : FloatDocument := ⟨.single, -5, 13⟩

/-- Positional text always has a fraction. -/
def positionalWithFraction (d : Binary.ShortDecimal) : List Char :=
  let cs := d.positional
  if cs.contains '.' then cs else cs ++ ['.', '0']

/-- Half-way digits go to the even neighbour. -/
def FloatDocument.digits (doc : FloatDocument) (m : Binary.Magnitude) : List Char :=
  if m.mantissa = 0 then ['0', '.', '0']
  else
    let d := m.shortest .toEven
    if doc.leastPoint ≤ d.point ∧ d.point ≤ doc.greatestPoint then positionalWithFraction d
    else d.scientific

/-- What is not finite has no number in a document. -/
def FloatDocument.json (doc : FloatDocument) (bits : Nat) : Json :=
  match Binary.Number.ofBits doc.format bits with
  | .finite negative m =>
    let ds := doc.digits m
    .number (String.ofList (if negative then '-' :: ds else ds))
  | _ => .null

/-! ## Values -/

def valueJson : Constant → Json
  | binary bytes => .array (bytes.map fun b => .integer b.toNat)
  | boolean b => .bool b
  | byte v => .integer v.toNat
  | sbyte v => .integer v.toInt
  | dateTime t => .string t.toText
  | dateTimeOffset t => .string t.toText
  | time t => .string t.toText
  | decimal d => .object [("mantissa", .integer d.mantissa), ("scale", .integer d.scale)]
  | double bits => FloatDocument.double.json bits.toNat
  | single bits => FloatDocument.single.json bits.toNat
  | guid g => .string (Guid.toText g)
  | int16 v => .integer v.toInt
  | int32 v => .integer v.toInt
  | int64 v => .integer v.toInt
  | string s => .string s

def toJson (c : Constant) : Json := .object [(c.kind.name, c.valueJson)]

end Constant

def Json.ofOption {α : Type} (write : α → Json) : Option α → Json
  | some a => write a
  | none => .null

def Parameter.toJson (p : Parameter) : Json :=
  .object [
    ("name", .string p.name),
    ("db_type", .string p.dbType.name),
    ("direction", .string p.direction.directionName),
    ("size", Json.ofOption (fun n : Nat => .integer n) p.size),
    ("nullable", .bool p.nullable),
    ("store_type", Json.ofOption .string p.storeType),
    ("value", Json.ofOption Constant.toJson p.value)]

def Command.toJson (c : Command) : Json :=
  .object [
    ("text", .string c.text),
    ("kind", .string c.kind.name),
    ("columns", .array (c.columns.map .string)),
    ("parameters", .array (c.parameters.map Parameter.toJson))]

/-- The document of a command. -/
def Command.toDocument (c : Command) : String := c.toJson.toText

end RelSql
