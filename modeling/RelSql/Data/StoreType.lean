/-
The types of the store, and the two maps between them and scalar types. Going to the store keeps
the facets that the store type can carry; coming back restores the kind and those facets.
-/
import RelSql.Error

namespace RelSql

/-- A store type: its name and the facets that it carries. -/
structure StoreType where
  name : String
  facets : Facets := {}
deriving Repr, DecidableEq, Inhabited

namespace StoreType

/-- The text of a store type: `decimal(10,2)`, `varchar(64)`, `int`. -/
def toText (st : StoreType) : String :=
  match st.facets.precision, st.facets.maxLength with
  | some p, length =>
    if st.name = "decimal" then
      "decimal(" ++ Digits.ofNat p ++ "," ++ Digits.ofNat st.facets.scaleOrZero ++ ")"
    else withLength length
  | none, length => withLength length
where
  withLength : Option Nat → String
    | some length => st.name ++ "(" ++ Digits.ofNat length ++ ")"
    | none => st.name

/-- The name of a character type by character set and length. -/
def characterName (unicode fixed : Bool) : String :=
  match unicode, fixed with
  | true, true => "nchar"
  | true, false => "nvarchar"
  | false, true => "char"
  | false, false => "varchar"

/-- The store type of a scalar kind, if the store has one. -/
def ofKind? (facets : Facets) : Kind → Option StoreType
  | .boolean => some { name := "bit" }
  | .byte => some { name := "tinyint" }
  | .int16 => some { name := "smallint" }
  | .int32 => some { name := "int" }
  | .int64 => some { name := "integer" }
  | .guid => some { name := "uniqueidentifier" }
  | .double => some { name := "float" }
  | .single => some { name := "real" }
  | .dateTime => some { name := "datetime" }
  | .decimal =>
    some { name := "decimal"
           facets := { precision := some facets.precisionOrDefault
                       scale := some facets.scaleOrZero } }
  | .binary =>
    some { name := "blob"
           facets := { fixedLength := some facets.isFixedLength, maxLength := facets.maxLength } }
  | .string =>
    some { name := characterName facets.isUnicode facets.isFixedLength
           facets := { unicode := some facets.isUnicode
                       fixedLength := some facets.isFixedLength
                       maxLength := facets.maxLength } }
  | .sbyte | .dateTimeOffset | .time => none

/-- The store type that holds values of a type. -/
def ofType : DataType → Except Error StoreType
  | .primitive kind facets =>
    match ofKind? facets kind with
    | some st => .ok st
    | none => .error (.unsupported (.kindNotStored kind))
  | ty => .error (.unsupported (.typeNotStored ty))

/-- A character type by its name. -/
def characterFacets? : String → Option Facets
  | "varchar" => some { unicode := some false, fixedLength := some false }
  | "char" => some { unicode := some false, fixedLength := some true }
  | "nvarchar" => some { unicode := some true, fixedLength := some false }
  | "nchar" => some { unicode := some true, fixedLength := some true }
  | _ => none

/-- The kinds whose store types carry no facets, by the name of the store type. -/
def plainKind? : String → Option Kind
  | "tinyint" => some .byte
  | "smallint" => some .int16
  | "int" => some .int32
  | "integer" => some .int64
  | "bit" => some .boolean
  | "uniqueidentifier" => some .guid
  | "float" => some .double
  | "real" => some .single
  | "datetime" => some .dateTime
  | _ => none

/-- The precision and scale of a decimal type, kept only when both are known. -/
def decimalFacets (f : Facets) : Facets :=
  match f.precision, f.scale with
  | some p, some s => { precision := some p, scale := some s }
  | _, _ => {}

/-- The type of the values that a store type holds; the case of its name does not matter. -/
def toType (st : StoreType) : Except Error DataType :=
  let name := Ident.key st.name
  match plainKind? name with
  | some kind => .ok (.scalar kind)
  | none =>
    if name = "decimal" then .ok (.primitive .decimal (decimalFacets st.facets))
    else if name = "blob" then
      .ok (.primitive .binary { fixedLength := some false, maxLength := st.facets.maxLength })
    else match characterFacets? name with
      | some facets => .ok (.primitive .string { facets with maxLength := st.facets.maxLength })
      | none => .error (.unsupported (.storeType name))

end StoreType

end RelSql
