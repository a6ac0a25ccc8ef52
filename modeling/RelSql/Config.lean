/-
Settings of the generated text: its layout, how parameters are marked, and the store's own words
for reading back a row that was just written.
-/
import RelSql.Error
import RelSql.Json.Reader

namespace RelSql

structure Config where
  pretty : Bool := false
  parameterPrefix : String := "@"
  lastInsertId : String := "last_insert_rowid()"
  rowChangedMarker : String := "changes() > 0"
  rowidColumn : String := "rowid"
deriving Repr, DecidableEq, Inhabited

namespace Config

/-- A parameter as it stands in text: its name behind the mark, unless it has the mark already. -/
def parameterName (config : Config) (name : String) : String :=
  if config.parameterPrefix.toList.isPrefixOf name.toList then name
  else config.parameterPrefix ++ name

/-! ## Documents -/

def fieldNames : List String :=
  ["pretty", "parameter_prefix", "last_insert_id", "row_changed_marker", "rowid_column"]

def read? (j : Json) : Option Config := do
  let fields ← j.record? fieldNames
  let base : Config := {}
  let pretty ← Json.withDefault? fields "pretty" base.pretty Json.bool?
  let parameterPrefix ←
    Json.withDefault? fields "parameter_prefix" base.parameterPrefix Json.string?
  let lastInsertId ← Json.withDefault? fields "last_insert_id" base.lastInsertId Json.string?
  let rowChangedMarker ←
    Json.withDefault? fields "row_changed_marker" base.rowChangedMarker Json.string?
  let rowidColumn ← Json.withDefault? fields "rowid_column" base.rowidColumn Json.string?
  return { pretty, parameterPrefix, lastInsertId, rowChangedMarker, rowidColumn }

def ofJson (j : Json) : Except Error Config :=
  match read? j with
  | some config => .ok config
  | none => .error (.badArgument .configDocument)

/-- The settings that a document gives; what it leaves out has its default. -/
def ofText (text : String) : Except Error Config :=
  match Json.parse? text with
  | some j => ofJson j
  | none => .error (.badArgument .configDocument)

end Config

end RelSql
