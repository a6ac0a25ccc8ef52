/-
What can go wrong, by cause, and the message for each cause.
-/
import RelSql.Data.Type
import RelSql.Expr.Operator

namespace RelSql

/-- Constructs that have no query text. -/
inductive Unsupported where
  | apply
  | recordOutsideProjection
  | recordMember (name : String)
  | navigation (relationship : String)
  | typeTest (test : TypeTest)
  | reference (op : ReferenceOp)
  | lambda
  | wholeRow
  | limitWithTies
  | literal (kind : Kind)
  | kindNotStored (kind : Kind)
  | typeNotStored (ty : DataType)
  | storeType (name : String)
  | modifyingQuery (set : String)
  | inModification (node : String)

/-- Inputs that break a rule of their own. -/
inductive BadArgument where
  | unboundVariable (name : String)
  | rowCountKind (kind : Kind)
  | rowCountForm
  | nonFinite (width : String) (negative : Bool)
  | targetNotScan (node : String)
  | unnamedTarget
  | notModification (tree : String)
  | parameterName (name : String)
  | parameterType (name : String)
  | configDocument

/-- Steps that the state of the compiler does not allow. -/
inductive BadState where
  | noStatement
  | expectedStatement
  | limitTwice
  | offsetTwice
  | emptySelect
  | noColumns
  | noJoinInput (name : String)
  | niladicArguments (function : String)
  | aliasBound (extent : String)
  | columnRenamedTwice (column : String)
  | nestedInItself

/-- Faults of a catalog document. -/
inductive CatalogFault where
  | document
  | emptyName
  | unknownKey (key set : String)

inductive Error where
  | unsupported (cause : Unsupported)
  | missingKeyValue (table member : String)
  | badArgument (cause : BadArgument)
  | badState (cause : BadState)
  | catalog (cause : CatalogFault)

def Unsupported.text : Unsupported → String
  | apply => "APPLY"
  | recordOutsideProjection => "row constructor outside a projection"
  | recordMember name => "record-typed projection member '" ++ name ++ "'"
  | navigation relationship => "relationship navigation '" ++ relationship ++ "'"
  | typeTest test => "type test " ++ test.name
  | reference op => "reference operator " ++ op.name
  | lambda => "lambda function"
  | wholeRow => "reference to a whole row variable"
  | limitWithTies => "LIMIT WITH TIES"
  | literal kind => kind.name ++ " literal"
  | kindNotStored kind => "no store type corresponding to " ++ kind.name
  | typeNotStored ty => "no store type for non-primitive type " ++ ty.describe
  | storeType name => "store type '" ++ name ++ "'"
  | modifyingQuery set => "modifying '" ++ set ++ "', which is defined by a query"
  | inModification node => node ++ " in a modification statement"

def BadArgument.text : BadArgument → String
  | unboundVariable name => "unbound variable '" ++ name ++ "'"
  | rowCountKind kind => "row count must be an integer, got " ++ kind.name
  | rowCountForm => "row count must be a constant or a parameter"
  | nonFinite width negative =>
    "non-finite " ++ width ++ " constant " ++ (if negative then "-inf" else "inf")
  | targetNotScan node => "modification target must be a scan, got " ++ node
  | unnamedTarget => "modification target has no name"
  | notModification tree => "a " ++ tree ++ " tree is not a modification"
  | parameterName name => "invalid parameter name '" ++ name ++ "'"
  | parameterType name => "parameter '" ++ name ++ "' is not of a primitive type"
  | configDocument => "invalid generator config"

def BadState.text : BadState → String
  | noStatement => "no statement is being built"
  | expectedStatement => "expected a statement"
  | limitTwice => "statement already has a LIMIT clause"
  | offsetTwice => "statement already has an OFFSET clause"
  | emptySelect => "statement written with an empty select list"
  | noColumns => "no columns to select from the statement's extents"
  | noJoinInput name => "join has no input named '" ++ name ++ "'"
  | niladicArguments function => "niladic function '" ++ function ++ "' called with arguments"
  | aliasBound extent => "extent '" ++ extent ++ "' is already bound under another alias"
  | columnRenamedTwice column => "column '" ++ column ++ "' renamed twice"
  | nestedInItself => "statement nested in itself"

def CatalogFault.text : CatalogFault → String
  | document => "invalid catalog document"
  | emptyName => "entity set with an empty name"
  | unknownKey key set => "key '" ++ key ++ "' is not a member of '" ++ set ++ "'"

/-- The message shown for an error. -/
def Error.message : Error → String
  | unsupported cause => "unsupported construct: " ++ cause.text
  | missingKeyValue table member =>
    "missing value for key member '" ++ member ++ "' in table '" ++ table ++ "'"
  | badArgument cause => "invalid argument: " ++ cause.text
  | badState cause => "invalid compiler state: " ++ cause.text
  | catalog cause => "catalog error: " ++ cause.text

end RelSql
