/-
The relational operators. Each takes the statement of its input, wrapped where the clauses already
there would act at the wrong time, and adds its own clause.
-/
import RelSql.Query.Extents

namespace RelSql.Build

/-- Opens the statement of an input for an operator and runs `body` where the variable of the
input is in scope. -/
def overRows {α : Type} (op : Operator) (input : Binding Operand) (body : BuildM α) :
    BuildM (StatementId × α) := do
  let (i, extent) ← inputFor op input.expr input.var input.type
  let a ← within i <| inScope do
    declareExtent i extent
    bindVariable input.var extent
    body
  return (i, a)

def filter (negated : Bool) (input : Binding Operand) (predicate : Operand) :
    BuildM StatementId := do
  let (i, sql) ← overRows .filter input predicate.build
  appendCondition i <|
    if negated then [.text "NOT (", sql.toPart, .text ")"] else [sql.toPart]
  return i

/-! ## Projection -/

/-- One item of a select list, on a line of its own. -/
def selectItem (sql : Part) (name : String) : List Part :=
  [.line, sql, .text " AS ", .text name]

def projectField (field : String × Operand) : BuildM (String × Fragment) := do
  if field.2.expr.type.isRow then throw (.unsupported (.recordMember field.1))
  return (field.1, ← field.2.build)

def projectRecord (input : Binding Operand) (fields : List (String × Operand)) :
    BuildM StatementId := do
  let (i, items) ← overRows .project input (fields.mapM projectField)
  appendSelect i <|
    Part.separated ", " (items.map fun item => selectItem item.2.toPart item.1)
  addOutput i (items.map fun item => .named item.1)
  return i

/-- A projection on one value returns a named column only when the value is a member. -/
def projectValue (input : Binding Operand) (value : Operand) : BuildM StatementId := do
  let (i, sql) ← overRows .project input value.build
  appendSelect i [sql.toPart]
  match value.expr with
  | .property _ name => addOutput i [.named name]
  | _ => pure ()
  return i

/-! ## Order and row counts -/

def collationParts : Option String → List Part
  | some collation => if collation = "" then [] else [.text " COLLATE ", .text collation]
  | none => []

def sortItem (key : SortKey Operand) : BuildM (List Part) := do
  let sql ← key.expr.build
  return [sql.toPart] ++ collationParts key.collation ++
    [.text (if key.ascending then " ASC" else " DESC")]

def ordered (op : Operator) (input : Binding Operand) (keys : List (SortKey Operand)) :
    BuildM StatementId := do
  let (i, items) ← overRows op input (keys.mapM sortItem)
  appendOrdering i (Part.separated ", " items)
  return i

def sort (input : Binding Operand) (keys : List (SortKey Operand)) : BuildM StatementId :=
  ordered .sort input keys

/-- The text of a row count: an integer constant or a parameter. -/
def rowCount (count : Operand) : BuildM (List Part) :=
  match count.expr with
  | .constant (.byte v) => pure [.text (Digits.ofNat v.toNat)]
  | .constant (.int16 v) => pure [.text (Digits.ofInt v.toInt)]
  | .constant (.int32 v) => pure [.text (Digits.ofInt v.toInt)]
  | .constant (.int64 v) => pure [.text (Digits.ofInt v.toInt)]
  | .constant v => throw (.badArgument (.rowCountKind v.kind))
  | .parameter .. => do return [(← count.build).toPart]
  | _ => throw (.badArgument .rowCountForm)

def skip (input : Binding Operand) (keys : List (SortKey Operand)) (count : Operand) :
    BuildM StatementId := do
  let i ← ordered .skip input keys
  let n ← rowCount count
  tryUpdateStatement i (·.setSkip n)
  return i

def limit (withTies : Bool) (input count : Operand) : BuildM StatementId := do
  if withTies then throw (.unsupported .limitWithTies)
  let i ← asStatement input false
  let i ← wrapUnless .limit "top" input.expr.rowType i
  let n ← rowCount count
  tryUpdateStatement i (·.setTop n)
  return i

def distinct (input : Operand) : BuildM StatementId := do
  let i ← asStatement input true
  let i ← wrapUnless .distinct "dst" input.expr.rowType i
  updateStatement i fun s => { s with distinct := true }
  return i

/-! ## Whole statements inside text -/

/-- One side of a set operation; order and row counts hold only inside a subselect. -/
def setSide (i : StatementId) : BuildM (List Part) := do
  if (← statement i).isOrderedOrCut then
    return [.text "SELECT * FROM (", .statement i, .text ")"]
  else return [.statement i]

def setOperation (op : SetOp) (left right : Operand) : BuildM Fragment := do
  let l ← asStatement left true
  let r ← asStatement right true
  let leftSide ← setSide l
  let rightSide ← setSide r
  return .parts (leftSide ++ [.line, .text op.keyword, .line] ++ rightSide)

def element (input : Operand) : BuildM Fragment := do
  let i ← asStatement input true
  return .parts [.text "(", .statement i, .text ")"]

def existsParts (negated : Bool) (i : StatementId) : List Part :=
  (if negated then [.text "NOT "] else []) ++ [.text "EXISTS (", .statement i, .text ")"]

/-- The test that the input has no rows, or with `negated` that it has some. -/
def emptiness (negated : Bool) (input : Operand) : BuildM Fragment := do
  let i ← asStatement input true
  return .parts (existsParts (!negated) i)

/-- Some row satisfies the predicate; for all rows to do so, none may fail it. -/
def quantified (q : Quantifier) (input : Binding Operand) (predicate : Operand) :
    BuildM Fragment := do
  let forAll := q == .all
  let i ← filter forAll input predicate
  selectAllIfNone i
  return .parts (existsParts forAll i)

/-! ## Collections -/

def collectionItem (scalar : Bool) (item : Operand) : BuildM (List Part) := do
  let sql ← item.build
  return [.text "SELECT ", sql.toPart] ++
    (if scalar then [.text (" AS " ++ scalarColumn)] else [])

def emptyCollection : String := "SELECT NULL AS X FROM (SELECT 1) AS Y WHERE 1=0"

def collection (elementType : DataType) (items : List Operand) : BuildM Fragment := do
  if items.isEmpty then return .text emptyCollection
  let rows ← items.mapM (collectionItem elementType.isPrimitive)
  return .parts (Part.separated " UNION ALL " rows)

/-- The collection of the single element of an input: its first row. -/
def singleton (input : Operand) : BuildM StatementId := do
  let i ← asStatement input true
  let i ← wrapUnless .element "element" input.expr.rowType i
  tryUpdateStatement i (·.setTop [.text "1"])
  return i

end RelSql.Build
