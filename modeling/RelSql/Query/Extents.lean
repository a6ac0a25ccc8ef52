/-
Extents of a statement: declaring them in its `FROM` list, selecting all their columns, and
wrapping a statement into a subselect that is an extent of a new one.
-/
import RelSql.Query.State

namespace RelSql

/-- The parts of a list, with a separator between the items. -/
def Part.separated (separator : String) (items : List (List Part)) : List Part :=
  [Part.text separator].intercalate items

/-- The variable of an input that has no name of its own. -/
def defaultVariable : String := "c"

/-- The column of an extent whose rows are scalars. -/
def scalarColumn : String := "X"

namespace Build

/-! ## Declaring extents -/

/-- Writes an extent behind what the `FROM` list ends with, unless it is the statement's own. -/
def declareExtent (i : StatementId) (extent : SymbolId) : BuildM Unit := do
  if (← statement i).fromExtents.head? != some extent then
    updateStatement i fun s =>
      { s with
        fromExtents := s.fromExtents ++ [extent]
        fromList := s.fromList ++ [.text " AS ", .symbol extent] }
    registerExtent (← symbol extent).name

/-! ## All columns -/

/-- A column selected from an extent: a member under the name of its column symbol, or a column
that a nested join already has. -/
structure StarColumn where
  source : SymbolId
  member : Option String
  column : SymbolId

def StarColumn.parts (c : StarColumn) : List Part :=
  [.symbol c.source, .text "."] ++
    match c.member with
    | some member => [.text member, .text " AS ", .symbol c.column]
    | none => [.symbol c.column]

/-- The names of the columns of an extent that is no join. -/
def memberNames (s : Symbol) : List String :=
  match s.type with
  | some ty => if ty.isPrimitive then [scalarColumn] else ty.properties.map Prod.fst
  | none => [scalarColumn]

def starMember (extent : SymbolId) (member : String) : BuildM StarColumn := do
  registerColumn member
  let column ← columnOf extent member
  return ⟨extent, some member, column⟩

def starColumns (extent : SymbolId) : BuildM (List StarColumn) := do
  let s ← symbol extent
  match s.join with
  | some join => return join.columns.map (⟨extent, none, ·⟩)
  | none => (memberNames s).mapM (starMember extent)

/-- Selects every column of every extent of a statement. Columns that share a name are marked for
renaming. -/
def selectAll (i : StatementId) : BuildM (List SymbolId) := do
  let symbols := (← get).names.symbols
  let leaves := (← statement i).fromExtents.flatMap symbols.leaves
  let stars := (← leaves.mapM starColumns).flatten
  if stars.isEmpty then throw (.badState .noColumns)
  let columns := stars.map StarColumn.column
  appendSelect i (Part.separated ", " (stars.map StarColumn.parts))
  addOutput i (columns.map OutputColumn.symbol)
  modify fun b =>
    { b with names := { b.names with symbols := b.names.symbols.markClashes [] columns } }
  return columns

def selectAllIfNone (i : StatementId) : BuildM Unit := do
  if (← statement i).selectList.isEmpty then
    let _ ← selectAll i

/-! ## Subselects -/

/-- What makes an extent out of a statement whose columns were just selected: a join stays one,
nested now, with those columns. -/
def nestedJoin? (i : StatementId) (columns : List SymbolId) : BuildM (Option JoinInfo) := do
  match (← statement i).fromExtents with
  | [] => return none
  | first :: _ =>
    match (← symbol first).join with
    | none => return none
    | some join => return some { join with columns, nested := true }

def newExtent (name : String) (type : DataType) : Option JoinInfo → BuildM SymbolId
  | some join => newSymbol (.joined name type join)
  | none => newSymbol (.extent name type)

/-- A new statement over `i` as a subselect, and the extent that stands for it. With `complete`, a
statement without a select list gets all columns first. -/
def subselect (i : StatementId) (name : String) (type : DataType) (complete : Bool) :
    BuildM (StatementId × SymbolId) := do
  let join ←
    if complete && (← statement i).selectList.isEmpty then
      nestedJoin? i (← selectAll i)
    else pure none
  let extent ← newExtent name type join
  let outer ← newStatement { fromList := [.text "(", .statement i, .text ")"] }
  return (outer, extent)

/-- A source of rows that is no statement of its own: function calls stand as they are. -/
def sourceParts (isCall : Bool) (fragment : Fragment) : List Part :=
  if isCall then [fragment.toPart] else [.text "(", fragment.toPart, .text ")"]

/-- The statement that reads an input, and the extent that its variable stands for. Several extents
become one join. -/
def input (operand : Operand) (name : String) (type : DataType) :
    BuildM (StatementId × SymbolId) := do
  let i ← match ← operand.build with
    | .statement i => pure i
    | fragment => newStatement { fromList := sourceParts operand.expr.isCall fragment }
  let s ← statement i
  match s.fromExtents with
  | [] => return (i, ← newSymbol (.extent name type))
  | [extent] => return (i, extent)
  | extents =>
    let join : JoinInfo := { extents, flattened := s.joinExtents.getD [] }
    let extent ← newSymbol (.joined name type join)
    updateStatement i fun s => { s with fromExtents := [extent] }
    return (i, extent)

/-- The statement for an operator over an input, wrapped if it cannot take the operator. -/
def inputFor (op : Operator) (operand : Operand) (name : String) (type : DataType) :
    BuildM (StatementId × SymbolId) := do
  let (i, extent) ← input operand name type
  if (← statement i).accepts op then return (i, extent)
  else subselect i name type true

/-- The statement itself if it can take the operator, else one over it. -/
def wrapUnless (op : Operator) (name : String) (type : DataType) (i : StatementId) :
    BuildM StatementId := do
  if (← statement i).accepts op then return i
  else
    let (outer, extent) ← subselect i name type true
    declareExtent outer extent
    return outer

/-- The nodes whose text is always a statement with its extent declared. -/
def declaresExtent : Expr → Bool
  | .project .. | .filter .. | .groupBy .. | .sort .. => true
  | _ => false

def expectStatement : Fragment → BuildM StatementId
  | .statement i => pure i
  | _ => throw (.badState .expectedStatement)

/-- An operand as a statement; with `complete` it has a select list. -/
def asStatement (operand : Operand) (complete : Bool) : BuildM StatementId := do
  let i ←
    if declaresExtent operand.expr then expectStatement (← operand.build)
    else inScope do
      let (i, extent) ← input operand defaultVariable operand.expr.rowType
      declareExtent i extent
      bindVariable defaultVariable extent
      return i
  if complete then selectAllIfNone i
  return i

end Build

end RelSql
