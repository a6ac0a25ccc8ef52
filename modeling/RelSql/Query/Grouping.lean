/-
Grouping. Aggregates over plain columns are written next to the keys. As soon as one argument is
more than a column, keys and arguments are computed in an inner statement first, and the outer
one groups by the columns of that.
-/
import RelSql.Query.Operators

namespace RelSql.Build

/-- The call of an aggregate on the text of its argument. -/
def aggregateParts (aggregate : Aggregate Operand) (argument : Part) : List Part :=
  [.text aggregate.function.qualifiedName, .text "("] ++
    (if aggregate.distinct then [.text "DISTINCT "] else []) ++ [argument, .text ")"]

def buildKey (key : String × Operand) : BuildM (String × Part) := do
  return (key.1, (← key.2.build).toPart)

def buildArgument (aggregate : String × Aggregate Operand) :
    BuildM (String × Aggregate Operand × Part) := do
  return (aggregate.1, aggregate.2, (← aggregate.2.argument.build).toPart)

/-- Keys and aggregates in one statement. -/
def groupInPlace (i : StatementId) (keys : List (String × Operand))
    (aggregates : List (String × Aggregate Operand)) : BuildM StatementId := do
  let ks ← keys.mapM buildKey
  let as ← aggregates.mapM buildArgument
  let items := ks.map (fun k => selectItem k.2 k.1) ++
    as.map (fun a => selectItem (.group (aggregateParts a.2.1 a.2.2)) a.1)
  appendSelect i (Part.separated ", " items)
  appendGrouping i (Part.separated ", " (ks.map fun k => [k.2]))
  addOutput i ((ks.map Prod.fst ++ as.map Prod.fst).map OutputColumn.named)
  return i

/-- The column of the inner statement that holds key or argument number `n`. -/
def innerName (stem : String) (n : Nat) : String := stem ++ Digits.ofNat n

def innerNames (stem : String) (count : Nat) : List String :=
  (List.range count).map (innerName stem)

/-- A column of the inner statement, as the outer one reads it. -/
def innerColumn (extent : SymbolId) (name : String) : List Part :=
  [.symbol extent, .text ".", .text name]

def groupOverInner (inner : StatementId) (var : String) (type : DataType)
    (keys : List (String × Operand)) (aggregates : List (String × Aggregate Operand)) :
    BuildM StatementId := do
  let (outer, extent) ← subselect inner var type false
  declareExtent outer extent
  let ks ← keys.mapM buildKey
  let as ← aggregates.mapM buildArgument
  let keyNames := innerNames "key_" ks.length
  let argumentNames := innerNames "agg_" as.length
  appendSelect inner <| Part.separated ", " <|
    (ks.zip keyNames).map (fun k => selectItem k.1.2 k.2) ++
      (as.zip argumentNames).map (fun a => selectItem a.1.2.2 a.2)
  appendSelect outer <| Part.separated ", " <|
    (ks.zip keyNames).map (fun k => .line :: innerColumn extent k.2 ++ [.text " AS ", .text k.1.1]) ++
      (as.zip argumentNames).map (fun a =>
        selectItem (.group (aggregateParts a.1.2.1 (.group (innerColumn extent a.2)))) a.1.1)
  appendGrouping outer (Part.separated ", " (keyNames.map (innerColumn extent)))
  addOutput outer ((ks.map Prod.fst ++ as.map Prod.fst).map OutputColumn.named)
  return outer

/-- Some aggregate has an argument that is more than a column. -/
def needsInner (aggregates : List (String × Aggregate Operand)) : Bool :=
  aggregates.any fun a => !a.2.argument.expr.isPlainColumn

def group (input : GroupBinding Operand) (keys : List (String × Operand))
    (aggregates : List (String × Aggregate Operand)) : BuildM StatementId := do
  let (i, extent) ← inputFor .groupBy input.expr input.var input.type
  within i <| inScope do
    declareExtent i extent
    bindVariable input.var extent
    bindVariable input.groupVar extent
    if needsInner aggregates then groupOverInner i input.var input.type keys aggregates
    else groupInPlace i keys aggregates

end RelSql.Build
