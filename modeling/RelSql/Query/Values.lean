/-
Scalar expressions: variables and members, operators and calls. Operands of binary operators stand
in parentheses unless they are constants, parameters or members.
-/
import RelSql.Data.Literal
import RelSql.Expr.Membership
import RelSql.Query.State

namespace RelSql.Build

/-! ## Variables and members -/

/-- Records an extent as one of an enclosing statement, in each statement from the innermost up to
the one that has it. -/
def markOuter (extent : SymbolId) : List StatementId → BuildM Unit
  | [] => pure ()
  | i :: rest => do
    if (← statement i).hasFromExtent extent then pure ()
    else
      updateStatement i (·.addOuterExtent extent)
      markOuter extent rest

/-- A variable stands for its extent. It counts as pending until a member is read off it, and only
one variable can be pending. -/
def rowVariable (name : String) : BuildM Fragment := do
  let b ← get
  if b.pendingVariable then throw (.unsupported .wholeRow)
  setPending true
  match b.scopes.lookup? name with
  | none => throw (.badArgument (.unboundVariable name))
  | some extent =>
    let _ ← current
    markOuter extent b.building
    return .symbol extent

/-- The input of a join by its variable. -/
def joinInputNamed (join : JoinInfo) (name : String) : BuildM SymbolId := do
  match (← get).names.symbols.joinInput? join name with
  | some extent => return extent
  | none => throw (.badState (.noJoinInput name))

def memberOfSymbol (extent : SymbolId) (name : String) : BuildM Fragment := do
  match (← symbol extent).join with
  | none => return .parts [.symbol extent, .text ".", .text name]
  | some join =>
    let inner ← joinInputNamed join name
    return if join.nested then .nested extent inner else .symbol inner

/-- A member reached through a nested join: a further input, or a column of the subselect. -/
def memberOfNested (source inner : SymbolId) (name : String) : BuildM Fragment := do
  let s ← symbol inner
  match s.join with
  | some join => return .nested source (← joinInputNamed join name)
  | none =>
    let column := match s.column? name with
      | some c => Part.symbol c
      | none => Part.text name
    return .parts [.symbol source, .text ".", column]

def member (owner : Operand) (name : String) : BuildM Fragment := do
  let sql ← owner.build
  if owner.expr.isVariable then setPending false
  match sql with
  | .symbol extent => memberOfSymbol extent name
  | .nested source inner => memberOfNested source inner name
  | other => return .parts [other.toPart, .text ".", .text name]

/-! ## Operators and calls -/

def constant (value : Constant) : BuildM Fragment := do
  return .text (← value.literal)

def call (f : Function) (arguments : List Operand) : BuildM Fragment := do
  if f.niladic then
    if arguments.isEmpty then return .text f.qualifiedName
    else throw (.badState (.niladicArguments f.name))
  else
    let args ← arguments.mapM fun a => a.build
    return .parts <| [.text f.qualifiedName, .text "("] ++
      ([Part.text ", "].intercalate (args.map fun a => [a.toPart]) ++ [.text ")"])

def caseBranch (branch : Operand × Operand) : BuildM (List Part) := do
  let condition ← branch.1.build
  let value ← branch.2.build
  return [.text " WHEN (", condition.toPart, .text ") THEN ", value.toPart]

/-- Text for an operand that may be missing; null counts as missing. -/
def optionalParts (keyword : String) : Option Operand → BuildM (List Part)
  | none => pure []
  | some operand =>
    if operand.expr.isNullLiteral then pure []
    else do return [.text keyword, (← operand.build).toPart]

def caseOf (branches : List (Operand × Operand)) (otherwise : Option Operand) :
    BuildM Fragment := do
  let bs ← branches.mapM caseBranch
  let rest ← optionalParts " ELSE " otherwise
  return .parts ([.text "CASE"] ++ bs.flatten ++ rest ++ [.text " END"])

def negate (operand : Operand) : BuildM Fragment := do
  let sql ← operand.build
  return .parts [.text "-(", sql.toPart, .text ")"]

def like (operand pattern : Operand) (escape : Option Operand) : BuildM Fragment := do
  let sql ← operand.build
  let patternSql ← pattern.build
  let rest ← optionalParts " ESCAPE " escape
  return .parts ([sql.toPart, .text " LIKE ", patternSql.toPart] ++ rest)

def nullTest (negated : Bool) (operand : Operand) : BuildM Fragment := do
  let sql ← operand.build
  return .parts [sql.toPart, .text (if negated then " IS NOT NULL" else " IS NULL")]

def negation (operand : Operand) : BuildM Fragment := do
  let sql ← operand.build
  return .parts [.text "NOT (", sql.toPart, .text ")"]

/-- An operand in parentheses if it needs them. -/
def parenthesized (operand : Operand) : BuildM Part := do
  let sql ← operand.build
  if operand.expr.needsParentheses then
    return .group [.text "(", sql.toPart, .text ")"]
  else return .group [sql.toPart]

def binary (op : String) (left right : Operand) : BuildM Fragment := do
  let l ← parenthesized left
  let r ← parenthesized right
  return .parts [l, .text op, r]

/-! ## Membership -/

/-- The test that a key has one of the values. -/
def valueTest (key : Operand) : List Operand → BuildM (List Part)
  | [] => pure []
  | [value] => do
    let k ← parenthesized key
    let v ← parenthesized value
    return [k, .text " = ", v]
  | values => do
    let k ← parenthesized key
    let vs ← values.mapM parenthesized
    return [k, .text " IN ("] ++ [Part.text ","].intercalate (vs.map fun v => [v]) ++ [.text ")"]

/-- The first of the values that is a test for null stands for all of them. -/
def keyTest (entry : Operand × List Operand) : BuildM (List Part) := do
  let (key, values) := entry
  let tested ← valueTest key (values.filter (!·.expr.isNullTest))
  match values.find? (·.expr.isNullTest) with
  | none => return tested
  | some test =>
    let sql ← test.build
    return (if tested.isEmpty then [] else tested ++ [.text " OR "]) ++ [sql.toPart]

def membership (groups : KeyedLists Operand Operand) : BuildM Fragment := do
  let tests ← groups.mapM keyTest
  let body := [Part.text " OR "].intercalate tests
  return .parts <|
    if Expr.disjunctCount Operand.expr groups > 1 then [.text "("] ++ body ++ [.text ")"] else body

end RelSql.Build
