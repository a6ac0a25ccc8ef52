/-
The words of a modification: its text with every constant left out as a value of its own. A value
becomes a parameter, so no constant ever stands in the text. Words also record which member a
value belongs to, for reading the row back.
-/
import RelSql.Error
import RelSql.Modification.Basic

namespace RelSql

/-- `binds` says that the value last written is the value of a member. -/
inductive Word where
  | text (text : String)
  | value (constant : Constant)
  | binds (member : String)
deriving Inhabited

namespace Modification

/-- The set that a modification changes. -/
def targetSet (target : Binding Expr) : Except Error EntitySet :=
  match target.expr with
  | .scan set => .ok set
  | e => .error (.badArgument (.targetNotScan e.nodeName))

/-- The name of a set that can be changed: it has one, and no query defines the set. -/
def targetName (set : EntitySet) : Except Error String :=
  if set.definingQuery.isSome then .error (.unsupported (.modifyingQuery set.name))
  else if set.storeName = "" then .error (.badArgument .unnamedTarget)
  else .ok set.source

/-- The record that a value, if it is a constant, belongs to a member. -/
def bindsIfConstant (member : String) : Expr → List Word
  | .constant _ => [.binds member]
  | _ => []

/-- The record for a comparison: an equality with a member on the left binds it. -/
def bindsIfMember (op : CompareOp) (left right : Expr) : List Word :=
  match op, left with
  | .eq, .property _ name => bindsIfConstant name right
  | _, _ => []

/-- Two operands in parentheses with an operator between them. -/
def enclosed (op : String) (left right : List Word) : List Word :=
  [.text "("] ++ left ++ [.text op] ++ right ++ [.text ")"]

mutual

/-- The words of an expression. Binary operators stand in parentheses, and a member stands by its
own name. -/
def words : Expr → Except Error (List Word)
  | .and left right => do
    let ls ← words left
    let rs ← words right
    return enclosed " AND " ls rs
  | .or left right => do
    let ls ← words left
    let rs ← words right
    return enclosed " OR " ls rs
  | .compare op left right => do
    let ls ← words left
    let rs ← words right
    return enclosed (" " ++ op.text ++ " ") ls rs ++ bindsIfMember op left right
  | .isNull operand => do
    let ws ← words operand
    return ws ++ [.text " IS NULL"]
  | .not operand => do
    let ws ← words operand
    return [.text "NOT ("] ++ ws ++ [.text ")"]
  | .constant value => .ok [.value value]
  | .null _ => .ok [.text "NULL"]
  | .property _ name => .ok [.text name]
  | .scan set => do
    let name ← targetName set
    return [.text name]
  | .newRecord fields => do
    let ws ← fieldWords fields
    return [Word.text ", "].intercalate ws
  | e => .error (.unsupported (.inModification e.nodeName))

def fieldWords : List (String × Expr) → Except Error (List (List Word))
  | [] => .ok []
  | (_, e) :: rest => do
    let ws ← words e
    let more ← fieldWords rest
    return ws :: more

end

/-- The words of the value that a member gets. -/
def assignmentWords (a : Assignment) : Except Error (List Word) := do
  let ws ← words a.value
  return ws ++ bindsIfConstant a.property a.value

def insertWords (assignments : List Assignment) : Except Error (List Word) := do
  if assignments.isEmpty then return [.text " DEFAULT VALUES;\n"]
  let columns := ", ".intercalate (assignments.map Assignment.property)
  let values ← assignments.mapM assignmentWords
  return [.text ("(" ++ columns ++ ")\n VALUES (")] ++ [Word.text ", "].intercalate values ++
    [.text ");\n"]

/-- An update that sets nothing still touches the row, so that computed members are brought up to
date. -/
def touch : List Word := [.value (.int32 0), .text " = 0"]

def setWords (assignments : List Assignment) : Except Error (List Word) := do
  if assignments.isEmpty then return touch
  let items ← assignments.mapM fun a => do
    let ws ← assignmentWords a
    return Word.text (a.property ++ " = ") :: ws
  return [Word.text ", "].intercalate items

def whereWords (predicate : Expr) : Except Error (List Word) := do
  let ws ← words predicate
  return [.text "\nWHERE "] ++ ws ++ [.text ";\n"]

/-- The words of a modification of the set with that name. -/
def statementWords (name : String) : Modification → Except Error (List Word)
  | insert _ assignments _ => do
    let ws ← insertWords assignments
    return .text ("INSERT INTO " ++ name) :: ws
  | update _ assignments predicate _ => do
    let sets ← setWords assignments
    let condition ← whereWords predicate
    return .text ("UPDATE " ++ name ++ "\nSET ") :: sets ++ condition
  | delete _ predicate _ => do
    let condition ← whereWords predicate
    return .text ("DELETE FROM " ++ name) :: condition

end Modification

end RelSql
