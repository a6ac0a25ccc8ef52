/-
The state in which a query is compiled: the statements and symbols made so far, and three stacks
that follow the expression, of the statements being built, of the scopes of variables and of
whether the surrounding node is a join that can take its input in.
-/
import RelSql.Expr.Typing
import RelSql.Naming.Scopes
import RelSql.Statement.Basic

namespace RelSql

/-- `pendingVariable` is set between a variable and the member that is read off it. -/
structure Build where
  names : Names := {}
  statements : Statements := #[]
  building : List StatementId := []
  joins : List Bool := []
  scopes : Scopes SymbolId := {}
  pendingVariable : Bool := false
deriving Inhabited

/-- Steps of the compilation of a query. -/
abbrev BuildM := StateT Build (Except Error)

namespace Build

/-! ## Statements -/

def newStatement (s : Statement) : BuildM StatementId := do
  let b ← get
  set { b with statements := b.statements.push s }
  return b.statements.size

def statement (i : StatementId) : BuildM Statement := do
  return (← get).statements.get i

def updateStatement (i : StatementId) (f : Statement → Statement) : BuildM Unit :=
  modify fun b => { b with statements := b.statements.modify i f }

/-- Replaces a statement by what `f` makes of it. -/
def tryUpdateStatement (i : StatementId) (f : Statement → Except Error Statement) :
    BuildM Unit := do
  let s ← f (← statement i)
  updateStatement i fun _ => s

def appendSelect (i : StatementId) (ps : List Part) : BuildM Unit :=
  updateStatement i fun s => { s with selectList := s.selectList ++ ps }

def appendFrom (i : StatementId) (ps : List Part) : BuildM Unit :=
  updateStatement i fun s => { s with fromList := s.fromList ++ ps }

def appendCondition (i : StatementId) (ps : List Part) : BuildM Unit :=
  updateStatement i fun s => { s with condition := s.condition ++ ps }

def appendGrouping (i : StatementId) (ps : List Part) : BuildM Unit :=
  updateStatement i fun s => { s with grouping := s.grouping ++ ps }

def appendOrdering (i : StatementId) (ps : List Part) : BuildM Unit :=
  updateStatement i fun s => { s with ordering := s.ordering ++ ps }

def addOutput (i : StatementId) (columns : List OutputColumn) : BuildM Unit :=
  updateStatement i fun s => { s with output := s.output ++ columns }

/-! ## Symbols -/

def newSymbol (s : Symbol) : BuildM SymbolId := do
  let b ← get
  let (i, symbols) := b.names.symbols.add s
  set { b with names := { b.names with symbols } }
  return i

def symbol (i : SymbolId) : BuildM Symbol := do
  return (← get).names.symbols.get i

def registerExtent (name : String) : BuildM Unit :=
  modify fun b => { b with names := { b.names with extents := b.names.extents.register name } }

def registerColumn (name : String) : BuildM Unit :=
  modify fun b => { b with names := { b.names with columns := b.names.columns.register name } }

def columnOf (extent : SymbolId) (name : String) : BuildM SymbolId := do
  let b ← get
  let (c, symbols) := b.names.symbols.columnOrInsert extent name
  set { b with names := { b.names with symbols } }
  return c

/-! ## The stacks -/

/-- Runs a step with a statement on top of those being built. -/
def within {α : Type} (i : StatementId) (step : BuildM α) : BuildM α := do
  modify fun b => { b with building := i :: b.building }
  let a ← step
  modify fun b => { b with building := b.building.drop 1 }
  return a

/-- Runs a step in a scope of its own. -/
def inScope {α : Type} (step : BuildM α) : BuildM α := do
  modify fun b => { b with scopes := b.scopes.enter }
  let a ← step
  modify fun b => { b with scopes := b.scopes.leave }
  return a

/-- Runs a step as the input of a join that takes joins in, or not. -/
def underJoin {α : Type} (takesIn : Bool) (step : BuildM α) : BuildM α := do
  modify fun b => { b with joins := takesIn :: b.joins }
  let a ← step
  modify fun b => { b with joins := b.joins.drop 1 }
  return a

def bindVariable (name : String) (extent : SymbolId) : BuildM Unit :=
  modify fun b => { b with scopes := b.scopes.add name extent }

/-- The surrounding node is a join that takes its input in. -/
def parentTakesIn : BuildM Bool := do
  return (← get).joins.head?.getD false

/-- The innermost of the statements being built. -/
def current : BuildM StatementId := do
  match (← get).building with
  | i :: _ => return i
  | [] => throw (.badState .noStatement)

def setPending (flag : Bool) : BuildM Unit :=
  modify fun b => { b with pendingVariable := flag }

end Build

/-- A sub-expression and the step that builds its text. -/
structure Operand where
  expr : Expr
  build : BuildM Fragment

end RelSql
