/-
Compiling a query: its text and the names of the columns that it returns.
-/
import RelSql.Query.Visit
import RelSql.Statement.Render

namespace RelSql

structure CompiledQuery where
  text : String
  columns : List String
deriving Repr, DecidableEq, Inhabited

namespace Query

variable [Variables]

/-- The text of a whole query: a statement for a collection, a select of one value for anything
else. -/
def root (config : Config) (query : Expr) : BuildM Fragment := do
  if query.type.isCollection then
    let i ← Build.asStatement (query.toOperand config) true
    Build.updateStatement i fun s => { s with topMost := true }
    return .statement i
  else
    let sql ← query.build config
    return .parts [.text "SELECT ", sql.toPart]

/-- The statements and symbols of a query, before any name is settled. -/
def plan (config : Config) (query : Expr) : Except Error (Fragment × Build) := do
  let (fragment, b) ← (root config query).run {}
  if b.pendingVariable then throw (.unsupported .wholeRow)
  return (fragment, b)

/-- The columns that the root of a query returns, once all names are settled. -/
def columns (statements : Statements) (symbols : Symbols) : Fragment → List String
  | .statement i => (statements.get i).outputNames symbols
  | _ => []

/-- Compiles a query. -/
def compile (config : Config) (query : Expr) : Except Error CompiledQuery := do
  let (fragment, b) ← plan config query
  let (pieces, names) := renderParts b.statements b.names [fragment.toPart]
  let text := Layout.render config.pretty (← pieces)
  return { text, columns := columns b.statements names.symbols fragment }

end Query

end RelSql
