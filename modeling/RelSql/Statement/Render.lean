/-
Settling names. The parts of a statement become pieces of text; on the way an extent whose alias
is taken by an enclosing statement, and a column that shares its name with another, get a fresh
name. The table of symbols and the registries carry what was settled from one place to the next,
also past an error.
-/
import RelSql.Statement.Layout

namespace RelSql

/-- Steps that settle names. -/
abbrev Render := ExceptT Error (StateM Names)

namespace Render

/-- Writes a symbol; a column marked for renaming gets its new name the first time. -/
def symbol (i : SymbolId) : Render (List Piece) := do
  let names ← get
  let s := names.symbols.get i
  if s.needsRenaming && !s.isRenamed then
    let (fresh, columns) := names.columns.fresh s.name
    set { names with columns }
    match names.symbols.rename? i fresh with
    | some symbols =>
      set { names with columns, symbols := symbols.setNeedsRenaming i false }
      return [.name i fresh]
    | none => throw (.badState (.columnRenamedTwice s.name))
  else return [.name i s.currentName]

/-! ## Aliases -/

/-- Gives each extent an alias that is not among the names taken so far, and takes it. -/
def settleAliases (taken : List String) : List SymbolId → Render Unit
  | [] => pure ()
  | e :: rest => do
    let names ← get
    let name := (names.symbols.get e).name
    if taken.any (Ident.same · name) then
      let (fresh, extents) := names.extents.fresh name
      set { names with extents }
      match names.symbols.rename? e fresh with
      | some symbols => set { names with extents, symbols }
      | none => throw (.badState (.aliasBound name))
    let names ← get
    settleAliases (taken ++ [(names.symbols.get e).currentName]) rest

/-- Settles the aliases of a statement against those of the enclosing ones that it refers to. -/
def resolveAliases (s : Statement) : Render Unit := do
  let names ← get
  settleAliases (s.outerExtents.flatMap names.symbols.visibleNames) s.declaredExtents

/-! ## Parts and clauses -/

mutual

/-- Writes a part, with `nested` for the statements in it. -/
def part (nested : StatementId → Render (List Piece)) : Part → Render (List Piece)
  | .text s => pure [.text s]
  | .line => pure [.line]
  | .symbol i => symbol i
  | .group ps => parts nested ps
  | .statement i => nested i

def parts (nested : StatementId → Render (List Piece)) : List Part → Render (List Piece)
  | [] => pure []
  | p :: rest => do
    let first ← part nested p
    let more ← parts nested rest
    return first ++ more

end

/-- A clause behind its keyword, on a line of its own; an empty clause is not written. -/
def clause (nested : StatementId → Render (List Piece)) (keyword : String) (ps : List Part) :
    Render (List Piece) :=
  if ps.isEmpty then pure []
  else do
    let body ← parts nested ps
    return .line :: .text keyword :: body

/-- A row count behind its keyword. -/
def count (nested : StatementId → Render (List Piece)) (keyword : String) :
    Option (List Part) → Render (List Piece)
  | none => pure []
  | some ps => do
    let body ← parts nested ps
    return .text keyword :: body

/-- The clauses of a statement in their order. Below the top the order of rows is kept only for a
statement that returns some of them. -/
def clauses (nested : StatementId → Render (List Piece)) (s : Statement) : Render (List Piece) := do
  if s.selectList.isEmpty then throw (.badState .emptySelect)
  let selectList ← parts nested s.selectList
  let fromList ← clause nested "FROM " s.fromList
  let condition ← clause nested "WHERE " s.condition
  let grouping ← clause nested "GROUP BY " s.grouping
  let ordered := s.topMost || s.top.isSome || s.skip.isSome
  let ordering ← clause nested "ORDER BY " (if ordered then s.ordering else [])
  let top ← count nested " LIMIT " s.top
  let skip ← count nested " OFFSET " s.skip
  let head : List Piece := .text "SELECT " :: (if s.distinct then [.text "DISTINCT "] else [])
  return head ++ selectList ++ fromList ++ condition ++ grouping ++ ordering ++ top ++ skip

/-- Writes a statement. `depth` bounds the nesting: statements that do not contain themselves nest
no deeper than their number. -/
def statement (statements : Statements) : Nat → StatementId → Render (List Piece)
  | 0, _ => throw (.badState .nestedInItself)
  | depth + 1, i => do
    let s := statements.get i
    resolveAliases s
    let body ← clauses (statement statements depth) s
    return .enter i :: body ++ [.leave]

/-- Writes parts over the statements of a query. -/
def all (statements : Statements) (ps : List Part) : Render (List Piece) :=
  parts (statement statements statements.size) ps

end Render

/-- Settles the names of the parts. The names after it are valid whether it failed or not. -/
def renderParts (statements : Statements) (names : Names) (ps : List Part) :
    Except Error (List Piece) × Names :=
  (Render.all statements ps).run names

end RelSql
