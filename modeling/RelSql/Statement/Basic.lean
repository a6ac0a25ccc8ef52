/-
Select statements under construction. Each clause is a list of parts; parts refer to symbols and
to other statements, whose text is settled when the whole is written.
-/
import RelSql.Error
import RelSql.Naming.Symbol

namespace RelSql

/-- The place of a statement among the statements of a query. -/
abbrev StatementId := Nat

/-- A piece of query text that may still wait for its names. -/
inductive Part where
  | text (text : String)
  | line
  | symbol (symbol : SymbolId)
  | group (parts : List Part)
  | statement (statement : StatementId)
deriving Inhabited

/-- The text of an expression: parts, a whole statement, an extent, or an input reached through a
nested join, whose `source` is the extent that has the columns. -/
inductive Fragment where
  | parts (parts : List Part)
  | statement (statement : StatementId)
  | symbol (symbol : SymbolId)
  | nested (source input : SymbolId)
deriving Inhabited

namespace Fragment

def text (s : String) : Fragment := parts [.text s]

def toPart : Fragment → Part
  | parts ps => .group ps
  | statement s => .statement s
  | symbol s => .symbol s
  | nested source _ => .symbol source

end Fragment

/-- A column that a statement returns: a fixed name, or a symbol whose name is settled later. -/
inductive OutputColumn where
  | named (name : String)
  | symbol (symbol : SymbolId)
deriving Repr, DecidableEq, Inhabited

def OutputColumn.name (symbols : Symbols) : OutputColumn → String
  | named name => name
  | symbol s => (symbols.get s).currentName

/-- The relational operators that can be written into a statement that is already there. -/
inductive Operator where
  | filter
  | project
  | sort
  | groupBy
  | skip
  | distinct
  | limit
  | element
deriving Repr, DecidableEq, Inhabited

/-- A select statement. `fromExtents` are the extents that variables can stand for;
`joinExtents`, when there, are the extents written in the `FROM` list of a join; `outerExtents`
are those of enclosing statements that this one refers to. -/
structure Statement where
  distinct : Bool := false
  selectList : List Part := []
  fromList : List Part := []
  condition : List Part := []
  grouping : List Part := []
  ordering : List Part := []
  top : Option (List Part) := none
  skip : Option (List Part) := none
  fromExtents : List SymbolId := []
  joinExtents : Option (List SymbolId) := none
  outerExtents : List SymbolId := []
  topMost : Bool := false
  output : List OutputColumn := []
deriving Inhabited

namespace Statement

def setTop (s : Statement) (count : List Part) : Except Error Statement :=
  if s.top.isSome then .error (.badState .limitTwice) else .ok { s with top := some count }

def setSkip (s : Statement) (count : List Part) : Except Error Statement :=
  if s.skip.isSome then .error (.badState .offsetTwice) else .ok { s with skip := some count }

/-- The statement orders its rows or returns only some of them. -/
def isOrderedOrCut (s : Statement) : Bool :=
  !s.ordering.isEmpty || s.top.isSome || s.skip.isSome

/-- The operator can be added to the clauses as they stand; otherwise the statement has to become
a subselect first. -/
def accepts (s : Statement) : Operator → Bool
  | .filter => s.selectList.isEmpty && s.condition.isEmpty && s.grouping.isEmpty && s.top.isNone
  | .project => s.selectList.isEmpty && s.grouping.isEmpty
  | .sort => s.selectList.isEmpty && s.grouping.isEmpty && s.ordering.isEmpty && s.top.isNone
  | .groupBy => s.selectList.isEmpty && s.grouping.isEmpty && s.ordering.isEmpty
  | .skip => s.selectList.isEmpty && s.grouping.isEmpty && s.ordering.isEmpty && !s.distinct
  | .distinct => s.top.isNone && s.ordering.isEmpty
  | .limit | .element => s.top.isNone

/-- Records that the statement refers to an extent of an enclosing one. -/
def addOuterExtent (s : Statement) (extent : SymbolId) : Statement :=
  if s.outerExtents.contains extent then s
  else { s with outerExtents := s.outerExtents ++ [extent] }

def hasFromExtent (s : Statement) (extent : SymbolId) : Bool := s.fromExtents.contains extent

def outputNames (s : Statement) (symbols : Symbols) : List String :=
  s.output.map (OutputColumn.name symbols)

/-- The extents whose aliases the `FROM` list declares. -/
def declaredExtents (s : Statement) : List SymbolId := s.joinExtents.getD s.fromExtents

end Statement

/-- The statements of a query, in the order of their creation. -/
abbrev Statements := Array Statement

def Statements.get (statements : Statements) (i : StatementId) : Statement :=
  statements.getD i default

end RelSql
