/-
Joins. A join whose first input is a join takes that one in, so that a chain of joins is one
`FROM` list; any other input that needs a statement of its own becomes a subselect.
-/
import RelSql.Query.Extents

namespace RelSql.Build

/-- The first input of a join is taken in if it is a join; a scan always stands by itself. -/
def takesIn (first : Bool) (e : Expr) : Bool :=
  e.isScan || (first && (e.isJoin || e.isApply))

/-- An input that wrote into the statement of the join: the extents that it added, those from
`before` on, become one join. -/
def absorb (i : StatementId) (input : Binding Operand) (before : Nat) : BuildM Unit := do
  let extents := (← statement i).fromExtents.drop before
  let extent ← newSymbol (.joined input.var input.type { extents })
  updateStatement i fun s => { s with fromExtents := s.fromExtents.take before ++ [extent] }
  bindVariable input.var extent

/-- What an input with a statement of its own brings along. A statement without a select list gets
all columns, and a join in it stays reachable through them. -/
def subselectJoin? (sub : StatementId) (e : Expr) : BuildM (Option JoinInfo) := do
  if (← statement sub).selectList.isEmpty then
    let columns ← selectAll sub
    if e.isJoin || e.isApply then
      return some { extents := (← statement sub).fromExtents, columns, nested := true }
    else nestedJoin? sub columns
  else return none

/-- Writes the source of an input and returns the join that it is, if it is one. -/
def writeSource (i : StatementId) (e : Expr) : Fragment → BuildM (Option JoinInfo)
  | .statement sub => do
    let join ← subselectJoin? sub e
    appendFrom i [.text "(", .statement sub, .text ")"]
    return join
  | fragment => do
    appendFrom i (if e.isScan then [fragment.toPart] else sourceParts e.isCall fragment)
    return none

/-- Adds an extent of its own for an input. -/
def adjoin (i : StatementId) (input : Binding Operand) (fragment : Fragment) : BuildM Unit := do
  let join ← writeSource i input.expr.expr fragment
  let extent ← newExtent input.var input.type join
  declareExtent i extent
  bindVariable input.var extent
  updateStatement i fun s => { s with joinExtents := some (s.joinExtents.getD [] ++ [extent]) }

def joinInput (i : StatementId) (first : Bool) (input : Binding Operand) : BuildM Unit := do
  let before := (← statement i).fromExtents.length
  match ← underJoin (takesIn first input.expr.expr) input.expr.build with
  | .statement sub =>
    if sub = i then absorb i input before else adjoin i input (.statement sub)
  | fragment => adjoin i input fragment

def joinRest (i : StatementId) (keyword : String) : List (Binding Operand) → BuildM Unit
  | [] => pure ()
  | input :: rest => do
    appendFrom i [.line, .text keyword, .text " "]
    joinInput i false input
    joinRest i keyword rest

/-- The inputs from left to right, each but the first behind the keyword. -/
def joinInputs (i : StatementId) (keyword : String) : List (Binding Operand) → BuildM Unit
  | [] => pure ()
  | first :: rest => do
    joinInput i true first
    joinRest i keyword rest

def joinCondition (i : StatementId) : Option Operand → BuildM Unit
  | none => pure ()
  | some condition => do
    let sql ← underJoin false condition.build
    appendFrom i [.text " ON ", sql.toPart]

def joinBody (i : StatementId) (keyword : String) (inputs : List (Binding Operand))
    (condition : Option Operand) : BuildM Unit := do
  joinInputs i keyword inputs
  joinCondition i condition

/-- The statement of a join: the one being built where the surrounding join takes this one in,
otherwise a new one. -/
def joined (keyword : String) (inputs : List (Binding Operand)) (condition : Option Operand) :
    BuildM StatementId := do
  if ← parentTakesIn then
    let i ← current
    inScope (joinBody i keyword inputs condition)
    return i
  else
    let i ← newStatement { joinExtents := some [] }
    within i (inScope (joinBody i keyword inputs condition))
    return i

end RelSql.Build
