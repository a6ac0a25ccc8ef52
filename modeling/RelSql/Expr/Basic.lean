/-
Relational expressions. A relational node binds the rows of an input to a variable, and its own
sub-expressions reach the members of a row through that variable.
-/
import RelSql.Catalog.EntitySet
import RelSql.Data.Constant
import RelSql.Expr.Function
import RelSql.Expr.Operator

namespace RelSql

/-- An input whose rows are bound to a variable of the type `type`. -/
structure Binding (ε : Type) where
  expr : ε
  var : String
  type : DataType

/-- The input of a grouping: besides the variable of its rows it has one of the whole group. -/
structure GroupBinding (ε : Type) where
  expr : ε
  var : String
  type : DataType
  groupVar : String

structure SortKey (ε : Type) where
  expr : ε
  ascending : Bool := true
  collation : Option String := none

structure Aggregate (ε : Type) where
  function : Function
  distinct : Bool := false
  argument : ε

inductive Expr where
  | scan (set : EntitySet)
  | filter (input : Binding Expr) (predicate : Expr)
  | project (input : Binding Expr) (projection : Expr)
  | join (kind : JoinKind) (left right : Binding Expr) (condition : Expr)
  | crossJoin (inputs : List (Binding Expr))
  | apply (kind : ApplyKind) (input applied : Binding Expr)
  | groupBy (input : GroupBinding Expr) (keys : List (String × Expr))
      (aggregates : List (String × Aggregate Expr))
  | sort (input : Binding Expr) (keys : List (SortKey Expr))
  | skip (input : Binding Expr) (keys : List (SortKey Expr)) (count : Expr)
  | limit (input count : Expr) (withTies : Bool)
  | distinct (input : Expr)
  | setOp (op : SetOp) (left right : Expr)
  | element (input : Expr)
  | isEmpty (input : Expr)
  | quantifier (quantifier : Quantifier) (input : Binding Expr) (predicate : Expr)
  | newCollection (elementType : DataType) (items : List Expr)
  | constant (value : Constant)
  | null (type : DataType)
  | property (owner : Expr) (name : String)
  | var (name : String) (type : DataType)
  | parameter (name : String) (type : DataType)
  | call (function : Function) (arguments : List Expr)
  | case (branches : List (Expr × Expr)) (otherwise : Option Expr)
  | cast (operand : Expr) (type : DataType)
  | arith (op : ArithOp) (left right : Expr)
  | negate (operand : Expr)
  | compare (op : CompareOp) (left right : Expr)
  | and (left right : Expr)
  | or (left right : Expr)
  | not (operand : Expr)
  | isNull (operand : Expr)
  | like (operand pattern : Expr) (escape : Option Expr)
  | newRecord (fields : List (String × Expr))
  | navigate (source : Expr) (relationship : String)
  | typeTest (test : TypeTest) (operand : Expr) (type : DataType)
  | reference (op : ReferenceOp) (operand : Expr)
  | lambda (body : Expr)
deriving Inhabited

namespace Expr

def isScan : Expr → Bool
  | scan _ => true
  | _ => false

/-- Joins of either sort, the ones that can flatten into a join around them. -/
def isJoin : Expr → Bool
  | join .. | crossJoin _ => true
  | _ => false

def isApply : Expr → Bool
  | apply .. => true
  | _ => false

def isCall : Expr → Bool
  | call .. => true
  | _ => false

def isNullLiteral : Expr → Bool
  | null _ => true
  | _ => false

def isVariable : Expr → Bool
  | var .. => true
  | _ => false

def isNullTest : Expr → Bool
  | isNull _ => true
  | _ => false

/-- A member read straight off a variable. -/
def isPlainColumn : Expr → Bool
  | property (var ..) _ => true
  | _ => false

/-- The name of a node's construct, for messages. -/
def nodeName : Expr → String
  | scan _ => "Scan"
  | filter .. => "Filter"
  | project .. => "Project"
  | join .. => "Join"
  | crossJoin _ => "CrossJoin"
  | apply .. => "Apply"
  | groupBy .. => "GroupBy"
  | sort .. => "Sort"
  | skip .. => "Skip"
  | limit .. => "Limit"
  | distinct _ => "Distinct"
  | setOp .. => "SetOp"
  | element _ => "Element"
  | isEmpty _ => "IsEmpty"
  | quantifier .. => "Quantifier"
  | newCollection .. => "NewCollection"
  | constant _ => "Constant"
  | null _ => "Null"
  | property .. => "Property"
  | var .. => "VariableRef"
  | parameter .. => "ParameterRef"
  | call .. => "Function"
  | case .. => "Case"
  | cast .. => "Cast"
  | arith .. => "Arithmetic"
  | negate _ => "Negate"
  | compare .. => "Comparison"
  | and .. => "And"
  | or .. => "Or"
  | not _ => "Not"
  | isNull _ => "IsNull"
  | like .. => "Like"
  | newRecord _ => "NewRecord"
  | navigate .. => "Navigate"
  | typeTest .. => "TypeTest"
  | reference .. => "Reference"
  | lambda _ => "Lambda"

end Expr

end RelSql
