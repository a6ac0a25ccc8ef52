/-
Modifications: inserts, updates and deletes of the rows of an entity set, with the members to read
back afterwards.
-/
import RelSql.Expr.Typing

namespace RelSql

/-- A member and the value that it gets. -/
structure Assignment where
  property : String
  value : Expr

inductive Modification where
  | insert (target : Binding Expr) (assignments : List Assignment) (returning : List String)
  | update (target : Binding Expr) (assignments : List Assignment) (predicate : Expr)
      (returning : List String)
  | delete (target : Binding Expr) (predicate : Expr) (returning : List String)

namespace Modification

def treeName : Modification → String
  | insert .. => "insert"
  | update .. => "update"
  | delete .. => "delete"

def target : Modification → Binding Expr
  | insert target .. => target
  | update target .. => target
  | delete target .. => target

def returning : Modification → List String
  | insert _ _ returning => returning
  | update _ _ _ returning => returning
  | delete _ _ returning => returning

def isInsert : Modification → Bool
  | insert .. => true
  | _ => false

end Modification

/-- A parameter that stands for a constant of a modification. -/
structure ParameterRecord where
  name : String
  value : Option Constant
  kind : Kind
deriving Inhabited

end RelSql
