/-
Command trees: everything that can be turned into a command.
-/
import RelSql.Modification.Basic

namespace RelSql

/-- Parameters declared for a command, in order, each name once. -/
abbrev Declared := List (String × DataType)

/-- Declares a parameter; one of exactly that name keeps its place and gets the new type. -/
def Declared.declare (name : String) (type : DataType) : Declared → Declared
  | [] => [(name, type)]
  | (n, t) :: rest =>
    if n = name then (n, type) :: rest else (n, t) :: declare name type rest

inductive CommandTree where
  | query (query : Expr) (parameters : Declared)
  | function (function : Function) (text : Option String) (parameters : Declared)
  | modification (modification : Modification)

namespace CommandTree

def treeName : CommandTree → String
  | query .. => "query"
  | function .. => "function"
  | modification m => m.treeName

def isModification : CommandTree → Bool
  | modification _ => true
  | _ => false

/-- The parameters that a tree declares; modifications declare none. -/
def parameters? : CommandTree → Option Declared
  | query _ parameters => some parameters
  | function _ _ parameters => some parameters
  | modification _ => none

/-- Declares a parameter on a tree that can have one. -/
def declare (tree : CommandTree) (name : String) (type : DataType) : CommandTree :=
  match tree with
  | query q parameters => query q (Declared.declare name type parameters)
  | function f text parameters => function f text (Declared.declare name type parameters)
  | modification m => modification m

end CommandTree

end RelSql
