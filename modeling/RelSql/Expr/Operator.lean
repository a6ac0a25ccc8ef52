/-
The operators of expressions and the words that stand for them in query text.
-/
namespace RelSql

inductive CompareOp where
  | eq
  | ne
  | lt
  | le
  | gt
  | ge
deriving Repr, DecidableEq, Inhabited

def CompareOp.text : CompareOp → String
  | eq => "="
  | ne => "<>"
  | lt => "<"
  | le => "<="
  | gt => ">"
  | ge => ">="

inductive ArithOp where
  | add
  | sub
  | mul
  | div
  | mod
deriving Repr, DecidableEq, Inhabited

def ArithOp.text : ArithOp → String
  | add => "+"
  | sub => "-"
  | mul => "*"
  | div => "/"
  | mod => "%"

/-- Joins of two inputs; a cross join has any number of inputs and no condition. -/
inductive JoinKind where
  | inner
  | leftOuter
  | fullOuter
deriving Repr, DecidableEq, Inhabited

def JoinKind.keyword : JoinKind → String
  | inner => "INNER JOIN"
  | leftOuter => "LEFT OUTER JOIN"
  | fullOuter => "FULL OUTER JOIN"

inductive ApplyKind where
  | cross
  | outer
deriving Repr, DecidableEq, Inhabited

inductive SetOp where
  | unionAll
  | union
  | intersect
  | except
deriving Repr, DecidableEq, Inhabited

def SetOp.keyword : SetOp → String
  | unionAll => "UNION ALL"
  | union => "UNION"
  | intersect => "INTERSECT"
  | except => "EXCEPT"

inductive Quantifier where
  | any
  | all
deriving Repr, DecidableEq, Inhabited

inductive TypeTest where
  | isOf
  | isOfOnly
  | ofType
  | ofTypeOnly
  | treat
deriving Repr, DecidableEq, Inhabited

def TypeTest.name : TypeTest → String
  | isOf => "IsOf"
  | isOfOnly => "IsOfOnly"
  | ofType => "OfType"
  | ofTypeOnly => "OfTypeOnly"
  | treat => "Treat"

inductive ReferenceOp where
  | ref
  | deref
  | entityRef
  | refKey
deriving Repr, DecidableEq, Inhabited

def ReferenceOp.name : ReferenceOp → String
  | ref => "Ref"
  | deref => "Deref"
  | entityRef => "EntityRef"
  | refKey => "RefKey"

end RelSql
