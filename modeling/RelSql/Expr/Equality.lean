/-
Structural equality of expressions: the same constructs over equal parts. Types and facets count;
constants compare as `Constant.beq` says.
-/
import RelSql.Expr.Basic

namespace RelSql.Expr

mutual

def beq : Expr → Expr → Bool
  | scan a, scan b => a == b
  | filter a p, filter b q => beqBinding a b && beq p q
  | project a p, project b q => beqBinding a b && beq p q
  | join k l r c, join k' l' r' c' => k == k' && beqBinding l l' && beqBinding r r' && beq c c'
  | crossJoin as, crossJoin bs => beqBindings as bs
  | apply k a p, apply k' b q => k == k' && beqBinding a b && beqBinding p q
  | groupBy ⟨e, v, t, g⟩ ks as, groupBy ⟨e', v', t', g'⟩ ks' as' =>
    beq e e' && v == v' && t == t' && g == g' && beqNamed ks ks' && beqAggregates as as'
  | sort a ks, sort b ks' => beqBinding a b && beqKeys ks ks'
  | skip a ks n, skip b ks' n' => beqBinding a b && beqKeys ks ks' && beq n n'
  | limit a n t, limit b n' t' => beq a b && beq n n' && t == t'
  | distinct a, distinct b => beq a b
  | setOp o l r, setOp o' l' r' => o == o' && beq l l' && beq r r'
  | element a, element b => beq a b
  | isEmpty a, isEmpty b => beq a b
  | quantifier k a p, quantifier k' b q => k == k' && beqBinding a b && beq p q
  | newCollection t as, newCollection t' bs => t == t' && beqList as bs
  | constant a, constant b => a == b
  | null t, null t' => t == t'
  | property a n, property b n' => beq a b && n == n'
  | var n t, var n' t' => n == n' && t == t'
  | parameter n t, parameter n' t' => n == n' && t == t'
  | call f as, call g bs => f == g && beqList as bs
  | case bs o, case bs' o' => beqBranches bs bs' && beqOption o o'
  | cast a t, cast b t' => beq a b && t == t'
  | arith o l r, arith o' l' r' => o == o' && beq l l' && beq r r'
  | negate a, negate b => beq a b
  | compare o l r, compare o' l' r' => o == o' && beq l l' && beq r r'
  | and l r, and l' r' => beq l l' && beq r r'
  | or l r, or l' r' => beq l l' && beq r r'
  | not a, not b => beq a b
  | isNull a, isNull b => beq a b
  | like a p e, like a' p' e' => beq a a' && beq p p' && beqOption e e'
  | newRecord fs, newRecord fs' => beqNamed fs fs'
  | navigate a r, navigate b r' => beq a b && r == r'
  | typeTest k a t, typeTest k' b t' => k == k' && beq a b && t == t'
  | reference k a, reference k' b => k == k' && beq a b
  | lambda a, lambda b => beq a b
  | _, _ => false

def beqBinding : Binding Expr → Binding Expr → Bool
  | ⟨e, v, t⟩, ⟨e', v', t'⟩ => beq e e' && v == v' && t == t'

def beqBindings : List (Binding Expr) → List (Binding Expr) → Bool
  | [], [] => true
  | a :: as, b :: bs => beqBinding a b && beqBindings as bs
  | _, _ => false

def beqList : List Expr → List Expr → Bool
  | [], [] => true
  | a :: as, b :: bs => beq a b && beqList as bs
  | _, _ => false

def beqNamed : List (String × Expr) → List (String × Expr) → Bool
  | [], [] => true
  | (n, a) :: as, (n', b) :: bs => n == n' && beq a b && beqNamed as bs
  | _, _ => false

def beqAggregates : List (String × Aggregate Expr) → List (String × Aggregate Expr) → Bool
  | [], [] => true
  | (n, ⟨f, d, a⟩) :: as, (n', ⟨f', d', a'⟩) :: bs =>
    n == n' && f == f' && d == d' && beq a a' && beqAggregates as bs
  | _, _ => false

def beqKeys : List (SortKey Expr) → List (SortKey Expr) → Bool
  | [], [] => true
  | ⟨a, asc, c⟩ :: as, ⟨b, asc', c'⟩ :: bs =>
    beq a b && asc == asc' && c == c' && beqKeys as bs
  | _, _ => false

def beqBranches : List (Expr × Expr) → List (Expr × Expr) → Bool
  | [], [] => true
  | (w, t) :: as, (w', t') :: bs => beq w w' && beq t t' && beqBranches as bs
  | _, _ => false

def beqOption : Option Expr → Option Expr → Bool
  | none, none => true
  | some a, some b => beq a b
  | _, _ => false

end

instance : BEq Expr := ⟨beq⟩

end RelSql.Expr
