/-
Disjunctions of equalities as membership tests. When every leaf of a disjunction compares a key
with a value or tests a key for null, the leaves can be gathered by key and written as
`key IN (values)`.
-/
import RelSql.Expr.Basic
import RelSql.Naming.KeyedLists

namespace RelSql.Expr

/-- A key: a variable, a parameter, or a member path that starts at one. -/
def isKey : Expr → Bool
  | var .. | parameter .. => true
  | property owner _ => isKey owner
  | _ => false

/-- Two keys denote one thing: the same path, names whatever their case; the names of parameters
are compared exactly. -/
def sameKey : Expr → Expr → Bool
  | property a n, property b m => Ident.same n m && sameKey a b
  | var n _, var m _ => Ident.same n m
  | parameter n _, parameter m _ => n == m
  | _, _ => false

/-- A leaf of a disjunction: the key and what it is compared with. The value of a test for null is
the test itself. -/
structure Term (ε : Type) where
  key : ε
  value : ε

/-- The leaves of a disjunction from left to right; `none` when one of them has no key. A key on
the left of an equality is preferred. -/
def terms? : Expr → Option (List (Term Expr))
  | compare .eq left right =>
    if isKey left then some [⟨left, right⟩]
    else if isKey right then some [⟨right, left⟩]
    else none
  | isNull operand => if isKey operand then some [⟨operand, isNull operand⟩] else none
  | or left right => do
    let ls ← terms? left
    let rs ← terms? right
    return ls ++ rs
  | _ => none

/-! ## Gathering

The leaves may carry more than their expressions; `view` gives the expression. -/

section

variable {ε : Type} (view : ε → Expr)

/-- The values of the leaves gathered by key. -/
def gather (terms : List (Term ε)) : KeyedLists ε ε :=
  KeyedLists.ofPairs (fun a b => sameKey (view a) (view b)) (terms.map fun t => (t.key, t.value))

/-- How many disjuncts are written for a key: one for its values and one for its test for null. -/
def disjunctsOf (values : List ε) : Nat :=
  (if values.any (fun v => !(view v).isNullTest) then 1 else 0) +
    (if values.any (fun v => (view v).isNullTest) then 1 else 0)

def disjunctCount (groups : KeyedLists ε ε) : Nat :=
  groups.foldr (fun g count => disjunctsOf view g.2 + count) 0

end

/-- The gathered form of a disjunction, worthwhile only when some key has several values. -/
def gathered? (e : Expr) : Option (KeyedLists Expr Expr) := do
  let groups := gather id (← terms? e)
  if groups.any (fun g => g.2.length > 1) then some groups else none

/-- The gathered form is written inside parentheses of its own. -/
def gatheredParenthesized (e : Expr) : Bool :=
  match gathered? e with
  | some groups => disjunctCount id groups > 1
  | none => false

/-- An operand that has to stand inside parentheses. -/
def needsParentheses : Expr → Bool
  | constant _ | parameter .. | property .. => false
  | or left right => !gatheredParenthesized (or left right)
  | _ => true

end RelSql.Expr
