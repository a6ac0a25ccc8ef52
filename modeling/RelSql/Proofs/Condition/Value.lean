/-
The value of a condition. Values may be missing, which is null; truth is that of SQL, with null for
what is unknown. What the operators do to values is left open.
-/
import RelSql.Proofs.Condition.Reader
import RelSql.Proofs.Condition.Truth

namespace RelSql.Condition

/-- What operators mean on values that are there. -/
structure Operations (V : Type) where
  ofBool : Bool → V
  isTrue : V → Bool
  compare : CompareOp → V → V → Bool
  arith : ArithOp → V → V → Option V
  minus : V → Option V
  like : V → V → Bool
  likeEscape : V → V → V → Bool

namespace Operations

variable {V : Type} (o : Operations V)

def unary : UnaryOp → Option V → Option V
  | .not, x => x.map fun v => o.ofBool !o.isTrue v
  | .minus, x => x.bind o.minus

/-- The truth of a comparison, unknown if one side is null. -/
def compared (op : CompareOp) (x y : Option V) : Option Bool := do
  let x ← x
  let y ← y
  return o.compare op x y

def binary : BinaryOp → Option V → Option V → Option V
  | .or, x, y => (either (x.map o.isTrue) (y.map o.isTrue)).map o.ofBool
  | .and, x, y => (both (x.map o.isTrue) (y.map o.isTrue)).map o.ofBool
  | .compare op, x, y => (o.compared op x y).map o.ofBool
  | .arith op, x, y => do
    let x ← x
    let y ← y
    o.arith op x y

def isNull (negated : Bool) (x : Option V) : Option V := some (o.ofBool (x.isNone != negated))

def matched (x p : Option V) : Option V :=
  Option.map o.ofBool do
    let x ← x
    let p ← p
    return o.like x p

def matchedEscape (x p e : Option V) : Option V :=
  Option.map o.ofBool do
    let x ← x
    let p ← p
    let e ← e
    return o.likeEscape x p e

/-- `IN` is that the value equals one of the items. -/
def among (x : Option V) (items : List (Option V)) : Option V := (anyOf (items.map (o.compared .eq x))).map o.ofBool

end Operations

namespace Tree

variable {V : Type} (o : Operations V) (atom : Atom → Option V)

mutual

/-- The value of a tree, from the values of its atoms. -/
def value : Tree → Option V
  | .atom a => atom a
  | .null => none
  | .unary op t => o.unary op (value t)
  | .binary op l r => o.binary op (value l) (value r)
  | .isNull negated t => o.isNull negated (value t)
  | .like t p => o.matched (value t) (value p)
  | .likeEscape t p e => o.matchedEscape (value t) (value p) (value e)
  | .among t items => o.among (value t) (values items)

def values : List Tree → List (Option V)
  | [] => []
  | t :: rest => value t :: values rest

end

theorem values_eq_map (ts : List Tree) : values o atom ts = ts.map (value o atom) := by
  induction ts with
  | nil => rfl
  | cons t rest ih => rw [values, ih]; rfl

end Tree

end RelSql.Condition
