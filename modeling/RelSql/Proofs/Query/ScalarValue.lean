/-
The value of a scalar expression of a query: integers and strings, parameters, members of variables,
and what operators make of them. It is the value that conditions have, with the members of a variable
under the alias that stands for it. Two things that are done to an expression before it is written keep
its value: keys are gathered from a disjunction, and double negations are left out. The second keeps it
only where a condition is negated, or where no more than the truth of the value counts.
-/
import RelSql.Proofs.Condition.Value
import RelSql.Proofs.Query.MembershipTruth

namespace RelSql

open Ident Condition

namespace Condition

/-- What the atoms stand for, and operators that obey the laws of SQL. Parameters are told by their
text, and columns by the keys of their alias and their name. -/
structure Interpretation (V : Type) extends Operations V where
  isTrue_ofBool : ∀ b, isTrue (ofBool b) = b
  compare_eq_comm : ∀ x y, compare .eq x y = compare .eq y x
  compare_ne : ∀ x y, compare .ne x y = !compare .eq x y
  integer : Int → V
  minus_integer : ∀ i, minus (integer i) = some (integer (-i))
  string : String → V
  parameter : String → Option V
  column : String → String → Option V

/-- Operators that go by the truth of their operands. -/
def BinaryOp.isConnective : BinaryOp → Bool
  | or | and => true
  | compare _ | arith _ => false

namespace Interpretation

variable {V : Type} (ι : Interpretation V)

def atom : Atom → Option V
  | .number n => some (ι.integer n)
  | .quoted s => some (ι.string s)
  | .name name => ι.parameter name
  | .member owner column => ι.column (key owner) (key column)

/-- The value of a condition that was read. -/
def ofTree (t : Tree) : Option V := t.value ι.toOperations ι.atom

theorem ofTree_among (t : Tree) (items : List Tree) :
    ι.ofTree (.among t items) = (anyOf ((items.map ι.ofTree).map (ι.compared .eq (ι.ofTree t)))).map ι.ofBool := by
  rw [ofTree, Tree.value, Tree.values_eq_map]
  rfl

/-- The truth of a value; null is unknown. -/
def truth (x : Option V) : Option Bool := x.map ι.isTrue

theorem truth_ofBool (t : Option Bool) : ι.truth (t.map ι.ofBool) = t := by
  cases t <;> simp [truth, ι.isTrue_ofBool]

/-- The values are the same, or at least their truth if only that counts. -/
def Agrees (asTruth : Bool) (x y : Option V) : Prop := ι.truth x = ι.truth y ∧ (asTruth = false → x = y)

theorem Agrees.of_eq {asTruth : Bool} {x y : Option V} (h : x = y) : ι.Agrees asTruth x y :=
  ⟨congrArg ι.truth h, fun _ => h⟩

/-- A null test needs no more than the truth of what it tests. -/
theorem isNull_congr {asTruth : Bool} {x y : Option V} (negated : Bool) (h : ι.Agrees asTruth x y) :
    ι.toOperations.isNull negated x = ι.toOperations.isNull negated y := by
  have hnone : x.isNone = y.isNone := by simpa [truth] using congrArg Option.isNone h.1
  rw [Operations.isNull, Operations.isNull, hnone]

/-- Connectives need no more than the truth of their operands. -/
theorem binary_congr {op : BinaryOp} {x x' y y' : Option V} (hx : ι.Agrees op.isConnective x x')
    (hy : ι.Agrees op.isConnective y y') : ι.binary op x y = ι.binary op x' y' := by
  cases op with
  | or => exact congrArg (Option.map ι.ofBool) (congrArg₂ either hx.1 hy.1)
  | and => exact congrArg (Option.map ι.ofBool) (congrArg₂ both hx.1 hy.1)
  | compare op | arith op => rw [hx.2 rfl, hy.2 rfl]

theorem unary_not (x : Option V) : ι.unary .not x = ((ι.truth x).map (!·)).map ι.ofBool := by
  cases x <;> rfl

theorem compared_ne (x y : Option V) : ι.compared .ne x y = (ι.compared .eq x y).map (!·) := by
  cases x <;> cases y <;> simp [Operations.compared, ι.compare_ne]

end Interpretation

end Condition

/-! ## Scalar expressions -/

/-- The integer that a constant is. -/
def Constant.integer? : Constant → Option Int
  | .byte v => some v.toNat
  | .sbyte v => some v.toInt
  | .int16 v => some v.toInt
  | .int32 v => some v.toInt
  | .int64 v => some v.toInt
  | _ => none

theorem Constant.literal_of_integer? {c : Constant} {i : Int} (h : c.integer? = some i) :
    c.literal = .ok (Digits.ofInt i) := by
  unfold integer? at h
  split at h <;> cases h
  · rw [literal, Digits.ofInt, if_neg (by omega)]; rfl
  all_goals rfl

namespace Expr

/-- Integers, strings, parameters, members of variables that have an alias, and what operators make of
them. Names, aliases and parameters can be told apart in a text. -/
def isScalar (config : Config) (aliasOf : String → Option String) : Expr → Bool
  | constant (.string _) => true
  | constant c => c.integer?.isSome
  | parameter name _ => isParameter (config.parameterName name).toList
  | property (var v _) name => (aliasOf v).any (fun a => isName a.toList) && isName name.toList
  | arith _ left right | compare _ left right | and left right | or left right =>
    isScalar config aliasOf left && isScalar config aliasOf right
  | negate operand | not operand | isNull operand => isScalar config aliasOf operand
  | like operand pattern none => isScalar config aliasOf operand && isScalar config aliasOf pattern
  | like operand pattern (some escape) =>
    isScalar config aliasOf operand && (isScalar config aliasOf pattern && isScalar config aliasOf escape)
  | _ => false
termination_by structural e => e

/-- Conditions, other than parameters and members that happen to be one. -/
def isCondition : Expr → Bool
  | compare .. | and .. | or .. | not _ | isNull _ | like .. => true
  | _ => false

theorem vars_of_sameKey {a b : Expr} (ha : a.isVariable = true) (h : sameKey a b = true) :
    ∃ v type w type', a = var v type ∧ b = var w type' ∧ same v w = true := by
  cases a with
  | var v type => cases b <;> first | exact ⟨v, type, _, _, rfl, rfl, h⟩ | cases h
  | _ => cases ha

theorem isVariable_of_sameKey {a b : Expr} (ha : a.isVariable = false) (h : sameKey a b = true) : b.isVariable = false := by
  cases b with
  | var w type => cases a <;> first | cases h | cases ha
  | _ => rfl

/-- Leaving out double negations keeps the truth of the expression if `asTruth`, and else its value. -/
def foldsNegations : Bool → Expr → Bool
  | asTruth, not (not operand) => (asTruth || operand.isCondition) && foldsNegations asTruth operand
  | _, arith _ left right | _, compare _ left right => foldsNegations false left && foldsNegations false right
  | _, negate operand => foldsNegations false operand
  | _, and left right | _, or left right => foldsNegations true left && foldsNegations true right
  | _, not operand | _, isNull operand => foldsNegations true operand
  | _, like operand pattern none => foldsNegations false operand && foldsNegations false pattern
  | _, like operand pattern (some escape) =>
    foldsNegations false operand && (foldsNegations false pattern && foldsNegations false escape)
  | _, _ => true
termination_by structural _ e => e

end Expr

namespace Condition.Interpretation

variable {V : Type} (ι : Interpretation V) (config : Config) (aliasOf : String → Option String)

def constant : Constant → Option V
  | .string s => some (ι.string s)
  | c => c.integer?.map ι.integer

theorem constant_of_integer? {c : Constant} {i : Int} (h : c.integer? = some i) : ι.constant c = some (ι.integer i) := by
  cases c <;> cases h <;> rfl

/-- The value of a scalar expression. -/
def ofExpr : Expr → Option V
  | .constant c => ι.constant c
  | .parameter name _ => ι.parameter (config.parameterName name)
  | .property (.var v _) name => (aliasOf v).bind fun a => ι.column (key a) (key name)
  | .arith op left right => ι.binary (.arith op) (ofExpr left) (ofExpr right)
  | .compare op left right => ι.binary (.compare op) (ofExpr left) (ofExpr right)
  | .and left right => ι.binary .and (ofExpr left) (ofExpr right)
  | .or left right => ι.binary .or (ofExpr left) (ofExpr right)
  | .negate operand => ι.unary .minus (ofExpr operand)
  | .not operand => ι.unary .not (ofExpr operand)
  | .isNull operand => ι.toOperations.isNull false (ofExpr operand)
  | .like operand pattern none => ι.matched (ofExpr operand) (ofExpr pattern)
  | .like operand pattern (some escape) => ι.matchedEscape (ofExpr operand) (ofExpr pattern) (ofExpr escape)
  | _ => none
termination_by structural e => e

variable {config aliasOf}

/-- A condition has a truth value for its value. -/
theorem ofExpr_of_isCondition {e : Expr} (h : e.isCondition = true) :
    (ι.truth (ι.ofExpr config aliasOf e)).map ι.ofBool = ι.ofExpr config aliasOf e := by
  have hbool : ∀ t : Option Bool, (ι.truth (t.map ι.ofBool)).map ι.ofBool = t.map ι.ofBool := by
    intro t
    rw [ι.truth_ofBool]
  cases e with
  | compare op left right | and left right | or left right => exact hbool _
  | not operand => rw [ofExpr, ι.unary_not]; exact hbool _
  | isNull operand => exact hbool (some _)
  | like operand pattern escape => cases escape <;> exact hbool _
  | _ => cases h

/-- A condition that is negated twice has its own value. -/
theorem ofExpr_not_not (e : Expr) :
    ι.ofExpr config aliasOf (.not (.not e)) = (ι.truth (ι.ofExpr config aliasOf e)).map ι.ofBool := by
  rw [ofExpr, ofExpr, ι.unary_not, ι.unary_not, ι.truth_ofBool]
  cases ι.truth (ι.ofExpr config aliasOf e) <;> simp

theorem ofExpr_not_equal (left right : Expr) : ι.ofExpr config aliasOf (.not (.compare .eq left right)) =
    ι.binary (.compare .ne) (ι.ofExpr config aliasOf left) (ι.ofExpr config aliasOf right) := by
  rw [ofExpr, ofExpr, ι.unary_not, Operations.binary, Operations.binary, ι.truth_ofBool, ι.compared_ne]

theorem ofExpr_not_isNull (e : Expr) :
    ι.ofExpr config aliasOf (.not (.isNull e)) = ι.toOperations.isNull true (ι.ofExpr config aliasOf e) := by
  rw [ofExpr, ofExpr, ι.unary_not, Operations.isNull, Operations.isNull]
  cases ι.ofExpr config aliasOf e <;> simp [truth, ι.isTrue_ofBool]

theorem ofExpr_property {owner : Expr} (h : owner.isVariable = false) (name : String) :
    ι.ofExpr config aliasOf (.property owner name) = none := by
  cases owner <;> first | rfl | cases h

/-! ## Disjunctions of tests of keys -/

section

variable (hsame : ∀ {v w : String}, same v w = true → aliasOf v = aliasOf w)

include hsame

theorem ofExpr_of_sameKey {a b : Expr} (h : Expr.sameKey a b = true) :
    ι.ofExpr config aliasOf a = ι.ofExpr config aliasOf b := by
  cases a with
  | property a n =>
    cases b with
    | property b m =>
      obtain ⟨hname, howner⟩ := Bool.and_eq_true_iff.1 h
      cases ha : a.isVariable with
      | true =>
        obtain ⟨v, type, w, type', rfl, rfl, hsamevar⟩ := Expr.vars_of_sameKey ha howner
        rw [ofExpr, ofExpr, hsame hsamevar, same_iff.1 hname]
      | false => rw [ι.ofExpr_property ha, ι.ofExpr_property (Expr.isVariable_of_sameKey ha howner)]
    | _ => cases h
  | var v type => cases b <;> first | rfl | cases h
  | parameter n type =>
    cases b with
    | parameter m type' => rw [ofExpr, ofExpr, beq_iff_eq.1 h]
    | _ => cases h
  | _ => cases h

variable (config)

/-- The values of scalar expressions, for the leaves of disjunctions. -/
def valuation : Valuation V where
  value := ι.ofExpr config aliasOf
  equal := ι.compare .eq
  equal_comm := ι.compare_eq_comm
  same := ι.ofExpr_of_sameKey hsame
  other e := ι.truth (ι.ofExpr config aliasOf e)

theorem equals_valuation (left right : Expr) : (ι.valuation config hsame).equals left right =
    ι.compared .eq (ι.ofExpr config aliasOf left) (ι.ofExpr config aliasOf right) := by
  unfold Valuation.equals Operations.compared valuation
  dsimp only
  cases ι.ofExpr config aliasOf left with
  | none => rfl
  | some x => cases ι.ofExpr config aliasOf right <;> rfl

/-- The leaves of a disjunction have the truth of their values. -/
theorem truth_valuation (e : Expr) : (ι.valuation config hsame).truth e = ι.truth (ι.ofExpr config aliasOf e) := by
  fun_induction Valuation.truth (ι.valuation config hsame) e with
  | case1 left right => rw [equals_valuation, ofExpr, Operations.binary, truth_ofBool]
  | case2 operand =>
    rw [ofExpr, Operations.isNull, Bool.bne_false]
    exact (ι.truth_ofBool (some _)).symm
  | case3 left right ihl ihr => rw [ihl, ihr, ofExpr, Operations.binary, truth_ofBool]; rfl
  | case4 => rfl

end

end Condition.Interpretation

end RelSql
