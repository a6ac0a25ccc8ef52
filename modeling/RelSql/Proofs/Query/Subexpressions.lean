/-
The sub-expressions of an expression, conditions on all of them, and induction on what lies below an
expression.
-/
import Mathlib.Tactic
import RelSql.Query.Visit

namespace RelSql

open List

/-! ## Sizes -/

theorem Binding.sizeOf_expr_lt (b : Binding Expr) : sizeOf b.expr < sizeOf b := by
  cases b; simp only [Binding.mk.sizeOf_spec]; omega

theorem GroupBinding.sizeOf_expr_lt (b : GroupBinding Expr) : sizeOf b.expr < sizeOf b := by
  cases b; simp only [GroupBinding.mk.sizeOf_spec]; omega

theorem SortKey.sizeOf_expr_lt (k : SortKey Expr) : sizeOf k.expr < sizeOf k := by
  cases k; simp only [SortKey.mk.sizeOf_spec]; omega

theorem Aggregate.sizeOf_argument_lt (a : Aggregate Expr) : sizeOf a.argument < sizeOf a := by
  cases a; simp only [Aggregate.mk.sizeOf_spec]; omega

theorem sizeOf_snd_lt {α : Type} [SizeOf α] {fields : List (String × α)} {f : String × α} (h : f ∈ fields) :
    sizeOf f.2 < sizeOf fields := by
  have := sizeOf_lt_of_mem h
  cases f; simp only [Prod.mk.sizeOf_spec] at this; dsimp only; omega

namespace Expr

variable {c e : Expr} {p : Expr → Prop}

/-! ## Sub-expressions -/

/-- The direct sub-expressions. -/
def children : Expr → List Expr
  | scan _ | constant _ | null _ | var .. | parameter .. => []
  | filter input predicate => [input.expr, predicate]
  | project input projection => [input.expr, projection]
  | join _ left right condition => [left.expr, right.expr, condition]
  | crossJoin inputs => inputs.map Binding.expr
  | apply _ input applied => [input.expr, applied.expr]
  | groupBy input keys aggregates => input.expr :: keys.map Prod.snd ++ aggregates.map fun a => a.2.argument
  | sort input keys => input.expr :: keys.map SortKey.expr
  | skip input keys count => input.expr :: count :: keys.map SortKey.expr
  | limit input count _ => [input, count]
  | distinct input | element input | isEmpty input => [input]
  | setOp _ left right | arith _ left right | compare _ left right | and left right | or left right => [left, right]
  | quantifier _ input predicate => [input.expr, predicate]
  | newCollection _ items => items
  | property owner _ => [owner]
  | call _ arguments => arguments
  | case branches otherwise => branches.flatMap (fun b => [b.1, b.2]) ++ otherwise.toList
  | cast operand _ | negate operand | not operand | isNull operand => [operand]
  | like operand pattern escape => operand :: pattern :: escape.toList
  | newRecord fields => fields.map Prod.snd
  | navigate source _ => [source]
  | typeTest _ operand _ | reference _ operand | lambda operand => [operand]

theorem sizeOf_lt_of_mem_children (h : c ∈ e.children) : sizeOf c < sizeOf e := by
  cases e <;> simp only [children] at h <;>
    grind [Binding.sizeOf_expr_lt, GroupBinding.sizeOf_expr_lt, SortKey.sizeOf_expr_lt,
      Aggregate.sizeOf_argument_lt, → sizeOf_snd_lt, → sizeOf_lt_of_mem]

/-- The expression lies below the other. -/
abbrev Within : Expr → Expr → Prop := Relation.TransGen fun c e => c ∈ e.children

theorem Within.sizeOf_lt (h : Within c e) : sizeOf c < sizeOf e := by
  induction h with
  | single hc => exact sizeOf_lt_of_mem_children hc
  | tail _ hc ih => exact ih.trans (sizeOf_lt_of_mem_children hc)

/-- Induction on what lies below an expression. -/
theorem within_induction {P : Expr → Prop} (step : ∀ e, (∀ c, Within c e → P c) → P e) (e : Expr) : P e := by
  induction hn : sizeOf e using Nat.strong_induction_on generalizing e with
  | _ n ih =>
    subst hn
    exact step e fun c hc => ih _ hc.sizeOf_lt c rfl

/-! ## Conditions on all sub-expressions -/

/-- The condition holds of the expression and of all its sub-expressions. -/
inductive All (p : Expr → Prop) : Expr → Prop
  | intro {e : Expr} : p e → (∀ c ∈ e.children, All p c) → All p e

theorem All.child (h : All p e) (hc : c ∈ e.children) : All p c := by
  cases h with | intro _ h => exact h c hc

theorem All.here (h : All p e) : p e := by
  cases h with | intro h _ => exact h

theorem All.imp {q : Expr → Prop} (h : All p e) (hpq : ∀ e, p e → q e) : All q e := by
  induction h with
  | intro h _ ih => exact .intro (hpq _ h) ih

theorem All.and {q : Expr → Prop} (hp : All p e) (hq : All q e) : All (fun e => p e ∧ q e) e := by
  induction hp with
  | intro h _ ih => exact .intro ⟨h, hq.here⟩ fun c hc => ih c hc (hq.child hc)

theorem All.within (h : All p e) (hc : Within c e) : All p c := by
  induction hc with
  | single hc => exact h.child hc
  | tail _ hd ih => exact ih (h.child hd)

/-! ## Leaves of disjunctions -/

/-- The expression is a disjunction with these leaves, each a key and what is filed under it. -/
inductive Splits : Expr → List (Term Expr) → Prop where
  | left {left right : Expr} (hl : left.isKey = true) : Splits (compare .eq left right) [⟨left, right⟩]
  | right {left right : Expr} (hl : ¬ left.isKey = true) (hr : right.isKey = true) :
    Splits (compare .eq left right) [⟨right, left⟩]
  | null {operand : Expr} (ho : operand.isKey = true) : Splits (isNull operand) [⟨operand, isNull operand⟩]
  | or {left right : Expr} {ls rs : List (Term Expr)} (hl : Splits left ls) (hr : Splits right rs) :
    Splits (or left right) (ls ++ rs)

theorem splits_of_terms? {terms : List (Term Expr)} (h : terms? e = some terms) : Splits e terms := by
  fun_induction terms? e generalizing terms with
  | case1 left right hl => cases h; exact .left hl
  | case2 left right hl hr => cases h; exact .right hl hr
  | case4 operand ho => cases h; exact .null ho
  | case6 left right ihl ihr =>
    simp only [Option.bind_eq_bind, Option.bind_eq_some_iff, Option.pure_def, Option.some.injEq] at h
    obtain ⟨ls, hls, rs, hrs, rfl⟩ := h
    exact .or (ihl hls) (ihr hrs)
  | case3 | case5 | case7 => cases h

/-- What goes from comparisons, null tests and disjunctions to their operands holds of the keys and values
of the leaves of a disjunction. -/
theorem forall_terms (hcompare : ∀ op left right, p (compare op left right) → p left ∧ p right)
    (hnull : ∀ operand, p (isNull operand) → p operand) (hor : ∀ left right, p (or left right) → p left ∧ p right)
    {terms : List (Term Expr)} (ht : Splits e terms) (h : p e) :
    ∀ t ∈ terms, p t.key ∧ p t.value := by
  induction ht with
  | left => exact forall_mem_singleton.2 (hcompare _ _ _ h)
  | right => exact forall_mem_singleton.2 (hcompare _ _ _ h).symm
  | null => exact forall_mem_singleton.2 ⟨hnull _ h, h⟩
  | or _ _ ihl ihr =>
    obtain ⟨hl, hr⟩ := hor _ _ h
    exact forall_mem_append.2 ⟨ihl hl, ihr hr⟩

/-- The keys and values of the leaves of a disjunction lie below it. -/
theorem within_of_terms? {left right : Expr} {terms : List (Term Expr)} (h : terms? (or left right) = some terms) :
    ∀ t ∈ terms, Within t.key (or left right) ∧ Within t.value (or left right) := by
  have hbelow : ∀ {c e}, Within e (or left right) → c ∈ e.children → Within c (or left right) := fun h hc => .head hc h
  have hside : ∀ {e ts}, Within e (or left right) → Splits e ts →
      ∀ t ∈ ts, Within t.key (or left right) ∧ Within t.value (or left right) := fun hw ht =>
    forall_terms (p := fun e => Within e (or left right))
      (fun _ _ _ h => ⟨hbelow h (by simp [children]), hbelow h (by simp [children])⟩)
      (fun _ h => hbelow h (by simp [children])) (fun _ _ h => ⟨hbelow h (by simp [children]), hbelow h (by simp [children])⟩) ht hw
  cases splits_of_terms? h with
  | or hl hr => exact forall_mem_append.2 ⟨hside (.single (by simp [children])) hl, hside (.single (by simp [children])) hr⟩

end Expr

end RelSql
