/-
The text of an expression, by recursion on it: every node turns its sub-expressions into operands
and hands them to the construct that it is.
-/
import RelSql.Config
import RelSql.Query.Grouping
import RelSql.Query.Joins
import RelSql.Query.Values

namespace RelSql

/-- The binding with something else in the place of its input. -/
def Binding.with {α β : Type} (b : Binding α) (x : β) : Binding β := ⟨x, b.var, b.type⟩

def GroupBinding.with {α β : Type} (b : GroupBinding α) (x : β) : GroupBinding β :=
  ⟨x, b.var, b.type, b.groupVar⟩

def SortKey.with {α β : Type} (k : SortKey α) (x : β) : SortKey β := ⟨x, k.ascending, k.collation⟩

def Aggregate.with {α β : Type} (a : Aggregate α) (x : β) : Aggregate β :=
  ⟨a.function, a.distinct, x⟩

/-- The statement that a step builds, as a fragment. -/
def Build.asFragment (step : BuildM StatementId) : BuildM Fragment := do
  return .statement (← step)

namespace Build

/-- A scan stands by its source inside a join, and has a statement of its own anywhere else. -/
def scan (set : EntitySet) : BuildM Fragment := do
  if ← parentTakesIn then return .text set.source
  else return .statement (← newStatement { fromList := [.text set.source] })

end Build

/-- The step by which a variable is visited. That of the compiler is `rowVariable`; another one can watch it. -/
class Variables where
  visit : String → BuildM Fragment

instance : Variables := ⟨Build.rowVariable⟩

namespace Expr

open Build (asFragment)

variable [Variables] (config : Config)

mutual

/-- Builds the text of an expression. -/
def build : Expr → BuildM Fragment
  | scan set => Build.scan set
  | filter input predicate =>
    asFragment <| Build.filter false (input.with ⟨input.expr, build input.expr⟩)
      ⟨predicate, build predicate⟩
  | project input (newRecord fields) =>
    asFragment <| Build.projectRecord (input.with ⟨input.expr, build input.expr⟩)
      (namedOperands fields)
  | project input projection =>
    asFragment <| Build.projectValue (input.with ⟨input.expr, build input.expr⟩)
      ⟨projection, build projection⟩
  | join kind left right condition =>
    asFragment <| Build.joined kind.keyword
      [left.with ⟨left.expr, build left.expr⟩, right.with ⟨right.expr, build right.expr⟩]
      (some ⟨condition, build condition⟩)
  | crossJoin inputs => asFragment <| Build.joined "CROSS JOIN" (bindingOperands inputs) none
  | apply .. => throw (.unsupported .apply)
  | groupBy input keys aggregates =>
    asFragment <| Build.group (input.with ⟨input.expr, build input.expr⟩) (namedOperands keys)
      (aggregateOperands aggregates)
  | sort input keys =>
    asFragment <| Build.sort (input.with ⟨input.expr, build input.expr⟩) (keyOperands keys)
  | skip input keys count =>
    asFragment <| Build.skip (input.with ⟨input.expr, build input.expr⟩) (keyOperands keys)
      ⟨count, build count⟩
  | limit input count withTies =>
    asFragment <| Build.limit withTies ⟨input, build input⟩ ⟨count, build count⟩
  | distinct input => asFragment <| Build.distinct ⟨input, build input⟩
  | setOp op left right => Build.setOperation op ⟨left, build left⟩ ⟨right, build right⟩
  | element input => Build.element ⟨input, build input⟩
  | isEmpty input => Build.emptiness false ⟨input, build input⟩
  | quantifier q input predicate =>
    Build.quantified q (input.with ⟨input.expr, build input.expr⟩) ⟨predicate, build predicate⟩
  | newCollection _ [element input] => asFragment <| Build.singleton ⟨input, build input⟩
  | newCollection elementType items => Build.collection elementType (operands items)
  | constant value => Build.constant value
  | null _ => pure (.text "NULL")
  | property owner name => Build.member ⟨owner, build owner⟩ name
  | var name _ => Variables.visit name
  | parameter name _ => pure (.text (config.parameterName name))
  | call function arguments => Build.call function (operands arguments)
  | case branches otherwise =>
    Build.caseOf (branchOperands branches) (optionalOperand otherwise)
  | cast operand _ => build operand
  | arith op left right =>
    Build.binary (" " ++ op.text ++ " ") ⟨left, build left⟩ ⟨right, build right⟩
  | negate operand => Build.negate ⟨operand, build operand⟩
  | compare op left right =>
    Build.binary (" " ++ op.text ++ " ") ⟨left, build left⟩ ⟨right, build right⟩
  | and left right => Build.binary " AND " ⟨left, build left⟩ ⟨right, build right⟩
  | or left right =>
    if (gathered? (or left right)).isSome then
      Build.membership (gather Operand.expr (termOperands left ++ termOperands right))
    else Build.binary " OR " ⟨left, build left⟩ ⟨right, build right⟩
  | not (not operand) => build operand
  | not (isEmpty input) => Build.emptiness true ⟨input, build input⟩
  | not (isNull operand) => Build.nullTest true ⟨operand, build operand⟩
  | not (compare .eq left right) =>
    Build.binary " <> " ⟨left, build left⟩ ⟨right, build right⟩
  | not operand => Build.negation ⟨operand, build operand⟩
  | isNull operand => Build.nullTest false ⟨operand, build operand⟩
  | like operand pattern escape =>
    Build.like ⟨operand, build operand⟩ ⟨pattern, build pattern⟩ (optionalOperand escape)
  | newRecord _ => throw (.unsupported .recordOutsideProjection)
  | navigate _ relationship => throw (.unsupported (.navigation relationship))
  | typeTest test .. => throw (.unsupported (.typeTest test))
  | reference op _ => throw (.unsupported (.reference op))
  | lambda _ => throw (.unsupported .lambda)

def operands : List Expr → List Operand
  | [] => []
  | e :: rest => ⟨e, build e⟩ :: operands rest

def optionalOperand : Option Expr → Option Operand
  | none => none
  | some e => some ⟨e, build e⟩

def namedOperands : List (String × Expr) → List (String × Operand)
  | [] => []
  | (name, e) :: rest => (name, ⟨e, build e⟩) :: namedOperands rest

def bindingOperands : List (Binding Expr) → List (Binding Operand)
  | [] => []
  | b :: rest => b.with ⟨b.expr, build b.expr⟩ :: bindingOperands rest

def keyOperands : List (SortKey Expr) → List (SortKey Operand)
  | [] => []
  | k :: rest => k.with ⟨k.expr, build k.expr⟩ :: keyOperands rest

def aggregateOperands : List (String × Aggregate Expr) → List (String × Aggregate Operand)
  | [] => []
  | (name, a) :: rest =>
    (name, a.with ⟨a.argument, build a.argument⟩) :: aggregateOperands rest

def branchOperands : List (Expr × Expr) → List (Operand × Operand)
  | [] => []
  | (condition, value) :: rest =>
    (⟨condition, build condition⟩, ⟨value, build value⟩) :: branchOperands rest

/-- The leaves of a disjunction that has only leaves with keys, as `terms?` finds them. -/
def termOperands : Expr → List (Term Operand)
  | compare _ left right =>
    if isKey left then [⟨⟨left, build left⟩, ⟨right, build right⟩⟩]
    else [⟨⟨right, build right⟩, ⟨left, build left⟩⟩]
  | isNull operand =>
    [⟨⟨operand, build operand⟩,
      ⟨isNull operand, Build.nullTest false ⟨operand, build operand⟩⟩⟩]
  | or left right => termOperands left ++ termOperands right
  | _ => []

end

/-- An expression with the step that builds it. -/
def toOperand (e : Expr) : Operand := ⟨e, e.build config⟩

/-! ## Operands, list by list -/

theorem operands_eq_map (es : List Expr) : operands config es = es.map (toOperand config) := by
  induction es with
  | nil => rfl
  | cons e rest ih => simp [operands, ih, toOperand]

theorem optionalOperand_eq_map (e : Option Expr) :
    optionalOperand config e = e.map (toOperand config) := by
  cases e <;> rfl

theorem namedOperands_eq_map (fields : List (String × Expr)) :
    namedOperands config fields = fields.map fun f => (f.1, toOperand config f.2) := by
  induction fields with
  | nil => rfl
  | cons f rest ih => simp [namedOperands, ih, toOperand]

theorem bindingOperands_eq_map (inputs : List (Binding Expr)) :
    bindingOperands config inputs = inputs.map fun b => b.with (toOperand config b.expr) := by
  induction inputs with
  | nil => rfl
  | cons b rest ih => simp [bindingOperands, ih, toOperand]

theorem keyOperands_eq_map (keys : List (SortKey Expr)) :
    keyOperands config keys = keys.map fun k => k.with (toOperand config k.expr) := by
  induction keys with
  | nil => rfl
  | cons k rest ih => simp [keyOperands, ih, toOperand]

theorem aggregateOperands_eq_map (aggregates : List (String × Aggregate Expr)) :
    aggregateOperands config aggregates =
      aggregates.map fun a => (a.1, a.2.with (toOperand config a.2.argument)) := by
  induction aggregates with
  | nil => rfl
  | cons a rest ih => simp [aggregateOperands, ih, toOperand]

theorem branchOperands_eq_map (branches : List (Expr × Expr)) :
    branchOperands config branches =
      branches.map fun b => (toOperand config b.1, toOperand config b.2) := by
  induction branches with
  | nil => rfl
  | cons b rest ih => simp [branchOperands, ih, toOperand]

/-- The leaves with their steps are the leaves that `terms?` finds. -/
theorem termOperands_of_terms? {e : Expr} {terms : List (Term Expr)} (h : terms? e = some terms) :
    termOperands config e = terms.map fun t => ⟨toOperand config t.key, toOperand config t.value⟩ := by
  fun_induction terms? e generalizing terms with
  | case1 left right hl => cases h; simp [termOperands, toOperand, hl]
  | case2 left right hl hr => cases h; simp [termOperands, toOperand, hl]
  | case3 => cases h
  | case4 operand ho => cases h; simp [termOperands, toOperand, build]
  | case5 => cases h
  | case6 left right ihl ihr =>
    simp only [Option.bind_eq_bind, Option.bind_eq_some_iff, Option.pure_def,
      Option.some.injEq] at h
    obtain ⟨ls, hls, rs, hrs, rfl⟩ := h
    simp [termOperands, ihl hls, ihr hrs]
  | case7 => cases h

end Expr

end RelSql
