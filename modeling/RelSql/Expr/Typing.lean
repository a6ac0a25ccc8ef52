/-
The type of the value that an expression produces. Relational nodes produce collections; a member
that the type of its owner does not list counts as text.
-/
import RelSql.Expr.Basic

namespace RelSql

/-- The row that a join produces: one member for each input, named after its variable. -/
def joinedRow (inputs : List (Binding Expr)) : DataType :=
  .row (inputs.map fun b => (b.var, b.type))

def memberType (owner : DataType) (name : String) : DataType :=
  match owner.member? name with
  | some m => m.2
  | none => .string

namespace Expr

mutual

def type : Expr → DataType
  | scan set => .collection set.elementType
  | filter input _ => type input.expr
  | sort input _ => type input.expr
  | skip input _ _ => type input.expr
  | limit input _ _ => type input
  | distinct input => type input
  | project _ projection => .collection (type projection)
  | join _ left right _ => .collection (joinedRow [left, right])
  | crossJoin inputs => .collection (joinedRow inputs)
  | apply _ input applied => .collection (joinedRow [input, applied])
  | groupBy _ keys aggregates =>
    .collection (.row (namedTypes keys ++
      aggregates.map fun a => (a.1, a.2.function.returnType)))
  | setOp _ left _ => type left
  | element input => (type input).element
  | newCollection elementType _ => .collection elementType
  | isEmpty _ | quantifier .. | compare .. | and .. | or .. | not _ | isNull _ | like .. =>
    .boolean
  | constant value => .scalar value.kind
  | null ty => ty
  | var _ ty => ty
  | parameter _ ty => ty
  | cast _ ty => ty
  | property owner name => memberType (type owner) name
  | call function _ => function.returnType
  | case ((_, value) :: _) _ => type value
  | case [] (some otherwise) => type otherwise
  | case [] none => .boolean
  | arith _ left _ => type left
  | negate operand => type operand
  | newRecord fields => .row (namedTypes fields)
  | typeTest test _ ty =>
    match test with
    | .isOf | .isOfOnly => .boolean
    | .ofType | .ofTypeOnly => .collection ty
    | .treat => ty
  | navigate .. | reference .. | lambda _ => .emptyRow

def namedTypes : List (String × Expr) → List (String × DataType)
  | [] => []
  | (name, e) :: rest => (name, type e) :: namedTypes rest

end

theorem namedTypes_eq_map (fields : List (String × Expr)) :
    namedTypes fields = fields.map fun f => (f.1, type f.2) := by
  induction fields with
  | nil => rfl
  | cons f rest ih => simp [namedTypes, ih]

/-- The type of one row of a relational expression. -/
def rowType (e : Expr) : DataType := e.type.element

/-- The rows of `e` bound to a variable. -/
def bind (e : Expr) (var : String) : Binding Expr := ⟨e, var, e.rowType⟩

def bindGroup (e : Expr) (var groupVar : String) : GroupBinding Expr :=
  ⟨e, var, e.rowType, groupVar⟩

end Expr

end RelSql
