/-
Scalar text with holes. The steps for variables, members, operators and calls are uniform if those for
their operands are: they write the same parts around them in every wording, and a disjunction is
gathered under its keys in the same way.
-/
import RelSql.Proofs.Build.Templates
import RelSql.Proofs.Build.Values

namespace RelSql

open List Build

/-- The operand of a labelled expression, in a wording. -/
abbrev Expr.filled (config : Config) (e : Expr) (ρ : Wording) : Operand :=
  @toOperand ρ.watch config (e.reword ρ)

/-- The text of the labelled expression is a template. -/
def Expr.Templated (config : Config) (e : Expr) : Prop :=
  Uniform Fragment.Template.fill fun ρ => @build ρ.watch config (e.reword ρ)

namespace Build

variable {config : Config} {e left right : Expr}

/-! ## Variables and members -/

theorem fixed_markOuter (extent : SymbolId) (path : List StatementId) : Fixed fun _ => markOuter extent path := by
  induction path with
  | nil => exact uniform_pure () fun _ => rfl
  | cons i rest ih =>
    unfold markOuter
    refine uniform_statement.bind fun s => ?_
    change Fixed fun _ => if s.base.hasFromExtent extent then _ else _
    refine .ite (uniform_pure () fun _ => rfl) ((fixed_updateBase fun ρ s => ?_).bind fun _ => ih)
    by_cases h : extent ∈ s.base.outerExtents <;>
      simp [Statement.addOuterExtent, Statement.Template.fill, h]

/-- A variable is found under every spelling of its name. -/
theorem uniform_rowVariable (name : String) : UniformText fun ρ => rowVariable (ρ.name name) := by
  refine uniform_get.bind fun c => ?_
  dsimp only
  change Uniform _ fun ρ => if c.base.pendingVariable then _ else _
  refine .ite (uniform_throw _ fun _ => rfl) ((fixed_setPending true).bind fun _ => ?_)
  have hlookup : ∀ ρ : Wording, (c.fill ρ).scopes.lookup? (ρ.name name) = c.base.scopes.lookup? name := by
    intro ρ
    change c.base.scopes.lookup? (ρ.name name) = _
    unfold Scopes.lookup?
    rw [ρ.key_name]
  simp only [hlookup]
  cases c.base.scopes.lookup? name with
  | none => exact .of_eq (throw (.badArgument (.unboundVariable name))) fun _ _ => rfl
  | some extent =>
    exact fixed_current.bind fun _ => (fixed_markOuter extent _).bind fun _ => uniform_pure (.symbol extent) fun _ => rfl

theorem uniform_visit (name : String) : UniformText fun ρ => ρ.watch.visit (ρ.name name) := by
  obtain ⟨step, hstep⟩ := uniform_rowVariable name
  refine ⟨step, fun ρ c => ?_⟩
  by_cases hρ : ρ.watch.visit = rowVariable
  · left
    beta_reduce
    rw [hρ]
    exact (hstep ρ c).resolve_right fun h => h.1 hρ
  · unfold StateT.run
    rcases ρ.visit_eq (ρ.name name) (c.fill ρ) with h | h <;> beta_reduce <;> rw [h]
    · exact hstep ρ c
    · exact .inr ⟨hρ, rfl⟩

theorem fixed_joinInputNamed (join : JoinInfo) (name : String) : Fixed fun _ => joinInputNamed join name := by
  refine uniform_get.bind fun c => ?_
  have hnames : ∀ ρ, (c.fill ρ).names = c.base.names := fun _ => rfl
  simp only [hnames]
  cases c.base.names.symbols.joinInput? join name with
  | none => exact uniform_throw _ fun _ => rfl
  | some extent => exact uniform_pure extent fun _ => rfl

theorem uniform_memberOfSymbol (extent : SymbolId) (name : String) :
    UniformText fun _ => memberOfSymbol extent name := by
  refine (fixed_symbol extent).bind fun s => ?_
  cases s.join with
  | none => exact uniform_pure (.parts [.symbol extent, .text ".", .text name]) fun _ => rfl
  | some join =>
    refine (fixed_joinInputNamed join name).bind fun inner => ?_
    exact uniform_pure (if join.nested then .nested extent inner else .symbol inner) fun ρ => by split <;> rfl

theorem uniform_memberOfNested (source inner : SymbolId) (name : String) :
    UniformText fun _ => memberOfNested source inner name := by
  refine (fixed_symbol inner).bind fun s => ?_
  cases s.join with
  | some join =>
    exact (fixed_joinInputNamed join name).bind fun input => uniform_pure (.nested source input) fun _ => rfl
  | none =>
    cases s.column? name with
    | none => exact uniform_pure (.parts [.symbol source, .text ".", .text name]) fun _ => rfl
    | some c => exact uniform_pure (.parts [.symbol source, .text ".", .symbol c]) fun _ => rfl

theorem uniform_member (h : e.Templated config) (name : String) :
    UniformText fun ρ => member (e.filled config ρ) name := by
  have hrest : ∀ t : Fragment.Template, UniformText fun ρ => memberOf name (t.fill ρ) := by
    intro t
    cases t with
    | symbol extent => exact uniform_memberOfSymbol extent name
    | nested source inner => exact uniform_memberOfNested source inner name
    | parts ps =>
      refine uniform_pure (.parts [.group ps, .text ".", .text name]) fun ρ => ?_
      simp [Fragment.toPart]
    | statement i => exact uniform_pure (.parts [.statement i, .text ".", .text name]) fun _ => rfl
  simp only [member_eq]
  refine h.bind fun t => ?_
  simp only [Expr.toOperand, Expr.isVariable_reword]
  exact .ite ((fixed_setPending false).bind fun _ => hrest t) (hrest t)

/-! ## Operators and calls -/

theorem uniform_constant (value : Constant) : UniformText fun ρ => constant (value.mapString ρ.string) := by
  have hlift : ∀ {x : Except Error String}, (∀ ρ e, x = .error e → e.reword ρ = e) →
      UniformText fun _ => (liftM x : BuildM String) >>= fun s => pure (Fragment.text s) :=
    fun h => (uniform_lift h).bind fun text => uniform_pure (.parts [.text text]) fun _ => rfl
  have hfloat : ∀ {format width bits} (ρ : Wording) e, Literal.ofFloat format width bits = .error e → e.reword ρ = e := by
    intro format width bits ρ e h
    unfold Literal.ofFloat at h
    split at h <;> cases h <;> rfl
  cases value with
  | string s =>
    change Uniform _ fun ρ => pure (Fragment.text (Quoted.quote (ρ.string s)))
    exact uniform_pure (.parts [.literal s]) fun _ => rfl
  | double _ | single _ => exact hlift hfloat
  | _ => exact hlift fun _ _ h => by cases h <;> rfl

theorem uniform_call (function : Function) {arguments : List Expr} (h : ∀ a ∈ arguments, a.Templated config) :
    UniformText fun ρ => call function (arguments.map fun a => a.filled config ρ) := by
  unfold call
  refine .ite ?_ ?_
  · simp only [isEmpty_map]
    exact .ite (uniform_pure (.parts [.text function.qualifiedName]) fun _ => rfl) (uniform_throw _ fun _ => rfl)
  · refine (uniform_mapM (o := fun ρ (a : Expr) => a.filled config ρ) (k := Operand.build) h).bind fun ts => ?_
    refine uniform_pure (.parts ([.text function.qualifiedName, .text "("] ++
      ([Part.Template.text ", "].intercalate (ts.map fun t => [t.toPart]) ++ [.text ")"]))) fun ρ => ?_
    simp [Modification.map_intercalate, Function.comp_def]

theorem uniform_optionalParts (keyword : String) {o : Option Expr} (h : ∀ e ∈ o, e.Templated config) :
    UniformParts fun ρ => optionalParts keyword (o.map fun e => e.filled config ρ) := by
  cases o with
  | none => exact uniform_pure [] fun _ => rfl
  | some e =>
    simp only [Option.map_some, optionalParts, Expr.toOperand, Expr.isNullLiteral_reword]
    refine .ite (uniform_pure [] fun _ => rfl) ((h e rfl).bind fun t => ?_)
    exact uniform_pure [.text keyword, t.toPart] (by simp)

theorem uniform_caseBranch {branch : Expr × Expr} (hc : branch.1.Templated config) (hv : branch.2.Templated config) :
    UniformParts fun ρ => caseBranch (branch.1.filled config ρ, branch.2.filled config ρ) :=
  hc.bind fun c => hv.bind fun v =>
    uniform_pure [.text " WHEN (", c.toPart, .text ") THEN ", v.toPart] (by simp)

theorem uniform_caseOf {branches : List (Expr × Expr)} {otherwise : Option Expr}
    (hb : ∀ b ∈ branches, b.1.Templated config ∧ b.2.Templated config) (ho : ∀ e ∈ otherwise, e.Templated config) :
    UniformText fun ρ => caseOf (branches.map fun b => (b.1.filled config ρ, b.2.filled config ρ))
        (otherwise.map fun e => e.filled config ρ) := by
  refine (uniform_mapM fun b hm => uniform_caseBranch (hb b hm).1 (hb b hm).2).bind fun bs => ?_
  refine (uniform_optionalParts _ ho).bind fun rest => ?_
  exact uniform_pure (.parts ([.text "CASE"] ++ bs.flatten ++ rest ++ [.text " END"])) fun ρ => by
    simp [map_flatten]

theorem uniform_negate (h : e.Templated config) : UniformText fun ρ => negate (e.filled config ρ) :=
  h.bind fun t => uniform_pure (.parts [.text "-(", t.toPart, .text ")"]) (by simp)

theorem uniform_like {pattern : Expr} {escape : Option Expr} (h : e.Templated config) (hp : pattern.Templated config)
    (he : ∀ o ∈ escape, o.Templated config) : UniformText fun ρ =>
      like (e.filled config ρ) (pattern.filled config ρ) (escape.map fun o => o.filled config ρ) :=
  h.bind fun t => hp.bind fun p => (uniform_optionalParts _ he).bind fun rest =>
    uniform_pure (.parts ([t.toPart, .text " LIKE ", p.toPart] ++ rest)) (by simp)

theorem uniform_nullTest (negated : Bool) (h : e.Templated config) :
    UniformText fun ρ => nullTest negated (e.filled config ρ) :=
  h.bind fun t =>
    uniform_pure (.parts [t.toPart, .text (if negated then " IS NOT NULL" else " IS NULL")]) (by simp)

theorem uniform_negation (h : e.Templated config) : UniformText fun ρ => negation (e.filled config ρ) :=
  h.bind fun t => uniform_pure (.parts [.text "NOT (", t.toPart, .text ")"]) (by simp)

theorem uniform_parenthesized (h : e.Templated config) :
    Uniform Part.Template.fill fun ρ => parenthesized (e.filled config ρ) := by
  refine h.bind fun t => ?_
  simp only [Expr.toOperand, Expr.needsParentheses_reword]
  exact .ite (uniform_pure (.group [.text "(", t.toPart, .text ")"]) (by simp))
    (uniform_pure (.group [t.toPart]) (by simp))

theorem uniform_binary (op : String) (hl : left.Templated config) (hr : right.Templated config) :
    UniformText fun ρ => binary op (left.filled config ρ) (right.filled config ρ) :=
  (uniform_parenthesized hl).bind fun l => (uniform_parenthesized hr).bind fun r =>
    uniform_pure (.parts [l, .text op, r]) fun _ => rfl

/-! ## Membership -/

theorem uniform_valueTest {key : Expr} {values : List Expr} (hk : key.Templated config)
    (hv : ∀ v ∈ values, v.Templated config) : UniformParts fun ρ =>
      valueTest (key.filled config ρ) (values.map fun v => v.filled config ρ) := by
  match values with
  | [] => exact uniform_pure [] fun _ => rfl
  | [value] =>
    refine (uniform_parenthesized hk).bind fun k => (uniform_parenthesized (hv value (by simp))).bind fun v => ?_
    exact uniform_pure [k, .text " = ", v] fun _ => rfl
  | first :: second :: rest =>
    refine (uniform_parenthesized hk).bind fun k => ?_
    refine (uniform_mapM (o := fun ρ v => v.filled config ρ) fun v hm => uniform_parenthesized (hv v hm)).bind fun vs => ?_
    refine uniform_pure ([k, .text " IN ("] ++ [Part.Template.text ","].intercalate (vs.map fun v => [v]) ++ [.text ")"])
      fun ρ => ?_
    simp [Modification.map_intercalate, Function.comp_def]

theorem uniform_keyTest {key : Expr} {values : List Expr} (hk : key.Templated config)
    (hv : ∀ v ∈ values, v.Templated config) : UniformParts fun ρ =>
      keyTest (key.filled config ρ, values.map fun v => v.filled config ρ) := by
  have hfilter : ∀ ρ, (values.map fun v => v.filled config ρ).filter (!·.expr.isNullTest) =
      (values.filter (!·.isNullTest)).map fun v => v.filled config ρ := by
    intro ρ
    rw [filter_map]
    simp [Function.comp_def, Expr.toOperand]
  have hfind : ∀ ρ, (values.map fun v => v.filled config ρ).find? (·.expr.isNullTest) =
      (values.find? (·.isNullTest)).map fun v => v.filled config ρ := by
    intro ρ
    rw [find?_map]
    simp [Expr.toOperand]
  unfold keyTest
  simp only [hfilter, hfind]
  refine (uniform_valueTest hk fun v hm => hv v (mem_of_mem_filter hm)).bind fun tested => ?_
  cases hf : values.find? (·.isNullTest) with
  | none => exact uniform_pure tested fun _ => rfl
  | some test =>
    refine (hv test (mem_of_find?_eq_some hf)).bind fun t => ?_
    refine uniform_pure ((if tested.isEmpty then [] else tested ++ [.text " OR "]) ++ [t.toPart]) fun ρ => ?_
    rw [isEmpty_map]
    split <;> simp

theorem uniform_membership {groups : KeyedLists Expr Expr}
    (h : ∀ g ∈ groups, g.1.Templated config ∧ ∀ v ∈ g.2, v.Templated config) : UniformText fun ρ =>
      membership (groups.map fun g => (g.1.filled config ρ, g.2.map fun v => v.filled config ρ)) := by
  have hcount : ∀ ρ, Expr.disjunctCount Operand.expr
      (groups.map fun g => (g.1.filled config ρ, g.2.map fun v => v.filled config ρ)) = Expr.disjunctCount id groups := by
    intro ρ
    simp [Expr.disjunctCount, foldr_map, Expr.disjunctsOf, Expr.toOperand]
  unfold membership
  simp only [hcount]
  refine (uniform_mapM (o := fun ρ (g : Expr × List Expr) => (g.1.filled config ρ, g.2.map fun v => v.filled config ρ))
    fun g hm => uniform_keyTest (h g hm).1 (h g hm).2).bind fun tests => ?_
  refine uniform_pure (.parts (
    let body := [Part.Template.text " OR "].intercalate tests
    if Expr.disjunctCount id groups > 1 then [.text "("] ++ body ++ [.text ")"] else body)) fun ρ => ?_
  split <;> simp [Modification.map_intercalate, *]

end Build

end RelSql
