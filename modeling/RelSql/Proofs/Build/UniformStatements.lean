/-
Statements with holes. Which statement an operator is written into, what it selects and which names it
needs are decided by the clauses that are there and by the types of expressions, so the steps that make
statements are uniform if those for their operands are.
-/
import RelSql.Proofs.Build.Extents
import RelSql.Proofs.Build.UniformValues

namespace RelSql

open RelSql.Part Statement List Build

namespace Statement.Template

variable (ρ : Wording) (s : Statement.Template)

theorem fromExtents_fill : (s.fill ρ).fromExtents = s.base.fromExtents := rfl

@[simp] theorem isEmpty_selectList_fill : (s.fill ρ).selectList.isEmpty = s.selectList.isEmpty := isEmpty_map

/-- What operators a statement takes depends on which of its clauses are there. -/
theorem accepts_fill (op : Operator) : (s.fill ρ).accepts op = (s.fill .plain).accepts op := by
  cases op <;> simp [accepts, fill]

theorem isOrderedOrCut_fill : (s.fill ρ).isOrderedOrCut = (s.fill .plain).isOrderedOrCut := by
  simp [isOrderedOrCut, fill]

end Statement.Template

namespace Build

variable {config : Config} {e : Expr} {i : StatementId}

/-! ## Extents -/

theorem fixed_declareExtent (extent : SymbolId) : Fixed fun _ => declareExtent i extent := by
  refine uniform_statement.bind fun s => ?_
  change Fixed fun _ => if s.base.fromExtents.head? != some extent then _ else _
  split
  · refine (fixed_updateStatement (fun s =>
      { s with
        base := { s.base with fromExtents := s.base.fromExtents ++ [extent] }
        fromList := s.fromList ++ [.text " AS ", .symbol extent] }) fun ρ s => ?_).bind fun _ => ?_
    · simp [Statement.Template.fill]
    · exact (fixed_symbol extent).bind fun s => fixed_registerExtent s.name
  · exact uniform_pure () fun _ => rfl

theorem fixed_starColumns (extent : SymbolId) : Fixed fun _ => starColumns extent := by
  refine (fixed_symbol extent).bind fun s => ?_
  cases s.join with
  | some join => exact uniform_pure _ fun _ => rfl
  | none =>
    refine fixed_mapM (fun name => ?_) _
    exact (fixed_registerColumn name).bind fun _ => (fixed_columnOf extent name).bind fun _ => uniform_pure _ fun _ => rfl

theorem fixed_addOutput (columns : List OutputColumn) : Fixed fun _ => addOutput i columns :=
  fixed_updateBase fun _ _ => rfl

theorem fixed_selectAll : Fixed fun _ => selectAll i := by
  refine uniform_get.bind fun c => uniform_statement.bind fun s => ?_
  change Fixed fun _ => (s.base.fromExtents.flatMap c.base.names.symbols.leaves).mapM starColumns >>= _
  refine (fixed_mapM fixed_starColumns _).bind fun stars => ?_
  dsimp only
  split
  · exact uniform_throw _ fun _ => rfl
  · refine (fixed_appendSelect (asTemplates _) fun ρ => (map_fill_asTemplates ρ _).symm).bind fun _ => ?_
    refine (fixed_addOutput _).bind fun _ => ?_
    exact (fixed_of_frame fun _ _ _ => rfl).bind fun _ => uniform_pure _ fun _ => rfl

theorem fixed_selectAllIfNone : Fixed fun _ => selectAllIfNone i := by
  refine uniform_statement.bind fun s => ?_
  simp only [Statement.Template.isEmpty_selectList_fill]
  split
  · exact fixed_selectAll.bind fun _ => uniform_pure () fun _ => rfl
  · exact uniform_pure () fun _ => rfl

/-! ## Subselects -/

theorem fixed_nestedJoin? (columns : List SymbolId) : Fixed fun _ => nestedJoin? i columns := by
  refine uniform_statement.bind fun s => ?_
  simp only [Statement.Template.fromExtents_fill]
  cases s.base.fromExtents with
  | nil => exact uniform_pure none fun _ => rfl
  | cons first _ =>
    refine (fixed_symbol first).bind fun x => ?_
    cases x.join with
    | none => exact uniform_pure none fun _ => rfl
    | some join => exact uniform_pure _ fun _ => rfl

theorem fixed_newExtent (name : String) (type : DataType) (join : Option JoinInfo) :
    Fixed fun _ => newExtent name type join := by
  cases join with
  | none | some join => exact fixed_newSymbol _

theorem fixed_subselect (name : String) (type : DataType) (complete : Bool) :
    Fixed fun _ => subselect i name type complete := by
  have hrest : ∀ join, Fixed fun _ => do
      let extent ← newExtent name type join
      let outer ← newStatement { fromList := [.text "(", .statement i, .text ")"] }
      return (outer, extent) := by
    intro join
    refine (fixed_newExtent name type join).bind fun extent => ?_
    refine (fixed_newStatement { fromList := [.text "(", .statement i, .text ")"] }).bind fun outer => ?_
    exact uniform_pure _ fun _ => rfl
  refine uniform_statement.bind fun s => ?_
  simp only [Statement.Template.isEmpty_selectList_fill]
  split
  · exact fixed_selectAll.bind fun columns => (fixed_nestedJoin? columns).bind hrest
  · exact hrest none

/-- The source of an input as a template. -/
def sourceTemplate (isCall : Bool) (t : Fragment.Template) : List Part.Template :=
  if isCall then [t.toPart] else [.text "(", t.toPart, .text ")"]

theorem sourceParts_fill (ρ : Wording) (isCall : Bool) (t : Fragment.Template) :
    sourceParts isCall (t.fill ρ) = (sourceTemplate isCall t).map (Part.Template.fill ρ) := by
  cases isCall <;> simp [sourceParts, sourceTemplate]

theorem fixed_variableExtent (name : String) (type : DataType) : Fixed fun _ => variableExtent name type i := by
  refine uniform_statement.bind fun s => ?_
  simp only [Statement.Template.fromExtents_fill]
  rcases s.base.fromExtents with _ | ⟨first, _ | ⟨second, rest⟩⟩
  · exact (fixed_newSymbol _).bind fun _ => uniform_pure _ fun _ => rfl
  · exact uniform_pure _ fun _ => rfl
  · let join : JoinInfo := { extents := first :: second :: rest, flattened := s.base.joinExtents.getD [] }
    refine (fixed_newSymbol (.joined name type join)).bind fun extent => ?_
    refine Uniform.bind (f := fun _ a => a) ?_ fun _ => uniform_pure (i, extent) fun _ => rfl
    exact fixed_updateBase fun _ _ => rfl

theorem fixed_input (h : e.Templated config) (name : String) (type : DataType) :
    Fixed fun ρ => input (e.filled config ρ) name type := by
  have hsource : ∀ t : Fragment.Template, Fixed fun ρ =>
      newStatement { fromList := sourceParts (e.filled config ρ).expr.isCall (t.fill ρ) } := by
    intro t
    simpa [Statement.Template.fill, sourceParts_fill, Expr.toOperand] using
      fixed_newStatement { fromList := sourceTemplate e.isCall t }
  simp only [input_eq]
  refine Uniform.bind (f := fun _ i => i) (h.bind fun t => ?_) fun i => fixed_variableExtent name type
  cases t with
  | statement i => exact uniform_pure i fun _ => rfl
  | parts ps => exact hsource (.parts ps)
  | symbol x => exact hsource (.symbol x)
  | nested x y => exact hsource (.nested x y)

theorem fixed_inputFor (op : Operator) (h : e.Templated config) (name : String) (type : DataType) :
    Fixed fun ρ => inputFor op (e.filled config ρ) name type := by
  refine (fixed_input h name type).bind fun p => uniform_statement.bind fun s => ?_
  simp only [Statement.Template.accepts_fill]
  split
  · exact uniform_pure _ fun _ => rfl
  · exact fixed_subselect name type true

theorem fixed_wrapUnless (op : Operator) (name : String) (type : DataType) : Fixed fun _ => wrapUnless op name type i := by
  refine uniform_statement.bind fun s => ?_
  simp only [Statement.Template.accepts_fill]
  split
  · exact uniform_pure _ fun _ => rfl
  · exact (fixed_subselect name type true).bind fun p => (fixed_declareExtent p.2).bind fun _ => uniform_pure _ fun _ => rfl

theorem fixed_expectStatement (t : Fragment.Template) : Fixed fun ρ => expectStatement (t.fill ρ) := by
  cases t with
  | statement i => exact uniform_pure i fun _ => rfl
  | parts _ | symbol _ | nested _ _ => exact uniform_throw _ fun _ => rfl

theorem fixed_asStatement (h : e.Templated config) (complete : Bool) :
    Fixed fun ρ => asStatement (e.filled config ρ) complete := by
  have hrest : ∀ i, Fixed fun _ => do
      if complete then selectAllIfNone i
      return i := by
    intro i
    cases complete with
    | false => exact uniform_pure i fun _ => rfl
    | true => exact fixed_selectAllIfNone.bind fun _ => uniform_pure i fun _ => rfl
  unfold asStatement
  simp only [Expr.toOperand, Expr.declaresExtent_reword, Expr.rowType_reword]
  split
  · exact h.bind fun t => (fixed_expectStatement t).bind hrest
  · refine Uniform.bind (f := fun _ a => a) (.inScope ?_) hrest
    exact (fixed_input h _ _).bind fun p => (fixed_declareExtent p.2).bind fun _ =>
      (fixed_bindVariable _ _).bind fun _ => uniform_pure p.1 fun _ => rfl

/-! ## Operators -/

theorem uniform_overRows {τ α : Type} {f : Wording → τ → α} {body : Wording → BuildM α}
    (op : Operator) {input : Binding Expr} (hi : input.expr.Templated config) (hb : Uniform f body) :
    Uniform (fun ρ (p : StatementId × τ) => (p.1, f ρ p.2)) fun ρ =>
      overRows op (input.with (input.expr.filled config ρ)) (body ρ) := by
  refine (fixed_inputFor op hi _ _).bind fun p => Uniform.bind (f := f) (.within (.inScope ?_)) fun a => ?_
  · exact (fixed_declareExtent p.2).bind fun _ => (fixed_bindVariable _ _).bind fun _ => hb
  · exact uniform_pure (p.1, a) fun _ => rfl

theorem fixed_filter (negated : Bool) {input : Binding Expr} {predicate : Expr} (hi : input.expr.Templated config)
    (hp : predicate.Templated config) :
    Fixed fun ρ => filter negated (input.with (input.expr.filled config ρ)) (predicate.filled config ρ) := by
  refine (uniform_overRows .filter hi hp).bind fun p => ?_
  refine (fixed_appendCondition (if negated then [.text "NOT (", p.2.toPart, .text ")"] else [p.2.toPart])
    fun ρ => ?_).bind fun _ => uniform_pure p.1 fun _ => rfl
  split <;> simp

/-- One item of a select list, as a template. -/
def selectItemTemplate (p : Part.Template) (name : String) : List Part.Template :=
  [.line, p, .text " AS ", .text name]

@[simp] theorem map_fill_selectItemTemplate (ρ : Wording) (p : Part.Template) (name : String) :
    (selectItemTemplate p name).map (Part.Template.fill ρ) = selectItem (p.fill ρ) name := rfl

theorem uniform_projectField {field : String × Expr} (h : field.2.Templated config) :
    Uniform (fun ρ (p : String × Fragment.Template) => (p.1, p.2.fill ρ)) fun ρ =>
      projectField (field.1, field.2.filled config ρ) := by
  unfold projectField
  simp only [Expr.toOperand, Expr.type_reword]
  split
  · exact uniform_throw _ fun _ => rfl
  · exact h.bind fun t => uniform_pure (field.1, t) fun _ => rfl

theorem fixed_projectRecord {input : Binding Expr} {fields : List (String × Expr)} (hi : input.expr.Templated config)
    (hf : ∀ x ∈ fields, x.2.Templated config) : Fixed fun ρ => projectRecord (input.with (input.expr.filled config ρ))
      (fields.map fun x => (x.1, x.2.filled config ρ)) := by
  have hitems := uniform_mapM (o := fun ρ (x : String × Expr) => (x.1, x.2.filled config ρ))
    fun x hm => uniform_projectField (hf x hm)
  refine (uniform_overRows .project hi hitems).bind fun p => ?_
  refine (fixed_appendSelect (Part.Template.separated ", " (p.2.map fun x => selectItemTemplate x.2.toPart x.1)) fun ρ => ?_).bind
    fun _ => Uniform.bind (f := fun _ a => a) ?_ fun _ => uniform_pure p.1 fun _ => rfl
  · simp [Function.comp_def]
  · simp only [map_map, Function.comp_def]
    exact fixed_addOutput _

theorem fixed_projectValue {input : Binding Expr} {value : Expr} (hi : input.expr.Templated config)
    (hv : value.Templated config) :
    Fixed fun ρ => projectValue (input.with (input.expr.filled config ρ)) (value.filled config ρ) := by
  refine (uniform_overRows .project hi hv).bind fun p => ?_
  refine (fixed_appendSelect [p.2.toPart] fun ρ => by simp).bind fun _ => ?_
  cases value with
  | property owner name => exact (fixed_addOutput _).bind fun _ => uniform_pure p.1 fun _ => rfl
  | _ => exact uniform_pure p.1 fun _ => rfl

/-! ## Order and row counts -/

theorem uniform_sortItem {key : SortKey Expr} (h : key.expr.Templated config) : UniformParts fun ρ =>
      sortItem (key.with (key.expr.filled config ρ)) := by
  obtain ⟨e, ascending, collation⟩ := key
  refine Uniform.bind h fun t => ?_
  refine uniform_pure ([t.toPart] ++ asTemplates (collationParts collation) ++
    [.text (if ascending then " ASC" else " DESC")]) fun ρ => ?_
  cases ascending <;> simp [SortKey.with]

theorem fixed_ordered (op : Operator) {input : Binding Expr} {keys : List (SortKey Expr)}
    (hi : input.expr.Templated config) (hk : ∀ k ∈ keys, k.expr.Templated config) :
    Fixed fun ρ => ordered op (input.with (input.expr.filled config ρ))
      (keys.map fun k => k.with (k.expr.filled config ρ)) := by
  have hitems := uniform_mapM (o := fun ρ (k : SortKey Expr) => k.with (k.expr.filled config ρ))
    fun k hm => uniform_sortItem (hk k hm)
  refine (uniform_overRows op hi hitems).bind fun p => ?_
  exact (fixed_appendOrdering (Part.Template.separated ", " p.2) fun ρ => by simp).bind fun _ => uniform_pure p.1 fun _ => rfl

/-- A row count tells at most the kind of a constant that it does not take. -/
theorem uniform_rowCount {count : Expr} (h : count.Templated config) : UniformParts fun ρ =>
      rowCount (count.filled config ρ) := by
  cases count with
  | constant value =>
    cases value with
    | byte v | int16 v | int32 v | int64 v => exact uniform_pure [.text _] fun _ => rfl
    | _ => exact uniform_throw (.badArgument (.rowCountKind _)) fun _ => rfl
  | parameter name type => exact h.bind fun t => uniform_pure [t.toPart] (by simp)
  | _ => exact uniform_throw (.badArgument .rowCountForm) fun _ => rfl

theorem fixed_setSkip (n : List Part.Template) :
    Fixed fun ρ => tryUpdateStatement i (·.setSkip (n.map (Part.Template.fill ρ))) := by
  refine fixed_tryUpdateStatement (fun s =>
    if s.skip.isSome then .error (.badState .offsetTwice) else .ok { s with skip := some n }) fun ρ s => ?_
  cases hs : s.skip <;> simp [setSkip, Statement.Template.fill, hs] <;> rfl

theorem fixed_setTop (n : List Part.Template) :
    Fixed fun ρ => tryUpdateStatement i (·.setTop (n.map (Part.Template.fill ρ))) := by
  refine fixed_tryUpdateStatement (fun s =>
    if s.top.isSome then .error (.badState .limitTwice) else .ok { s with top := some n }) fun ρ s => ?_
  cases hs : s.top <;> simp [setTop, Statement.Template.fill, hs] <;> rfl

theorem fixed_skip {input : Binding Expr} {keys : List (SortKey Expr)} {count : Expr}
    (hi : input.expr.Templated config) (hk : ∀ k ∈ keys, k.expr.Templated config) (hc : count.Templated config) :
    Fixed fun ρ => skip (input.with (input.expr.filled config ρ)) (keys.map fun k => k.with (k.expr.filled config ρ))
      (count.filled config ρ) :=
  (fixed_ordered .skip hi hk).bind fun i => (uniform_rowCount hc).bind fun n => (fixed_setSkip n).bind fun _ =>
    uniform_pure i fun _ => rfl

theorem fixed_limit (withTies : Bool) {count : Expr} (hi : e.Templated config) (hc : count.Templated config) :
    Fixed fun ρ => limit withTies (e.filled config ρ) (count.filled config ρ) := by
  unfold limit
  dsimp only
  split
  · exact uniform_throw _ fun _ => rfl
  · simp only [Expr.toOperand, Expr.rowType_reword]
    exact (fixed_asStatement hi false).bind fun _ => (fixed_wrapUnless _ _ _).bind fun j =>
      (uniform_rowCount hc).bind fun n => (fixed_setTop n).bind fun _ => uniform_pure j fun _ => rfl

theorem fixed_distinct (hi : e.Templated config) : Fixed fun ρ => distinct (e.filled config ρ) := by
  refine (fixed_asStatement hi true).bind fun _ => ?_
  simp only [Expr.toOperand, Expr.rowType_reword]
  refine (fixed_wrapUnless _ _ _).bind fun j => ?_
  refine Uniform.bind (f := fun _ a => a) ?_ fun _ => uniform_pure j fun _ => rfl
  exact fixed_updateBase fun _ _ => rfl

/-! ## Whole statements inside text -/

theorem uniform_setSide : UniformParts fun _ => setSide i := by
  refine uniform_statement.bind fun s => ?_
  simp only [Statement.Template.isOrderedOrCut_fill]
  split
  · exact uniform_pure [.text "SELECT * FROM (", .statement i, .text ")"] fun _ => rfl
  · exact uniform_pure [.statement i] fun _ => rfl

theorem uniform_setOperation (op : SetOp) {left right : Expr} (hl : left.Templated config) (hr : right.Templated config) :
    UniformText fun ρ => setOperation op (left.filled config ρ) (right.filled config ρ) :=
  (fixed_asStatement hl true).bind fun _ => (fixed_asStatement hr true).bind fun _ =>
    uniform_setSide.bind fun l => uniform_setSide.bind fun r =>
      uniform_pure (.parts (l ++ [.line, .text op.keyword, .line] ++ r)) (by simp)

theorem uniform_element (h : e.Templated config) : UniformText fun ρ => element (e.filled config ρ) :=
  (fixed_asStatement h true).bind fun i => uniform_pure (.parts [.text "(", .statement i, .text ")"]) fun _ => rfl

theorem uniform_exists (negated : Bool) : UniformText fun _ => pure (.parts (existsParts negated i)) :=
  uniform_pure (.parts (asTemplates (existsParts negated i))) (by simp)

theorem uniform_emptiness (negated : Bool) (h : e.Templated config) :
    UniformText fun ρ => emptiness negated (e.filled config ρ) :=
  (fixed_asStatement h true).bind fun _ => uniform_exists _

theorem uniform_quantified (q : Quantifier) {input : Binding Expr} {predicate : Expr}
    (hi : input.expr.Templated config) (hp : predicate.Templated config) : UniformText fun ρ =>
      quantified q (input.with (input.expr.filled config ρ)) (predicate.filled config ρ) :=
  (fixed_filter _ hi hp).bind fun _ => fixed_selectAllIfNone.bind fun _ => uniform_exists _

/-! ## Collections -/

theorem uniform_collectionItem (scalar : Bool) (h : e.Templated config) : UniformParts fun ρ =>
      collectionItem scalar (e.filled config ρ) := by
  refine h.bind fun t => ?_
  refine uniform_pure ([.text "SELECT ", t.toPart] ++ (if scalar then [.text (" AS " ++ scalarColumn)] else [])) fun ρ => ?_
  cases scalar <;> simp

theorem uniform_collection (elementType : DataType) {items : List Expr} (h : ∀ a ∈ items, a.Templated config) :
    UniformText fun ρ => collection elementType (items.map fun a => a.filled config ρ) := by
  unfold collection
  simp only [isEmpty_map]
  split
  · exact uniform_pure (.parts [.text emptyCollection]) fun _ => rfl
  · refine (uniform_mapM (o := fun ρ (a : Expr) => a.filled config ρ)
      fun a hm => uniform_collectionItem elementType.isPrimitive (h a hm)).bind fun rows => ?_
    exact uniform_pure (.parts (Part.Template.separated " UNION ALL " rows)) (by simp)

theorem fixed_singleton (h : e.Templated config) : Fixed fun ρ => singleton (e.filled config ρ) := by
  refine (fixed_asStatement h true).bind fun _ => ?_
  simp only [Expr.toOperand, Expr.rowType_reword]
  exact (fixed_wrapUnless _ _ _).bind fun j => (fixed_setTop [.text "1"]).bind fun _ => uniform_pure j fun _ => rfl

/-! ## Grouping -/

/-- The call of an aggregate on its argument, as a template. -/
def aggregateTemplate (aggregate : Aggregate Expr) (argument : Part.Template) : List Part.Template :=
  [.text aggregate.function.qualifiedName, .text "("] ++
    asTemplates (if aggregate.distinct then [.text "DISTINCT "] else []) ++ [argument, .text ")"]

theorem uniform_buildKey {key : String × Expr} (h : key.2.Templated config) :
    Uniform (fun ρ (p : String × Part.Template) => (p.1, p.2.fill ρ)) fun ρ => buildKey (key.1, key.2.filled config ρ) :=
  h.bind fun t => uniform_pure (key.1, t.toPart) (by simp)

theorem uniform_buildArgument {aggregate : String × Aggregate Expr} (h : aggregate.2.argument.Templated config) :
    Uniform (fun ρ (p : String × Aggregate Expr × Part.Template) =>
        (p.1, p.2.1.with (p.2.1.argument.filled config ρ), p.2.2.fill ρ)) fun ρ =>
      buildArgument (aggregate.1, aggregate.2.with (aggregate.2.argument.filled config ρ)) :=
  h.bind fun t => uniform_pure (aggregate.1, aggregate.2, t.toPart) (by simp)

section

variable {keys : List (String × Expr)} {aggregates : List (String × Aggregate Expr)}

theorem fixed_groupInPlace (hk : ∀ k ∈ keys, k.2.Templated config)
    (ha : ∀ a ∈ aggregates, a.2.argument.Templated config) :
    Fixed fun ρ => groupInPlace i (keys.map fun k => (k.1, k.2.filled config ρ))
      (aggregates.map fun a => (a.1, a.2.with (a.2.argument.filled config ρ))) := by
  refine (uniform_mapM (o := fun ρ (k : String × Expr) => (k.1, k.2.filled config ρ))
    fun k hm => uniform_buildKey (hk k hm)).bind fun ks => ?_
  refine (uniform_mapM (o := fun ρ (a : String × Aggregate Expr) => (a.1, a.2.with (a.2.argument.filled config ρ)))
    fun a hm => uniform_buildArgument (ha a hm)).bind fun as => ?_
  refine (fixed_appendSelect (Part.Template.separated ", " (ks.map (fun k => selectItemTemplate k.2 k.1) ++
    as.map fun a => selectItemTemplate (.group (aggregateTemplate a.2.1 a.2.2)) a.1)) fun ρ => ?_).bind fun _ => ?_
  · simp [Function.comp_def, aggregateParts, aggregateTemplate, Aggregate.with]
  refine (fixed_appendGrouping (Part.Template.separated ", " (ks.map fun k => [k.2])) fun ρ => ?_).bind fun _ => ?_
  · simp [Function.comp_def]
  simp only [map_map, Function.comp_def]
  exact (fixed_addOutput _).bind fun _ => uniform_pure i fun _ => rfl

theorem fixed_groupOverInner (var : String) (type : DataType) (hk : ∀ k ∈ keys, k.2.Templated config)
    (ha : ∀ a ∈ aggregates, a.2.argument.Templated config) :
    Fixed fun ρ => groupOverInner i var type (keys.map fun k => (k.1, k.2.filled config ρ))
      (aggregates.map fun a => (a.1, a.2.with (a.2.argument.filled config ρ))) := by
  refine (fixed_subselect var type false).bind fun p => (fixed_declareExtent p.2).bind fun _ => ?_
  refine (uniform_mapM (o := fun ρ (k : String × Expr) => (k.1, k.2.filled config ρ))
    fun k hm => uniform_buildKey (hk k hm)).bind fun ks => ?_
  refine (uniform_mapM (o := fun ρ (a : String × Aggregate Expr) => (a.1, a.2.with (a.2.argument.filled config ρ)))
    fun a hm => uniform_buildArgument (ha a hm)).bind fun as => ?_
  simp only [length_map]
  refine (fixed_appendSelect (Part.Template.separated ", "
    ((ks.zip (innerNames "key_" ks.length)).map (fun k => selectItemTemplate k.1.2 k.2) ++
      (as.zip (innerNames "agg_" as.length)).map fun a => selectItemTemplate a.1.2.2 a.2)) fun ρ => ?_).bind fun _ => ?_
  · simp [zip_map_left, Function.comp_def]
  refine (fixed_appendSelect (Part.Template.separated ", "
    ((ks.zip (innerNames "key_" ks.length)).map
        (fun k => asTemplates (.line :: innerColumn p.2 k.2 ++ [.text " AS ", .text k.1.1])) ++
      (as.zip (innerNames "agg_" as.length)).map fun a => selectItemTemplate
        (.group (aggregateTemplate a.1.2.1 (.group (asTemplates (innerColumn p.2 a.2))))) a.1.1)) fun ρ => ?_).bind
    fun _ => ?_
  · simp [zip_map_left, Function.comp_def, aggregateParts, aggregateTemplate, Aggregate.with]
  refine (fixed_appendGrouping (asTemplates _) fun ρ => (map_fill_asTemplates ρ _).symm).bind fun _ => ?_
  simp only [map_map, Function.comp_def]
  exact (fixed_addOutput _).bind fun _ => uniform_pure p.1 fun _ => rfl

theorem needsInner_filled (ρ : Wording) (aggregates : List (String × Aggregate Expr)) :
    needsInner (aggregates.map fun a => (a.1, a.2.with (a.2.argument.filled config ρ))) =
      aggregates.any fun a => !a.2.argument.isPlainColumn := by
  simp [needsInner, any_map, Function.comp_def, Aggregate.with, Expr.toOperand]

theorem fixed_group {input : GroupBinding Expr} (hi : input.expr.Templated config)
    (hk : ∀ k ∈ keys, k.2.Templated config) (ha : ∀ a ∈ aggregates, a.2.argument.Templated config) :
    Fixed fun ρ => group (input.with (input.expr.filled config ρ)) (keys.map fun k => (k.1, k.2.filled config ρ))
      (aggregates.map fun a => (a.1, a.2.with (a.2.argument.filled config ρ))) := by
  refine (fixed_inputFor .groupBy hi _ _).bind fun p => .within (.inScope ?_)
  refine (fixed_declareExtent p.2).bind fun _ => (fixed_bindVariable _ _).bind fun _ =>
    (fixed_bindVariable _ _).bind fun _ => ?_
  simp only [needsInner_filled]
  split
  · exact fixed_groupOverInner _ _ hk ha
  · exact fixed_groupInPlace hk ha

end

/-! ## Joins -/

theorem fixed_absorb {input : Binding Expr} (before : Nat) :
    Fixed fun ρ => absorb i (input.with (input.expr.filled config ρ)) before := by
  refine uniform_statement.bind fun s => ?_
  refine (fixed_newSymbol (.joined input.var input.type { extents := s.base.fromExtents.drop before })).bind fun x => ?_
  refine Uniform.bind (f := fun _ a => a) ?_ fun _ => fixed_bindVariable _ _
  exact fixed_updateBase fun _ _ => rfl

theorem fixed_subselectJoin? {sub : StatementId} : Fixed fun ρ => subselectJoin? sub (e.reword ρ) := by
  refine uniform_statement.bind fun s => ?_
  simp only [Statement.Template.isEmpty_selectList_fill, Expr.isJoin_reword, Expr.isApply_reword]
  split
  · refine fixed_selectAll.bind fun columns => ?_
    split
    · refine uniform_statement.bind fun s => ?_
      exact uniform_pure (some { extents := s.base.fromExtents, columns, nested := true }) fun _ => rfl
    · exact fixed_nestedJoin? columns
  · exact uniform_pure none fun _ => rfl

theorem fixed_writeSource (t : Fragment.Template) : Fixed fun ρ => writeSource i (e.reword ρ) (t.fill ρ) := by
  have hsource : ∀ t : Fragment.Template, Fixed fun ρ => do
      appendFrom i (if (e.reword ρ).isScan then [(t.fill ρ).toPart] else sourceParts (e.reword ρ).isCall (t.fill ρ))
      return (none : Option JoinInfo) := by
    intro t
    refine (fixed_appendFrom (if e.isScan then [t.toPart] else sourceTemplate e.isCall t) fun ρ => ?_).bind
      fun _ => uniform_pure none fun _ => rfl
    cases h : e.isScan <;> simp [h, sourceParts_fill]
  cases t with
  | statement sub =>
    refine fixed_subselectJoin?.bind fun join => ?_
    exact (fixed_appendFrom [.text "(", .statement sub, .text ")"] fun _ => rfl).bind fun _ =>
      uniform_pure join fun _ => rfl
  | parts ps => exact hsource (.parts ps)
  | symbol x => exact hsource (.symbol x)
  | nested x y => exact hsource (.nested x y)

theorem fixed_adjoin {input : Binding Expr} (t : Fragment.Template) :
    Fixed fun ρ => adjoin i (input.with (input.expr.filled config ρ)) (t.fill ρ) := by
  refine (fixed_writeSource t).bind fun join => (fixed_newExtent _ _ join).bind fun x => ?_
  refine (fixed_declareExtent x).bind fun _ => (fixed_bindVariable _ _).bind fun _ => ?_
  exact fixed_updateBase fun _ _ => rfl

theorem fixed_joinInput {input : Binding Expr} (first : Bool) (h : input.expr.Templated config) :
    Fixed fun ρ => joinInput i first (input.with (input.expr.filled config ρ)) := by
  refine uniform_statement.bind fun s => ?_
  simp only [Binding.with, Expr.toOperand, takesIn, Expr.isScan_reword, Expr.isJoin_reword,
    Expr.isApply_reword]
  refine Uniform.bind h.underJoin fun t => ?_
  cases t with
  | statement sub =>
    dsimp only [Fragment.Template.fill]
    split
    · exact fixed_absorb s.base.fromExtents.length
    · exact fixed_adjoin (.statement sub)
  | parts ps => exact fixed_adjoin (.parts ps)
  | symbol x => exact fixed_adjoin (.symbol x)
  | nested x y => exact fixed_adjoin (.nested x y)

section

variable {inputs : List (Binding Expr)} {condition : Option Expr}

theorem fixed_joinRest (keyword : String) (h : ∀ b ∈ inputs, b.expr.Templated config) :
    Fixed fun ρ => joinRest i keyword (inputs.map fun b => b.with (b.expr.filled config ρ)) := by
  induction inputs with
  | nil => exact uniform_pure () fun _ => rfl
  | cons input rest ih =>
    obtain ⟨hinput, hrest⟩ := forall_mem_cons.1 h
    exact (fixed_appendFrom [.line, .text keyword, .text " "] fun _ => rfl).bind fun _ =>
      (fixed_joinInput false hinput).bind fun _ => ih hrest

theorem fixed_joinInputs (keyword : String) (h : ∀ b ∈ inputs, b.expr.Templated config) :
    Fixed fun ρ => joinInputs i keyword (inputs.map fun b => b.with (b.expr.filled config ρ)) := by
  cases inputs with
  | nil => exact uniform_pure () fun _ => rfl
  | cons input rest =>
    obtain ⟨hinput, hrest⟩ := forall_mem_cons.1 h
    exact (fixed_joinInput true hinput).bind fun _ => fixed_joinRest keyword hrest

theorem fixed_joinBody (keyword : String) (h : ∀ b ∈ inputs, b.expr.Templated config)
    (hc : ∀ c ∈ condition, c.Templated config) :
    Fixed fun ρ => joinBody i keyword (inputs.map fun b => b.with (b.expr.filled config ρ))
      (condition.map fun c => c.filled config ρ) := by
  refine (fixed_joinInputs keyword h).bind fun _ => ?_
  cases condition with
  | none => exact uniform_pure () fun _ => rfl
  | some c =>
    exact (hc c rfl).underJoin.bind fun t => fixed_appendFrom [.text " ON ", t.toPart] fun ρ => by simp

theorem fixed_joined (keyword : String) (h : ∀ b ∈ inputs, b.expr.Templated config)
    (hc : ∀ c ∈ condition, c.Templated config) :
    Fixed fun ρ => joined keyword (inputs.map fun b => b.with (b.expr.filled config ρ))
      (condition.map fun c => c.filled config ρ) := by
  refine fixed_parentTakesIn.bind fun takesIn => ?_
  split
  · refine fixed_current.bind fun i => (fixed_joinBody keyword h hc).inScope.bind fun _ => ?_
    exact uniform_pure i fun _ => rfl
  · refine (fixed_newStatement { base := { joinExtents := some [] } }).bind fun i => ?_
    exact (fixed_joinBody keyword h hc).inScope.within.bind fun _ => uniform_pure i fun _ => rfl

end

end Build

end RelSql
