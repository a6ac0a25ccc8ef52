/-
Columns of the sources of scalar rows in the text of a query. A block that reads scalar rows off a source in
parentheses reads their one column under a fixed name. The source shows just one column, and of that
name, unless it is a projection on a value, which is selected without a name.
-/
import RelSql.Proofs.Query.ScalarTypes
import RelSql.Proofs.Query.SubselectColumns

namespace RelSql

open RelSql.Part SelectItem List Build Store

/-! ## Columns of a source -/

/-- The names of the columns that the statement selects, none for a value without one. -/
def Statement.columnNames (symbols : Symbols) (s : Statement) : List (Option String) :=
  (read s.selectList).map fun item => item.exposed?.map (columnName symbols)

/-- The columns of a source in parentheses by their names. Those of a set operation are the columns of its
left side, and those of a list of values the ones of the first value. -/
inductive SourceColumns (statements : Statements) (symbols : Symbols) : Part → List (Option String) → Prop where
  | subselect {p : Part} {i : StatementId} (h : p.subselect? = some i) :
    SourceColumns statements symbols p ((statements.get i).columnNames symbols)
  | value {v : Part} {name : String} {rest : List Part} (hv : (∀ t, v ≠ .text t) ∧ v ≠ .line)
      (h : rest = [] ∨ ∃ more, rest = .text " UNION ALL " :: more) :
    SourceColumns statements symbols (.group (.text "SELECT " :: v :: .text (" AS " ++ name) :: rest)) [some name]
  | empty : SourceColumns statements symbols (.group [.text "SELECT NULL AS X FROM (SELECT 1) AS Y WHERE 1=0"]) [some "X"]

/-- The statement, or one that stands in it and sees its aliases, reads scalar rows off the extent. -/
def ReadsScalar (statements : Statements) (k : StatementId) (x : SymbolId) : Prop :=
  (∃ ps ∈ (statements.get k).clauses, Part.Reads ps x (.text scalarColumn)) ∨
    ∃ v : View, v.sees = true ∧ ∃ j, Occurs statements ((statements.get k).place v) j ∧
      ∃ ps ∈ (statements.get j).clauses, Part.Reads ps x (.text scalarColumn)

theorem Statement.LeavesUnread.not_reads {statements : Statements} {k : StatementId} {x : SymbolId}
    (h : (statements.get k).LeavesUnread x) : ¬ ReadsScalar statements k x := by
  rintro (⟨ps, hps, hread⟩ | ⟨v, hv, j, hj, -⟩)
  · exact h.clauses ps hps hread
  · have hnone := h.alone v hv
    cases hj with
    | here hj | within hj _ => exact absurd (mem_statements.2 hj) (by rw [hnone]; exact not_mem_nil)

section

variable {loose : Prop} {σ : Store} {ν : Names} {i : StatementId} {p : Part}

/-- A statement that shows scalar rows selects one column. -/
theorem columnNames_of_shows (h : σ.ShowsScalar loose i) (hok : σ.OK) (hc : σ.ScalarsOK loose []) (hr : σ.Renaming ν)
    (hlater : σ.Later σ.names ν) : ∃ name, (σ.get i).columnNames ν.symbols = [name] ∧
      (name = some scalarColumn ∨ loose ∧ ∃ v, (σ.get i).selectList = [v]) := by
  unfold Statement.columnNames
  cases h with
  | @column x c h =>
    have hfiles := Symbols.files_of_column? h.column
    have hname := currentName_of_files hok hr hlater hfiles (hc.kept h.toSingle hfiles).unmarked
    have hread := read_stars [⟨x, some scalarColumn, c⟩]
    rw [map_singleton, map_singleton, separated, intercalate_singleton, ← h.select] at hread
    refine ⟨some scalarColumn, ?_, Or.inl rfl⟩
    rw [hread, map_singleton, exposed?_star]
    exact congrArg (fun n => [some n]) (hname.trans h.name)
  | @value hl _ v _ hv hs =>
    have hread := read_operands (forall_mem_singleton.2 hv)
    rw [map_singleton, map_singleton, separated, intercalate_singleton, ← hs] at hread
    exact ⟨_, by rw [hread]; rfl, Or.inr ⟨hl, v, hs⟩⟩

/-- A source of scalar rows has one column. -/
theorem columns_of_source (h : σ.ScalarSource loose p) (hok : σ.OK) (hc : σ.ScalarsOK loose []) (hr : σ.Renaming ν)
    (hlater : σ.Later σ.names ν) : ∃ name, SourceColumns σ.statements ν.symbols p [name] ∧
      (name = some scalarColumn ∨ loose ∧ ∃ i v, p.subselect? = some i ∧ (σ.get i).selectList = [v]) := by
  cases h with
  | @subselect _ i hp h =>
    obtain ⟨name, hnames, hname⟩ := columnNames_of_shows h hok hc hr hlater
    refine ⟨name, by rw [← hnames]; exact .subselect hp, hname.imp id ?_⟩
    rintro ⟨hl, v, hs⟩
    exact ⟨hl, i, v, hp, hs⟩
  | empty => exact ⟨_, .empty, Or.inl rfl⟩
  | @values items h =>
    refine ⟨some scalarColumn, ?_, Or.inl rfl⟩
    match items, h with
    | [f], _ => exact .value (toPart_ne f) (Or.inl rfl)
    | f :: g :: rest, _ =>
      rw [map_cons, map_cons, separated, intercalate_cons_cons]
      exact .value (toPart_ne f) (Or.inr ⟨_, rfl⟩)

end

/-- Where the types of scalar rows agree, a block that reads such rows off a source in parentheses, as the
column that they have, reads the only column that the source shows. It has that name, except in a query
that projects on scalars: there the source may select one value as it is. -/
theorem compile_shows_scalar_column {config : Config} {query : Expr} {compiled : CompiledQuery}
    (ht : query.ScalarTyped) (h : Query.compile config query = .ok compiled) :
    ∃ f b names, WrittenFrom config query compiled f b names ∧
      ∀ k p x, (b.statements.get k).Names p x → b.store.IsScalar x → ReadsScalar b.statements k x →
        ∃ name, SourceColumns b.statements names.symbols p [name] ∧
          (name = some scalarColumn ∨ (¬ query.All fun e => e.projectsScalar = false) ∧
            ∃ i v, p.subselect? = some i ∧ (b.statements.get i).selectList = [v]) := by
  obtain ⟨f, b, pieces, names, hp, hr, rfl⟩ := exists_of_compile h
  obtain ⟨hok, hs⟩ := Query.plan_sound hp
  obtain ⟨hn, htext, -, hlater, -⟩ := Render.renderParts_spec hok hs hr
  have hc := Query.plan_scalars ht hp
  refine ⟨f, b, names, ⟨hp, by rw [hr], by rw [htext]; rfl⟩, fun k p x hnames hx hread => ?_⟩
  rcases hc.sources List.not_mem_nil hnames hx with hsource | hunread
  · exact columns_of_source hsource hok hc hn hlater
  · exact absurd hread hunread.not_reads

/-! ## Sources that the root of a query reads -/

/-- The subselects that the statement at the root of a query reads scalar rows off, by the names of their
columns. -/
def scalarReads (config : Config) (query : Expr) : List (List (Option String)) :=
  match Query.plan config query with
  | .ok (.statement k, b) =>
    let symbols := (renderParts b.statements b.names [.statement k]).2.symbols
    (subselects (b.statements.get k).fromItems).filterMap fun w =>
      if (b.names.symbols.get w.2).join.isNone && (b.names.symbols.get w.2).isPrimitive &&
          (columnReads (atoms (b.statements.get k).selectList)).any
            (fun r => match r with
              | (x, .text t) => x = w.2 && t = scalarColumn
              | _ => false) then
        some ((b.statements.get w.1).columnNames symbols)
      else none
  | _ => []

theorem exists_of_mem_scalarReads {config : Config} {query : Expr} {columns : List (Option String)}
    (h : columns ∈ scalarReads config query) :
    ∃ f b, Query.plan config query = .ok (f, b) ∧ ∃ k p x i, (b.statements.get k).Names p x ∧ b.store.IsScalar x ∧
      ReadsScalar b.statements k x ∧ p.subselect? = some i ∧
      (b.statements.get i).columnNames (renderParts b.statements b.names [f.toPart]).2.symbols = columns := by
  unfold scalarReads at h
  split at h
  · rename_i k b hp
    obtain ⟨⟨i, x⟩, hw, h⟩ := mem_filterMap.1 h
    obtain ⟨p, hsub, hnames⟩ := wraps_of_mem_subselects hw
    obtain ⟨hcond, hcolumns⟩ := Option.ite_none_right_eq_some.1 h
    rw [Bool.and_eq_true, Bool.and_eq_true, Option.isNone_iff_eq_none, any_eq_true] at hcond
    obtain ⟨⟨hjoin, hprimitive⟩, r, hr, hx⟩ := hcond
    refine ⟨.statement k, b, hp, k, p, x, i, hnames, ⟨hjoin, hprimitive⟩, Or.inl ⟨_, mem_cons_self, ?_⟩, hsub,
      Option.some.inj hcolumns⟩
    split at hx
    · rw [Bool.and_eq_true, decide_eq_true_eq, decide_eq_true_eq] at hx
      obtain ⟨rfl, rfl⟩ := hx
      exact reads_of_mem_columnReads hr
    · cases hx
  · cases h

/-! ## Numbers -/

/-- A collection of numbers. -/
def numbers (ns : List Int32) : Expr := .newCollection (.scalar .int32) (ns.map fun n => .constant (.int32 n))

/-- The number that the variable stands for. -/
def numberIn (var : String) : Expr := .property (.var var (.scalar .int32)) scalarColumn

/-- Different numbers of two collections, the first of which has only one. -/
def differentNumbers : Expr :=
  .distinct (.setOp .unionAll (.newCollection (.scalar .int32) [.element (firstTwo (numbers [1, 2]))]) (numbers [2, 3]))

def largeNumbers : Expr :=
  .filter ((firstTwo differentNumbers).bind "v") (.compare .gt (numberIn "v") (.constant (.int32 1)))

/-- The least numbers that are large. -/
def leastNumbers : Expr := firstTwo (.sort (largeNumbers.bind "w") [{ expr := numberIn "w" }])

section

variable {loose : Prop} {e : Expr}

/-- A node other than a projection is admitted if the types of scalar rows agree at it. -/
theorem all_admitted (hp : e.projectsScalar = false) (ha : e.RowsAgree)
    (hc : ∀ c ∈ e.children, c.All (Expr.Admitted loose)) : e.All (Expr.Admitted loose) :=
  .intro ⟨ha, fun h => absurd (hp.symm.trans h) (by decide)⟩ hc

theorem admitted_constant (value : Constant) : (Expr.constant value).All (Expr.Admitted loose) :=
  all_admitted rfl nofun nofun

theorem admitted_property (var : String) (type : DataType) (name : String) :
    (Expr.property (.var var type) name).All (Expr.Admitted loose) :=
  all_admitted rfl nofun (forall_mem_singleton.2 (all_admitted rfl nofun nofun))

theorem admitted_firstTwo (h : e.All (Expr.Admitted loose)) (ha : e.ScalarsAgree e.rowType) :
    (firstTwo e).All (Expr.Admitted loose) :=
  all_admitted rfl (forall_mem_singleton.2 ha)
    (forall_mem_cons.2 ⟨h, forall_mem_singleton.2 (admitted_constant _)⟩)

theorem admitted_numbers (n m : Int32) : (numbers [n, m]).All (Expr.Admitted loose) :=
  all_admitted rfl nofun
    (forall_mem_cons.2 ⟨admitted_constant _, forall_mem_singleton.2 (admitted_constant _)⟩)

theorem admitted_differentNumbers : differentNumbers.All (Expr.Admitted loose) := by
  have hagree : ∀ ns, (numbers ns).ScalarsAgree (.scalar .int32) := fun _ => ⟨rfl, fun _ => rfl⟩
  have hleft : (Expr.newCollection (.scalar .int32) [.element (firstTwo (numbers [1, 2]))]).All (Expr.Admitted loose) := by
    refine all_admitted rfl (forall_mem_singleton.2 ⟨rfl, fun _ => rfl⟩) (forall_mem_singleton.2 ?_)
    refine all_admitted rfl (forall_mem_singleton.2 ⟨rfl, fun _ => rfl⟩) (forall_mem_singleton.2 ?_)
    exact admitted_firstTwo (admitted_numbers 1 2) (hagree _)
  refine all_admitted rfl (forall_mem_singleton.2 ⟨rfl, fun _ => rfl⟩) (forall_mem_singleton.2 ?_)
  refine all_admitted rfl ?_ (forall_mem_cons.2 ⟨hleft, forall_mem_singleton.2 (admitted_numbers 2 3)⟩)
  exact forall_mem_cons.2 ⟨⟨rfl, fun _ => rfl⟩, forall_mem_singleton.2 (hagree _)⟩

theorem admitted_leastNumbers : leastNumbers.All (Expr.Admitted loose) := by
  have hlarge : largeNumbers.All (Expr.Admitted loose) := by
    refine all_admitted rfl (forall_mem_singleton.2 ⟨rfl, fun _ => rfl⟩) (forall_mem_cons.2
      ⟨admitted_firstTwo admitted_differentNumbers ⟨rfl, fun _ => rfl⟩, forall_mem_singleton.2 ?_⟩)
    exact all_admitted rfl nofun
      (forall_mem_cons.2 ⟨admitted_property _ _ _, forall_mem_singleton.2 (admitted_constant _)⟩)
  refine admitted_firstTwo (all_admitted rfl (forall_mem_singleton.2 ⟨rfl, fun _ => rfl⟩) ?_) ⟨rfl, fun _ => rfl⟩
  exact forall_mem_cons.2 ⟨hlarge, forall_mem_singleton.2 (admitted_property _ _ _)⟩

theorem scalarTyped_firstTwo (h : (firstTwo e).All (Expr.Admitted loose)) (ha : (firstTwo e).ScalarsAgree e.rowType) :
    (firstTwo e).ScalarTyped :=
  ⟨h.imp fun _ h => h.1, fun _ => ha⟩

end

theorem scalarTyped_leastNumbers : leastNumbers.ScalarTyped :=
  scalarTyped_firstTwo (admitted_leastNumbers : leastNumbers.All (Expr.Admitted False)) ⟨rfl, fun _ => rfl⟩

/-- The numbers are read off a limited distinct selection, whose column has the name. -/
theorem leastNumbers_show_scalar_column :
    leastNumbers.ScalarTyped ∧ ∃ compiled, Query.compile {} leastNumbers = .ok compiled ∧
      compiled.text = "SELECT v.X AS X FROM (SELECT DISTINCT c.X AS X FROM (SELECT * FROM (SELECT element.X AS X FROM " ++
        "(SELECT c.X AS X FROM (SELECT 1 AS X UNION ALL SELECT 2 AS X) AS c LIMIT 2) AS element LIMIT 1) UNION ALL " ++
        "SELECT c.X AS X FROM (SELECT 2 AS X UNION ALL SELECT 3 AS X) AS c) AS c LIMIT 2) AS v WHERE v.X > 1 " ++
        "ORDER BY v.X ASC LIMIT 2" ∧
      ∃ f b names, WrittenFrom {} leastNumbers compiled f b names ∧
        (∃ k p x, (b.statements.get k).Names p x ∧ b.store.IsScalar x ∧ ReadsScalar b.statements k x) ∧
        ∀ k p x, (b.statements.get k).Names p x → b.store.IsScalar x → ReadsScalar b.statements k x →
          SourceColumns b.statements names.symbols p [some scalarColumn] := by
  have h : Query.compile {} leastNumbers = .ok
      ⟨"SELECT v.X AS X FROM (SELECT DISTINCT c.X AS X FROM (SELECT * FROM (SELECT element.X AS X FROM " ++
        "(SELECT c.X AS X FROM (SELECT 1 AS X UNION ALL SELECT 2 AS X) AS c LIMIT 2) AS element LIMIT 1) UNION ALL " ++
        "SELECT c.X AS X FROM (SELECT 2 AS X UNION ALL SELECT 3 AS X) AS c) AS c LIMIT 2) AS v WHERE v.X > 1 " ++
        "ORDER BY v.X ASC LIMIT 2", ["X"]⟩ := ok_of_toOption (by decide +kernel)
  have hreads : [some "X"] ∈ scalarReads {} leastNumbers := by decide +kernel
  obtain ⟨f', b', hp, k, p, x, i, hnames, hx, hread, -, -⟩ := exists_of_mem_scalarReads hreads
  obtain ⟨f, b, names, hwritten, hall⟩ := compile_shows_scalar_column scalarTyped_leastNumbers h
  obtain ⟨rfl, rfl⟩ : f' = f ∧ b' = b := Prod.mk.inj (Except.ok.inj (hp.symm.trans hwritten.plan))
  refine ⟨scalarTyped_leastNumbers, _, h, rfl, f', b', names, hwritten, ⟨k, p, x, hnames, hx, hread⟩, ?_⟩
  intro k p x hnames hx hread
  obtain ⟨_, hcolumns, rfl | ⟨hprojects, -⟩⟩ := hall k p x hnames hx hread
  · exact hcolumns
  · exact absurd (admitted_leastNumbers.imp fun _ h => Bool.eq_false_iff.2 h.2) hprojects

/-- The first two values of a column, limited once more. -/
def limitedValues : Expr :=
  firstTwo (firstTwo (.project ((keyed "t").bind "p") (.property (.var "p" (keyed "t").rowType) "k")))

theorem scalarTyped_limitedValues : limitedValues.ScalarTyped := by
  have hvalues : (Expr.project ((keyed "t").bind "p") (.property (.var "p" (keyed "t").rowType) "k")).All
      (Expr.Admitted True) := by
    refine .intro ⟨forall_mem_singleton.2 ⟨rfl, fun h => by cases h⟩, fun _ => trivial⟩ ?_
    exact forall_mem_cons.2 ⟨all_admitted rfl nofun nofun, forall_mem_singleton.2 (admitted_property _ _ _)⟩
  exact scalarTyped_firstTwo (admitted_firstTwo (admitted_firstTwo hvalues ⟨rfl, fun _ => rfl⟩) ⟨rfl, fun _ => rfl⟩)
    ⟨rfl, fun _ => rfl⟩

/-- The values are read as the column `X`, but are selected under the name of the column. -/
theorem limitedValues_hide_scalar_column :
    limitedValues.ScalarTyped ∧
    Query.compile {} limitedValues = .ok
      ⟨"SELECT top.X AS X FROM (SELECT p.k FROM t AS p LIMIT 2) AS top LIMIT 2", ["X"]⟩ ∧
    ∃ f b, Query.plan {} limitedValues = .ok (f, b) ∧ ∃ k p x i, (b.statements.get k).Names p x ∧ b.store.IsScalar x ∧
      ReadsScalar b.statements k x ∧ p.subselect? = some i ∧
      (b.statements.get i).columnNames (renderParts b.statements b.names [f.toPart]).2.symbols = [some "k"] := by
  have hreads : [some "k"] ∈ scalarReads {} limitedValues := by decide +kernel
  exact ⟨scalarTyped_limitedValues, ok_of_toOption (by decide +kernel), exists_of_mem_scalarReads hreads⟩

end RelSql
