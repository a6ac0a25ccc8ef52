/-
Columns of the subselects in the text of a query. A query whose types agree reads off a subselect only
columns that it exposes, unless the subselect selects all columns of a join: an operator that completes
a join before it wraps it forgets that it was one, and reads the inputs of the join by their names.
-/
import RelSql.Proofs.Query.RowTypes
import RelSql.Proofs.Query.Scoping

namespace RelSql

open Statement Ident List Store

/-- The name that a column is written with. -/
def Part.columnName (symbols : Symbols) : Part → String
  | .text t => t
  | .symbol c => (symbols.get c).currentName
  | _ => ""

/-- The text of the query reads the column `c` of the extent `x`. -/
def ReadsColumn (b : Build) (f : Fragment) (x : SymbolId) (c : Part) : Prop :=
  Part.Reads [f.toPart] x c ∨
    ∃ k, Occurs b.statements.written [f.toPart] k ∧ ∃ ps ∈ (b.statements.written.get k).clauses, Part.Reads ps x c

/-- The statement exposes a column with the name of `c`, whatever its case. -/
def HasColumn (symbols : Symbols) (s : Statement) (c : Part) : Prop :=
  ∃ e ∈ s.exposed, same (e.columnName symbols) (c.columnName symbols) = true

/-! ## Columns that are there -/

theorem Statement.mem_clauses_written {s : Statement} {ps : List Part} (h : ps ∈ s.written.clauses) :
    ps ∈ s.clauses ∨ ps = [] := by
  unfold written at h
  split at h
  · exact Or.inl h
  · simp only [clauses, mem_cons] at h ⊢
    tauto

theorem readable_of_reads {b : Build} {f : Fragment} {x : SymbolId} {c : Part} (hc : b.store.ColumnsOK)
    (hf : b.store.Legible [f.toPart]) (h : ReadsColumn b f x c) : b.store.Readable x c := by
  rcases h with h | ⟨k, -, ps, hps, h⟩
  · exact hf.columns x c h
  · rw [Statements.get_written] at hps
    rcases mem_clauses_written hps with hps | rfl
    · exact (hc.reads k ps hps).columns x c h
    · exact absurd (List.IsInfix.length_le h) (by simp)

/-- A column that an extent has filed, and that is not marked for a new name, is written under its name. -/
theorem currentName_of_files {σ : Store} {ν : Names} {l c : SymbolId} {key : String} (hok : σ.OK) (hr : σ.Renaming ν)
    (hlater : σ.Later σ.names ν) (hfiles : σ.symbols.Files l key c) (hm : (σ.symbols.get c).needsRenaming = false) :
    (ν.symbols.get c).currentName = (σ.symbols.get c).name := by
  -- a column is no extent, so that no renaming touches it
  have hfixed : σ.names.symbols.Fixed σ.statements c := by
    refine fixed_of_undeclared hm fun k hk => ?_
    have hextent : (σ.symbols.get c).type.isSome = true := isExtent_declared hok hk
    rw [(hok.symbols.columns l _ hfiles).2] at hextent
    cases hextent
  rw [hlater.currentName_fixed (renaming_start hok) hr hfixed]
  change (σ.symbols.get c).currentName = (σ.symbols.get c).name
  unfold Symbol.currentName; rw [hok.symbols.original]; rfl

/-- A column that the only extent of a statement has filed is written under the name that it is found by. -/
theorem same_column_name {σ : Store} {ν : Names} {i : StatementId} {l c : SymbolId} {n : String} (hok : σ.OK)
    (hc : σ.ColumnsOK) (hr : σ.Renaming ν) (hlater : σ.Later σ.names ν) (hx : (σ.get i).fromExtents = [l])
    (hj : (σ.symbols.get l).join = none) (hcol : (σ.symbols.get l).column? n = some c) :
    same (ν.symbols.get c).currentName n = true := by
  have hfiles := Symbols.files_of_column? hcol
  rw [currentName_of_files hok hr hlater hfiles (hc.unmarked hok hx hj hfiles)]
  exact same_iff.2 (hok.tidy.once.key hfiles)

/-- Off the alias of a subselect the text of a typed query reads only columns that the subselect exposes.
The one exception is a subselect with a star over a join: it may be read as if it exposed the inputs of
the join. -/
theorem compile_reads_exposed_columns {config : Config} {query : Expr} {compiled : CompiledQuery}
    (ht : query.WellTyped) (h : Query.compile config query = .ok compiled) :
    ∃ f b names, WrittenFrom config query compiled f b names ∧
      ∀ x c i k, ReadsColumn b f x c → (b.statements.get k).Wraps i x →
        HasColumn names.symbols (b.statements.get i) c ∨
          ∃ n, c = .text n ∧ (b.store.symbols.get x).join = none ∧ b.store.NamesInput i n := by
  obtain ⟨f, b, pieces, names, hp, hr, rfl⟩ := exists_of_compile h
  obtain ⟨hok, hs⟩ := Query.plan_sound hp
  obtain ⟨hn, htext, -, hlater, -⟩ := Render.renderParts_spec hok hs hr
  obtain ⟨hc, hf⟩ := Query.plan_columns ht hp
  refine ⟨f, b, names, ⟨hp, by rw [hr], by rw [htext]; rfl⟩, fun x c i k hread hw => ?_⟩
  have hexposes : b.store.Exposes i x c := by
    rcases readable_of_reads hc hf hread with hcolumn | ⟨k', hx, hexposes⟩
    · -- a bare column has no type, and what a subselect is named by has one
      have hextent : (b.store.symbols.get x).type.isSome = true :=
        Symbols.isExtent_of_stands ((hok.statement k).aliases x hw.alias).1
      rw [hcolumn.2] at hextent
      cases hextent
    · obtain rfl := hok.unique k' k x hx hw.alias
      exact hexposes i hw
  cases c with
  | text n =>
    rcases hexposes.2 with ⟨m, hm, hsame⟩ | ⟨l, d, hx, hj, hcol, hd⟩ | hinput
    · exact Or.inl ⟨.text m, hm, hsame⟩
    · exact Or.inl ⟨.symbol d, hd, same_column_name hok hc hn hlater hx hj hcol⟩
    · exact Or.inr ⟨n, rfl, hexposes.1, hinput⟩
  | line => exact Or.inl ⟨_, hexposes, Ident.same_refl _⟩
  | symbol d => exact Or.inl ⟨_, hexposes, Ident.same_refl _⟩
  | group ps => exact Or.inl ⟨_, hexposes, Ident.same_refl _⟩
  | statement j => exact Or.inl ⟨_, hexposes, Ident.same_refl _⟩

/-- The first two rows of an expression. -/
def firstTwo (e : Expr) : Expr := .limit e (.constant (.int32 2)) false

/-- The first pairs of rows with the same key, joined with rows of a union that have it as well. -/
def unionPairs : Expr :=
  .join .inner ((firstTwo keyPairs).bind "j") ((Expr.setOp .union (firstTwo (keyed "v")) (keyed "w")).bind "c")
    (sameKey (.property (.var "j" keyPairs.rowType) "a") (.var "c" (keyed "v").rowType))

theorem typed_var (name : String) (type : DataType) (vars : List Member) :
    (Expr.var name type).Typed ((name, type) :: vars) :=
  .intro ⟨(name, type), by simp [findMember?, same_refl], rfl⟩ nofun

theorem typed_var_cons {name : String} {type : DataType} {vars : List Member} {other : Member}
    (hne : same other.1 name = false) (h : (Expr.var name type).Typed vars) :
    (Expr.var name type).Typed (other :: vars) := by
  obtain ⟨m, hm, hty⟩ : ∃ m, findMember? vars name = some m ∧ m.2 = type := h.agrees
  exact .intro ⟨m, by simpa [findMember?, hne] using hm, hty⟩ nofun

theorem typed_keyed (name : String) (vars : List Member) : (keyed name).Typed vars := .intro trivial nofun

theorem typed_firstTwo {e : Expr} {vars : List Member} (hr : e.HasRows e.rowType) (ht : e.Typed vars) :
    (firstTwo e).Typed vars :=
  .intro hr (forall_mem_cons.2 ⟨ht, forall_mem_singleton.2 (.intro trivial nofun)⟩)

/-- Two expressions that stand for rows with a key are compared by it. -/
theorem typed_sameKey {left right : Expr} {vars : List Member} (hl : left.Typed vars) (hr : right.Typed vars)
    (hleft : left.isRetyped = false ∧ (left.type.member? "k").isSome = true)
    (hright : right.isRetyped = false ∧ (right.type.member? "k").isSome = true) : (sameKey left right).Typed vars :=
  .intro trivial (forall_mem_cons.2 ⟨.intro hleft (forall_mem_singleton.2 hl),
    forall_mem_singleton.2 (.intro hright (forall_mem_singleton.2 hr))⟩)

theorem typed_keyPairs (vars : List Member) : keyPairs.Typed vars := by
  have hrows : ∀ name, (keyed name).HasRows (keyed name).rowType := fun name => ⟨rfl, rfl, rfl⟩
  refine .intro ⟨forall_mem_cons.2 ⟨hrows "p", forall_mem_singleton.2 (hrows "t")⟩, le_refl 2,
    pairwise_pair.2 (by decide +kernel)⟩ ?_
  refine forall_mem_cons.2 ⟨typed_keyed _ _, forall_mem_cons.2 ⟨typed_keyed _ _, forall_mem_singleton.2 ?_⟩⟩
  exact typed_sameKey (typed_var_cons (by decide +kernel) (typed_var _ _ _)) (typed_var _ _ _) (by decide +kernel)
    (by decide +kernel)

theorem wellTyped_unionPairs : unionPairs.WellTyped := by
  have hv : (firstTwo (keyed "v")).HasRows (keyed "v").rowType := ⟨rfl, rfl, rfl⟩
  have hw : (keyed "w").HasRows (keyed "w").rowType := ⟨rfl, rfl, rfl⟩
  have hpairs : (firstTwo keyPairs).HasRows keyPairs.rowType := ⟨rfl, rfl, rfl⟩
  have hunion : (Expr.setOp .union (firstTwo (keyed "v")) (keyed "w")).HasRows (keyed "v").rowType := ⟨rfl, rfl, rfl⟩
  refine ⟨.intro ⟨?_, le_refl 2, pairwise_pair.2 (by decide +kernel)⟩ ?_, fun _ => ⟨rfl, rfl, rfl⟩⟩
  · exact forall_mem_cons.2 ⟨hpairs, forall_mem_singleton.2 hunion⟩
  refine forall_mem_cons.2 ⟨typed_firstTwo ⟨rfl, rfl, rfl⟩ (typed_keyPairs _),
    forall_mem_cons.2 ⟨.intro ⟨hv, hw⟩ ?_, forall_mem_singleton.2 ?_⟩⟩
  · exact forall_mem_cons.2 ⟨typed_firstTwo ⟨rfl, rfl, rfl⟩ (typed_keyed _ _),
      forall_mem_singleton.2 (typed_keyed _ _)⟩
  · have hside : (Expr.property (.var "j" keyPairs.rowType) "a").Typed
        [("c", (keyed "v").rowType), ("j", keyPairs.rowType)] :=
      .intro ⟨rfl, by decide +kernel⟩
        (forall_mem_singleton.2 (typed_var_cons (by decide +kernel) (typed_var _ _ _)))
    exact typed_sameKey hside (typed_var _ _ _) (by decide +kernel) (by decide +kernel)

/-- The limited join is read under the new names of its columns, and the union under those of its left
side. -/
theorem unionPairs_reads_exposed_columns :
    unionPairs.WellTyped ∧ ∃ compiled, Query.compile {} unionPairs = .ok compiled ∧
      compiled.text = "SELECT j.k1, j.k2, c.k AS k3 FROM (SELECT a.k AS k1, b.k AS k2 FROM p AS a INNER JOIN t AS b " ++
        "ON a.k = b.k LIMIT 2) AS j INNER JOIN (SELECT * FROM (SELECT c.k AS k FROM v AS c LIMIT 2) UNION " ++
        "SELECT c.k AS k FROM w AS c) AS c ON j.k1 = c.k" ∧
      ∃ f b names, WrittenFrom {} unionPairs compiled f b names ∧
        ∀ x c i k, ReadsColumn b f x c → (b.statements.get k).Wraps i x →
          HasColumn names.symbols (b.statements.get i) c ∨
            ∃ n, c = .text n ∧ (b.store.symbols.get x).join = none ∧ b.store.NamesInput i n := by
  have h : Query.compile {} unionPairs = .ok
      ⟨"SELECT j.k1, j.k2, c.k AS k3 FROM (SELECT a.k AS k1, b.k AS k2 FROM p AS a INNER JOIN t AS b " ++
        "ON a.k = b.k LIMIT 2) AS j INNER JOIN (SELECT * FROM (SELECT c.k AS k FROM v AS c LIMIT 2) UNION " ++
        "SELECT c.k AS k FROM w AS c) AS c ON j.k1 = c.k", ["k1", "k2", "k3"]⟩ := ok_of_toOption (by decide +kernel)
  obtain ⟨f, b, names, hwritten, hall⟩ := compile_reads_exposed_columns wellTyped_unionPairs h
  exact ⟨wellTyped_unionPairs, _, h, rfl, f, b, names, hwritten, hall⟩

/-! ## Finding columns that are not there -/

/-- The columns that a list of atoms reads. -/
def columnReads : List Part → List (SymbolId × Part)
  | [] => []
  | p :: rest =>
    match p, rest with
    | .symbol x, .text t :: c :: _ => if t = "." then (x, c) :: columnReads rest else columnReads rest
    | _, _ => columnReads rest

theorem reads_of_mem_columnReads {x : SymbolId} {c : Part} : ∀ {as : List Part}, (x, c) ∈ columnReads as →
    [.symbol x, .text ".", c] <:+: as
  | p :: rest, h => by
    have hrest : (x, c) ∈ columnReads rest → [.symbol x, .text ".", c] <:+: p :: rest :=
      fun h => infix_cons_iff.2 (Or.inr (reads_of_mem_columnReads h))
    unfold columnReads at h
    split at h
    · rename_i y t d more
      split at h
      · rename_i ht
        rcases mem_cons.1 h with heq | h
        · injection heq with hx hc
          rw [hx, hc, ht]
          exact infix_cons_iff.2 (Or.inl ⟨more, rfl⟩)
        · exact hrest h
      · exact hrest h
    · exact hrest h

/-- The subselects of a `FROM` list with their aliases. -/
def subselects : List FromItem → List (StatementId × SymbolId)
  | [] => []
  | item :: rest =>
    match item, rest with
    | .enclosed p, .named x :: _ =>
      match p.subselect? with
      | some i => (i, x) :: subselects rest
      | none => subselects rest
    | _, _ => subselects rest

theorem wraps_of_mem_subselects {i : StatementId} {x : SymbolId} : ∀ {items : List FromItem},
    (i, x) ∈ subselects items → ∃ p : Part, p.subselect? = some i ∧ [FromItem.enclosed p, .named x] <:+: items
  | item :: rest, h => by
    have hrest : (i, x) ∈ subselects rest →
        ∃ p : Part, p.subselect? = some i ∧ [FromItem.enclosed p, .named x] <:+: item :: rest := by
      intro h
      obtain ⟨p, hp, h⟩ := wraps_of_mem_subselects h
      exact ⟨p, hp, infix_cons_iff.2 (Or.inr h)⟩
    unfold subselects at h
    split at h
    · rename_i p y more
      split at h
      · rename_i j hj
        rcases mem_cons.1 h with heq | h
        · injection heq with hi hx
          rw [hi, hx]
          exact ⟨p, hj, infix_cons_iff.2 (Or.inl ⟨more, rfl⟩)⟩
        · exact hrest h
      · exact hrest h
    · exact hrest h

/-- The columns that the statement at the root of a query reads off its subselects, where those do
not expose them. -/
def missingColumns (config : Config) (query : Expr) : List (SymbolId × Part × StatementId) :=
  match Query.plan config query with
  | .ok (.statement k, b) =>
    let symbols := (renderParts b.statements b.names [.statement k]).2.symbols
    (subselects (b.statements.get k).fromItems).flatMap fun w =>
      (columnReads (Part.atoms (b.statements.get k).selectList)).filterMap fun r =>
        if r.1 = w.2 && (b.statements.get w.1).exposed.all
            (fun e => !same (e.columnName symbols) (r.2.columnName symbols)) then
          some (r.1, r.2, w.1)
        else none
  | _ => []

theorem exists_of_missingColumns {config : Config} {query : Expr} (h : missingColumns config query ≠ []) :
    ∃ f b, Query.plan config query = .ok (f, b) ∧ ∃ x c i k, ReadsColumn b f x c ∧ (b.statements.get k).Wraps i x ∧
      ¬ HasColumn (renderParts b.statements b.names [f.toPart]).2.symbols (b.statements.get i) c := by
  obtain ⟨⟨x, c, i⟩, hmem⟩ := exists_mem_of_ne_nil _ h
  unfold missingColumns at hmem
  split at hmem
  · rename_i k b hp
    obtain ⟨⟨j, y⟩, hw, hmem⟩ := mem_flatMap.1 hmem
    obtain ⟨⟨z, d⟩, hr, hmem⟩ := mem_filterMap.1 hmem
    split at hmem
    · rename_i hcond
      obtain ⟨rfl, rfl, rfl⟩ : z = x ∧ d = c ∧ j = i := by
        injection hmem with hmem
        injection hmem with hx hmem
        injection hmem with hc hi
        exact ⟨hx, hc, hi⟩
      rw [Bool.and_eq_true, decide_eq_true_eq, all_eq_true] at hcond
      obtain ⟨hzy, hall⟩ := hcond
      dsimp only at hzy hall
      subst hzy
      refine ⟨.statement k, b, hp, z, d, j, k, Or.inr ⟨k, .here (by simp [Fragment.toPart]), _, ?_,
        reads_of_mem_columnReads hr⟩, wraps_of_mem_subselects hw, ?_⟩
      · rw [Statements.get_written]
        unfold written
        split <;> simp [clauses]
      · rintro ⟨e, he, hsame⟩
        have hno := hall e he
        rw [Fragment.toPart] at hsame
        rw [hsame] at hno
        cases hno
    · cases hmem
  · cases hmem

/-- The rows of two tables that have the same key, each pair once, of the first two. -/
def distinctPairs : Expr := .distinct (.limit keyPairs (.constant (.int32 2)) false)

/-- A distinct selection over a limited join reads the sides of the join, which the subselect does not
expose. -/
theorem distinctPairs_miss_columns :
    Query.compile {} distinctPairs = .ok
      ⟨"SELECT DISTINCT dst.a AS a, dst.b AS b FROM " ++
        "(SELECT a.k AS k1, b.k AS k2 FROM p AS a INNER JOIN t AS b ON a.k = b.k LIMIT 2) AS dst", ["a", "b"]⟩ ∧
    ∃ f b, Query.plan {} distinctPairs = .ok (f, b) ∧ ∃ x c i k, ReadsColumn b f x c ∧ (b.statements.get k).Wraps i x ∧
      ¬ HasColumn (renderParts b.statements b.names [f.toPart]).2.symbols (b.statements.get i) c := by
  have hmissing : missingColumns {} distinctPairs ≠ [] := by decide +kernel
  exact ⟨ok_of_toOption (by decide +kernel), exists_of_missingColumns hmissing⟩

end RelSql
