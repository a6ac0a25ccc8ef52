/-
The columns that a query reports. A query over tables with a row type returns one column for each member
of its rows, in the order of the members and under their names. Joins are taken apart by a projection or
a grouping, which names its columns itself; whatever else stands over it reads rows of that type, and
selects all members in the end.
-/
import RelSql.Proofs.Build.OpenRows
import RelSql.Proofs.Query.Scoping

namespace RelSql

open List Build Store

namespace Build

variable {input : Binding Operand}

variable {b b' : Build} {i : StatementId}

/-! ## Operators -/

theorem RowPass.Keeps.tabled {ty : DataType} {m : BuildM StatementId} (h : (tabledPass ty).Keeps m) (hb : Good b)
    (hj : b.inJoin = false) (hr : Runs (asFragment m) b (.statement i) b') : b'.store.Tabled ty i :=
  (h ⟨hb, hj⟩ (runs_statement_asFragment.1 hr)).2.2

theorem filter_tabled {negated : Bool} {predicate : Operand} (hv : ValueOK input.expr) (hp : ValueOK predicate)
    (ht : Tabulates input.expr input.type) (hd : input.type.HasColumns) :
    (tabledPass input.type).Keeps (filter negated input predicate) := by
  rintro b b' i ⟨hb, hj⟩ hr
  obtain ⟨ho', hs'⟩ := filter_makes hv hp hb hj hr
  refine ⟨⟨ho'.ok, hs', ho'.grows⟩, trivial, ?_⟩
  obtain ⟨sql, b1, hover, hb2⟩ := filter_cases hr
  obtain ⟨ho, -⟩ := overRows_spec hv hp.toPart hb hj hover
  obtain ⟨x, hbare⟩ := overRows_bare rfl hv ht hd hp.toPart hb hj hover
  exact update_tabled ho.ok (.bare x hbare) hb2 rfl rfl rfl

theorem ordered_tabled {op : Operator} {keys : List (SortKey Operand)} (hop : op.isEarly = true)
    (hv : ValueOK input.expr) (hk : ∀ k ∈ keys, ValueOK k.expr) (ht : Tabulates input.expr input.type)
    (hd : input.type.HasColumns) : (tabledPass input.type).Keeps (ordered op input keys) := by
  rintro b b' i ⟨hb, hj⟩ hr
  obtain ⟨ho', hs'⟩ := ordered_makes hv hk hb hj hr
  refine ⟨⟨ho'.ok, hs', ho'.grows⟩, trivial, ?_⟩
  obtain ⟨items, b1, hover, hb2⟩ := ordered_cases hr
  have hbody := builds_mapM fun k h => sortItem_builds (hk k h)
  obtain ⟨ho, -⟩ := overRows_spec hv hbody hb hj hover
  obtain ⟨x, hbare⟩ := overRows_bare hop hv ht hd hbody hb hj hover
  exact update_tabled ho.ok (.bare x hbare) hb2 rfl rfl rfl

/-! ## Columns with names of their own -/

/-- A statement that gets items under names of their own returns those. -/
theorem withItems_returns {items : List (List Part × String)} {grouping : List Part} (hok : b.store.OK)
    (hi : i < b.store.size)
    (hb' : b' = { b with statements := b.statements.modify i (withItems items grouping (namedOutput items)) })
    (hnil : (b.store.get i).selectList = []) (hn : ∀ item ∈ items, SelectItem.Named item.1 item.2)
    (hne : items.map Prod.snd ≠ []) : b'.store.Returns i (items.map Prod.snd) := by
  have hget := (get_update hb' hi).1
  refine ⟨fun hselect => hne ?_, ?_⟩
  · have hempty : (Part.separated ", " (items.map Prod.fst)).isEmpty = items.isEmpty :=
      Part.isEmpty_separated fun item hitem => (hn item hitem).1
    have hnone : Part.separated ", " (items.map Prod.fst) = [] := by simpa [hget, withItems, hnil] using hselect
    rw [hnone] at hempty
    rw [isEmpty_iff.1 hempty.symm]; rfl
  · rw [hget, withItems]
    dsimp only
    rw [(hok.tidy.selects i).output hnil, nil_append, namedOutput, forall₂_map_left_iff,
      forall₂_map_right_iff]
    exact forall₂_same.2 fun item _ => rfl

theorem projectRecord_returns {fields : List (String × Operand)} (hv : ValueOK input.expr)
    (hf : ∀ f ∈ fields, ValueOK f.2) (hne : fields ≠ []) (hb : Good b) (hj : b.inJoin = false)
    (hr : Runs (projectRecord input fields) b i b') : b'.store.Returns i (fields.map Prod.fst) := by
  obtain ⟨items, b1, hover, hb'⟩ := projectRecord_cases hr
  have hbody := builds_mapM fun f h => projectField_builds (hf f h)
  obtain ⟨ho, -⟩ := overRows_spec hv hbody hb hj hover
  -- each field is built under its name
  have hnames : fields.map Prod.fst = (fieldItems items).map Prod.snd := by
    obtain ⟨_, _, hitems⟩ := overRows_body hover
    rw [map_of_runs_mapM (fun _ _ _ _ hr => (projectField_cases hr).1) hitems]
    simp [fieldItems, namedItems, Function.comp_def]
  rw [hnames]
  exact withItems_returns ho.ok ho.lt hb' (overRows_selectList rfl hv hbody hb hj hover) (named_fieldItems items)
    (by rw [← hnames]; simpa using hne)

theorem group_returns {input : GroupBinding Operand} {keys : List (String × Operand)}
    {aggregates : List (String × Aggregate Operand)} (hv : ValueOK input.expr) (hk : ∀ k ∈ keys, ValueOK k.2)
    (ha : ∀ a ∈ aggregates, ValueOK a.2.argument) (hne : keys.map Prod.fst ++ aggregates.map Prod.fst ≠ [])
    (hb : Good b) (hj : b.inJoin = false) (hr : Runs (group input keys aggregates) b i b') :
    b'.store.Returns i (keys.map Prod.fst ++ aggregates.map Prod.fst) := by
  obtain ⟨k, x, b1, _, b2, b3, b4, -, -, -, -, hopen, hnil, hbody, rfl⟩ := group_cases hv hb hj hr
  change b4.store.Returns i _
  split at hbody
  · obtain ⟨y, ks, as, _, b5, b6, b7, b8, b9, hsub, hdecl, hks, has, hb9, hb4⟩ := groupOverInner_cases hbody
    -- the outer statement has nothing but its extent up to here
    obtain ⟨-, -, hout, -, hsame⟩ := innerSelect_spec hk ha hopen hnil hj hsub hdecl hks has hb9
    rw [(keys_built hks).1, (arguments_built has).1, ← map_snd_outerItems (x := y)] at hne ⊢
    exact withItems_returns hout.ok hout.lt hb4 hsame.selectList named_outerItems hne
  · obtain ⟨ks, as, b5, b6, rfl, hks, has, hb4⟩ := groupInPlace_cases hbody
    obtain ⟨hstep, -, -⟩ := groupTexts_spec hk ha hopen.good (by rw [hopen.inJoin]; exact hj) hks has
    have hnames : ks.map Prod.fst ++ as.map Prod.fst = (namedItems (groupItems ks as)).map Prod.snd := by
      simp [groupItems, namedItems, Function.comp_def]
    rw [(keys_built hks).1, (arguments_built has).1, hnames] at hne ⊢
    exact withItems_returns hstep.store (hopen.step hstep).owns.lt hb4
      ((hstep.grows.text i hopen.owns.lt).selectList.trans hnil) (named_groupItems hks) hne

end Build

/-! ## Queries over tables -/

namespace Expr

/-- Tables, what is made of them by a projection on a record or by a grouping, whatever these stand over,
and operators over such rows. A variable has the type of the rows that it stands for. -/
inductive Tabular : Expr → Prop where
  | scan (set : EntitySet) : Tabular (scan set)
  | project (input : Binding Expr) (fields : List (String × Expr)) : Tabular (project input (newRecord fields))
  | groupBy (input : GroupBinding Expr) (keys : List (String × Expr)) (aggregates : List (String × Aggregate Expr)) :
    Tabular (groupBy input keys aggregates)
  | filter {e : Expr} (var : String) (predicate : Expr) : Tabular e → Tabular (filter (e.bind var) predicate)
  | sort {e : Expr} (var : String) (keys : List (SortKey Expr)) : Tabular e → Tabular (sort (e.bind var) keys)
  | skip {e : Expr} (var : String) (keys : List (SortKey Expr)) (count : Expr) : Tabular e →
    Tabular (skip (e.bind var) keys count)
  | limit {e : Expr} (count : Expr) (withTies : Bool) : Tabular e → Tabular (limit e count withTies)
  | distinct {e : Expr} : Tabular e → Tabular (distinct e)
  | setOp {left : Expr} (op : SetOp) (right : Expr) : Tabular left → Tabular (setOp op left right)

theorem Tabular.isCollection {e : Expr} (h : e.Tabular) : e.type.isCollection = true := by
  induction h with
  | scan | project | groupBy => rfl
  | filter _ _ _ ih | sort _ _ _ ih | skip _ _ _ _ ih | limit _ _ _ ih | distinct _ ih | setOp _ _ _ ih => exact ih

section

variable {config : Config} {b b' : Build} {i : StatementId} {e : Expr}

theorem tabulates_of_construct {ty : DataType} (h : ∀ m, Construct config (BuildsSound config) e m →
    ∀ ⦃b b' : Build⦄ ⦃i : StatementId⦄, Good b → b.inJoin = false → Runs m b (.statement i) b' → b'.store.Tabled ty i) :
    Tabulates (toOperand config e) ty :=
  fun _ _ _ hb hj hr => h _ (build_construct fun c _ => buildsSound c) hb hj hr

theorem memberNames_record (input : Binding Expr) (fields : List (String × Expr)) :
    (project input (newRecord fields)).rowType.properties.map Prod.fst = fields.map Prod.fst := by
  change (namedTypes fields).map Prod.fst = _
  rw [namedTypes_eq_map, map_map]; rfl

theorem memberNames_group (input : GroupBinding Expr) (keys : List (String × Expr))
    (aggregates : List (String × Aggregate Expr)) :
    (groupBy input keys aggregates).rowType.properties.map Prod.fst = keys.map Prod.fst ++ aggregates.map Prod.fst := by
  change (namedTypes keys ++ aggregates.map _).map Prod.fst = _
  rw [namedTypes_eq_map, map_append, map_map, map_map]; rfl

/-- What a query over tables builds reads its rows. -/
theorem Tabular.tabulates (h : e.Tabular) : e.rowType.HasColumns → Tabulates (toOperand config e) e.rowType := by
  induction h with refine fun ht => tabulates_of_construct fun m hc b b' i hb hj hr => ?_
  | scan set =>
    cases hc with
    | refused => exact absurd hr runs_throw
    | scan =>
      obtain ⟨heq, -, hstore⟩ := scan_new hj hr
      obtain rfl := Fragment.statement.inj heq
      have hget : b'.store.get b.statements.size = { fromList := [.text set.source] } := by
        rw [hstore]; exact Store.get_push_size b.store _
      exact .source (by rw [hget]) (by rw [hget])
  | project input fields =>
    cases hc with
    | refused => exact absurd hr runs_throw
    | value _ _ hne => exact absurd rfl (hne fields)
    | record hi hf =>
      have hfields := memberNames_record input fields
      have hreturns := projectRecord_returns hi.value (forall_mem_map.2 fun f hm => (hf f hm).value)
        (fun hnil => ht.some ?_) hb hj (runs_statement_asFragment.1 hr)
      · rw [map_map] at hreturns
        exact .returns (hfields.symm ▸ hreturns)
      · exact map_eq_nil_iff.1 (hfields.trans (map_eq_nil_iff.2 (map_eq_nil_iff.1 hnil)))
  | groupBy input keys aggregates =>
    cases hc with
    | refused => exact absurd hr runs_throw
    | group hi hk ha =>
      have hmembers := memberNames_group input keys aggregates
      have hnames : (keys.map fun k => (k.1, toOperand config k.2)).map Prod.fst ++
          (aggregates.map fun a => (a.1, a.2.with (toOperand config a.2.argument))).map Prod.fst =
            keys.map Prod.fst ++ aggregates.map Prod.fst := by simp only [map_map]; rfl
      have hreturns := group_returns hi.value (forall_mem_map.2 fun k hm => (hk k hm).value)
        (forall_mem_map.2 fun a hm => (ha a hm).value) (fun hnil => ht.some ?_) hb hj (runs_statement_asFragment.1 hr)
      · rw [hnames] at hreturns
        exact .returns (hmembers.symm ▸ hreturns)
      · rw [hnames] at hnil
        exact map_eq_nil_iff.1 (hmembers.trans hnil)
  | filter var predicate h ih =>
    cases hc with
    | refused => exact absurd hr runs_throw
    | filter hi hp => exact (filter_tabled hi.value hp.value (ih ht) ht).tabled hb hj hr
  | sort var keys h ih =>
    cases hc with
    | refused => exact absurd hr runs_throw
    | sort hi hk =>
      exact (ordered_tabled rfl hi.value (forall_mem_map.2 fun k hm => (hk k hm).value) (ih ht) ht).tabled hb hj hr
  | skip var keys count h ih =>
    cases hc with
    | refused => exact absurd hr runs_throw
    | skip hi hk hcount =>
      have hkeys : ∀ k ∈ keys.map fun k => k.with (toOperand config k.expr), ValueOK k.expr :=
        forall_mem_map.2 fun k hm => (hk k hm).value
      exact ((tabledPass_lawful ht).skip hi.value hkeys hcount.count
        (ordered_tabled rfl hi.value hkeys (ih ht) ht)).tabled hb hj hr
  | limit count withTies h ih =>
    cases hc with
    | refused => exact absurd hr runs_throw
    | limit hi hcount =>
      exact ((tabledPass_lawful ht).limit ((ih ht).feeds hi.value) hcount.count withTies).tabled hb hj hr
  | distinct h ih =>
    cases hc with
    | refused => exact absurd hr runs_throw
    | distinct hi =>
      exact ((tabledPass_lawful ht).distinct ((ih ht).feeds hi.value)).tabled hb hj hr
  | setOp op right h ih =>
    cases hc with
    | refused => exact absurd hr runs_throw
    | setOp hl hright =>
      -- the two sides stand in a text, which is no statement
      simp only [setOperation, runs_bind, runs_pure] at hr
      obtain ⟨_, _, -, _, _, -, _, _, -, _, _, -, heq, -⟩ := hr
      cases heq

end

end Expr

/-! ## Reported columns -/

/-- Nothing renames the columns that a statement returns under their names. -/
theorem outputNames_of_returns {σ : Store} {ν : Names} {i : StatementId} {names : List String} (hok : σ.OK)
    (hr : σ.Renaming ν) (hl : σ.Later σ.names ν) (h : σ.Returns i names) : (σ.get i).outputNames ν.symbols = names := by
  unfold Statement.outputNames
  rw [← forall₂_eq_eq_eq, forall₂_map_left_iff]
  refine h.output.imp fun o name ho => ?_
  cases o with
  | named n => exact ho
  | symbol c =>
    obtain ⟨hlt, hcolumn⟩ := ho
    have hcolumn : σ.names.symbols.get c = .column name := hcolumn
    -- a column is no extent, and so no statement declares it
    have hfixed : σ.names.symbols.Fixed σ.statements c := by
      refine fixed_of_undeclared (by rw [hcolumn]; rfl) fun k hk => ?_
      have hextent : (σ.names.symbols.get c).type.isSome = true := isExtent_declared hok hk
      rw [hcolumn] at hextent
      cases hextent
    change (ν.symbols.get c).currentName = name
    rw [hl.currentName_fixed (renaming_start hok) hr hfixed, hcolumn]
    rfl

theorem root_returns {config : Config} {query : Expr} {f : Fragment} {b : Build} (hq : query.Tabular)
    (ht : query.rowType.HasColumns) (hr : Runs (Query.root config query) {} f b) :
    ∃ i, f = .statement i ∧ b.store.Returns i (query.rowType.properties.map Prod.fst) := by
  have hv : ValueOK (query.toOperand config) := (Expr.buildsSound query).value
  simp only [Query.root, hq.isCollection, if_true, runs_bind, runs_updateStatement, runs_pure] at hr
  obtain ⟨i, b1, has, -, b2, hb2, rfl, rfl⟩ := hr
  have hready : (tabledPass query.rowType).Ready {} := ⟨Query.good_start, rfl⟩
  obtain ⟨-, -, -, hreturns⟩ := (tabledPass_lawful ht).asStatement ((hq.tabulates ht).feeds hv) hready has
  refine ⟨i, rfl, ?_⟩
  have hstore : b.store = b1.store.modify i fun s => { s with topMost := true } := by rw [hb2]; rfl
  rw [hstore]
  exact (hreturns rfl).modify rfl rfl

/-- The columns that a query over tables reports are the members of its rows, in their order. -/
theorem compile_columns_eq_members {config : Config} {query : Expr} {compiled : CompiledQuery} (hq : query.Tabular)
    (ht : query.rowType.HasColumns) (h : Query.compile config query = .ok compiled) :
    compiled.columns = query.rowType.properties.map Prod.fst := by
  obtain ⟨f, b, pieces, names, hp, hr, rfl⟩ := exists_of_compile h
  obtain ⟨hok, hs⟩ := Query.plan_sound hp
  obtain ⟨hn, -, -, hlater, -⟩ := Render.renderParts_spec hok hs hr
  obtain ⟨i, rfl, hreturns⟩ := root_returns hq ht (Query.runs_of_plan hp).1
  exact outputNames_of_returns hok hn hlater hreturns

/-- The keys of the pairs of a join, under names of their own. -/
def pairedKeys : Expr :=
  .project (keyPairs.bind "j") (.newRecord
    [("Key", .property (.property (.var "j" keyPairs.rowType) "a") "k"),
      ("other", .property (.property (.var "j" keyPairs.rowType) "b") "k")])

/-- Up to five of those with a positive key, from a sorted and an unsorted list of them. -/
def positivePairs : Expr :=
  .distinct (.limit (.filter
    ((Expr.setOp .union (.sort (pairedKeys.bind "s") [{ expr := .property (.var "s" pairedKeys.rowType) "Key" }])
      pairedKeys).bind "u")
    (.compare .gt (.property (.var "u" pairedKeys.rowType) "key") (.constant (.int32 0)))) (.constant (.int32 5)) false)

/-- Four statements over the join select its columns, and the outermost reports them as they were named. -/
theorem positivePairs_columns :
    positivePairs.Tabular ∧ positivePairs.rowType.HasColumns ∧
      ∃ compiled, Query.compile {} positivePairs = .ok compiled ∧
        compiled.text = "SELECT DISTINCT dst.Key AS Key, dst.other AS other FROM (SELECT u.Key AS Key, u.other AS other " ++
          "FROM (SELECT * FROM (SELECT s.Key AS Key, s.other AS other FROM (SELECT a.k AS Key, b.k AS other FROM p AS a " ++
          "INNER JOIN t AS b ON a.k = b.k) AS s) UNION SELECT a.k AS Key, b.k AS other FROM p AS a " ++
          "INNER JOIN t AS b ON a.k = b.k) AS u WHERE u.key > 0 LIMIT 5) AS dst" ∧
        compiled.columns = positivePairs.rowType.properties.map Prod.fst := by
  have hq : positivePairs.Tabular :=
    .distinct (.limit _ _ (.filter _ _ (.setOp _ _ (.sort _ _ (.project _ _)))))
  have ht : positivePairs.rowType.HasColumns :=
    ⟨rfl, List.cons_ne_nil _ _, List.pairwise_pair.2 (by decide +kernel)⟩
  have h : Query.compile {} positivePairs = .ok
      ⟨"SELECT DISTINCT dst.Key AS Key, dst.other AS other FROM (SELECT u.Key AS Key, u.other AS other " ++
        "FROM (SELECT * FROM (SELECT s.Key AS Key, s.other AS other FROM (SELECT a.k AS Key, b.k AS other FROM p AS a " ++
        "INNER JOIN t AS b ON a.k = b.k) AS s) UNION SELECT a.k AS Key, b.k AS other FROM p AS a " ++
        "INNER JOIN t AS b ON a.k = b.k) AS u WHERE u.key > 0 LIMIT 5) AS dst", ["Key", "other"]⟩ :=
    ok_of_toOption (by decide +kernel)
  exact ⟨hq, ht, _, h, rfl, compile_columns_eq_members hq ht h⟩

end RelSql
