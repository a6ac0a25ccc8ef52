/-
The names in select lists. The columns of a star have different names in the text: two that started
with one name are both marked, and what is marked has a new name by the time it is written, one that no
column had before. The columns that a query reports are the names that the items of its outermost select
list have in the text.
-/
import RelSql.Proofs.Query.RepeatedKeys
import RelSql.Proofs.Query.SettledNames
import RelSql.Proofs.Query.SubselectColumns

namespace RelSql

open RelSql.Part Ident List Store

open Build (StarColumn memberNames)

/-! ## Columns of a star -/

theorem Part.subset_separated {separator : String} {item : List Part} :
    ∀ {items : List (List Part)}, item ∈ items → item ⊆ separated separator items
  | [_], h => by
    rw [mem_singleton.1 h, separated, intercalate_singleton]
    exact List.Subset.refl _
  | first :: second :: rest, h => by
    rw [separated, intercalate_cons_cons]
    rcases mem_cons.1 h with rfl | h
    · exact List.Subset.trans (subset_append_left _ _) (subset_append_left _ _)
    · exact List.Subset.trans (subset_separated h) (subset_append_right _ _)

namespace Writing

variable {symbols : Symbols} {statements : Statements}

/-- Each statement in the text has the columns of its select list there. -/
def ShowsColumns (statements : Statements) (symbols : Symbols) (pieces : List Piece) : Prop :=
  ∀ k, .enter k ∈ pieces → ∀ c, .symbol c ∈ atoms (statements.get k).selectList →
    .name c (symbols.get c).currentName ∈ pieces

theorem showsColumns_text (ps : List Part) : ShowsColumns statements symbols (text statements symbols ps) := by
  have hclosed : Closed statements symbols (ShowsColumns statements symbols) := by
    refine ⟨nofun, fun hp hq k hk c hc => ?_, fun s k hk => ?_, fun k hk => ?_, fun i k hk => ?_,
      fun {i nested} hp k hk c hc => ?_⟩
    · exact mem_append.2 ((mem_append.1 hk).imp (fun hk => hp k hk c hc) fun hk => hq k hk c hc)
    · cases mem_singleton.1 hk
    · cases mem_singleton.1 hk
    · cases mem_singleton.1 hk
    · refine mem_append_left _ (mem_cons_of_mem _ ?_)
      simp only [cons_append, mem_cons, mem_append, Piece.enter.injEq, reduceCtorEq, not_mem_nil,
        or_false] at hk
      rcases hk with rfl | hk
      · have hparts : .name c (symbols.get c).currentName ∈ parts symbols nested (statements.get k).selectList :=
          mem_flatMap.2 ⟨_, hc, mem_singleton_self _⟩
        simp only [clauses, mem_append, hparts, or_true, true_or]
      · exact hp k hk c hc
  exact hclosed.ofText ps

end Writing

/-- Columns that can be told apart have different names in the end, if the marked one has a new name. -/
theorem Names.TellsApart.currentName {σ : Store} {ν : Names} {c d : SymbolId} (h : σ.names.TellsApart c d)
    (hr : σ.Renaming ν) (hm : (σ.symbols.get c).needsRenaming = true → (ν.symbols.get c).isRenamed = true) :
    same (ν.symbols.get c).currentName (ν.symbols.get d).currentName = false := by
  have hcolumn : ∀ {e}, σ.names.Known e → ¬ σ.symbols.IsExtent e := by
    intro e he hext
    unfold Symbols.IsExtent at hext
    rw [show (σ.symbols.get e).type = none from he.type] at hext; cases hext
  have hknown : ∀ {e}, σ.names.Known e → σ.names.columns.contains (ν.symbols.get e).name = true := by
    intro e he
    rw [hr.name]; exact he.name
  by_cases hd : (ν.symbols.get d).isRenamed = true
  · rw [same_comm]
    exact hr.columns.apart (hcolumn h.right) (hcolumn h.left) h.ne.symm (hknown h.left) (Or.inl hd)
  · refine hr.columns.apart (hcolumn h.left) (hcolumn h.right) h.ne (hknown h.right) ?_
    by_contra hsame
    rw [not_or, Bool.not_eq_false] at hsame
    obtain ⟨hc, hsame⟩ := hsame
    -- both have their first names, so they are marked if these are one name
    have hfirst : (ν.symbols.get d).currentName = (ν.symbols.get d).name := by
      unfold Symbol.isRenamed at hd
      unfold Symbol.currentName
      rw [Option.not_isSome_iff_eq_none.1 hd]; rfl
    rw [hfirst, hr.name, hr.name] at hsame
    exact hc (hm (h.marked (same_symm hsame)).1)

/-- A marked column in a select list of the text has a new name by then. -/
theorem Render.isRenamed_of_marked {σ : Store} {ν : Names} {ps : List Part} {k : StatementId} {c : SymbolId} (hok : σ.OK)
    (h : σ.names.Traced ν (Writing.text σ.statements.written ν.symbols ps))
    (hk : .enter k ∈ Writing.text σ.statements.written ν.symbols ps) (hc : .symbol c ∈ atoms (σ.get k).selectList)
    (hm : (σ.symbols.get c).needsRenaming = true) : (ν.symbols.get c).isRenamed = true := by
  obtain ⟨events, htrace, hwritten⟩ := h
  have hselect : (σ.statements.written.get k).selectList = (σ.get k).selectList := by
    rw [Statements.get_written]
    unfold Statement.written
    split <;> rfl
  have hname := Writing.showsColumns_text ps k hk c (by rw [hselect]; exact hc)
  have hevent : .written c (ν.symbols.get c).currentName ∈ events.filter NameEvent.isWritten := by
    rw [hwritten]
    exact mem_filterMap.2 ⟨_, hname, rfl⟩
  obtain ⟨before, after, rfl⟩ := append_of_mem
    (htrace.renamed_of_marked (hok.symbols.original c) hm (mem_filter.1 hevent).1)
  unfold Symbol.isRenamed
  rw [(Names.Trace.split before htrace).1]; rfl

/-- The names of the columns of a star are different in the text, if those of the members are for each extent
that has filed one of the columns. -/
theorem compile_stars_distinct {config : Config} {query : Expr} {compiled : CompiledQuery}
    (h : Query.compile config query = .ok compiled) :
    ∃ f b names, WrittenFrom config query compiled f b names ∧
      ∀ k, .enter k ∈ Writing.text b.statements.written names.symbols [f.toPart] → ∀ stars : List StarColumn,
        (b.statements.get k).selectList = Part.separated ", " (stars.map StarColumn.parts) →
        b.names.symbols.Proper (stars.map StarColumn.column) →
        (stars.map fun c => (names.symbols.get c.column).currentName).Pairwise fun m n => Ident.same m n = false := by
  obtain ⟨f, b, pieces, names, hp, hr, rfl⟩ := exists_of_compile h
  obtain ⟨hok, hs⟩ := Query.plan_sound hp
  obtain ⟨hnames, rfl, -, -, htraced⟩ := Render.renderParts_spec hok hs hr
  refine ⟨f, b, names, ⟨hp, by rw [hr], rfl⟩, fun k hk stars hstars hproper => ?_⟩
  have hexposed : (b.statements.get k).exposed = (stars.map StarColumn.column).map Part.symbol := by
    rw [List.map_map]; exact Statement.exposed_stars hstars
  have hapart := (hok.tidy.selects k).stars _ hexposed hproper
  rw [List.pairwise_map] at hapart ⊢
  refine hapart.imp_of_mem fun {c d} hc _ hcd => hcd.currentName hnames (Render.isRenamed_of_marked hok htraced hk ?_)
  change .symbol c.column ∈ Part.atoms (b.statements.get k).selectList
  rw [hstars]
  refine Part.mem_atoms_of_mem (q := .symbol c.column) (Part.subset_separated (List.mem_map_of_mem hc) ?_) (by simp)
  unfold StarColumn.parts
  split <;> simp

/-- The rows of a table with the given members. -/
def namesTable (name : String) (members : List String) : Expr :=
  .scan { name, members := members.map fun m => (m, .scalar .string) }

/-- A nested join, and beside it a table that has the number in one of its names that comes next. -/
def numberedNames : Expr :=
  .crossJoin [(firstTwo (.crossJoin [(namesTable "p" ["Name", "Name1"]).bind "a",
    (namesTable "t" ["Name", "name2"]).bind "b"])).bind "j", (namesTable "v" ["Name", "Name3"]).bind "c"]

theorem numberedNames_compiled : Query.compile {} numberedNames = .ok
    ⟨"SELECT j.Name4, j.Name1, j.Name5, j.name2, c.Name AS Name6, c.Name3 AS Name3 FROM " ++
      "(SELECT a.Name AS Name4, a.Name1 AS Name1, b.Name AS Name5, b.name2 AS name2 " ++
        "FROM p AS a CROSS JOIN t AS b LIMIT 2) AS j CROSS JOIN v AS c",
      ["Name4", "Name1", "Name5", "name2", "Name6", "Name3"]⟩ :=
  ok_of_toOption (by decide +kernel)

/-- No extent of the query has two members of one name. -/
theorem numberedNames_proper {f : Fragment} {b : Build} (h : Query.plan {} numberedNames = .ok (f, b))
    (columns : List SymbolId) : b.names.symbols.Proper columns := by
  have hall : ((Query.plan {} numberedNames).toOption.map fun r => r.2.names.symbols.toList.all fun s =>
      decide ((memberNames s).Pairwise fun m n => same m n = false)) = some true := by decide +kernel
  rw [h] at hall
  intro c _ e key hfiles
  have hmem : b.names.symbols.get e ∈ b.names.symbols.toList := by
    unfold Symbols.get
    rw [Array.getD_eq_getD_getElem?, Array.getElem?_eq_getElem hfiles.lt]
    exact Array.getElem_mem_toList hfiles.lt
  exact of_decide_eq_true (all_eq_true.1 (Option.some.inj hall) _ hmem)

/-- New numbers are none that another column has, in the nested join and outside of it. -/
theorem numberedNames_distinct :
    ∃ compiled, Query.compile {} numberedNames = .ok compiled ∧
      compiled.text = "SELECT j.Name4, j.Name1, j.Name5, j.name2, c.Name AS Name6, c.Name3 AS Name3 FROM " ++
        "(SELECT a.Name AS Name4, a.Name1 AS Name1, b.Name AS Name5, b.name2 AS name2 " ++
          "FROM p AS a CROSS JOIN t AS b LIMIT 2) AS j CROSS JOIN v AS c" ∧
      ∃ f b names, WrittenFrom {} numberedNames compiled f b names ∧
        ∀ k, .enter k ∈ Writing.text b.statements.written names.symbols [f.toPart] → ∀ stars : List StarColumn,
          (b.statements.get k).selectList = Part.separated ", " (stars.map StarColumn.parts) →
          (stars.map fun c => (names.symbols.get c.column).currentName).Pairwise fun m n => Ident.same m n = false := by
  obtain ⟨f, b, names, hwritten, hall⟩ := compile_stars_distinct numberedNames_compiled
  exact ⟨_, numberedNames_compiled, rfl, f, b, names, hwritten, fun k hk stars hs =>
    hall k hk stars hs (numberedNames_proper hwritten.plan _)⟩

/-! ## Reported columns -/

/-- The name that the part is in the text. -/
def Part.nameIn (symbols : Symbols) : Part → Option String
  | .text name => some name
  | .symbol c => some (symbols.get c).currentName
  | _ => none

/-- The names that the items of the select list have in the text, behind `AS` or behind the dot. -/
def Statement.itemNames (s : Statement) (symbols : Symbols) : List (Option String) :=
  (SelectItem.read s.selectList).map fun item => item.exposed?.bind (nameIn symbols)

theorem Statement.Reports.itemNames {s : Statement} (h : s.Reports) (symbols : Symbols) :
    s.itemNames symbols = (s.outputNames symbols).map some := by
  have hitems : s.itemNames symbols =
      ((SelectItem.read s.selectList).map SelectItem.exposed?).map (Option.bind · (nameIn symbols)) := by
    rw [map_map]; rfl
  rw [hitems, h, outputNames, map_map, map_map]
  refine map_congr_left fun c _ => ?_
  cases c <;> rfl

namespace Query

/-- The statement of a whole query stands in no other one. -/
theorem not_wrapped_root {config : Config} {query : Expr} {b : Build} {i : StatementId}
    (h : plan config query = .ok (.statement i, b)) : ¬ b.store.Wrapped i := by
  rintro ⟨l, hl⟩
  have hlinear := (plan_linear (fun h : False => h.elim) h).1
  have hatom : .statement i ∈ atoms (b.statements.get l).fromList :=
    Statement.atoms_enclosed_subset _ _ (mem_atoms_of_mem (mem_filterMap.2 ⟨_, hl, rfl⟩) (by simp))
  have hnested : b.statements.StandsIn i l := by
    unfold Statements.StandsIn Statement.nested
    simp [mem_statements.2 hatom]
  exact hlinear.not_standsIn (by simp) hnested

end Query

/-- The columns that a query reports are the names that the items of its outermost select list have in the
text, one for each and in their order, unless that list is one value without a name. -/
theorem compile_columns_named {config : Config} {query : Expr} {compiled : CompiledQuery}
    (hc : query.type.isCollection = true) (h : Query.compile config query = .ok compiled) :
    ∃ i b names, WrittenFrom config query compiled (.statement i) b names ∧
      ((∀ p, (b.statements.get i).selectList ≠ [p]) →
        (b.statements.get i).itemNames names.symbols = compiled.columns.map some) := by
  obtain ⟨f, b, pieces, names, hp, hr, rfl⟩ := exists_of_compile h
  obtain ⟨hok, hs⟩ := Query.plan_sound hp
  obtain ⟨-, rfl, -⟩ := Render.renderParts_spec hok hs hr
  obtain ⟨hrun, -⟩ := Query.runs_of_plan hp
  simp only [Query.root, hc, if_true, Build.runs_bind, Build.runs_pure] at hrun
  obtain ⟨i, -, -, -, -, -, rfl, -⟩ := hrun
  refine ⟨i, b, names, ⟨hp, by rw [hr], rfl⟩, fun hmany => ?_⟩
  rcases (hok.tidy.selects i).reports with ⟨p, hone⟩ | hreports | ⟨-, hwrapped⟩
  · exact absurd hone (hmany p)
  · exact hreports.itemNames names.symbols
  · exact absurd hwrapped (Query.not_wrapped_root hp)

/-- The columns of the nested join are named without `AS`. -/
theorem numberedNames_columns :
    ∃ compiled, Query.compile {} numberedNames = .ok compiled ∧
      compiled.columns = ["Name4", "Name1", "Name5", "name2", "Name6", "Name3"] ∧
      ∃ i b names, WrittenFrom {} numberedNames compiled (.statement i) b names ∧
        (b.statements.get i).itemNames names.symbols = compiled.columns.map some := by
  obtain ⟨i, b, names, hwritten, hnames⟩ := compile_columns_named rfl numberedNames_compiled
  refine ⟨_, numberedNames_compiled, rfl, i, b, names, hwritten, hnames fun p hone => ?_⟩
  have hlength : ((Query.plan {} numberedNames).toOption.map fun r =>
      r.1.statements.map fun i => (r.2.statements.get i).selectList.length) = some [27] := by decide +kernel
  rw [hwritten.plan] at hlength
  have h27 : (b.statements.get i).selectList.length = 27 := by simpa [Except.toOption] using hlength
  rw [hone] at h27
  cases h27

end RelSql
