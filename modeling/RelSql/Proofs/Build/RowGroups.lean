/-
Grouping keeps columns within reach. In one statement the keys and the arguments read the rows of the
input. Over an inner statement the outer one reads the columns that the inner one names for them.
-/
import RelSql.Proofs.Build.Grouping
import RelSql.Proofs.Build.RowOperators

namespace RelSql.Build

open RelSql.Part Statement List Store

variable {vars : List Member} {b b' b1 : Build} {i : StatementId} {x : SymbolId} {ty ty' : DataType}
  {keys : List (String × Operand)} {aggregates : List (String × Aggregate Operand)} {ks : List (String × Part)}
  {as : List (String × Aggregate Operand × Part)}

/-! ## Keys and arguments -/

theorem groupTexts_reads (hk : ∀ k ∈ keys, ValueReads vars k.2) (ha : ∀ a ∈ aggregates, ValueReads vars a.2.argument)
    (hb : Ready vars b) (hks : Runs (keys.mapM buildKey) b ks b1) (has : Runs (aggregates.mapM buildArgument) b1 as b') :
    Step b b' ∧ b'.store.ColumnsOK ∧ (∀ k ∈ ks, b'.store.Legible [k.2]) ∧ ∀ a ∈ as, b'.store.Legible [a.2.2] := by
  have hkeys : Reads vars (AllLegible []) (keys.mapM buildKey) fun ks => AllLegible (ks.map fun k => [k.2]) :=
    legibleKind.mapM fun k hmem => legibleKind.buildKey (hk k hmem)
  have harguments : Reads vars (AllLegible []) (aggregates.mapM buildArgument) fun as =>
      AllLegible (as.map fun a => [a.2.2]) :=
    legibleKind.mapM fun a hmem => legibleKind.buildArgument (ha a hmem)
  obtain ⟨hs, hc, hlk⟩ := hkeys hb allLegible_nil hks
  obtain ⟨hs', hc', hlegible⟩ := harguments.frame _ (hb.step hs hc) hlk has
  refine ⟨hs.trans hs', hc', fun k hmem => hlegible _ ?_, fun a hmem => hlegible _ ?_⟩
  · exact mem_append_left _ (mem_map_of_mem hmem)
  · exact mem_append_right _ (mem_map_of_mem hmem)

theorem readsOnly_aggregateParts {p : SymbolId → Part → Prop} {r : Part} (a : Aggregate Operand)
    (h : Part.ReadsOnly p [r]) : Part.ReadsOnly p (aggregateParts a r) := by
  have hcall : Part.ReadsOnly p [r, .text ")"] := h.cons_text readsOnly_nil (by decide)
  unfold aggregateParts
  cases a.distinct <;> simpa using hcall

/-! ## Grouping over an inner statement -/

section

variable {outer : StatementId} {name : String} {u : PUnit} {b2 : Build}

/-- The new statement over the one of the input declares a plain extent. -/
theorem overInput_columns {σ : Store} {path : Path} (h : Owns σ path b.store i) (hc : b.store.ColumnsOK)
    (hrow : ty.isRow = true) (hsub : Runs (subselect i name ty false) b (outer, x) b1)
    (hdecl : Runs (declareExtent outer x) b1 u b2) :
    b2.store.ColumnsOK ∧ (b2.store.symbols.get x).join = none := by
  obtain ⟨ho1, -, -⟩ := subselect_spec h hsub
  have hget := (get_subselect hsub).2
  obtain ⟨-, b, b3, ⟨⟨⟩, -⟩ | ⟨-, rfl, rfl⟩, hy, rfl, hb1⟩ := subselect_cases hsub
  have hbridge : Bridges b.store (fun _ => False) ty none := ⟨hrow, fun _ h => h.elim⟩
  obtain ⟨hn, -⟩ := newExtent_spec hy h.ok (by simp)
  obtain ⟨hc3, -, hunused, -⟩ := newExtent_columns hc h.ok (by simp) hbridge hy
  have hstore1 : b1.store = b3.store.push (overSubselect i) := by rw [hb1]; rfl
  have hplain : (b1.store.symbols.get x).join = none := by
    obtain ⟨rfl, hb3⟩ := runs_newSymbol.1 hy
    have hx : b1.store.symbols.get b.names.symbols.size = .extent name ty := by
      rw [hb1, hb3]; exact (Symbols.get_push _ _ _).trans (if_pos rfl)
    rw [hx]; rfl
  obtain ⟨hc1, hunused1⟩ := columns_overSubselect hc3 hn.store (by rw [← hstore1]; exact ho1.ok) hunused
  rw [← hstore1] at hc1 hunused1
  obtain ⟨hstore, hc2, -⟩ := declareFirst_columns ho1 hc1 (by rw [hget]; rfl) (by rw [hget]; rfl) hunused1
    (by simp [hplain]) hdecl
  exact ⟨hc2, by rw [hstore]; exact hplain⟩

section

variable {p : SymbolId → Part → Prop}

theorem readsOnly_innerColumn {n : String} (h : p x (.text n)) : Part.ReadsOnly p (innerColumn x n) :=
  readsOnly_column (by simp) h

theorem readsOnly_outerGrouping (h : ∀ n ∈ innerNames "key_" ks.length, p x (.text n)) :
    Part.ReadsOnly p (outerGrouping x ks) :=
  readsOnly_separated (by decide) (forall_mem_map.2 fun n hn => readsOnly_innerColumn (h n hn))

/-- The select list of the outer statement reads the columns of the inner one. -/
theorem readsOnly_outerItems (h : ∀ n ∈ innerNames "key_" ks.length ++ innerNames "agg_" as.length, p x (.text n)) :
    ∀ item ∈ outerItems x ks as, Part.ReadsOnly p item.1 := by
  refine forall_mem_append.2 ⟨forall_mem_map.2 fun k hk => ?_, forall_mem_map.2 fun a ha => ?_⟩
  · have hkey := h k.2 (mem_append_left _ (of_mem_zip hk).2)
    exact readsOnly_line.2 (Part.ReadsOnly.append_text (readsOnly_innerColumn hkey)
      (readsOnly_text.2 readsOnly_nil) (by decide))
  · have hargument := h a.2 (mem_append_right _ (of_mem_zip ha).2)
    refine readsOnly_selectItem (readsOnly_group.2 ?_) _
    rw [append_nil]
    exact readsOnly_aggregateParts _ (readsOnly_group.2 (by
      rw [append_nil]; exact readsOnly_innerColumn hargument))

end

/-- What the inner statement offers can be read off the extent of the outer one. -/
theorem readable_inner {σ : Store} {n : String} (hs : ((overSubselect i).withExtent x).SameText (σ.get outer))
    (hj : (σ.symbols.get x).join = none) (hn : σ.Offers i n) : σ.Readable x (.text n) := by
  refine Or.inr ⟨outer, ?_, fun j hw => ⟨hj, ?_⟩⟩
  · rw [hs.aliases, aliases_withExtent]; exact mem_append_right _ (mem_singleton_self x)
  · have hw' : ((overSubselect i).withExtent x).Wraps j x := by
      unfold Statement.Wraps at hw ⊢
      rwa [hs.fromItems] at hw
    rcases wraps_withExtent.1 hw' with hw | ⟨-, hp⟩
    · cases hw.alias
    · rw [pending_overSubselect hp]; exact hn

end

/-! ## Keys and aggregates -/

section

variable (hk : ∀ k ∈ keys, ValueOK k.2) (ha : ∀ a ∈ aggregates, ValueOK a.2.argument)
  (hkr : ∀ k ∈ keys, ValueReads vars k.2) (har : ∀ a ∈ aggregates, ValueReads vars a.2.argument) (h : Opened b b1 i)
  (hj : b.inJoin = false) (hb : Ready vars b1) (hacc : (b1.store.get i).accepts .groupBy = true)
  (hnames : ty'.properties.map Prod.fst = keys.map Prod.fst ++ aggregates.map Prod.fst)

include hk ha hkr har h hj hb hacc hnames

theorem groupInPlace_columns {k : StatementId} (hrows : b1.store.RowsOf i x ty)
    (hr : Runs (groupInPlace i keys aggregates) b1 k b') : b'.store.ColumnsOK ∧ ∃ y, b'.store.RowsOf k y ty' := by
  have ho' := (groupInPlace_spec hk ha h (accepts_groupBy hacc).1 hj hr).1
  obtain ⟨ks, as, b2, b3, rfl, hks, has, hb'⟩ := groupInPlace_cases hr
  obtain ⟨hs, hc, hkeys, hargs⟩ := groupTexts_reads hkr har hb hks has
  have hsame := hs.grows.text k h.owns.lt
  obtain ⟨hnone, hgrouping, -⟩ := accepts_groupBy ((hsame.sameClauses.accepts .groupBy).trans hacc)
  have hrows3 := hrows.lasts h.good.store hs.store hs.grows.lasts hsame.selectList hsame.fromExtents
  have hlegible : ∀ item ∈ namedItems (groupItems ks as), b3.store.Legible item.1 :=
    readsOnly_namedItems (forall_groupItems hkeys fun a hmem =>
      legible_group.2 (readsOnly_aggregateParts _ (hargs a hmem)))
  have hgroups : b3.store.Legible (separated ", " (ks.map fun k => [k.2])) :=
    readsOnly_separated (by decide) (forall_mem_map.2 hkeys)
  obtain ⟨hc', hrows'⟩ := withItems_rows hs.store ho'.ok (lt_of_lt_of_le h.owns.lt hs.grows.size) hc hb' hnone
    (named_groupItems hks) hlegible (by rw [hgrouping]; exact hgroups) hrows3.extents (fun _ => hrows3)
    (by rw [hnames, (keys_built hks).1, (arguments_built has).1]; simp [groupItems, namedItems, Function.comp_def])
  exact ⟨hc', x, hrows'⟩

theorem groupOverInner_columns {outer : StatementId} {name : String} (hrow : ty.isRow = true) (hne : aggregates ≠ [])
    (hr : Runs (groupOverInner i name ty keys aggregates) b1 outer b') :
    b'.store.ColumnsOK ∧ ∃ y, b'.store.RowsOf outer y ty' := by
  have hnil := (accepts_groupBy hacc).1
  have ho' := (groupOverInner_spec hk ha h hnil hj hr).1
  obtain ⟨x, ks, as, _, b2, b3, b4, b5, b6, hsub, hdecl, hks, has, hb6, hb'⟩ := groupOverInner_cases hr
  obtain ⟨hok6, -, hout, -, hsame⟩ := innerSelect_spec hk ha h hnil hj hsub hdecl hks has hb6
  obtain ⟨hstep, -, -, hget⟩ := overInput_spec h.owns hsub hdecl
  obtain ⟨hc3, hplain⟩ := overInput_columns h.owns hb.columns hrow hsub hdecl
  obtain ⟨hs, hc5, hkeys, hargs⟩ := groupTexts_reads hkr har (hb.step hstep hc3) hks has
  have hinner := (hstep.trans hs).grows.text i h.owns.lt
  have hgrouping := (forall_mem_clauses.1 (hc5.reads i)).2.2.2.1
  obtain ⟨hc6, hl6, hexp⟩ := withItems_columns hs.store hok6 (lt_of_lt_of_le h.owns.lt (hstep.trans hs).grows.size) hc5
    hb6 (hinner.selectList.trans hnil) (named_innerEntries hks has)
    (readsOnly_namedItems (forall_innerEntries (fun k hmem _ => hkeys k hmem) fun a hmem _ => hargs a hmem))
    (by rw [append_nil]; exact hgrouping)
  -- the alias of the input stands for no join, so that its columns are read by their names
  have hplain6 : (b6.store.symbols.get x).join = none := by
    have hx : x ∈ (b3.store.get outer).aliases := by rw [hget, aliases_withExtent]; simp
    have hgrows := hs.grows.symbols.trans hl6.symbols
    rw [(hgrows.symbol x (lt_of_alias hstep.store hx)).join]; exact hplain
  have hread : ∀ n ∈ innerNames "key_" ks.length ++ innerNames "agg_" as.length, b6.store.Readable x (.text n) := by
    intro n hn
    refine readable_inner hsame hplain6 (Or.inl ⟨n, ?_, Ident.same_refl n⟩)
    rw [hexp]
    refine mem_map_of_mem ?_
    rw [← map_snd_innerNames "key_" ks, ← map_snd_innerNames "agg_" as] at hn
    simpa [namedItems, innerEntries, Function.comp_def] using hn
  have hitems : outerItems x ks as = [] → b6.store.RowsOf outer x ty' := by
    intro hnil
    have hempty := eq_nil_of_zip_innerNames (map_eq_nil_iff.1 (append_eq_nil_iff.1 hnil).2)
    have hlength := List.Forall₂.length_eq (forall₂_of_runs_mapM has)
    rw [hempty] at hlength
    exact absurd (length_eq_zero_iff.1 hlength) hne
  obtain ⟨hc', hrows⟩ := withItems_rows hok6 ho'.ok hout.lt hc6 hb' hsame.selectList named_outerItems
    (readsOnly_outerItems hread) (by
      rw [hsame.sameClauses.grouping]
      exact readsOnly_outerGrouping fun n hn => hread n (mem_append_left _ hn))
    hsame.fromExtents hitems (by rw [hnames, (keys_built hks).1, (arguments_built has).1, map_snd_outerItems])
  exact ⟨hc', x, hrows⟩

end

/-- Grouping shows rows with its keys and aggregates. -/
theorem group_reads {input : GroupBinding Operand} (hv : RowsRead vars input.expr)
    (ht : input.type = input.expr.expr.rowType) (hk : ∀ k ∈ keys, ValueOK k.2)
    (ha : ∀ a ∈ aggregates, ValueOK a.2.argument)
    (hkr : ∀ k ∈ keys, ValueReads ((input.groupVar, input.type) :: (input.var, input.type) :: vars) k.2)
    (har : ∀ a ∈ aggregates, ValueReads ((input.groupVar, input.type) :: (input.var, input.type) :: vars) a.2.argument)
    (hnames : ty.properties.map Prod.fst = keys.map Prod.fst ++ aggregates.map Prod.fst) :
    Reads vars (AllLegible []) (group input keys aggregates) fun i σ => ∃ x, σ.RowsOf i x ty := by
  intro b b' i hb _ hr
  obtain ⟨ho', hs'⟩ := group_makes hv.sound hk ha hb.good hb.free hr
  refine ⟨⟨ho'.ok, hs', ho'.grows⟩, ?_⟩
  obtain ⟨k, x, b1, _, b2, b3, b4, hin, -, hdecl, hb3, hopen, -, hbody, rfl⟩ := group_cases hv.sound hb.good hb.free hr
  rw [ht] at hin hbody hkr har
  obtain ⟨hc, hbound, hacc, hsel, hrows⟩ := open_columns (fun s hs => (accepts_groupBy hs).1) hv hb hin hdecl
  have hstore : b3.store = b2.store := by rw [hb3]; rfl
  have hview := (hrows.views hsel).1
  have hready : Ready ((input.groupVar, input.expr.expr.rowType) :: (input.var, input.expr.expr.rowType) :: vars) b3 := by
    refine ⟨hopen.good, by rw [hopen.inJoin]; exact hb.free, by rw [hstore]; exact hc, ?_⟩
    rw [hb3]
    exact (hbound.add hview).add hview
  rw [← hstore] at hacc hrows
  change b4.store.ColumnsOK ∧ ∃ y, b4.store.RowsOf i y ty
  rcases runs_ite.1 hbody with ⟨hneeds, hbody⟩ | ⟨-, hbody⟩
  · have hne : aggregates ≠ [] := by rintro rfl; cases hneeds
    exact groupOverInner_columns hk ha hkr har hopen hb.free hready hacc hnames hv.row hne hbody
  · exact groupInPlace_columns hk ha hkr har hopen hb.free hready hacc hnames hrows hbody

end RelSql.Build
