/-
Grouping makes sound statements. Keys and arguments are built inside the statement of the input and
belong to it; where they are computed in an inner statement first, the outer one refers to its own
extent only.
-/
import RelSql.Proofs.Build.Operators

namespace RelSql

open RelSql.Part SelectItem Store List Build

/-- The items that are written for keys and aggregates. -/
def groupItems (keys : List (String × Part)) (aggregates : List (String × Aggregate Operand × Part)) :
    List (Part × String) :=
  keys.map (fun key => (key.2, key.1)) ++ aggregates.map fun a => (.group (aggregateParts a.2.1 a.2.2), a.1)

namespace Build

open Store (Sound FragmentSound Fresh Owns around)

section

variable {σ : Store} {path : Path} {ks : List (String × Part)} {as : List (String × Aggregate Operand × Part)}
  {x : SymbolId} {outer : StatementId} {name : String} {type : DataType}

variable {b b' b1 : Build} {i : StatementId} {keys : List (String × Operand)}
  {aggregates : List (String × Aggregate Operand)}

theorem sound_aggregateParts {n : Nat} {p : Part} (a : Aggregate Operand) (h : Sound σ n path [p]) :
    Sound σ n path (aggregateParts a p) := by
  unfold aggregateParts
  cases a.distinct <;> simpa using h

theorem keys_built (hr : Runs (keys.mapM buildKey) b ks b') :
    keys.map Prod.fst = ks.map Prod.fst ∧ ∀ k ∈ ks, k.2.IsOperand := by
  have hkey : ∀ key b1 k b2, Runs (buildKey key) b1 k b2 → key.1 = k.1 ∧ k.2.IsOperand := by
    intro key b1 k b2 hk
    simp only [buildKey, runs_bind, runs_pure] at hk
    obtain ⟨sql, _, -, rfl, -⟩ := hk
    exact ⟨rfl, toPart_ne sql⟩
  exact ⟨map_of_runs_mapM (fun key b1 k b2 hk => (hkey key b1 k b2 hk).1) hr,
    forall_of_runs_mapM (fun key b1 k b2 hk => (hkey key b1 k b2 hk).2) hr⟩

theorem arguments_built (hr : Runs (aggregates.mapM buildArgument) b as b') :
    aggregates.map Prod.fst = as.map Prod.fst ∧ ∀ a ∈ as, a.2.2.IsOperand := by
  have hargument : ∀ aggregate b1 a b2, Runs (buildArgument aggregate) b1 a b2 →
      aggregate.1 = a.1 ∧ a.2.2.IsOperand := by
    intro aggregate b1 a b2 ha
    simp only [buildArgument, runs_bind, runs_pure] at ha
    obtain ⟨sql, _, -, rfl, -⟩ := ha
    exact ⟨rfl, toPart_ne sql⟩
  exact ⟨map_of_runs_mapM (fun aggregate b1 a b2 ha => (hargument aggregate b1 a b2 ha).1) hr,
    forall_of_runs_mapM (fun aggregate b1 a b2 ha => (hargument aggregate b1 a b2 ha).2) hr⟩

/-- The texts of the keys and of the arguments, built one after the other. -/
theorem groupTexts_spec (hk : ∀ k ∈ keys, ValueOK k.2) (ha : ∀ a ∈ aggregates, ValueOK a.2.argument) (hb : Good b)
    (hj : b.inJoin = false) (hks : Runs (keys.mapM buildKey) b ks b1)
    (has : Runs (aggregates.mapM buildArgument) b1 as b') :
    Step b b' ∧ (∀ k ∈ ks, Sound b'.store b.store.size (around b.building) [k.2]) ∧
      ∀ a ∈ as, Sound b'.store b.store.size (around b.building) [a.2.2] := by
  have hkeys : Builds (Made []) (keys.mapM buildKey) fun ks => Made (ks.flatMap fun k => [k.2]) :=
    madeKind.mapM fun k hmem => madeKind.buildKey (hk k hmem)
  have harguments : Builds (Made []) (aggregates.mapM buildArgument) fun as => Made (as.flatMap fun a => [a.2.2]) :=
    madeKind.mapM fun a hmem => madeKind.buildArgument (ha a hmem)
  have hrun : Runs (keys.mapM buildKey >>= fun ks => aggregates.mapM buildArgument >>= fun as => pure (ks, as))
      b (ks, as) b' :=
    runs_bind.2 ⟨ks, b1, hks, runs_bind.2 ⟨as, b', has, runs_pure.2 ⟨rfl, rfl⟩⟩⟩
  have hboth : Builds (Made [])
      (keys.mapM buildKey >>= fun ks => aggregates.mapM buildArgument >>= fun as => pure (ks, as))
      fun r => Made ((r.1.flatMap fun k => [k.2]) ++ r.2.flatMap fun a => [a.2.2]) :=
    hkeys.bind fun ks => (harguments.frame _).bind fun as => builds_pure fun _ _ _ h => h
  obtain ⟨hs, hsound⟩ := hboth hb hj (le_refl _) sound_nil hrun
  rw [Made, sound_append, sound_flatMap, sound_flatMap] at hsound
  exact ⟨hs, hsound⟩

theorem groupInPlace_cases {k : StatementId} (hr : Runs (groupInPlace i keys aggregates) b k b') :
    ∃ ks as b1 b2, k = i ∧ Runs (keys.mapM buildKey) b ks b1 ∧ Runs (aggregates.mapM buildArgument) b1 as b2 ∧
      b' = { b2 with statements := b2.statements.modify i (withItems (namedItems (groupItems ks as))
        (separated ", " (ks.map fun k => [k.2])) (namedOutput (namedItems (groupItems ks as)))) } := by
  simp only [groupInPlace, appendSelect, appendGrouping, addOutput, runs_bind, runs_updateStatement,
    runs_pure] at hr
  obtain ⟨ks, b1, hks, as, b2, has, -, b3, hb3, -, b4, hb4, -, b5, hb5, rfl, rfl⟩ := hr
  refine ⟨ks, as, b1, b2, rfl, hks, has, (update_update (update_update hb3 hb4) hb5).trans ?_⟩
  congr 2
  funext s
  simp [withItems, groupItems, namedItems, namedOutput, Function.comp_def]

theorem forall_groupItems {p : Part × String → Prop} (hk : ∀ k ∈ ks, p (k.2, k.1))
    (ha : ∀ a ∈ as, p (.group (aggregateParts a.2.1 a.2.2), a.1)) : ∀ entry ∈ groupItems ks as, p entry :=
  forall_mem_append.2 ⟨forall_mem_map.2 hk, forall_mem_map.2 ha⟩

theorem named_groupItems (hks : Runs (keys.mapM buildKey) b ks b') :
    ∀ item ∈ namedItems (groupItems ks as), SelectItem.Named item.1 item.2 :=
  named_namedItems (forall_groupItems (keys_built hks).2 fun _ _ => isOperand_group _)

section

variable (hk : ∀ k ∈ keys, ValueOK k.2) (ha : ∀ a ∈ aggregates, ValueOK a.2.argument) (h : Opened b b1 i)
  (hnil : (b1.store.get i).selectList = []) (hj : b.inJoin = false)

include hk ha h hnil hj

theorem groupInPlace_spec {k : StatementId} (hr : Runs (groupInPlace i keys aggregates) b1 k b') :
    Owns b.store (around b.building) b'.store k ∧ SameStacks b1 b' := by
  obtain ⟨ks, as, b2, b3, rfl, hks, has, hb'⟩ := groupInPlace_cases hr
  obtain ⟨hs, hkeys, hargs⟩ := groupTexts_spec hk ha h.good (by rw [h.inJoin]; exact hj) hks has
  rw [h.building] at hkeys hargs
  have hgroup : Sound b3.store b1.store.size ((k, .body) :: around b.building)
      (separated ", " (ks.map fun k => [k.2])) := by
    rw [separated, sound_separated]
    exact forall_mem_map.2 hkeys
  obtain ⟨ho', hs'⟩ := withItems_spec (h.step hs).owns hb' ((hs.grows.text k h.owns.lt).selectList.trans hnil)
    (named_groupItems hks) (sound_namedItems (forall_groupItems hkeys fun a hmem =>
      sound_group.2 ⟨sound_aggregateParts a.2.1 (hargs a hmem), sound_nil⟩)) hgroup h.owns.lt (Or.inl rfl)
  exact ⟨ho', hs.same.trans hs'⟩

end

/-! ## Grouping over an inner statement -/

/-- The statement over a subselect, with its extent. -/
theorem place_overSubselect (v : View) :
    ((overSubselect i).withExtent x).place v = if v = .enclosed then [.statement i] else [] := by
  rw [Statement.place_withExtent]; cases v <;> rfl

/-- A statement over a subselect that is sound by itself. -/
theorem owns_over {τ : Store} (h : Owns σ path τ i) (hlt : outer < τ.size) (hle : σ.size ≤ outer)
    (hp : ∀ v, (τ.get outer).place v = ((overSubselect i).withExtent x).place v) : Owns σ path τ outer := by
  refine ⟨h.ok, h.grows, (sound_statement h.ok).2 ⟨hlt, hle, fun v => ?_⟩⟩
  rw [hp, place_overSubselect]
  cases v with
  | body | source => exact sound_nil
  | enclosed => exact h.sound.insert _ nofun

/-- The new statement over the one of the input leaves all that was there as it is. -/
theorem overInput_spec {u : PUnit} {b2 : Build} (h : Owns σ path b.store i)
    (hsub : Runs (subselect i name type false) b (outer, x) b1) (hdecl : Runs (declareExtent outer x) b1 u b2) :
    Step b b2 ∧ b.store.size ≤ outer ∧ outer < b2.store.size ∧
      b2.store.get outer = (overSubselect i).withExtent x := by
  obtain ⟨ho1, hs1, hin⟩ := subselect_spec h hsub
  obtain ⟨ho2, hs2, -⟩ := declareExtent_spec ho1 hin hdecl
  have hget1 := (get_subselect hsub).2
  obtain ⟨-, b, b3, ⟨⟨⟩, -⟩ | ⟨-, rfl, rfl⟩, hy, rfl, hb1⟩ := subselect_cases hsub
  obtain ⟨hn, -⟩ := newExtent_spec hy h.ok (by simp)
  have hstore1 : b1.store = b3.store.push (overSubselect i) := by rw [hb1]; rfl
  have hsize : b3.store.size = b.store.size := congrArg Array.size hn.statements
  rw [runs_declareExtent, hget1] at hdecl
  obtain ⟨-, hb2⟩ := hdecl.resolve_left fun hh => by cases hh.1
  obtain ⟨hreg, -⟩ := registered_spec ho1.ok x
  have hstore2 : b2.store = (b1.registered x).store.modify b3.store.size (·.withExtent x) := by rw [hb2]; rfl
  have hgrows1 : Store.Grows b.store.size b3.store b1.store := by
    rw [hstore1]; exact grows_push _ (le_of_eq hsize.symm) _
  have hgrows2 : Store.Grows b.store.size b1.store b2.store := by
    refine (hreg.grows.mono (hn.grows.size.trans hgrows1.size)).trans ?_
    rw [hstore2]; exact grows_modify (le_of_eq hsize.symm)
  refine ⟨⟨ho2.ok, hs1.trans hs2, (hn.grows.trans hgrows1).trans hgrows2⟩, le_of_eq hsize.symm, ho2.lt, ?_⟩
  rw [hstore2, get_modify_self (lt_of_lt_of_le ho1.lt hreg.grows.size), hreg.get, hget1]

theorem sound_innerColumn {n : Nat} {v : View} (hx : x ∈ (σ.get i).aliases) (hlt : x < σ.symbols.size) (name : String) :
    Sound σ n ((i, v) :: path) (innerColumn x name) := by
  have h : Sound σ n ((i, v) :: path) [.symbol x] := sound_symbol.2 ⟨hlt, fun _ => Or.inl hx⟩
  simpa [innerColumn] using h

/-- What an inner statement selects: keys and arguments, with their names there. -/
def innerEntries (keys : List (String × Part)) (aggregates : List (String × Aggregate Operand × Part)) :
    List (Part × String) :=
  (keys.zip (innerNames "key_" keys.length)).map (fun k => (k.1.2, k.2)) ++
    (aggregates.zip (innerNames "agg_" aggregates.length)).map fun a => (a.1.2.2, a.2)

theorem forall_innerEntries {p : Part × String → Prop} (hk : ∀ k ∈ ks, ∀ n, p (k.2, n))
    (ha : ∀ a ∈ as, ∀ n, p (a.2.2, n)) : ∀ entry ∈ innerEntries ks as, p entry :=
  forall_mem_append.2 ⟨forall_mem_map.2 fun k hmem => hk k.1 (of_mem_zip hmem).1 k.2,
    forall_mem_map.2 fun a hmem => ha a.1 (of_mem_zip hmem).1 a.2⟩

theorem named_innerEntries {b2 b3 : Build} (hks : Runs (keys.mapM buildKey) b ks b1)
    (has : Runs (aggregates.mapM buildArgument) b2 as b3) :
    ∀ item ∈ namedItems (innerEntries ks as), SelectItem.Named item.1 item.2 :=
  named_namedItems (forall_innerEntries (fun k hmem _ => (keys_built hks).2 k hmem)
    fun a hmem _ => (arguments_built has).2 a hmem)

theorem map_fst_innerNames {α β : Type} (f : α → β) (stem : String) (items : List α) :
    (items.zip (innerNames stem items.length)).map (fun z => f z.1) = items.map f := by
  have hfst : (items.zip (innerNames stem items.length)).map Prod.fst = items :=
    map_fst_zip (by simp [innerNames])
  have hmap := congrArg (map f) hfst
  rwa [map_map] at hmap

theorem map_snd_innerNames {α : Type} (stem : String) (items : List α) :
    (items.zip (innerNames stem items.length)).map Prod.snd = innerNames stem items.length :=
  map_snd_zip (by simp [innerNames])

/-- Each item has a name in the inner statement. -/
theorem eq_nil_of_zip_innerNames {α : Type} {items : List α} {stem : String}
    (h : items.zip (innerNames stem items.length) = []) : items = [] := by
  have hitems := map_fst_innerNames id stem items
  rwa [h, map_id, eq_comm] at hitems

/-- A key of the outer statement: a column of the inner one under the name of the key. -/
def outerKey (x : SymbolId) (key : (String × Part) × String) : List Part :=
  .line :: innerColumn x key.2 ++ [.text " AS ", .text key.1.1]

/-- An aggregate of the outer statement, over a column of the inner one. -/
def outerAggregate (x : SymbolId) (aggregate : (String × Aggregate Operand × Part) × String) : Part :=
  .group (aggregateParts aggregate.1.2.1 (.group (innerColumn x aggregate.2)))

theorem readAll_outerKey (x : SymbolId) (key : (String × Part) × String) (rest : List Part) :
    readAll "" {} (outerKey x key ++ rest) =
      readAll "" { expr := innerColumn x key.2, name := some (.text key.1.1) } rest := by
  simp [outerKey, innerColumn, readAll, add]

/-- The items of the outer statement. -/
def outerItems (x : SymbolId) (keys : List (String × Part)) (aggregates : List (String × Aggregate Operand × Part)) :
    List (List Part × String) :=
  (keys.zip (innerNames "key_" keys.length)).map (fun k => (outerKey x k, k.1.1)) ++
    (aggregates.zip (innerNames "agg_" aggregates.length)).map fun a => (selectItem (outerAggregate x a) a.1.1, a.1.1)

/-- The columns of the inner statement by which the outer one groups. -/
def outerGrouping (x : SymbolId) (keys : List (String × Part)) : List Part :=
  separated ", " ((innerNames "key_" keys.length).map (innerColumn x))

theorem map_snd_outerItems : (outerItems x ks as).map Prod.snd = ks.map Prod.fst ++ as.map Prod.fst := by
  rw [← map_fst_innerNames Prod.fst "key_" ks, ← map_fst_innerNames Prod.fst "agg_" as]
  simp [outerItems, Function.comp_def]

theorem named_outerItems : ∀ item ∈ outerItems x ks as, SelectItem.Named item.1 item.2 := by
  refine forall_mem_append.2 ⟨forall_mem_map.2 fun k _ => ?_, forall_mem_map.2 fun a _ => ?_⟩
  · exact ⟨cons_ne_nil _ _, innerColumn x k.2, readAll_outerKey x k⟩
  · exact named_selectItem (isOperand_group _) _

theorem groupOverInner_cases (hr : Runs (groupOverInner i name type keys aggregates) b outer b') :
    ∃ x ks as u b1 b2 b3 b4 b5, Runs (subselect i name type false) b (outer, x) b1 ∧
      Runs (declareExtent outer x) b1 u b2 ∧ Runs (keys.mapM buildKey) b2 ks b3 ∧
      Runs (aggregates.mapM buildArgument) b3 as b4 ∧
      b5 = { b4 with statements := b4.statements.modify i (withItems (namedItems (innerEntries ks as)) [] []) } ∧
      b' = { b5 with statements := b5.statements.modify outer (withItems (outerItems x ks as)
        (outerGrouping x ks) (namedOutput (outerItems x ks as))) } := by
  simp only [groupOverInner, appendSelect, appendGrouping, addOutput, runs_bind, runs_updateStatement,
    runs_pure] at hr
  obtain ⟨⟨j, x⟩, b1, hsub, u, b2, hdecl, ks, b3, hks, as, b4, has, -, b5, hb5, -, b6, hb6, -, b7, hb7,
    -, b8, hb8, rfl, rfl⟩ := hr
  refine ⟨x, ks, as, u, b1, b2, b3, b4, b5, hsub, hdecl, hks, has, hb5.trans ?_,
    (update_update (update_update hb6 hb7) hb8).trans ?_⟩
  · congr 2
    funext s
    simp [withItems, innerEntries, namedItems, Function.comp_def]
  · have houtput : namedOutput (outerItems x ks as) = (ks.map Prod.fst ++ as.map Prod.fst).map OutputColumn.named := by
      rw [← map_snd_outerItems (x := x), map_map]; rfl
    rw [houtput]
    congr 2
    funext s
    simp [withItems, outerItems, outerGrouping, outerKey, outerAggregate, Function.comp_def]

section

variable (hk : ∀ k ∈ keys, ValueOK k.2) (ha : ∀ a ∈ aggregates, ValueOK a.2.argument) (h : Opened b b1 i)
  (hnil : (b1.store.get i).selectList = []) (hj : b.inJoin = false)

include hk ha h hnil hj

/-- The inner statement selects the keys and the arguments, and the outer one still reads it. -/
theorem innerSelect_spec {u : PUnit} {b2 b3 b4 b5 : Build}
    (hsub : Runs (subselect i name type false) b1 (outer, x) b2) (hdecl : Runs (declareExtent outer x) b2 u b3)
    (hks : Runs (keys.mapM buildKey) b3 ks b4) (has : Runs (aggregates.mapM buildArgument) b4 as b5)
    (hb' : b' = { b5 with
      statements := b5.statements.modify i (withItems (namedItems (innerEntries ks as)) [] []) }) :
    b'.store.OK ∧ SameStacks b1 b' ∧ Owns b.store (around b.building) b'.store outer ∧ outer ≠ i ∧
      ((overSubselect i).withExtent x).SameText (b'.store.get outer) := by
  obtain ⟨hstep, hle, hlt, hget⟩ := overInput_spec h.owns hsub hdecl
  have h3 := h.step hstep
  obtain ⟨hs, hkeys, hargs⟩ := groupTexts_spec hk ha h3.good (by rw [h3.inJoin]; exact hj) hks has
  rw [h3.building] at hkeys hargs
  have hne : outer ≠ i := Nat.ne_of_gt (lt_of_lt_of_le h.owns.lt hle)
  have htext := hs.grows.text outer hlt
  rw [hget] at htext
  have hwrapped : b5.store.Wrapped i :=
    ⟨outer, by rw [htext.fromItems, Statement.fromItems_withExtent]; exact mem_append_left _ mem_cons_self⟩
  obtain ⟨ho', hs'⟩ := withItems_spec (h3.step hs).owns hb'
    (((hstep.trans hs).grows.text i h.owns.lt).selectList.trans hnil) (named_innerEntries hks has)
    (sound_namedItems (forall_innerEntries (fun k hmem _ => hkeys k hmem) fun a hmem _ => hargs a hmem)) sound_nil
    h3.owns.lt (Or.inr ⟨rfl, hwrapped⟩)
  have hsame : ((overSubselect i).withExtent x).SameText (b'.store.get outer) := by
    rw [store_update hb', get_modify_of_ne hne]; exact htext
  have hlt' : outer < b'.store.size := by
    have hsize : b'.store.size = b5.store.size := by rw [hb']; exact Array.size_modify ..
    rw [hsize]; exact lt_of_lt_of_le hlt hs.grows.size
  exact ⟨ho'.ok, (hstep.same.trans hs.same).trans hs',
    owns_over ho' hlt' (h.owns.grows.size.trans hle) fun v => by rw [hsame.place], hne, hsame⟩

theorem groupOverInner_spec (hr : Runs (groupOverInner i name type keys aggregates) b1 outer b') :
    Owns b.store (around b.building) b'.store outer ∧ SameStacks b1 b' := by
  obtain ⟨x, ks, as, _, b2, b3, b4, b5, b6, hsub, hdecl, hks, has, hb6, hb'⟩ := groupOverInner_cases hr
  obtain ⟨-, hs, hout, -, hsame⟩ := innerSelect_spec hk ha h hnil hj hsub hdecl hks has hb6
  have hx : x ∈ (b6.store.get outer).aliases := by
    rw [hsame.aliases, Statement.aliases_withExtent]; exact mem_append_right _ (mem_singleton_self x)
  have hxlt : x < b6.store.symbols.size := Symbols.lt_of_stands ((hout.ok.statement outer).aliases x hx).1
  have hcolumn : ∀ name, Sound b6.store (outer + 1) ((outer, .body) :: around b.building) (innerColumn x name) :=
    fun name => sound_innerColumn hx hxlt name
  have hitems : ∀ item ∈ outerItems x ks as, Sound b6.store (outer + 1) ((outer, .body) :: around b.building) item.1 := by
    refine forall_mem_append.2 ⟨forall_mem_map.2 fun k _ => ?_, forall_mem_map.2 fun a _ => ?_⟩
    · simpa [outerKey] using hcolumn k.2
    · have hgroup := sound_group.2 ⟨hcolumn a.2, sound_nil⟩
      exact sound_selectItem (sound_group.2 ⟨sound_aggregateParts a.1.2.1 hgroup, sound_nil⟩) _
  have hgrouping : Sound b6.store (outer + 1) ((outer, .body) :: around b.building) (outerGrouping x ks) := by
    rw [outerGrouping, separated, sound_separated]
    exact forall_mem_map.2 fun name _ => hcolumn name
  obtain ⟨ho', hs'⟩ := withItems_spec hout hb' hsame.selectList named_outerItems hitems hgrouping
    (Nat.lt_succ_self outer) (Or.inl rfl)
  exact ⟨ho', hs.trans hs'⟩

end

/-- A grouping opens the statement of its input, and writes keys and aggregates into that one or over it. -/
theorem group_cases {input : GroupBinding Operand} (hv : ValueOK input.expr) (hb : Good b) (hj : b.inJoin = false)
    (hr : Runs (group input keys aggregates) b i b') :
    ∃ k x b1 u b2 b3 b4, Runs (inputFor .groupBy input.expr input.var input.type) b (k, x) b1 ∧
      Owns b.store (around b.building) b1.store k ∧
      Runs (declareExtent k x) { b1 with building := k :: b1.building, scopes := b1.scopes.enter } u b2 ∧
      b3 = { b2 with scopes := (b2.scopes.add input.var x).add input.groupVar x } ∧ Opened b b3 k ∧
      (b3.store.get k).selectList = [] ∧
      Runs (if needsInner aggregates then groupOverInner k input.var input.type keys aggregates
        else groupInPlace k keys aggregates) b3 i b4 ∧
      b' = { b4 with scopes := b4.scopes.leave, building := b4.building.drop 1 } := by
  simp only [group, runs_bind, runs_within, runs_inScope, runs_bindVariable] at hr
  obtain ⟨⟨k, x⟩, b1, hin, _, ⟨b4, ⟨u, b2, hdecl, -, _, rfl, -, b3, hb3, hbody⟩, rfl⟩, rfl⟩ := hr
  obtain ⟨ho, hs, hi⟩ := inputFor_spec hv hb hj hin
  have hopen : Opened b b3 k := by
    obtain ⟨h, hsc⟩ := open_spec [input.groupVar, input.var] hb ho hs hi hdecl
    rw [hb3, hsc]; exact h
  have hnil : (b3.store.get k).selectList = [] := by
    have hfirst : (b1.store.get k).selectList = [] := inputFor_selectList rfl hin
    rw [hb3]
    exact (declareExtent_select hdecl k).trans hfirst
  exact ⟨k, x, b1, u, b2, b3, b4, hin, ho, hdecl, hb3, hopen, hnil, hbody, rfl⟩

theorem group_makes {input : GroupBinding Operand} (hv : ValueOK input.expr) (hk : ∀ k ∈ keys, ValueOK k.2)
    (ha : ∀ a ∈ aggregates, ValueOK a.2.argument) : MakesStatement (group input keys aggregates) := by
  intro b b' i hb hj hr
  obtain ⟨k, x, b1, _, b2, b3, b4, -, -, -, -, hopen, hnil, hbody, rfl⟩ := group_cases hv hb hj hr
  have hbody' : Owns b.store (around b.building) b4.store i ∧ SameStacks b3 b4 := by
    split at hbody
    · exact groupOverInner_spec hk ha hopen hnil hj hbody
    · exact groupInPlace_spec hk ha hopen hnil hj hbody
  refine ⟨hbody'.1, ?_, ?_, ?_⟩
  · change b4.building.drop 1 = b.building
    rw [hbody'.2.building, hopen.building]; rfl
  · exact hbody'.2.joins.trans hopen.joins
  · change b4.scopes.leave = b.scopes
    rw [hbody'.2.scopes]; exact hopen.scopes

end

end Build

end RelSql
