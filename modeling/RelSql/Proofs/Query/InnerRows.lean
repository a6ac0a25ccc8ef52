/-
Grouping over an inner statement. Where an argument of an aggregate is more than a column, the statement
of the input selects the keys and the arguments under names of their own, and a statement around it
groups by those columns. That groups the rows which the first statement returns unless `DISTINCT` then
compares the selected columns in place of the rows; without keys it makes one row out of no rows.
-/
import RelSql.Proofs.Naming.Fresh
import RelSql.Proofs.Query.OperatorRows

namespace RelSql

open RelSql.Part Statement SelectItem List Build

/-! ## Rows of a subselect -/

section

variable {Row Value : Type}

/-- The columns of a row that have a name. -/
def Output.columns : Output Row Value → List (String × Value)
  | whole _ => []
  | record fields => fields.filterMap fun
    | (some (.text name), value) => some (name, value)
    | _ => none

theorem Output.columns_record (names : List (String × Value)) :
    (record (names.map fun n => (some (.text n.1), n.2)) : Output Row Value).columns = names := by
  change filterMap _ (names.map _) = names
  rw [filterMap_map]
  exact filterMap_some

/-- The reading of a statement over a subselect with the alias `x`: a column of the alias has the value
that the row of the subselect has under its name. -/
def Reading.outer (R : Reading Row Value) (x : SymbolId) : Reading (List (String × Value)) Value where
  holds _ _ := true
  value expr row := match atoms expr with
    | [.symbol y, .text ".", .text name] => if y = x then (row.lookup name).getD R.null else R.null
    | _ => R.null
  null := R.null
  aggregate? := R.aggregate?
  precedes _ _ _ := true
  precedes_total _ _ _ := Or.inl rfl
  precedes_trans _ _ _ _ _ _ := rfl
  count := R.count

end

/-! ## The two statements -/

/-- The select list of the inner statement. -/
def innerSelect (keys : List (String × Part)) (aggregates : List (String × Aggregate Operand × Part)) : List Part :=
  separated ", " ((innerEntries keys aggregates).map fun e => selectItem e.1 e.2)

/-- The statement with another select list. -/
def Statement.withSelect (s : Statement) (selectList : List Part) : Statement := { s with selectList }

/-- The clauses of the outer statement. -/
def outerClauses (x : SymbolId) (keys : List (String × Part)) (aggregates : List (String × Aggregate Operand × Part)) :
    Statement where
  selectList := separated ", " ((outerItems x keys aggregates).map Prod.fst)
  grouping := outerGrouping x keys

section

variable {keys : List (String × Part)} {aggregates : List (String × Aggregate Operand × Part)} {x : SymbolId}

theorem innerName_injective (stem : String) : Function.Injective (innerName stem) := by
  intro m n h
  have hlist := congrArg String.toList h
  simp only [innerName, Digits.ofNat, String.toList_append, String.toList_ofList, append_cancel_left_eq] at hlist
  exact Digits.decimal_injective hlist

/-- The names in the inner statement tell its columns apart. -/
theorem innerEntries_nodup : ((innerEntries keys aggregates).map Prod.snd).Nodup := by
  have hnodup : ∀ (stem : String) n, (innerNames stem n).Nodup := fun stem n =>
    nodup_range.map (innerName_injective stem)
  unfold innerEntries
  rw [map_append, map_map, map_map]
  change ((keys.zip _).map Prod.snd ++ (aggregates.zip _).map Prod.snd).Nodup
  rw [map_snd_innerNames, map_snd_innerNames]
  refine (hnodup _ _).append (hnodup _ _) fun name hk ha => ?_
  obtain ⟨m, -, rfl⟩ := mem_map.1 hk
  obtain ⟨n, -, h⟩ := mem_map.1 ha
  have hlist := congrArg (fun s => s.toList.head?) h
  simp [innerName] at hlist

theorem read_inner (hparts : ∀ e ∈ innerEntries keys aggregates, e.1.IsOperand) :
    read (innerSelect keys aggregates) =
      (innerEntries keys aggregates).map fun e => { expr := [e.1], name := some (.text e.2) } :=
  read_selectItems hparts

theorem readAll_innerColumn (name : String) (rest : List Part) :
    readAll "" {} (innerColumn x name ++ rest) = readAll "" { expr := innerColumn x name } rest := by
  simp [innerColumn, readAll, add]

theorem read_outerGrouping : read (outerClauses x keys aggregates).grouping =
    (innerNames "key_" keys.length).map fun name => { expr := innerColumn x name } :=
  read_separated (fun _ _ => cons_ne_nil _ _) fun name _ => readAll_innerColumn name

theorem read_outer : read (outerClauses x keys aggregates).selectList =
    (keys.zip (innerNames "key_" keys.length)).map
        (fun k => { expr := innerColumn x k.2, name := some (.text k.1.1) }) ++
      (aggregates.zip (innerNames "agg_" aggregates.length)).map
        fun a => { expr := [outerAggregate x a], name := some (.text a.1.1) } := by
  -- the items are read as pairs of their parts and what these are read as
  have hread := @read_separated _ Prod.fst Prod.snd
    ((keys.zip (innerNames "key_" keys.length)).map
        (fun k => (outerKey x k, ({ expr := innerColumn x k.2, name := some (.text k.1.1) } : SelectItem))) ++
      (aggregates.zip (innerNames "agg_" aggregates.length)).map
        fun a => (selectItem (outerAggregate x a) a.1.1, { expr := [outerAggregate x a], name := some (.text a.1.1) }))
    (forall_mem_append.2 ⟨forall_mem_map.2 fun _ _ => cons_ne_nil _ _,
      forall_mem_map.2 fun _ _ => cons_ne_nil _ _⟩)
    (forall_mem_append.2 ⟨forall_mem_map.2 fun k _ => readAll_outerKey x k,
      forall_mem_map.2 fun a _ => readAll_selectItem (p := outerAggregate x a) (isOperand_group _) _⟩)
  simpa [outerClauses, outerItems, Function.comp_def] using hread

end

/-! ## Grouping the columns of a subselect -/

namespace Reading

section

variable {Row Value : Type} (R : Reading Row Value) (keys : List (String × Part))
  (aggregates : List (String × Aggregate Operand × Part)) (x : SymbolId)

/-- The row of the inner statement for a row of its `FROM` list. -/
def innerRow (row : Row) : List (String × Value) := (innerEntries keys aggregates).map fun e => (e.2, R.value [e.1] row)

variable {R keys aggregates x}

theorem lookup_entries {entries : List (Part × String)} (hnodup : (entries.map Prod.snd).Nodup) {e : Part × String}
    (he : e ∈ entries) (row : Row) :
    (entries.map fun e => (e.2, R.value [e.1] row)).lookup e.2 = some (R.value [e.1] row) := by
  induction entries with
  | nil => cases he
  | cons first rest ih =>
    rw [map_cons, nodup_cons] at hnodup
    rw [map_cons, lookup_cons]
    rcases mem_cons.1 he with rfl | he
    · simp
    · have hne : (e.2 == first.2) = false := by
        simpa using fun h : e.2 = first.2 => hnodup.1 (h ▸ mem_map_of_mem he)
      rw [hne]
      exact ih hnodup.2 he

/-- A column of the inner statement has the value that was selected under its name. -/
theorem value_outer {expr : List Part} {e : Part × String} (he : e ∈ innerEntries keys aggregates)
    (hexpr : atoms expr = innerColumn x e.2) (row : Row) :
    (R.outer x).value expr (R.innerRow keys aggregates row) = R.value [e.1] row := by
  unfold outer
  dsimp only
  rw [hexpr]
  simp [innerColumn, innerRow, lookup_entries innerEntries_nodup he]

theorem mem_innerEntries_key {k : (String × Part) × String} (h : k ∈ keys.zip (innerNames "key_" keys.length)) :
    (k.1.2, k.2) ∈ innerEntries keys aggregates :=
  mem_append_left _ (mem_map_of_mem h)

theorem mem_innerEntries_argument {a : (String × Aggregate Operand × Part) × String}
    (h : a ∈ aggregates.zip (innerNames "agg_" aggregates.length)) : (a.1.2.2, a.2) ∈ innerEntries keys aggregates :=
  mem_append_right _ (mem_map_of_mem h)

/-- The outer statement groups by the values of the keys. -/
theorem keys_outer (row : Row) :
    (R.outer x).keys (outerClauses x keys aggregates).grouping (R.innerRow keys aggregates row) = R.keyTuple keys row := by
  unfold Reading.keys keyTuple
  rw [read_outerGrouping, map_map, ← map_snd_innerNames "key_" keys, map_map, ← map_fst_innerNames _ "key_" keys]
  exact map_congr_left fun k hk => value_outer (mem_innerEntries_key hk) (by simp [innerColumn, atoms]) row

variable [DecidableEq Value]

theorem groups_outer (hne : keys ≠ []) (rows : List Row) :
    (R.outer x).groups (outerClauses x keys aggregates) (rows.map (R.innerRow keys aggregates)) =
      (distinctOn (R.keyTuple keys) rows).map fun row => (R.groupOf keys rows row).map (R.innerRow keys aggregates) := by
  have hgrouping : (outerClauses x keys aggregates).grouping.isEmpty = false := by
    unfold outerClauses outerGrouping
    dsimp only
    rw [isEmpty_separated fun _ _ => by unfold innerColumn; exact cons_ne_nil _ _]
    simpa [innerNames] using hne
  have htuple : (R.outer x).keys (outerClauses x keys aggregates).grouping ∘ R.innerRow keys aggregates = R.keyTuple keys :=
    funext keys_outer
  unfold groups groupsOn
  rw [hgrouping, if_neg (by decide), distinctOn_map, htuple, map_map]
  refine map_congr_left fun row _ => ?_
  simp only [Function.comp_apply, filter_map, groupOf, keys_outer, Function.comp_def]

/-- Over the rows of a group the outer statement selects the keys and the aggregates of it. -/
theorem fields_outer (hsuits : R.Suits keys aggregates) {rows : List Row} {row : Row} (h : row ∈ rows) :
    (R.outer x).fields (outerClauses x keys aggregates).selectList
      ((R.groupOf keys rows row).map (R.innerRow keys aggregates)) = R.groupFields keys aggregates rows row := by
  unfold fields groupFields
  rw [read_outer, map_append, map_map, map_map, ← map_fst_innerNames _ "key_" keys,
    ← map_fst_innerNames _ "agg_" aggregates]
  congr 1
  · obtain ⟨first, rest, hg, hvalues⟩ := groupOf_eq_cons R keys h
    refine map_congr_left fun k hk => Prod.ext rfl ?_
    rw [hg]
    change (R.outer x).value (innerColumn x k.2) (R.innerRow keys aggregates first) = R.value [k.1.2] row
    rw [value_outer (mem_innerEntries_key hk) (by simp [innerColumn, atoms])]
    exact hvalues k.1 (of_mem_zip hk).1
  · refine map_congr_left fun a ha => Prod.ext rfl ?_
    refine (cell_aggregate (R := R.outer x) (hsuits.aggregates a.1 (of_mem_zip ha).1) _).trans ?_
    unfold aggregateValue
    rw [map_map]
    have hvalues : (R.outer x).value [.group (innerColumn x a.2)] ∘ R.innerRow keys aggregates = R.value [a.1.2.2] :=
      funext fun other => value_outer (mem_innerEntries_argument ha) (by simp [innerColumn, atoms]) other
    rw [hvalues]
    rfl

/-- The outer statement groups the rows that the rows of the inner one come from. -/
theorem rows_outer (hsuits : R.Suits keys aggregates) (hne : keys ≠ []) (rows : List Row) :
    ((R.outer x).rows (outerClauses x keys aggregates) (rows.map (R.innerRow keys aggregates))).map Output.columns =
      (R.grouped keys aggregates rows).map Output.columns := by
  have hselect : (outerClauses x keys aggregates).selectList.isEmpty = false := by
    rw [← Bool.not_eq_true, List.isEmpty_iff, ← read_eq_nil_iff, read_outer]
    obtain ⟨key, rest, rfl⟩ := List.exists_cons_of_ne_nil hne
    simp [innerNames, List.range_succ_eq_map]
  change ((((R.outer x).selected (outerClauses x keys aggregates) (rows.map (R.innerRow keys aggregates))).map
    Prod.snd).map Output.columns) = _
  unfold selected grouped
  rw [hselect, if_neg (by decide), groups_outer hne, List.map_map, List.map_map, List.map_map, List.map_map]
  refine List.map_congr_left fun row hrow => ?_
  have hfields := fields_outer (x := x) hsuits (mem_of_mem_distinctOn hrow)
  exact congrArg (fun fields => (Output.record fields : Output Row Value).columns) hfields

end

end Reading

/-! ## Selecting keys and arguments -/

/-- The keys and the arguments of aggregates. -/
def keysAndArguments (keys : List (String × Part)) (aggregates : List (String × Aggregate Operand × Part)) :
    List (String × Part) :=
  keys ++ aggregates.map fun a => (a.1, a.2.2)

/-- Keys and arguments may be selected first. There are keys, and `DISTINCT`, which then compares what
is selected, finds no row or only the first one. -/
def Statement.GroupsSelected (count : List Part → Nat) (s : Statement) {κ : Type} (keys : List κ) : Prop :=
  keys ≠ [] ∧ (s.distinct = true →
    (∃ n ∈ s.top, count n = 0) ∨ (∃ n ∈ s.top, count n = 1) ∧ ∀ n ∈ s.skip, count n = 0)

section

variable {keys : List (String × Part)} {aggregates : List (String × Aggregate Operand × Part)} {x : SymbolId} {s : Statement}

theorem parts_innerEntries :
    (innerEntries keys aggregates).map Prod.fst = (keysAndArguments keys aggregates).map Prod.snd := by
  unfold innerEntries keysAndArguments
  rw [map_append, map_map, map_map, map_append, map_map]
  congr 1
  · exact map_fst_innerNames Prod.snd "key_" keys
  · exact map_fst_innerNames (fun a => a.2.2) "agg_" aggregates

/-- What holds of the parts of keys and arguments holds of what the inner statement selects. -/
theorem forall_innerParts {p : Part → Prop} (h : ∀ v ∈ keysAndArguments keys aggregates, p v.2) :
    ∀ e ∈ innerEntries keys aggregates, p e.1 := by
  have hparts : ∀ part ∈ (innerEntries keys aggregates).map Prod.fst, p part := by
    rw [parts_innerEntries]
    exact forall_mem_map.2 h
  exact forall_mem_map.1 hparts

theorem accepts_project (h : s.accepts .groupBy = true) : s.accepts .project = true := by
  obtain ⟨hselect, hgrouping, -⟩ := accepts_groupBy h
  simp [accepts, hselect, hgrouping]

namespace Reading

section

variable {Row Value : Type} {R : Reading Row Value}

theorem Suits.of_keysAndArguments (h : R.Suits (keysAndArguments keys aggregates) aggregates) : R.Suits keys aggregates :=
  ⟨fun key hkey => h.keys key (mem_append_left _ hkey), h.aggregates⟩

variable (hparts : ∀ v ∈ keysAndArguments keys aggregates, v.2.IsOperand)

include hparts

theorem plain_inner (h : R.Suits (keysAndArguments keys aggregates) aggregates) :
    ∀ item ∈ read (innerSelect keys aggregates), R.aggregation? item.expr = none := by
  rw [read_inner (forall_innerParts (p := Part.IsOperand) hparts)]
  exact forall_mem_map.2 (forall_innerParts (p := fun p => R.aggregation? [p] = none) h.keys)

theorem columns_projected (row : Row) :
    (R.projected (read (innerSelect keys aggregates)) (.whole row)).columns =
      R.innerRow keys aggregates row := by
  rw [read_inner (forall_innerParts (p := Part.IsOperand) hparts)]
  unfold projected innerRow
  dsimp only
  rw [map_map, ← @Output.columns_record Row _ ((innerEntries keys aggregates).map _), map_map]
  rfl

omit hparts in
theorem innerSelect_ne_nil (hne : aggregates ≠ []) : innerSelect keys aggregates ≠ [] := by
  intro hnil
  have hempty : (separated ", " ((innerEntries keys aggregates).map fun e => selectItem e.1 e.2)).isEmpty =
      (innerEntries keys aggregates).isEmpty := isEmpty_separated fun _ _ => List.cons_ne_nil _ _
  unfold innerSelect at hnil
  rw [hnil, Eq.comm, List.isEmpty_nil, List.isEmpty_iff] at hempty
  exact hne (eq_nil_of_zip_innerNames (List.map_eq_nil_iff.1 (List.append_eq_nil_iff.1 hempty).2))

variable [DecidableEq Row] [DecidableEq Value]

/-- Where `DISTINCT` does not come in between, the inner statement returns the keys and arguments of the
rows that were returned before. -/
theorem rows_selecting (hsuits : R.Suits (keysAndArguments keys aggregates) aggregates) (hne : aggregates ≠ [])
    (hacc : s.accepts .groupBy = true) (h : s.GroupsSelected R.count keys) (source : List Row) :
    (R.rows (s.withSelect (innerSelect keys aggregates)) source).map Output.columns =
      (R.wholeRows s source).map (R.innerRow keys aggregates) := by
  obtain ⟨-, -, hordering⟩ := accepts_groupBy hacc
  unfold wholeRows withSelect
  rw [R.rows_project (accepts_project hacc) (innerSelect_ne_nil hne) (plain_inner hparts hsuits), map_map,
    s.sortedBy_nil hordering, s.sortedBy_nil hordering,
    show (Output.columns ∘ fun row => R.projected (read (innerSelect keys aggregates)) (.whole row)) =
      R.innerRow keys aggregates from funext fun row => columns_projected hparts row]
  congr 1
  unfold distinctBy
  split
  · rename_i hdistinct
    rcases h.2 hdistinct with ⟨n, hn, hzero⟩ | ⟨⟨n, hn, hone⟩, hskip⟩
    · unfold limited
      rw [show s.top = some n from hn]
      dsimp only
      rw [hzero, take_zero, take_zero]
    · rw [skipped_eq_self hskip, skipped_eq_self hskip]
      unfold limited
      rw [show s.top = some n from hn]
      dsimp only
      rw [hone, take_one_distinctOn, take_one_distinctOn]
  · rfl

end

variable {count : List Part → Nat}

theorem countRecord_columns_injective (hne : aggregates ≠ []) :
    Function.Injective fun n => (countRecord keys aggregates n).columns := by
  intro m n hmn
  have hcolumns : ∀ k, (countRecord keys aggregates k).columns =
      keys.map (fun key => (key.1, 1)) ++ aggregates.map fun a => (a.1, k) := by
    intro k
    rw [← @Output.columns_record (Nat × Nat) _ (keys.map _ ++ _), map_append, map_map, map_map]
    rfl
  obtain ⟨a, rest, rfl⟩ := exists_cons_of_ne_nil hne
  dsimp only at hmn
  rw [hcolumns, hcolumns] at hmn
  exact congrArg Prod.snd (cons.inj (append_cancel_left hmn)).1

/-- Groups of rows with one key show how many rows there are. -/
theorem length_eq_of_grouped (hne : aggregates ≠ []) {l l' : List (Nat × Nat)} (hl : ∀ row ∈ l, row.1 = 1)
    (hl' : ∀ row ∈ l', row.1 = 1)
    (h : ((counting count aggregates).grouped keys aggregates l).map Output.columns =
      ((counting count aggregates).grouped keys aggregates l').map Output.columns) : l.length = l'.length := by
  by_cases hnil : l = [] <;> by_cases hnil' : l' = []
  · rw [hnil, hnil']
  · rw [hnil, grouped_counting hnil' hl'] at h
    cases h
  · rw [hnil', grouped_counting hnil hl] at h
    cases h
  · rw [grouped_counting hnil hl, grouped_counting hnil' hl'] at h
    exact countRecord_columns_injective hne (cons.inj h).1

/-- A limit, an offset and `DISTINCT` return rows of the `FROM` list. -/
theorem mem_of_mem_distinctRows {Row Value β : Type} [DecidableEq β] {R : Reading Row Value} {f : Row → β}
    (hordering : s.ordering = []) {source : List Row} {row : Row}
    (h : row ∈ R.limited s (R.skipped s (s.sortedBy R.precedes (s.distinctBy f source)))) : row ∈ source := by
  rw [s.sortedBy_nil hordering, skipped_eq_drop] at h
  have hdrop : row ∈ s.distinctBy f source := by
    unfold limited at h
    split at h
    · exact mem_of_mem_drop (mem_of_mem_take h)
    · exact mem_of_mem_drop h
  unfold distinctBy at hdrop
  split at hdrop
  · exact mem_of_mem_distinctOn hdrop
  · exact hdrop

/-- Without keys the outer statement makes a row out of no rows. -/
theorem rows_outer_nil (hsuits : (counting count aggregates).Suits [] aggregates) (hne : aggregates ≠ []) :
    ((counting count aggregates).outer x).rows (outerClauses x [] aggregates) [] ≠ [] := by
  obtain ⟨a, rest, rfl⟩ := List.exists_cons_of_ne_nil hne
  obtain ⟨fold, hfold⟩ := Option.isSome_iff_exists.1 (hsuits.aggregates a List.mem_cons_self)
  have haggregation : (((counting count (a :: rest)).outer x).aggregation?
      [outerAggregate x (a, innerName "agg_" 0)]).isSome = true := by
    unfold aggregation? outerAggregate
    rw [callOf?_aggregateParts]
    simp [outer, hfold]
  have hread : read (outerClauses x [] (a :: rest)).selectList =
      { expr := [outerAggregate x (a, innerName "agg_" 0)], name := some (.text a.1) } ::
        (rest.zip ((innerNames "agg_" (a :: rest).length).drop 1)).map
          fun a => { expr := [outerAggregate x a], name := some (.text a.1.1) } := by
    rw [read_outer]
    simp [innerNames, List.range_succ_eq_map]
  have hselect : (outerClauses x [] (a :: rest)).selectList.isEmpty = false := by
    rw [← Bool.not_eq_true, List.isEmpty_iff, ← read_eq_nil_iff, hread]
    exact List.cons_ne_nil _ _
  change (((counting count (a :: rest)).outer x).selected (outerClauses x [] (a :: rest)) []).map Prod.snd ≠ []
  unfold selected groups
  rw [hselect, if_neg (by decide), if_pos (show (outerClauses x [] (a :: rest)).grouping.isEmpty = true from rfl),
    if_pos (by rw [hread, List.any_cons, haggregation]; rfl)]
  exact List.cons_ne_nil _ _

/-- If the two statements group the rows, whatever the texts mean, nothing comes in between. -/
theorem groupsSelected_of_rows (hparts : ∀ v ∈ keysAndArguments keys aggregates, v.2.IsOperand)
    (hsuits : (counting count aggregates).Suits (keysAndArguments keys aggregates) aggregates) (hne : aggregates ≠ [])
    (hacc : s.accepts .groupBy = true)
    (h : ∀ source, (((counting count aggregates).outer x).rows (outerClauses x keys aggregates)
      (((counting count aggregates).rows (s.withSelect (innerSelect keys aggregates)) source).map Output.columns)).map
        Output.columns =
        ((counting count aggregates).grouped keys aggregates ((counting count aggregates).wholeRows s source)).map
          Output.columns) : s.GroupsSelected count keys := by
  obtain ⟨-, -, hordering⟩ := accepts_groupBy hacc
  have hinner : ∀ source,
      ((counting count aggregates).rows (s.withSelect (innerSelect keys aggregates)) source).map Output.columns =
      (keyRows (counting count aggregates) s source).map ((counting count aggregates).innerRow keys aggregates) := by
    intro source
    unfold withSelect
    rw [rows_project_counting (accepts_project hacc) (innerSelect_ne_nil hne) (plain_inner hparts hsuits), map_map]
    exact map_congr_left fun row _ => columns_projected hparts row
  have hkeys : keys ≠ [] := by
    rintro rfl
    have hnone : keyRows (counting count aggregates) s [] = [] :=
      eq_nil_iff_forall_not_mem.2 fun row hrow => not_mem_nil (mem_of_mem_distinctRows hordering hrow)
    have hwhole : (counting count aggregates).wholeRows s [] = [] := by
      rw [wholeRows, kept_counting]
      exact eq_nil_iff_forall_not_mem.2 fun row hrow => not_mem_nil (mem_of_mem_distinctRows hordering hrow)
    have := h []
    rw [hinner, hnone, hwhole, map_nil] at this
    exact rows_outer_nil (x := x) hsuits.of_keysAndArguments hne (map_eq_nil_iff.1 this)
  refine ⟨hkeys, fun hdistinct => ?_⟩
  by_cases htop : ∃ n ∈ s.top, count n = 0
  · exact Or.inl htop
  have hlength : ∀ m, ((counting count aggregates).wholeRows s (numbered (m + 1))).length =
      (keyRows (counting count aggregates) s (numbered (m + 1))).length := by
    intro m
    have hone : ∀ row ∈ numbered (m + 1), row.1 = 1 := by simp [numbered]
    have hgroups := h (numbered (m + 1))
    rw [hinner, rows_outer hsuits.of_keysAndArguments hkeys] at hgroups
    refine (length_eq_of_grouped hne (fun row hrow => hone row (mem_of_mem_distinctRows hordering hrow))
      (fun row hrow => hone row ?_) hgroups).symm
    rw [wholeRows, kept_counting] at hrow
    exact mem_of_mem_distinctRows hordering hrow
  obtain ⟨hone, hoffset⟩ := top_eq_one_of_keyRows hdistinct (fun n hn h0 => htop ⟨n, hn, h0⟩) hlength
  refine Or.inr ⟨hone, fun n hn => ?_⟩
  rw [Option.mem_def.1 hn] at hoffset
  exact hoffset

end Reading

end

/-! ## Grouping of a query -/

section

variable {b b1 b' : Build} {i j : StatementId} {x : SymbolId}

/-- The inner statement is that of the input with another select list, and the outer one reads it. -/
theorem groupOverInner_clauses {keys : List (String × Operand)} {aggregates : List (String × Aggregate Operand)}
    {name : String} {type : DataType} (hk : ∀ k ∈ keys, ValueOK k.2) (ha : ∀ a ∈ aggregates, ValueOK a.2.argument)
    (h : Opened b b1 j) (hnil : (b1.store.get j).selectList = []) (hj : b.inJoin = false)
    (hr : Runs (groupOverInner j name type keys aggregates) b1 i b') :
    i ≠ j ∧ ∃ x ks as b2 b3 b4, Runs (keys.mapM buildKey) b2 ks b3 ∧ Runs (aggregates.mapM buildArgument) b3 as b4 ∧
      ((b1.store.get j).withSelect (innerSelect ks as)).SameClauses (b'.store.get j) ∧
      (outerClauses x ks as).SameClauses (b'.store.get i) ∧
      (b'.store.get i).fromList = [.text "(", .statement j, .text ")", .text " AS ", .symbol x] := by
  obtain ⟨x, ks, as, _, b2, b3, b4, b5, b6, hsub, hdecl, hks, has, hb6, hb'⟩ := groupOverInner_cases hr
  obtain ⟨-, -, hout, hne, hsame⟩ := innerSelect_spec hk ha h hnil hj hsub hdecl hks has hb6
  obtain ⟨hstep, -⟩ := overInput_spec h.owns hsub hdecl
  have h3 := h.step hstep
  obtain ⟨hs, -, -⟩ := groupTexts_spec hk ha h3.good (by rw [h3.inJoin]; exact hj) hks has
  have hinner := ((hstep.trans hs).grows.text j h.owns.lt).sameClauses
  have hget := (get_update hb' hout.lt).1
  refine ⟨hne, x, ks, as, b3, b4, b5, hks, has, ?_, ?_, by rw [hget]; exact hsame.fromList⟩
  · rw [store_update hb', Store.get_modify_of_ne hne.symm, (get_update hb6 (h3.step hs).owns.lt).1]
    refine ⟨hinner.distinct, ?_, hinner.condition, (append_nil _).trans hinner.grouping, hinner.ordering, hinner.top,
      hinner.skip⟩
    change (b5.store.get j).selectList ++ _ = innerSelect ks as
    rw [hinner.selectList, hnil, innerSelect, namedItems, map_map]
    rfl
  · rw [hget]
    have hclauses := hsame.sameClauses
    refine ⟨hclauses.distinct, ?_, hclauses.condition, ?_, hclauses.ordering, hclauses.top, hclauses.skip⟩
    · change (b6.store.get i).selectList ++ _ = _
      rw [hclauses.selectList]
      rfl
    · change (b6.store.get i).grouping ++ _ = _
      rw [hclauses.grouping]
      rfl

/-- Where an argument of an aggregate is more than a column, the statement of an input that takes a
grouping selects keys and arguments, and a statement over it groups them. The two return the groups of
the rows that were returned before, whatever the texts mean, if and only if there are keys and
`DISTINCT` does not come in between. -/
theorem group_inner_rows_iff {config : Config} {source : GroupBinding Expr} {keys : List (String × Expr)}
    {aggregates : List (String × Aggregate Expr)} (hb : Good b) (hj : b.inJoin = false)
    (hin : Runs (input (source.expr.toOperand config) source.var source.type) b (j, x) b₁)
    (hacc : (b₁.statements.get j).accepts .groupBy = true)
    (hcomputed : ∃ a ∈ aggregates, a.2.argument.isPlainColumn = false)
    (hrun : Runs (group (source.with (source.expr.toOperand config)) (Expr.namedOperands config keys)
      (Expr.aggregateOperands config aggregates)) b i b') :
    i ≠ j ∧ ∃ y ks as,
      (b'.statements.get i).fromList = [.text "(", .statement j, .text ")", .text " AS ", .symbol y] ∧
      List.Forall₂ (fun key k => k.1 = key.1 ∧
        ∃ sql b₂ b₃, Runs (key.2.build config) b₂ sql b₃ ∧ k.2 = sql.toPart) keys ks ∧
      List.Forall₂ (fun a' a => a.1 = a'.1 ∧ a.2.1 = a'.2.with (a'.2.argument.toOperand config) ∧
        ∃ sql b₂ b₃, Runs (a'.2.argument.build config) b₂ sql b₃ ∧ a.2.2 = sql.toPart) aggregates as ∧
      (KeysApart (keysAndArguments ks as) as → ∀ count : List Part → Nat,
        (∀ (Row Value : Type) [DecidableEq Row] [DecidableEq Value] (R : Reading Row Value) (rows : List Row),
            R.count = count → R.Suits (keysAndArguments ks as) as →
              ((R.outer y).rows (b'.statements.get i)
                ((R.rows (b'.statements.get j) rows).map Output.columns)).map Output.columns =
              (R.grouped ks as ((R.rows (b₁.statements.get j) rows).filterMap Output.row?)).map Output.columns) ↔
          (b₁.statements.get j).GroupsSelected count keys) := by
  have hneeds : needsInner (Expr.aggregateOperands config aggregates) = true := by
    obtain ⟨a, ha, hplain⟩ := hcomputed
    rw [needsInner, Expr.aggregateOperands_eq_map, List.any_map, List.any_eq_true]
    exact ⟨a, ha, by simpa [Aggregate.with, Expr.toOperand] using hplain⟩
  have hvalue : ∀ e : Expr, ValueOK (e.toOperand config) := fun e => (Expr.buildsSound e).value
  obtain ⟨k, y, b₂, _, b₃, b₄, b₅, hfor, ho, hdecl, hb₄, hopen, -, hbody, rfl⟩ := group_cases (hvalue _) hb hj hrun
  obtain ⟨rfl, rfl, rfl⟩ := inputFor_accepted hin hacc hfor
  obtain ⟨hselect, -, -⟩ := Statement.accepts_groupBy hacc
  have hopened : (b₂.store.get k).SameClauses (b₄.store.get k) := by
    have hdeclared := declareExtent_clauses hdecl ho.lt
    rw [hb₄]
    exact hdeclared
  rw [hneeds, if_pos rfl] at hbody
  obtain ⟨hne, y, ks, as, b₆, b₇, b₈, hks, has, hinner, houter, hfrom⟩ := groupOverInner_clauses
    (by rw [Expr.namedOperands_eq_map]; exact List.forall_mem_map.2 fun _ _ => hvalue _)
    (by rw [Expr.aggregateOperands_eq_map]; exact List.forall_mem_map.2 fun _ _ => hvalue _)
    hopen (hopened.selectList.trans hselect) hj hbody
  have hparts : ∀ v ∈ keysAndArguments ks as, v.2.IsOperand :=
    List.forall_mem_append.2 ⟨(keys_built hks).2, List.forall_mem_map.2 (arguments_built has).2⟩
  rw [Expr.namedOperands_eq_map] at hks
  rw [Expr.aggregateOperands_eq_map] at has
  have hks := List.forall₂_map_left_iff.1 (forall₂_of_runs_mapM hks)
  have has := List.forall₂_map_left_iff.1 (forall₂_of_runs_mapM has)
  simp only [buildKey, buildArgument, runs_bind, runs_pure] at hks has
  refine ⟨hne, y, ks, as, hfrom, hks.imp ?_, has.imp ?_, fun hapart count => ?_⟩
  · rintro key k ⟨_, _, sql, _, hsql, rfl, -⟩
    exact ⟨rfl, sql, _, _, hsql, rfl⟩
  · rintro a' a ⟨_, _, sql, _, hsql, rfl, -⟩
    exact ⟨rfl, rfl, sql, _, _, hsql, rfl⟩
  have hkeys : keys = [] ↔ ks = [] := by rw [← List.length_eq_zero_iff, hks.length_eq, List.length_eq_zero_iff]
  have haggregates : as ≠ [] := by
    obtain ⟨a, ha, -⟩ := hcomputed
    intro hnil
    rw [hnil, List.forall₂_nil_right_iff] at has
    rw [has] at ha
    cases ha
  have hclauses : ((b₂.statements.get k).withSelect (innerSelect ks as)).SameClauses (b₅.store.get k) :=
    ⟨hinner.distinct.trans hopened.distinct, hinner.selectList, hinner.condition.trans hopened.condition,
      hinner.grouping.trans hopened.grouping, hinner.ordering.trans hopened.ordering, hinner.top.trans hopened.top,
      hinner.skip.trans hopened.skip⟩
  have hrows : ∀ {Row Value : Type} [DecidableEq Row] [DecidableEq Value] (R : Reading Row Value) (rows : List Row),
      (R.rows (b₂.statements.get k) rows).filterMap Output.row? = R.wholeRows (b₂.statements.get k) rows := by
    intro Row Value _ _ R rows
    rw [R.rows_eq_wholeRows hselect, List.filterMap_map]
    exact List.filterMap_some
  have hgroups : (b₂.statements.get k).GroupsSelected count keys ↔ (b₂.statements.get k).GroupsSelected count ks := by
    unfold Statement.GroupsSelected
    rw [ne_eq, ne_eq, hkeys]
  rw [hgroups]
  constructor
  · intro h
    have hsuits : Reading.Suits (Reading.counting count _) _ _ := Reading.suits_counting hapart
    refine Reading.groupsSelected_of_rows (x := y) hparts hsuits haggregates hacc fun rows => ?_
    rw [← Reading.rows_congr _ houter, ← Reading.rows_congr _ hclauses, ← hrows]
    exact h _ _ _ rows rfl hsuits
  · rintro h Row Value _ _ R rows rfl hsuits
    rw [hrows]
    change ((R.outer y).rows (b₅.store.get i) ((R.rows (b₅.store.get k) rows).map Output.columns)).map Output.columns = _
    rw [Reading.rows_congr _ houter, R.rows_congr hclauses, Reading.rows_selecting hparts hsuits haggregates hacc h,
      Reading.rows_outer hsuits.of_keysAndArguments h.1]

end

/-- Counting ones in place of a column. -/
def countOnes : List (String × Aggregate Expr) :=
  [("n", { function := { name := "COUNT" }, argument := .constant (.int32 1) })]

/-- Counting the rows of a table by their keys, with an inner statement for what is counted, keeps its
meaning. -/
theorem group_inner_rows_of_table : ∃ i j x y b₁ b' ks as,
    Runs (input (numbersTable.toOperand {}) "q" numbersTable.rowType) {} (j, x) b₁ ∧
    (b₁.statements.get j).accepts .groupBy = true ∧
    Runs (group ((numbersTable.bindGroup "q" "g").with (numbersTable.toOperand {})) (Expr.namedOperands {} keyOf)
      (Expr.aggregateOperands {} countOnes)) {} i b' ∧
    i ≠ j ∧ ks.map Prod.fst = ["k"] ∧ as.map Prod.fst = ["n"] ∧
      ∀ (Row Value : Type) [DecidableEq Row] [DecidableEq Value] (R : Reading Row Value) (rows : List Row),
        R.Suits (keysAndArguments ks as) as →
          ((R.outer y).rows (b'.statements.get i)
            ((R.rows (b'.statements.get j) rows).map Output.columns)).map Output.columns =
          (R.grouped ks as ((R.rows (b₁.statements.get j) rows).filterMap Output.row?)).map Output.columns := by
  obtain ⟨⟨j, x⟩, b₁, hin, htest⟩ := exists_runs (m := input (numbersTable.toOperand {}) "q" numbersTable.rowType)
    (b := {}) (p := fun r b => (b.statements.get r.1).accepts .groupBy && !(b.statements.get r.1).distinct)
    (by decide +kernel)
  obtain ⟨hacc, hdistinct⟩ := Bool.and_eq_true_iff.1 htest
  obtain ⟨i, b', hrun, -⟩ := exists_runs (b := {}) (p := fun _ _ => true)
    (m := group ((numbersTable.bindGroup "q" "g").with (numbersTable.toOperand {})) (Expr.namedOperands {} keyOf)
      (Expr.aggregateOperands {} countOnes)) (by decide +kernel)
  obtain ⟨hne, y, ks, as, -, hks, has, hiff⟩ := group_inner_rows_iff Query.good_start rfl hin hacc
    ⟨_, List.mem_singleton_self _, rfl⟩ hrun
  obtain ⟨k, _, ⟨hk, sql, b₂, b₃, hsql, hpart⟩, hnil, rfl⟩ := List.forall₂_cons_left_iff.1 hks
  obtain rfl := List.forall₂_nil_left_iff.1 hnil
  obtain ⟨a, _, ⟨ha, -, one, b₄, b₅, hone, harg⟩, hnil, rfl⟩ := List.forall₂_cons_left_iff.1 has
  obtain rfl := List.forall₂_nil_left_iff.1 hnil
  have hapart : KeysApart (keysAndArguments [k] [a]) [a] := by
    refine List.forall_mem_append.2 ⟨?_, ?_⟩ <;> intro key hkey _ _ d p <;> rw [List.mem_singleton.1 hkey]
    · rw [hpart, callOf?_of_isPlainColumn rfl hsql]
      exact nofun
    · cases hone
      rw [harg]
      exact nofun
  refine ⟨i, j, x, y, b₁, b', [k], [a], hin, hacc, hrun, hne, by simp [hk], by simp [ha],
    fun Row Value _ _ R rows hsuits => (hiff hapart R.count).2 ⟨nofun, ?_⟩ Row Value R rows rfl hsuits⟩
  rw [show (b₁.statements.get j).distinct = false by simpa using hdistinct]
  exact nofun

/-- The statement whose columns are the only source, and its alias. -/
def Statement.subselect? (s : Statement) : Option (StatementId × SymbolId) :=
  match s.fromList with
  | [.text "(", .statement j, .text ")", .text " AS ", .symbol y] => some (j, y)
  | _ => none

theorem Statement.fromList_of_subselect? {s : Statement} {j : StatementId} {y : SymbolId}
    (h : s.subselect? = some (j, y)) : s.fromList = [.text "(", .statement j, .text ")", .text " AS ", .symbol y] := by
  unfold subselect? at h
  split at h
  · cases h; assumption
  · cases h

/-- Two different rows of a table. -/
def differentPairs : Expr := .distinct (.limit pairsTable (.constant (.int32 2)) false)

/-- Different rows with one value are counted as one. -/
theorem group_over_distinct_counts_values :
    (Query.compile {} (.groupBy (differentPairs.bindGroup "q" "g") [("a", columnOf "q" "a")] countOnes)).toOption =
      some ⟨"SELECT q.key_0 AS a, COUNT(q.agg_0) AS n FROM (SELECT DISTINCT dst.a AS key_0, 1 AS agg_0 FROM " ++
        "(SELECT c.k AS k, c.a AS a FROM t AS c LIMIT 2) AS dst) AS q GROUP BY q.key_0", ["a", "n"]⟩ ∧
    ∃ i j x b₁ b', Runs (input (differentPairs.toOperand {}) "q" differentPairs.rowType) {} (j, x) b₁ ∧
      (b₁.statements.get j).accepts .groupBy = true ∧
      Runs (group ((differentPairs.bindGroup "q" "g").with (differentPairs.toOperand {}))
        (Expr.namedOperands {} [("a", columnOf "q" "a")]) (Expr.aggregateOperands {} countOnes)) {} i b' ∧
      ((Reading.pairs Reading.eight.count (fun _ => true) (· == "COUNT")).rows (b₁.statements.get j)
        (numbered 2)).filterMap Output.row? = numbered 2 ∧
      ∃ y, (b'.statements.get i).fromList = [.text "(", .statement j, .text ")", .text " AS ", .symbol y] ∧
        (((Reading.pairs Reading.eight.count (fun _ => true) (· == "COUNT")).outer y).rows (b'.statements.get i)
          (((Reading.pairs Reading.eight.count (fun _ => true) (· == "COUNT")).rows (b'.statements.get j)
            (numbered 2)).map Output.columns)).map Output.columns = [[("a", 1), ("n", 1)]] := by
  obtain ⟨⟨j, x⟩, b₁, hin, hbefore⟩ := exists_runs (b := {})
    (m := input (differentPairs.toOperand {}) "q" differentPairs.rowType)
    (p := fun r b => (b.statements.get r.1).accepts .groupBy && (r.1 == 1 &&
      ((Reading.pairs Reading.eight.count (fun _ => true) (· == "COUNT")).rows (b.statements.get r.1)
        (numbered 2)).filterMap Output.row? == numbered 2)) (by decide +kernel)
  simp only [Bool.and_eq_true, beq_iff_eq] at hbefore
  obtain ⟨hacc, rfl, hrows⟩ := hbefore
  obtain ⟨i, b', hrun, hafter⟩ := exists_runs (b := {})
    (m := group ((differentPairs.bindGroup "q" "g").with (differentPairs.toOperand {}))
      (Expr.namedOperands {} [("a", columnOf "q" "a")]) (Expr.aggregateOperands {} countOnes))
    (p := fun i b => (b.statements.get i).subselect? == some (1, 4) &&
      (((Reading.pairs Reading.eight.count (fun _ => true) (· == "COUNT")).outer 4).rows (b.statements.get i)
        (((Reading.pairs Reading.eight.count (fun _ => true) (· == "COUNT")).rows (b.statements.get 1)
          (numbered 2)).map Output.columns)).map Output.columns == [[("a", 1), ("n", 1)]]) (by decide +kernel)
  simp only [Bool.and_eq_true, beq_iff_eq] at hafter
  obtain ⟨hsource, hvalues⟩ := hafter
  exact ⟨by decide +kernel, i, 1, x, b₁, b', hin, hacc, hrun, hrows, 4, Statement.fromList_of_subselect? hsource,
    hvalues⟩

end RelSql
