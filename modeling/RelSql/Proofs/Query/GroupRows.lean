/-
Grouping in place. Keys and aggregates over plain columns are written into the statement of the
input, where `GROUP BY` acts before `DISTINCT`, `OFFSET` and `LIMIT`. That groups the rows which the
statement returns only if those clauses do not come in between; without keys it makes one row out of
no rows.
-/
import RelSql.Proofs.Query.FilterRows

namespace RelSql

open RelSql.Part Statement List Build

/-! ## Keys and aggregates -/

section

variable {Row Value : Type} (R : Reading Row Value) (keys : List (String × Part))
  (aggregates : List (String × Aggregate Operand × Part))

namespace Reading

/-- The values of the keys at a row. -/
def keyTuple (row : Row) : List Value := keys.map fun key => R.value [key.2] row

/-- The value of an aggregate over the rows of a group. -/
def aggregateValue (aggregate : Aggregate Operand) (argument : Part) (group : List Row) : Value :=
  match R.aggregate? aggregate.function.qualifiedName with
  | some fold => fold aggregate.distinct (group.map (R.value [argument]))
  | none => R.null

variable [DecidableEq Value]

/-- The rows whose keys have the values that they have at `row`. -/
def groupOf (rows : List Row) (row : Row) : List Row :=
  rows.filter fun other => R.keyTuple keys other = R.keyTuple keys row

/-- The fields of the group of `row`: its keys, and the aggregates over its rows. -/
def groupFields (rows : List Row) (row : Row) : List (Option Part × Value) :=
  keys.map (fun key => (some (.text key.1), R.value [key.2] row)) ++
    aggregates.map fun a => (some (.text a.1), R.aggregateValue a.2.1 a.2.2 (R.groupOf keys rows row))

/-- Rows grouped by their keys: one row for each tuple of values of the keys. -/
def grouped (rows : List Row) : List (Output Row Value) :=
  (distinctOn (R.keyTuple keys) rows).map fun row => .record (R.groupFields keys aggregates rows row)

end Reading

/-- The reading takes the keys for expressions over single rows and the functions of the aggregates
for aggregate functions. -/
structure Reading.Suits : Prop where
  keys : ∀ key ∈ keys, R.aggregation? [key.2] = none
  aggregates : ∀ a ∈ aggregates, (R.aggregate? a.2.1.function.qualifiedName).isSome = true

/-- The statement grouped in place. -/
def Statement.grouped (s : Statement) : Statement :=
  { s with
    selectList := separated ", " ((groupItems keys aggregates).map fun item => selectItem item.1 item.2)
    grouping := separated ", " (keys.map fun key => [key.2]) }

end

/-! ## Grouping all rows -/

section

variable {Row Value : Type} [DecidableEq Row] [DecidableEq Value] {R : Reading Row Value}
  {keys : List (String × Part)} {aggregates : List (String × Aggregate Operand × Part)} {s : Statement}

theorem callOf?_aggregateParts (aggregate : Aggregate Operand) (argument : Part) :
    callOf? [.group (aggregateParts aggregate argument)] =
      some (aggregate.function.qualifiedName, aggregate.distinct, argument) := by
  unfold aggregateParts
  cases aggregate.distinct <;> simp [callOf?]

namespace Reading

omit [DecidableEq Row] [DecidableEq Value]

theorem skipped_eq_self {α : Type} (h : ∀ n ∈ s.skip, R.count n = 0) (l : List α) : R.skipped s l = l := by
  unfold skipped
  cases hn : s.skip with
  | none => rfl
  | some n => dsimp only; rw [h n hn]; rfl

theorem cell_aggregate {a : Aggregate Operand} {argument : Part}
    (h : (R.aggregate? a.function.qualifiedName).isSome = true) (group : List Row) :
    R.cell [.group (aggregateParts a argument)] group = R.aggregateValue a argument group := by
  obtain ⟨fold, hfold⟩ := Option.isSome_iff_exists.1 h
  unfold cell aggregation? aggregateValue
  rw [callOf?_aggregateParts]
  simp [hfold]

theorem cell_key {p : Part} (h : R.aggregation? [p] = none) {row : Row} {rest : List Row} :
    R.cell [p] (row :: rest) = R.value [p] row := by
  unfold cell; rw [h]; rfl

theorem isEmpty_selectList : (s.grouped keys aggregates).selectList.isEmpty = (groupItems keys aggregates).isEmpty :=
  isEmpty_separated fun _ _ => cons_ne_nil _ _

variable (R keys) in
theorem groupOf_ne_nil [DecidableEq Value] {rows : List Row} {row : Row} (h : row ∈ rows) :
    R.groupOf keys rows row ≠ [] :=
  ne_nil_of_mem (mem_filter.2 ⟨h, by simp⟩)

variable (R keys) in
/-- The group of a row starts with a row at which the keys have the same values. -/
theorem groupOf_eq_cons [DecidableEq Value] {rows : List Row} {row : Row} (h : row ∈ rows) :
    ∃ first rest, R.groupOf keys rows row = first :: rest ∧ ∀ key ∈ keys, R.value [key.2] first = R.value [key.2] row := by
  obtain ⟨first, rest, hg⟩ := exists_cons_of_ne_nil (groupOf_ne_nil R keys h)
  have hfirst : first ∈ R.groupOf keys rows row := by rw [hg]; exact mem_cons_self
  have htuple : R.keyTuple keys first = R.keyTuple keys row := by simpa using (mem_filter.1 hfirst).2
  exact ⟨first, rest, hg, map_inj_left.1 htuple⟩

variable (hsuits : R.Suits keys aggregates) (hkeys : ∀ key ∈ keys, key.2.IsOperand)

include hkeys

/-- The items of the select list, as they are read back. -/
theorem read_grouped : SelectItem.read (s.grouped keys aggregates).selectList =
    (groupItems keys aggregates).map fun item => { expr := [item.1], name := some (.text item.2) } := by
  refine SelectItem.read_selectItems fun item hitem => ?_
  rcases mem_append.1 hitem with hitem | hitem
  · obtain ⟨key, hkey, rfl⟩ := mem_map.1 hitem
    exact hkeys key hkey
  · obtain ⟨a, -, rfl⟩ := mem_map.1 hitem
    exact ⟨nofun, nofun⟩

omit hkeys in
/-- Without keys, aggregates make one group of all rows. -/
theorem groups_of_aggregates [DecidableEq Value] (hsuits : R.Suits [] aggregates) (hne : aggregates ≠ [])
    (rows : List Row) : R.groups (s.grouped [] aggregates) rows = [rows] := by
  obtain ⟨a, rest, rfl⟩ := exists_cons_of_ne_nil hne
  have ha : (R.aggregation? [.group (aggregateParts a.2.1 a.2.2)]).isSome = true := by
    obtain ⟨fold, hfold⟩ := Option.isSome_iff_exists.1 (hsuits.aggregates a mem_cons_self)
    unfold aggregation?
    rw [callOf?_aggregateParts]
    simp [hfold]
  unfold groups
  rw [read_grouped (forall_mem_nil _), if_pos (show (s.grouped [] (a :: rest)).grouping.isEmpty = true from rfl), if_pos]
  rw [groupItems, map_nil, nil_append, map_cons, map_cons, any_cons]
  simp [ha]

theorem groups_of_keys [DecidableEq Value] (hne : keys ≠ []) (rows : List Row) :
    R.groups (s.grouped keys aggregates) rows = (distinctOn (R.keyTuple keys) rows).map (R.groupOf keys rows) := by
  have hgrouping : (s.grouped keys aggregates).grouping.isEmpty = false := by
    unfold Statement.grouped
    dsimp only
    rw [isEmpty_separated fun _ _ => cons_ne_nil _ _]
    simpa using hne
  have htuple : R.keys (s.grouped keys aggregates).grouping = R.keyTuple keys := by
    funext row
    unfold Reading.keys keyTuple Statement.grouped
    dsimp only
    rw [show (keys.map fun key => [key.2]) = (keys.map Prod.snd).map fun p => [p] by rw [map_map]; rfl,
      SelectItem.read_operands (forall_mem_map.2 hkeys), map_map, map_map]
    rfl
  unfold groups groupsOn
  rw [hgrouping, if_neg (by decide), htuple]
  rfl

include hsuits

/-- Over the group of a row the keys have their values at that row. -/
theorem fields_grouped [DecidableEq Value] {rows : List Row} {row : Row} (h : row ∈ rows) :
    R.fields (s.grouped keys aggregates).selectList (R.groupOf keys rows row) =
      R.groupFields keys aggregates rows row := by
  unfold fields groupFields
  rw [read_grouped hkeys, map_map, groupItems, map_append, map_map, map_map]
  obtain ⟨first, rest, hg, hvalues⟩ := groupOf_eq_cons R keys h
  congr 1
  · refine map_congr_left fun key hkey => Prod.ext rfl ?_
    change R.cell [key.2] (R.groupOf keys rows row) = R.value [key.2] row
    rw [hg, cell_key (hsuits.keys key hkey)]
    exact hvalues key hkey
  · refine map_congr_left fun a ha => Prod.ext rfl ?_
    exact cell_aggregate (hsuits.aggregates a ha) _

/-- The groups of a statement, with the fields that are selected from them. Where there are no keys
it takes a row to make a group. -/
theorem selected_grouped [DecidableEq Value] {rows : List Row} (hne : keys ≠ [] ∨ aggregates ≠ [] ∧ rows ≠ []) :
    R.selected (s.grouped keys aggregates) rows = (distinctOn (R.keyTuple keys) rows).map fun row =>
      (R.groupOf keys rows row, .record (R.groupFields keys aggregates rows row)) := by
  have hselect : (s.grouped keys aggregates).selectList.isEmpty = false := by
    rw [isEmpty_selectList, groupItems]
    rcases hne with hne | ⟨hne, -⟩ <;> simp [hne]
  have hgroups : R.groups (s.grouped keys aggregates) rows =
      (distinctOn (R.keyTuple keys) rows).map (R.groupOf keys rows) := by
    by_cases hk : keys = []
    · subst hk
      obtain ⟨haggregates, hrows⟩ := hne.resolve_left (absurd rfl)
      obtain ⟨row, rest, rfl⟩ := exists_cons_of_ne_nil hrows
      rw [groups_of_aggregates hsuits haggregates, distinctOn_of_forall_eq fun _ _ => rfl]
      exact congrArg (fun group => [group]) (filter_eq_self.2 fun _ _ => decide_eq_true rfl).symm
    · exact groups_of_keys hkeys hk rows
  unfold selected
  rw [hselect, if_neg (by decide), hgroups, map_map]
  refine map_congr_left fun row hrow => Prod.ext rfl ?_
  exact congrArg Output.record (fields_grouped hsuits hkeys (mem_of_mem_distinctOn hrow))

/-- The rows of a statement with keys or aggregates: the groups of the rows that the condition keeps,
of which `OFFSET` and `LIMIT` take some. `DISTINCT` finds no two groups alike. -/
theorem rows_grouped [DecidableEq Row] [DecidableEq Value] (hordering : s.ordering = []) {source : List Row}
    (hne : keys ≠ [] ∨ aggregates ≠ [] ∧ R.kept s source ≠ []) :
    R.rows (s.grouped keys aggregates) source =
      R.limited s (R.skipped s (R.grouped keys aggregates (R.kept s source))) := by
  -- records of two groups differ in a key, so that `DISTINCT` drops none of them
  have hcontent : ∀ a b, (.record (R.groupFields keys aggregates (R.kept s source) a) : Output Row Value).content =
      (.record (R.groupFields keys aggregates (R.kept s source) b) : Output Row Value).content →
      R.keyTuple keys a = R.keyTuple keys b := by
    intro a b h
    have h := Sum.inr.inj h
    unfold groupFields at h
    simp only [map_append, map_map] at h
    exact (append_inj h (by simp)).1
  have hnodup : (((distinctOn (R.keyTuple keys) (R.kept s source)).map fun row =>
      ((R.groupOf keys (R.kept s source) row, .record (R.groupFields keys aggregates (R.kept s source) row)) :
        List Row × Output Row Value)).map fun r => r.2.content).Nodup := by
    rw [map_map, List.Nodup, pairwise_map]
    exact (pairwise_map.1 (nodup_map_distinctOn (R.keyTuple keys) (R.kept s source))).imp
      fun hne h => hne (hcontent _ _ h)
  unfold rows
  rw [show R.kept (s.grouped keys aggregates) source = R.kept s source from rfl,
    selected_grouped hsuits hkeys hne, distinctBy, distinctOn_eq_self hnodup, ite_self,
    sortedBy_nil (s := s.grouped keys aggregates) hordering, skipped_map, limited_map, map_map]
  unfold grouped
  rw [skipped_map, limited_map]
  rfl

end Reading

end

/-- The statement grouped in place returns the groups of its own rows. -/
def Reading.GroupsInPlace {Row Value : Type} [DecidableEq Row] [DecidableEq Value] (R : Reading Row Value)
    (s : Statement) (keys : List (String × Part)) (aggregates : List (String × Aggregate Operand × Part)) : Prop :=
  ∀ source, R.rows (s.grouped keys aggregates) source = R.grouped keys aggregates (R.wholeRows s source)

/-- No clause comes between the rows of the statement and their groups. Either it returns no rows at
all, or there are keys, no row is skipped, and aggregates, which see how many rows a group has, find
neither a limit nor `DISTINCT`; without aggregates the first row alone may be asked for. -/
def Statement.GroupsItsRows (count : List Part → Nat) (s : Statement) {κ α : Type} (keys : List κ)
    (aggregates : List α) : Prop :=
  (∃ n ∈ s.top, count n = 0) ∨
    keys ≠ [] ∧ (∀ n ∈ s.skip, count n = 0) ∧
      (aggregates = [] ∧ (∀ n ∈ s.top, count n = 1) ∨ aggregates ≠ [] ∧ s.top = none ∧ s.distinct = false)

section

variable {Row Value : Type} [DecidableEq Row] [DecidableEq Value] {R : Reading Row Value}
  {keys : List (String × Part)} {aggregates : List (String × Aggregate Operand × Part)} {s : Statement}

namespace Reading

/-- Without aggregates a group is its first row. -/
theorem grouped_distinctBy (rows : List Row) :
    R.grouped keys [] (s.distinctBy id rows) = R.grouped keys [] rows := by
  unfold distinctBy
  split
  · unfold grouped
    rw [distinctOn_distinctOn (f := R.keyTuple keys) (g := id) fun a b h => congrArg (R.keyTuple keys) h]
    rfl
  · rfl

omit [DecidableEq Row] in
theorem grouped_take_one (rows : List Row) : R.grouped keys [] (rows.take 1) = (R.grouped keys [] rows).take 1 := by
  cases rows <;> rfl

theorem groupsInPlace_of_groupsItsRows (hsuits : R.Suits keys aggregates)
    (hkeys : ∀ key ∈ keys, key.2.IsOperand) (hordering : s.ordering = [])
    (h : s.GroupsItsRows R.count keys aggregates) : R.GroupsInPlace s keys aggregates := by
  intro source
  rcases h with ⟨n, htop, hn⟩ | ⟨hne, hskip, h⟩
  · -- no rows, no groups
    have hnone : ∀ {α : Type} (t : Statement), t.top = s.top → ∀ l : List α, R.limited t l = [] := by
      intro α t ht l
      unfold limited
      rw [ht, htop]
      dsimp only
      rw [hn, take_zero]
    unfold rows wholeRows
    rw [hnone (s.grouped keys aggregates) rfl, hnone s rfl]; rfl
  · rw [rows_grouped hsuits hkeys hordering (Or.inl hne), skipped_eq_self hskip]
    unfold wholeRows
    rw [skipped_eq_self hskip, sortedBy_nil hordering]
    rcases h with ⟨rfl, htop⟩ | ⟨-, htop, hdistinct⟩
    · unfold limited
      cases hn : s.top with
      | none => exact (grouped_distinctBy _).symm
      | some n =>
        dsimp only
        rw [htop n hn, grouped_take_one, grouped_distinctBy]
    · unfold limited distinctBy
      rw [htop, hdistinct]; rfl

end Reading

end

/-! ## Counting rows -/

/-- The reading of `Reading.pairs` in which the functions of the aggregates count rows. -/
def Reading.counting (count : List Part → Nat) (aggregates : List (String × Aggregate Operand × Part)) :
    Reading (Nat × Nat) Nat :=
  .pairs count (fun _ => true) fun f => aggregates.any fun a => a.2.1.function.qualifiedName == f

namespace Reading

variable {count : List Part → Nat} {keys : List (String × Part)}
  {aggregates : List (String × Aggregate Operand × Part)} {s : Statement}

theorem aggregate?_counting {a : String × Aggregate Operand × Part} (h : a ∈ aggregates) :
    (counting count aggregates).aggregate? a.2.1.function.qualifiedName = some fun _ values => values.length :=
  if_pos (any_eq_true.2 ⟨a, h, by simp⟩)

/-- The reading suits keys that are no calls of the functions of the aggregates. -/
theorem suits_counting (h : ∀ key ∈ keys, ∀ a ∈ aggregates, ∀ d p,
    callOf? [key.2] ≠ some (a.2.1.function.qualifiedName, d, p)) :
    (counting count aggregates).Suits keys aggregates := by
  refine ⟨fun key hkey => ?_, fun a ha => ?_⟩
  · unfold aggregation? counting pairs
    cases hcall : callOf? [key.2] with
    | none => rfl
    | some call =>
      obtain ⟨f, d, p⟩ := call
      have hf : (aggregates.any fun a => a.2.1.function.qualifiedName == f) = false := by
        rw [any_eq_false]
        intro a ha hf
        exact h key hkey a ha d p (by rw [hcall, ← eq_of_beq hf])
      simp [hf]
  · rw [aggregate?_counting ha]; rfl

theorem kept_counting (source : List (Nat × Nat)) : (counting count aggregates).kept s source = source := by
  unfold kept
  split
  · rfl
  · exact filter_eq_self.2 fun _ _ => rfl

/-- The row of a group with `n` rows, of the key 1. -/
def countRecord (keys : List (String × Part)) (aggregates : List (String × Aggregate Operand × Part)) (n : Nat) :
    Output (Nat × Nat) Nat :=
  .record (keys.map (fun key => (some (.text key.1), 1)) ++ aggregates.map fun a => (some (.text a.1), n))

theorem countRecord_injective (h : aggregates ≠ []) : Function.Injective (countRecord keys aggregates) := by
  intro m n hmn
  obtain ⟨a, rest, rfl⟩ := exists_cons_of_ne_nil h
  have hfields := append_cancel_left (Output.record.inj hmn)
  exact congrArg Prod.snd (cons.inj hfields).1

/-- Rows of one key make one group. -/
theorem grouped_counting {rows : List (Nat × Nat)} (hne : rows ≠ []) (hkey : ∀ row ∈ rows, row.1 = 1) :
    (counting count aggregates).grouped keys aggregates rows = [countRecord keys aggregates rows.length] := by
  obtain ⟨row, rest, rfl⟩ := exists_cons_of_ne_nil hne
  have htuple : ∀ a ∈ row :: rest, (counting count aggregates).keyTuple keys a = keys.map fun _ => 1 :=
    fun a ha => map_congr_left fun _ _ => hkey a ha
  have hrow := htuple row mem_cons_self
  have hgroup : (counting count aggregates).groupOf keys (row :: rest) row = row :: rest :=
    filter_eq_self.2 fun a ha => decide_eq_true ((htuple a ha).trans hrow.symm)
  unfold grouped
  rw [distinctOn_of_forall_eq fun a ha => (htuple a (mem_cons_of_mem _ ha)).trans hrow.symm, map_singleton]
  unfold groupFields countRecord
  rw [hgroup]
  congr 3
  · exact map_congr_left fun key _ => Prod.ext rfl (hkey row mem_cons_self)
  · refine map_congr_left fun a ha => Prod.ext rfl ?_
    unfold aggregateValue
    rw [aggregate?_counting ha]
    exact length_map _

theorem limited_singleton {Row Value α : Type} {R : Reading Row Value} (htop : ∀ n ∈ s.top, R.count n ≠ 0) (a : α) :
    R.limited s [a] = [a] := by
  unfold limited
  cases hn : s.top with
  | none => rfl
  | some n => exact take_of_length_le (Nat.one_le_iff_ne_zero.2 (htop n hn))

theorem skipped_eq_drop {Row Value α : Type} {R : Reading Row Value} (l : List α) :
    R.skipped s l = l.drop ((s.skip.map R.count).getD 0) := by
  unfold skipped
  cases s.skip <;> rfl

/-- Of as many rows as are skipped and one more the last is returned. -/
theorem wholeRows_last (htop : ∀ n ∈ s.top, count n ≠ 0) :
    (counting count aggregates).wholeRows s (numbered ((s.skip.map count).getD 0 + 1)) =
      [(1, (s.skip.map count).getD 0)] := by
  unfold counting
  rw [wholeRows_numbered (Or.inr fun _ => rfl), skipped_eq_drop, numbered_succ]
  change limited _ s ((numbered _ ++ _).drop ((s.skip.map count).getD 0)) = _
  rw [drop_left' (length_numbered _), limited_singleton htop]

theorem numbered_ne_nil {m : Nat} (h : m ≠ 0) : numbered m ≠ [] :=
  fun hnil => h (by simpa using congrArg length hnil)

section

variable (h : (counting count aggregates).GroupsInPlace s keys aggregates) (htop : ∀ n ∈ s.top, count n ≠ 0)

include h htop

/-- Without keys and aggregates the rows themselves are returned. -/
theorem GroupsInPlace.keys_or_aggregates : keys ≠ [] ∨ aggregates ≠ [] := by
  by_contra hnone
  obtain ⟨rfl, rfl⟩ : keys = [] ∧ aggregates = [] := by simpa using hnone
  have := h (numbered ((s.skip.map count).getD 0 + 1))
  rw [rows_eq_wholeRows (s := s.grouped [] []) _ rfl] at this
  change ((counting count []).wholeRows s _).map _ = _ at this
  rw [wholeRows_last htop] at this
  cases (cons.inj this).1

variable (hsuits : (counting count aggregates).Suits keys aggregates) (hordering : s.ordering = [])

include hsuits hordering

/-- An offset skips groups in place of rows. -/
theorem GroupsInPlace.offset_eq_zero (hkeys : ∀ key ∈ keys, key.2.IsOperand) : (s.skip.map count).getD 0 = 0 := by
  by_contra hoffset
  have hne : numbered ((s.skip.map count).getD 0 + 1) ≠ [] := numbered_ne_nil (Nat.succ_ne_zero _)
  have := h (numbered ((s.skip.map count).getD 0 + 1))
  rw [rows_grouped hsuits hkeys hordering ((h.keys_or_aggregates htop).imp_right (⟨·, by rwa [kept_counting]⟩)),
    kept_counting, wholeRows_last htop, grouped_counting hne (by simp [numbered]), grouped_counting (by simp) (by simp),
    skipped_eq_drop, drop_eq_nil_of_le] at this
  · unfold limited at this
    split at this <;> simp at this
  · exact Nat.one_le_iff_ne_zero.2 hoffset

/-- Aggregates without keys make a row out of no rows. -/
theorem GroupsInPlace.keys_ne_nil (hskip : ∀ n ∈ s.skip, count n = 0) : keys ≠ [] := by
  rintro rfl
  have haggregates := (h.keys_or_aggregates htop).resolve_left (absurd rfl)
  have hselect : (s.grouped [] aggregates).selectList.isEmpty = false := by
    rw [isEmpty_selectList, groupItems]; simpa using haggregates
  have hwhole : (counting count aggregates).wholeRows s [] = [] := by
    rw [wholeRows, kept_counting, sortedBy_nil hordering, skipped_eq_self hskip]
    unfold distinctBy limited
    split <;> split <;> simp [distinctOn]
  have hrows := h []
  unfold rows selected at hrows
  rw [hselect, if_neg (by decide), kept_counting, groups_of_aggregates hsuits haggregates, map_singleton,
    distinctBy, distinctOn_of_forall_eq (forall_mem_nil _), ite_self,
    sortedBy_nil (s := s.grouped [] aggregates) hordering,
    skipped_eq_self (R := counting count aggregates) (s := s.grouped [] aggregates) hskip,
    limited_singleton (R := counting count aggregates) (s := s.grouped [] aggregates) htop, hwhole] at hrows
  cases hrows

end

/-- Behind rows of one key a row of another makes a second group. -/
theorem length_grouped_append {m k : Nat} (hne : keys ≠ []) (hm : m ≠ 0) :
    ((counting count aggregates).grouped keys aggregates (numbered m ++ [(2, k)])).length = 2 := by
  have hone : ((counting count aggregates).grouped keys aggregates (numbered m)).length = 1 := by
    rw [grouped_counting (numbered_ne_nil hm) (by simp [numbered])]; rfl
  have hother : ∀ row ∈ numbered m, (counting count aggregates).keyTuple keys (2, k) ≠
      (counting count aggregates).keyTuple keys row := by
    intro row hrow htuple
    obtain ⟨key, rest, rfl⟩ := exists_cons_of_ne_nil hne
    have hvalue : 2 = row.1 := (cons.inj htuple).1
    obtain ⟨j, -, rfl⟩ := mem_map.1 hrow
    simp at hvalue
  unfold grouped at hone ⊢
  rw [length_map] at hone ⊢
  rw [distinctOn_append, length_append, hone, filter_eq_self.2]
  · rfl
  · intro row hrow
    rw [mem_singleton.1 (mem_of_mem_distinctOn hrow)]
    exact decide_eq_true hother

section

variable (hkeys : ∀ key ∈ keys, key.2.IsOperand) (hordering : s.ordering = []) (hskip : ∀ n ∈ s.skip, count n = 0)

include hkeys hordering hskip

/-- Groups without aggregates cannot be limited to two or more. -/
theorem GroupsInPlace.top_eq_one (h : (counting count []).GroupsInPlace s keys [])
    (hsuits : (counting count []).Suits keys []) (hne : keys ≠ []) (htop : ∀ n ∈ s.top, count n ≠ 0) :
    ∀ n ∈ s.top, count n = 1 := by
  intro n hn
  by_contra hone
  have hnodup : (numbered (count n) ++ [(2, count n)]).Nodup := by
    refine (nodup_numbered _).append (nodup_singleton _) (disjoint_singleton.2 fun hmem => ?_)
    simp [numbered] at hmem
  have hwhole : (counting count []).wholeRows s (numbered (count n) ++ [(2, count n)]) = numbered (count n) := by
    rw [wholeRows, kept_counting, sortedBy_nil hordering, skipped_eq_self hskip, distinctBy,
      distinctOn_eq_self (by simpa using hnodup), ite_self, limited, hn]
    exact take_left' (length_numbered _)
  have hrows := congrArg length (h (numbered (count n) ++ [(2, count n)]))
  rw [rows_grouped hsuits hkeys hordering (Or.inl hne), kept_counting, skipped_eq_self hskip, hwhole,
    grouped_counting (numbered_ne_nil (htop n hn)) (by simp [numbered]), limited, hn] at hrows
  change (take (count n) _).length = 1 at hrows
  rw [length_take, length_grouped_append hne (htop n hn)] at hrows
  have := htop n hn
  omega

variable (hsuits : (counting count aggregates).Suits keys aggregates) (hne : aggregates ≠ [])

include hsuits hne

/-- The rows of one key, if no group is skipped. -/
theorem rows_counting {rows : List (Nat × Nat)} (htop : ∀ n ∈ s.top, count n ≠ 0) (hrows : rows ≠ [])
    (hkey : ∀ row ∈ rows, row.1 = 1) :
    (counting count aggregates).rows (s.grouped keys aggregates) rows = [countRecord keys aggregates rows.length] := by
  rw [rows_grouped hsuits hkeys hordering (Or.inr ⟨hne, by rwa [kept_counting]⟩), kept_counting,
    grouped_counting hrows hkey, skipped_eq_self hskip, limited_singleton htop]

/-- Aggregates count the rows that a limit leaves out. -/
theorem GroupsInPlace.top_eq_none (h : (counting count aggregates).GroupsInPlace s keys aggregates)
    (htop : ∀ n ∈ s.top, count n ≠ 0) : s.top = none := by
  cases hn : s.top with
  | none => rfl
  | some n =>
    exfalso
    have hrows := h (numbered (count n + 1))
    have hwhole : (counting count aggregates).wholeRows s (numbered (count n + 1)) = numbered (count n) := by
      unfold counting
      rw [wholeRows_numbered (Or.inr fun _ => rfl), skipped_eq_self hskip, limited, hn, numbered_succ]
      exact take_left' (length_numbered _)
    rw [rows_counting hkeys hordering hskip hsuits hne htop (numbered_ne_nil (Nat.succ_ne_zero _)) (by simp [numbered]),
      hwhole, grouped_counting (numbered_ne_nil (htop n hn)) (by simp [numbered]), length_numbered, length_numbered] at hrows
    exact Nat.succ_ne_self _ (countRecord_injective hne (cons.inj hrows).1)

/-- Aggregates count the rows that `DISTINCT` leaves out. -/
theorem GroupsInPlace.distinct_eq_false (h : (counting count aggregates).GroupsInPlace s keys aggregates)
    (htop : s.top = none) : s.distinct = false := by
  rw [← Bool.not_eq_true]
  intro hdistinct
  have hrows := h [(1, 0), (1, 0)]
  have hwhole : (counting count aggregates).wholeRows s [(1, 0), (1, 0)] = [(1, 0)] := by
    rw [wholeRows, kept_counting, sortedBy_nil hordering, skipped_eq_self hskip, limited, htop,
      distinctBy, if_pos hdistinct]
    rfl
  rw [rows_counting hkeys hordering hskip hsuits hne (by simp [htop]) (by simp) (by simp), hwhole,
    grouped_counting (by simp) (by simp)] at hrows
  exact absurd (countRecord_injective hne (cons.inj hrows).1) (by decide)

end

theorem GroupsInPlace.groupsItsRows (h : (counting count aggregates).GroupsInPlace s keys aggregates)
    (hsuits : (counting count aggregates).Suits keys aggregates)
    (hkeys : ∀ key ∈ keys, key.2.IsOperand) (hordering : s.ordering = []) :
    s.GroupsItsRows count keys aggregates := by
  by_cases htop : ∃ n ∈ s.top, count n = 0
  · exact Or.inl htop
  have htop : ∀ n ∈ s.top, count n ≠ 0 := fun n hn h0 => htop ⟨n, hn, h0⟩
  have hoffset := h.offset_eq_zero htop hsuits hordering hkeys
  have hskip : ∀ n ∈ s.skip, count n = 0 := by
    intro n hn
    rw [Option.mem_def.1 hn] at hoffset
    exact hoffset
  have hne := h.keys_ne_nil htop hsuits hordering hskip
  refine Or.inr ⟨hne, hskip, ?_⟩
  by_cases hnil : aggregates = []
  · subst hnil
    exact Or.inl ⟨rfl, h.top_eq_one hkeys hordering hskip hsuits hne htop⟩
  · have hnone := h.top_eq_none hkeys hordering hskip hsuits hnil htop
    exact Or.inr ⟨hnil, hnone, h.distinct_eq_false hkeys hordering hskip hsuits hnil hnone⟩

end Reading

/-! ## Grouping of a query -/

/-- No key is a call of a function that the aggregates use. -/
def KeysApart (keys : List (String × Part)) (aggregates : List (String × Aggregate Operand × Part)) : Prop :=
  ∀ key ∈ keys, ∀ a ∈ aggregates, ∀ d p, callOf? [key.2] ≠ some (a.2.1.function.qualifiedName, d, p)

section

variable {b b1 b' : Build} {i j : StatementId} {x : SymbolId}

/-- Keys and aggregates over plain columns are written into the statement of an input that takes
them. -/
theorem group_clauses {input : GroupBinding Operand} {keys : List (String × Operand)}
    {aggregates : List (String × Aggregate Operand)} (hv : ValueOK input.expr) (hk : ∀ k ∈ keys, ValueOK k.2)
    (ha : ∀ a ∈ aggregates, ValueOK a.2.argument) (hb : Good b) (hj : b.inJoin = false)
    (hin : Runs (Build.input input.expr input.var input.type) b (j, x) b1)
    (hacc : (b1.statements.get j).accepts .groupBy = true) (hneeds : needsInner aggregates = false)
    (hr : Runs (group input keys aggregates) b i b') :
    i = j ∧ ∃ ks as b2 b3 b4, Runs (keys.mapM buildKey) b2 ks b3 ∧ Runs (aggregates.mapM buildArgument) b3 as b4 ∧
      ((b1.statements.get j).grouped ks as).SameClauses (b'.statements.get i) := by
  obtain ⟨k, y, b2, _, b3, b4, b6, hfor, ho, hdecl, hb4, hopen, -, hbody, rfl⟩ := group_cases hv hb hj hr
  obtain ⟨rfl, rfl, rfl⟩ := inputFor_accepted hin hacc hfor
  rw [hneeds, if_neg (by decide)] at hbody
  obtain ⟨ks, as, b7, b8, rfl, hks, has, hb6⟩ := groupInPlace_cases hbody
  refine ⟨rfl, ks, as, _, _, _, hks, has, ?_⟩
  obtain ⟨hstep, -, -⟩ := groupTexts_spec hk ha hopen.good (by rw [hopen.inJoin]; exact hj) hks has
  have hsame : (b2.store.get i).SameClauses (b8.store.get i) := by
    refine (declareExtent_clauses hdecl ho.lt).trans ?_
    rw [hb4] at hstep hopen
    exact (hstep.grows.text i hopen.owns.lt).sameClauses
  obtain ⟨hselect, hgrouping, -⟩ := accepts_groupBy hacc
  change Statement.SameClauses _ (b6.store.get i)
  rw [(get_update hb6 (hopen.step hstep).owns.lt).1]
  refine ⟨hsame.distinct, ?_, hsame.condition, ?_, hsame.ordering, hsame.top, hsame.skip⟩
  · change (b8.store.get i).selectList ++ _ = _
    rw [hsame.selectList.trans hselect, namedItems, map_map]; rfl
  · change (b8.store.get i).grouping ++ _ = _
    rw [hsame.grouping.trans hgrouping]; rfl

/-- Keys, and aggregates over plain columns, are written into the statement of an input that takes
them. It then returns the groups of the rows that it returned before, whatever the texts mean, if and
only if no clause comes in between. -/
theorem group_rows_iff {config : Config} {source : GroupBinding Expr} {keys : List (String × Expr)}
    {aggregates : List (String × Aggregate Expr)} (hb : Good b) (hj : b.inJoin = false)
    (hin : Runs (input (source.expr.toOperand config) source.var source.type) b (j, x) b₁)
    (hacc : (b₁.statements.get j).accepts .groupBy = true)
    (hcolumns : ∀ a ∈ aggregates, a.2.argument.isPlainColumn = true)
    (hrun : Runs (group (source.with (source.expr.toOperand config)) (Expr.namedOperands config keys)
      (Expr.aggregateOperands config aggregates)) b i b') :
    i = j ∧ ∃ ks as,
      List.Forall₂ (fun key k => k.1 = key.1 ∧
        ∃ sql b₂ b₃, Runs (key.2.build config) b₂ sql b₃ ∧ k.2 = sql.toPart) keys ks ∧
      List.Forall₂ (fun a' a => a.1 = a'.1 ∧ a.2.1 = a'.2.with (a'.2.argument.toOperand config) ∧
        ∃ sql b₂ b₃, Runs (a'.2.argument.build config) b₂ sql b₃ ∧ a.2.2 = sql.toPart) aggregates as ∧
      (KeysApart ks as → ∀ count : List Part → Nat,
        (∀ (Row Value : Type) [DecidableEq Row] [DecidableEq Value] (R : Reading Row Value) (rows : List Row),
            R.count = count → R.Suits ks as → R.rows (b'.statements.get i) rows =
              R.grouped ks as ((R.rows (b₁.statements.get j) rows).filterMap Output.row?)) ↔
          (b₁.statements.get j).GroupsItsRows count keys aggregates) := by
  have hneeds : needsInner (Expr.aggregateOperands config aggregates) = false := by
    rw [needsInner, Expr.aggregateOperands_eq_map, List.any_map, List.any_eq_false]
    intro a ha
    simpa [Aggregate.with, Expr.toOperand] using hcolumns a ha
  have hvalue : ∀ e : Expr, ValueOK (e.toOperand config) := fun e => (Expr.buildsSound e).value
  obtain ⟨rfl, ks, as, b₂, b₃, b₄, hks, has, hclauses⟩ := group_clauses (hvalue _)
    (by rw [Expr.namedOperands_eq_map]; exact List.forall_mem_map.2 fun _ _ => hvalue _)
    (by rw [Expr.aggregateOperands_eq_map]; exact List.forall_mem_map.2 fun _ _ => hvalue _) hb hj hin hacc hneeds hrun
  rw [Expr.namedOperands_eq_map] at hks
  rw [Expr.aggregateOperands_eq_map] at has
  have hks' := hks
  have hks := List.forall₂_map_left_iff.1 (forall₂_of_runs_mapM hks)
  have has := List.forall₂_map_left_iff.1 (forall₂_of_runs_mapM has)
  simp only [buildKey, buildArgument, runs_bind, runs_pure] at hks has
  refine ⟨rfl, ks, as, hks.imp ?_, has.imp ?_, fun hapart count => ?_⟩
  · rintro key k ⟨b₅, b₆, sql, b₇, hsql, rfl, -⟩
    exact ⟨rfl, sql, b₅, b₇, hsql, rfl⟩
  · rintro a' a ⟨b₅, b₆, sql, b₇, hsql, rfl, -⟩
    exact ⟨rfl, rfl, sql, b₅, b₇, hsql, rfl⟩
  obtain ⟨hselect, -, hordering⟩ := Statement.accepts_groupBy hacc
  have hparts : ∀ k ∈ ks, k.2.IsOperand := by
    refine forall_of_runs_mapM (fun key b₅ k b₆ hk => ?_) hks'
    simp only [buildKey, runs_bind, runs_pure] at hk
    obtain ⟨sql, b₇, -, rfl, -⟩ := hk
    exact toPart_ne sql
  have hlengths : (b₁.statements.get i).GroupsItsRows count keys aggregates ↔
      (b₁.statements.get i).GroupsItsRows count ks as := by
    have hk : keys = [] ↔ ks = [] := by rw [← List.length_eq_zero_iff, hks.length_eq, List.length_eq_zero_iff]
    have ha : aggregates = [] ↔ as = [] := by rw [← List.length_eq_zero_iff, has.length_eq, List.length_eq_zero_iff]
    unfold Statement.GroupsItsRows
    rw [ne_eq, ne_eq, hk, ha]
  have hrows : ∀ {Row Value : Type} [DecidableEq Row] [DecidableEq Value] (R : Reading Row Value) (rows : List Row),
      (R.rows (b₁.statements.get i) rows).filterMap Output.row? = R.wholeRows (b₁.statements.get i) rows := by
    intro Row Value _ _ R rows
    rw [R.rows_eq_wholeRows hselect, List.filterMap_map]
    exact List.filterMap_some
  rw [hlengths]
  constructor
  · intro h
    refine Reading.GroupsInPlace.groupsItsRows (fun rows => ?_) (Reading.suits_counting hapart) hparts hordering
    rw [← Reading.rows_congr _ hclauses, h _ _ _ rows rfl (Reading.suits_counting hapart), hrows]
  · rintro h Row Value _ _ R rows rfl hsuits
    rw [R.rows_congr hclauses, hrows]
    exact Reading.groupsInPlace_of_groupsItsRows hsuits hparts hordering h rows

end

theorem callOf?_of_isPlainColumn {config : Config} {e : Expr} {b b' : Build} {sql : Fragment}
    (he : e.isPlainColumn = true) (hr : Runs (e.build config) b sql b') : callOf? [sql.toPart] = none := by
  cases e with
  | property owner name =>
    rw [Expr.build] at hr
    obtain ⟨f, b1, _, -, hm, -⟩ := member_cases hr
    cases hm with
    | input hjoin hinput => split <;> rfl
    | text _ _ => cases f <;> rfl
    | _ => rfl
  | _ => cases he

def keyOf : List (String × Expr) := [("k", numberOf "q")]

def countOf : List (String × Aggregate Expr) := [("n", { function := { name := "COUNT" }, argument := numberOf "q" })]

/-- Two rows of a table. -/
def twoNumbers : Expr := .limit numbersTable (.constant (.int32 2)) false

/-- Counting the rows of a table by their keys is written into its statement, and keeps its meaning. -/
theorem group_rows_of_table : ∃ i j x b₁ b',
    Runs (input (numbersTable.toOperand {}) "q" numbersTable.rowType) {} (j, x) b₁ ∧
    (b₁.statements.get j).accepts .groupBy = true ∧
    Runs (group ((numbersTable.bindGroup "q" "g").with (numbersTable.toOperand {})) (Expr.namedOperands {} keyOf)
      (Expr.aggregateOperands {} countOf)) {} i b' ∧
    i = j ∧ ∃ ks as, ks.map Prod.fst = ["k"] ∧ as.map Prod.fst = ["n"] ∧
      ∀ (Row Value : Type) [DecidableEq Row] [DecidableEq Value] (R : Reading Row Value) (rows : List Row),
        R.Suits ks as → R.rows (b'.statements.get i) rows =
          R.grouped ks as ((R.rows (b₁.statements.get j) rows).filterMap Output.row?) := by
  obtain ⟨⟨j, x⟩, b₁, hin, htest⟩ := exists_runs (m := input (numbersTable.toOperand {}) "q" numbersTable.rowType)
    (b := {}) (p := fun r b => (b.statements.get r.1).accepts .groupBy && (b.statements.get r.1).skip.isNone &&
      (b.statements.get r.1).top.isNone && !(b.statements.get r.1).distinct) (by decide +kernel)
  simp only [Bool.and_eq_true, Bool.not_eq_true', Option.isNone_iff_eq_none, and_assoc] at htest
  obtain ⟨hacc, hskip, htop, hdistinct⟩ := htest
  obtain ⟨i, b', hrun, -⟩ := exists_runs (b := {}) (p := fun _ _ => true)
    (m := group ((numbersTable.bindGroup "q" "g").with (numbersTable.toOperand {})) (Expr.namedOperands {} keyOf)
      (Expr.aggregateOperands {} countOf)) (by decide +kernel)
  obtain ⟨rfl, ks, as, hks, has, hiff⟩ := group_rows_iff Query.good_start rfl hin hacc (by decide) hrun
  obtain ⟨k, _, ⟨hk, sql, b₂, b₃, hsql, hpart⟩, hnil, rfl⟩ := List.forall₂_cons_left_iff.1 hks
  obtain rfl := List.forall₂_nil_left_iff.1 hnil
  obtain ⟨a, _, ⟨ha, -⟩, hnil, rfl⟩ := List.forall₂_cons_left_iff.1 has
  obtain rfl := List.forall₂_nil_left_iff.1 hnil
  have hapart : KeysApart [k] [a] := by
    intro key hkey _ _ d p
    rw [List.mem_singleton.1 hkey, hpart, callOf?_of_isPlainColumn rfl hsql]
    exact (Option.some_ne_none _).symm
  refine ⟨i, i, x, b₁, b', hin, hacc, hrun, rfl, [k], [a], by simp [hk], by simp [ha],
    fun Row Value _ _ R rows hsuits => (hiff hapart R.count).2 (Or.inr ⟨List.cons_ne_nil _ _, by simp [hskip], ?_⟩)
      Row Value R rows rfl hsuits⟩
  exact Or.inr ⟨List.cons_ne_nil _ _, htop, hdistinct⟩

/-- Grouping of two rows of a table is written into the same statement, and then a third row is
counted. -/
theorem group_over_limit_counts_all_rows :
    (Query.compile {} (.groupBy (twoNumbers.bindGroup "q" "g") keyOf countOf)).toOption =
      some ⟨"SELECT c.k AS k, COUNT(c.k) AS n FROM t AS c GROUP BY c.k LIMIT 2", ["k", "n"]⟩ ∧
    ∃ i j x b₁ b', Runs (input (twoNumbers.toOperand {}) "q" twoNumbers.rowType) {} (j, x) b₁ ∧
      (b₁.statements.get j).accepts .groupBy = true ∧
      Runs (group ((twoNumbers.bindGroup "q" "g").with (twoNumbers.toOperand {})) (Expr.namedOperands {} keyOf)
        (Expr.aggregateOperands {} countOf)) {} i b' ∧
      ((Reading.pairs Reading.eight.count (fun _ => true) (· == "COUNT")).rows (b₁.statements.get j)
        (numbered 3)).filterMap Output.row? = numbered 2 ∧
      ((Reading.pairs Reading.eight.count (fun _ => true) (· == "COUNT")).rows (b'.statements.get i)
        (numbered 3)).map Output.content = [.inr [1, 3]] := by
  obtain ⟨⟨j, x⟩, b₁, hin, hbefore⟩ := exists_runs (b := {}) (m := input (twoNumbers.toOperand {}) "q" twoNumbers.rowType)
    (p := fun r b => (b.statements.get r.1).accepts .groupBy &&
      ((Reading.pairs Reading.eight.count (fun _ => true) (· == "COUNT")).rows (b.statements.get r.1)
        (numbered 3)).filterMap Output.row? == numbered 2) (by decide +kernel)
  obtain ⟨hacc, hrows⟩ := Bool.and_eq_true_iff.1 hbefore
  obtain ⟨i, b', hrun, hafter⟩ := exists_runs (b := {})
    (m := group ((twoNumbers.bindGroup "q" "g").with (twoNumbers.toOperand {})) (Expr.namedOperands {} keyOf)
      (Expr.aggregateOperands {} countOf))
    (p := fun i b => ((Reading.pairs Reading.eight.count (fun _ => true) (· == "COUNT")).rows (b.statements.get i)
        (numbered 3)).map Output.content = [.inr [1, 3]]) (by decide +kernel)
  exact ⟨by decide +kernel, i, j, x, b₁, b', hin, hacc, hrun, by simpa using hrows, of_decide_eq_true hafter⟩

end RelSql
