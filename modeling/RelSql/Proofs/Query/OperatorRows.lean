/-
Projection, order, `DISTINCT` and limits added to a statement that takes them. An order, `DISTINCT`
and a limit act on the rows that the statement returned before, given that it skips rows only in an
order. A projection does so unless the statement is `DISTINCT`: then the fields are compared in place
of the rows. A statement that is `DISTINCT` and has no select list is what wrapping makes of one that
does not take `DISTINCT`.
-/
import RelSql.Proofs.Build.Placing
import RelSql.Proofs.Query.SkipRows

namespace RelSql

open Build Statement SelectItem List

variable {ps : List Part} {s : Statement} {op : Operator}

/-! ## Operators on rows -/

theorem SelectItem.readAll_ne_nil : ∀ (ps : List Part) (last : String) (item : SelectItem), readAll last item ps ≠ []
  | [], _, _ => cons_ne_nil _ _
  | p :: rest, last, item => by
    unfold readAll
    repeat' split
    all_goals first
      | exact cons_ne_nil _ _
      | exact readAll_ne_nil rest _ _

theorem SelectItem.read_eq_nil_iff : read ps = [] ↔ ps = [] := by
  unfold read
  split
  · rename_i h
    exact ⟨fun _ => isEmpty_iff.1 h, fun _ => rfl⟩
  · rename_i h
    exact ⟨fun hnil => absurd hnil (readAll_ne_nil _ _ _), fun hnil => absurd (isEmpty_iff.2 hnil) h⟩

/-- The fields of a whole row. -/
def Reading.projected {Row Value : Type} (R : Reading Row Value) (items : List SelectItem) :
    Output Row Value → Output Row Value
  | .whole row => .record (items.map fun item => (item.name, R.value item.expr row))
  | .record fields => .record fields

/-- An operator that takes the rows of a result to those of another. -/
inductive RowOperator where
  | project (items : List SelectItem)
  | sort (ordering : List Part)
  | distinct
  | limit (count : List Part)

namespace RowOperator

section

variable {Row Value : Type} (R : Reading Row Value)

def apply [DecidableEq Row] [DecidableEq Value] : RowOperator → List (Output Row Value) → List (Output Row Value)
  | project items, results => results.map (R.projected items)
  | sort ordering, results => R.sorted ordering results
  | distinct, results => distinctOn Output.content results
  | limit count, results => results.take (R.count count)

/-- No item of a projection is a call of an aggregate function. -/
def Plain : RowOperator → Prop
  | project items => ∀ item ∈ items, R.aggregation? item.expr = none
  | _ => True

end

/-- The operator has been written into the clauses of the statement. -/
def Added (s t : Statement) : RowOperator → Prop
  | project items => ∃ ps, read ps = items ∧ Statement.SameClauses { s with selectList := ps } t
  | sort ordering => Statement.SameClauses { s with ordering } t
  | distinct => Statement.SameClauses { s with distinct := true } t
  | limit count => Statement.SameClauses { s with top := some count } t

/-- The clauses of the statement that act behind the operator may as well act before it. Only a
projection minds: it needs a field, and no `DISTINCT` unless only the first row is returned. -/
def ActsOnRows (count : List Part → Nat) (s : Statement) : RowOperator → Prop
  | project items => (∃ n ∈ s.top, count n = 0) ∨
    items ≠ [] ∧ (s.distinct = false ∨ s.ordering = [] ∧ ∃ n ∈ s.top, count n = 1)
  | _ => True

end RowOperator

/-! ## Order, `DISTINCT` and limits -/

namespace Reading

variable {Row Value : Type} [DecidableEq Row] [DecidableEq Value] (R : Reading Row Value)

theorem rows_sort (hselect : s.selectList = []) (hordering : s.ordering = []) (hskip : s.skip = none)
    (htop : s.top = none) (source : List Row) :
    R.rows { s with ordering := ps } source = R.sorted ps (R.rows s source) := by
  have hrest : ∀ (t : Statement) (l : List Row), t.skip = none → t.top = none → R.limited t (R.skipped t l) = l := by
    intro t l hskip htop
    unfold limited skipped
    rw [hskip, htop]
  rw [R.rows_eq_wholeRows hselect, R.rows_eq_wholeRows (s := { s with ordering := ps }) hselect, wholeRows, wholeRows,
    hrest { s with ordering := ps } _ hskip htop, hrest s _ hskip htop, s.sortedBy_nil hordering]
  exact (R.sorted_map_whole { s with ordering := ps } _).symm

theorem rows_distinct (hordering : s.ordering = []) (hskip : s.skip = none) (htop : s.top = none) (source : List Row) :
    R.rows { s with distinct := true } source = distinctOn Output.content (R.rows s source) := by
  have hrows : ∀ t : Statement, t.ordering = [] → t.skip = none → t.top = none → R.rows t source =
      (t.distinctBy (fun r => r.2.content) (R.selected t (R.kept t source))).map Prod.snd := by
    intro t hordering hskip htop
    unfold rows limited skipped
    rw [hskip, htop, t.sortedBy_nil hordering]
  rw [hrows { s with distinct := true } hordering hskip htop, hrows s hordering hskip htop, distinctOn_map]
  congr 1
  unfold distinctBy
  rw [if_pos rfl]
  split
  · exact (distinctOn_distinctOn (fun _ _ h => h) _).symm
  · rfl

theorem rows_limit {n : List Part} (htop : s.top = none) (source : List Row) :
    R.rows { s with top := some n } source = (R.rows s source).take (R.count n) := by
  have hnone : ∀ l : List (List Row × Output Row Value), R.limited s l = l := fun l => by unfold limited; rw [htop]
  unfold rows
  rw [hnone, ← map_take]
  rfl

/-! ## Projections -/

/-- A select list that gives one row for each row of the `FROM` list. -/
theorem rows_of_selected {source : List Row} {g : Row → Output Row Value}
    (h : R.selected s (R.kept s source) = (R.kept s source).map fun row => ([row], g row)) :
    R.rows s source = (R.limited s (R.skipped s (s.sortedBy R.precedes
      (s.distinctBy (fun row => (g row).content) (R.kept s source))))).map g := by
  unfold rows
  rw [h, s.distinctBy_map, s.sortedBy_map, skipped_map, limited_map, map_map]
  rfl

/-- A projection compares rows by their fields. -/
theorem rows_project (hs : s.accepts .project = true) (hps : ps ≠ [])
    (hplain : ∀ item ∈ read ps, R.aggregation? item.expr = none) (source : List Row) :
    R.rows { s with selectList := ps } source = (R.limited s (R.skipped s (s.sortedBy R.precedes (s.distinctBy
      (fun row => (read ps).map fun item => R.value item.expr row) (R.kept s source))))).map
        fun row => R.projected (read ps) (.whole row) := by
  obtain ⟨-, hgrouping⟩ : s.selectList = [] ∧ s.grouping = [] := by simpa [accepts] using hs
  have hgroups : R.groups { s with selectList := ps } (R.kept s source) = (R.kept s source).map fun row => [row] := by
    unfold groups
    rw [if_pos (show s.grouping.isEmpty = true by rw [hgrouping]; rfl), if_neg]
    rw [any_eq_true]
    rintro ⟨item, hitem, hsome⟩
    rw [hplain item hitem] at hsome
    cases hsome
  have hfields : ∀ row, R.fields ps [row] = (read ps).map fun item => (item.name, R.value item.expr row) := by
    intro row
    refine map_congr_left fun item hitem => ?_
    unfold cell
    rw [hplain item hitem]
    rfl
  have hselected : R.selected { s with selectList := ps } (R.kept s source) =
      (R.kept s source).map fun row => ([row], R.projected (read ps) (.whole row)) := by
    unfold selected
    rw [if_neg (by simpa using hps), hgroups, map_map]
    refine map_congr_left fun row _ => ?_
    change ([row], Output.record (R.fields ps [row])) = _
    rw [hfields]
    rfl
  have hcontent := s.distinctBy_congr (f := fun row => (R.projected (read ps) (.whole row)).content)
    (g := fun row => (read ps).map fun item => R.value item.expr row) (fun a b => ?_) (R.kept s source)
  · rw [R.rows_of_selected hselected]
    exact congrArg (fun l => (R.limited s (R.skipped s (s.sortedBy R.precedes l))).map fun row =>
      R.projected (read ps) (.whole row)) hcontent
  · simp [projected, Output.content, Function.comp_def]

theorem take_one_distinctOn {α β : Type} [DecidableEq β] (f : α → β) (l : List α) :
    (distinctOn f l).take 1 = l.take 1 := by
  cases l <;> rfl

/-- A projection acts on the rows of the result, if they are not compared or only the first is returned. -/
theorem rows_project_eq_map (hs : s.accepts .project = true) (hps : ps ≠ [])
    (hplain : ∀ item ∈ read ps, R.aggregation? item.expr = none) (hskip : s.ordering = [] → s.skip = none)
    (hrows : s.distinct = false ∨ s.ordering = [] ∧ ∃ n ∈ s.top, R.count n = 1) (source : List Row) :
    R.rows { s with selectList := ps } source = (R.rows s source).map (R.projected (read ps)) := by
  obtain ⟨hselect, -⟩ : s.selectList = [] ∧ s.grouping = [] := by simpa [accepts] using hs
  rw [R.rows_project hs hps hplain, R.rows_eq_wholeRows hselect, map_map]
  change map _ _ = map (fun row => R.projected (read ps) (.whole row)) _
  congr 1
  unfold wholeRows
  rcases hrows with hdistinct | ⟨hordering, n, hn, hone⟩
  · unfold distinctBy
    rw [hdistinct]
    rfl
  · have hlimited : ∀ l : List Row, R.limited s l = l.take 1 := by
      intro l
      unfold limited
      rw [show s.top = some n from hn]
      dsimp only
      rw [hone]
    have hskipped : ∀ l : List Row, R.skipped s l = l := fun l => by unfold skipped; rw [hskip hordering]
    rw [s.sortedBy_nil hordering, s.sortedBy_nil hordering, hskipped, hskipped, hlimited, hlimited]
    unfold distinctBy
    split
    · rw [take_one_distinctOn, take_one_distinctOn]
    · rfl

end Reading

/-! ## Projections of rows that are compared -/

namespace Reading

variable {count : List Part → Nat} {s : Statement} {ps : List Part}
  {aggregates : List (String × Aggregate Operand × Part)}

theorem aggregation?_counting_nil (expr : List Part) : (counting count []).aggregation? expr = none := by
  unfold aggregation?
  cases callOf? expr <;> rfl

theorem wholeRows_counting (source : List (Nat × Nat)) : (counting count []).wholeRows s source =
    (counting count []).limited s ((counting count []).skipped s (s.sortedBy (counting count []).precedes
      (s.distinctBy id source))) := by
  unfold wholeRows
  rw [kept_counting]

/-- The rows that are returned if `DISTINCT` compares keys in place of rows. -/
def keyRows (R : Reading (Nat × Nat) Nat) (s : Statement) (source : List (Nat × Nat)) : List (Nat × Nat) :=
  R.limited s (R.skipped s (s.sortedBy R.precedes (s.distinctBy Prod.fst source)))

/-- The fields of a row are all its key, so rows are compared by their keys. -/
theorem rows_project_counting (hs : s.accepts .project = true) (hps : ps ≠ [])
    (hplain : ∀ item ∈ read ps, (counting count aggregates).aggregation? item.expr = none)
    (source : List (Nat × Nat)) :
    (counting count aggregates).rows { s with selectList := ps } source = (keyRows (counting count aggregates) s source).map
      fun row => (counting count aggregates).projected (read ps) (.whole row) := by
  have hkeys : ∀ a b : Nat × Nat, ((read ps).map fun item => (counting count aggregates).value item.expr a) =
      ((read ps).map fun item => (counting count aggregates).value item.expr b) ↔ a.1 = b.1 := by
    intro a b
    cases hread : read ps with
    | nil => exact absurd (read_eq_nil_iff.1 hread) hps
    | cons item items =>
      refine ⟨fun h => (cons.inj h).1, fun h => ?_⟩
      exact map_congr_left fun _ _ => h
  rw [(counting count aggregates).rows_project hs hps hplain, kept_counting, s.distinctBy_congr hkeys]
  rfl

/-- Of rows with one key at most one is returned, and none if rows are skipped. -/
theorem length_keyRows_numbered (hdistinct : s.distinct = true) (n : Nat) :
    (keyRows (counting count aggregates) s (numbered (n + 1))).length ≤ 1 - (s.skip.map count).getD 0 := by
  have hone : s.sortedBy (counting count aggregates).precedes (s.distinctBy Prod.fst (numbered (n + 1))) = [(1, 0)] := by
    have hfirst : numbered (n + 1) = (1, 0) :: (range n).map fun k => (1, k + 1) := by
      unfold numbered
      rw [range_succ_eq_map, map_cons, map_map]
      rfl
    have : ∀ row ∈ (range n).map (fun k => (1, k + 1)), row.1 = 1 := by simp
    unfold distinctBy sortedBy
    rw [if_pos hdistinct, hfirst, distinctOn_of_forall_eq this]
    split <;> rfl
  rw [keyRows, hone, skipped_eq_drop]
  have hlimited : ∀ l : List (Nat × Nat), ((counting count aggregates).limited s l).length ≤ l.length := by
    intro l
    unfold limited
    split
    · exact length_take_le' _ _
    · exact le_rfl
  refine (hlimited _).trans ?_
  rw [length_drop]
  rfl

/-- Where a projection acts on the rows of the result, it has a field. -/
theorem read_ne_nil_of_project (hs : s.accepts .project = true) (htop : ∀ n ∈ s.top, count n ≠ 0)
    (h : ∀ source, (counting count []).rows { s with selectList := ps } source =
      ((counting count []).rows s source).map ((counting count []).projected (read ps))) : ps ≠ [] := by
  rintro rfl
  obtain ⟨hselect, -⟩ : s.selectList = [] ∧ s.grouping = [] := by simpa [accepts] using hs
  have := h (numbered ((s.skip.map count).getD 0 + 1))
  rw [rows_eq_wholeRows _ hselect, rows_eq_wholeRows (s := { s with selectList := [] }) _ rfl, map_map] at this
  change ((counting count []).wholeRows s _).map _ = _ at this
  rw [wholeRows_last htop] at this
  cases this

/-- With `DISTINCT`, another number of rows with one key is returned if keys are compared, unless only
the first row is returned and none is skipped. -/
theorem top_eq_one_of_keyRows (hdistinct : s.distinct = true) (htop : ∀ n ∈ s.top, count n ≠ 0)
    (h : ∀ m, ((counting count aggregates).wholeRows s (numbered (m + 1))).length =
      (keyRows (counting count aggregates) s (numbered (m + 1))).length) :
    (∃ n ∈ s.top, count n = 1) ∧ (s.skip.map count).getD 0 = 0 := by
  generalize hk : (s.skip.map count).getD 0 = k
  have hlength : ∀ m, ((counting count aggregates).limited s ((numbered (m + 1)).drop k)).length ≤ 1 - k := by
    intro m
    have hle : (keyRows (counting count aggregates) s (numbered (m + 1))).length ≤ _ := length_keyRows_numbered hdistinct m
    rw [← h, counting, wholeRows_numbered (Or.inr fun _ => rfl), skipped_eq_drop] at hle
    change ((counting count aggregates).limited s ((numbered (m + 1)).drop ((s.skip.map count).getD 0))).length ≤ _ at hle
    rwa [hk] at hle
  have hdrop : ∀ m, ((numbered (k + m)).drop k).length = m := by simp
  constructor
  · -- two rows are left behind the skipped ones, and the limit keeps one of them
    have htwo := hlength (k + 1)
    rw [show k + 1 + 1 = k + 2 from rfl] at htwo
    unfold limited at htwo
    cases ht : s.top with
    | none =>
      rw [ht] at htwo
      dsimp only at htwo
      rw [hdrop] at htwo
      omega
    | some n =>
      rw [ht] at htwo
      dsimp only at htwo
      rw [length_take, hdrop] at htwo
      change min (count n) 2 ≤ _ at htwo
      have := htop n ht
      exact ⟨n, rfl, by omega⟩
  · -- one row is left
    have hone := hlength k
    obtain ⟨row, hrow⟩ := length_eq_one_iff.1 (hdrop 1)
    rw [hrow, limited_singleton htop] at hone
    change 1 ≤ _ at hone
    omega

/-- With `DISTINCT`, the first row of a projection is that of the rows with the first keys, and not
that of all rows, if they are put in order. -/
theorem ordering_eq_nil_of_project (hs : s.accepts .project = true) (hps : ps ≠ []) (hdistinct : s.distinct = true)
    (hone : ∃ n ∈ s.top, count n = 1) (hskip : (s.skip.map count).getD 0 = 0)
    (h : ∀ source, (counting count []).rows { s with selectList := ps } source =
      ((counting count []).rows s source).map ((counting count []).projected (read ps))) :
    s.ordering = [] := by
  by_contra hordering
  obtain ⟨hselect, -⟩ : s.selectList = [] ∧ s.grouping = [] := by simpa [accepts] using hs
  obtain ⟨n, hn, hcount⟩ := hone
  have hrest : ∀ l : List (Nat × Nat), (counting count []).limited s ((counting count []).skipped s l) = l.take 1 := by
    intro l
    rw [skipped_eq_drop]
    change (counting count []).limited s (l.drop ((s.skip.map count).getD 0)) = _
    rw [hskip, drop_zero]
    unfold limited
    rw [show s.top = some n from hn]
    exact congrArg (fun k => l.take k) hcount
  have hsorted : ∀ l : List (Nat × Nat), s.sortedBy (counting count []).precedes l =
      l.insertionSort fun a b => decide (a.2 ≤ b.2) = true := by
    intro l
    unfold sortedBy
    rw [if_neg (by simpa using hordering)]
    rfl
  -- of the two rows with equal items the one that `DISTINCT` keeps is the last in the order
  have heq := h [(1, 2), (2, 1), (1, 0)]
  rw [rows_project_counting hs hps fun _ _ => aggregation?_counting_nil _, rows_eq_wholeRows _ hselect, wholeRows_counting,
    keyRows, hrest, hrest, hsorted, hsorted, map_map] at heq
  unfold distinctBy at heq
  rw [if_pos hdistinct, if_pos hdistinct] at heq
  change [(counting count []).projected _ (.whole (2, 1))] = [(counting count []).projected _ (.whole (1, 0))] at heq
  cases hread : read ps with
  | nil => exact hps (read_eq_nil_iff.1 hread)
  | cons item items =>
    rw [hread] at heq
    have hfields := Output.record.inj (cons.inj heq).1
    have : (2 : Nat) = 1 := congrArg Prod.snd (cons.inj hfields).1
    omega

end Reading

/-! ## Any of the operators -/

namespace RowOperator

/-- The operator in the table of what statements take. -/
def operator : RowOperator → Operator
  | project _ => .project
  | sort _ => .sort
  | distinct => .distinct
  | limit _ => .limit

/-- An operator that a statement takes acts on the rows that it returned before, whatever the texts
mean, if and only if no clause comes in between. -/
theorem rows_iff {op : RowOperator} {t : Statement} (hadded : op.Added s t) (hacc : s.accepts op.operator = true)
    (hskip : s.ordering = [] → s.skip = none) (count : List Part → Nat) :
    (∀ (Row Value : Type) [DecidableEq Row] [DecidableEq Value] (R : Reading Row Value) (rows : List Row),
      R.count = count → op.Plain R → R.rows t rows = op.apply R (R.rows s rows)) ↔ op.ActsOnRows count s := by
  cases op with
  | sort ordering =>
    refine iff_of_true ?_ trivial
    rintro Row Value _ _ R rows rfl -
    have hs : s.selectList = [] ∧ s.grouping = [] ∧ s.ordering = [] ∧ s.top = none := by
      simpa [operator, accepts, and_assoc] using hacc
    rw [R.rows_congr hadded, R.rows_sort hs.1 hs.2.2.1 (hskip hs.2.2.1) hs.2.2.2]
    rfl
  | distinct =>
    refine iff_of_true ?_ trivial
    rintro Row Value _ _ R rows rfl -
    have hs : s.top = none ∧ s.ordering = [] := by simpa [operator, accepts] using hacc
    rw [R.rows_congr hadded, R.rows_distinct hs.2 (hskip hs.2) hs.1]
    rfl
  | limit n =>
    refine iff_of_true ?_ trivial
    rintro Row Value _ _ R rows rfl -
    have hs : s.top = none := by simpa [operator, accepts] using hacc
    rw [R.rows_congr hadded, R.rows_limit hs]
    rfl
  | project items =>
    obtain ⟨ps, rfl, hadded⟩ := hadded
    constructor
    · intro h
      replace h : ∀ source, (Reading.counting count []).rows { s with selectList := ps } source =
          ((Reading.counting count []).rows s source).map ((Reading.counting count []).projected (read ps)) := by
        intro source
        rw [← Reading.rows_congr _ hadded]
        exact h _ _ _ source rfl fun _ _ => Reading.aggregation?_counting_nil _
      by_cases hzero : ∃ n ∈ s.top, count n = 0
      · exact Or.inl hzero
      have htop : ∀ n ∈ s.top, count n ≠ 0 := fun n hn h0 => hzero ⟨n, hn, h0⟩
      have hps := Reading.read_ne_nil_of_project hacc htop h
      refine Or.inr ⟨fun hread => hps (read_eq_nil_iff.1 hread), ?_⟩
      cases hdistinct : s.distinct with
      | false => exact Or.inl rfl
      | true =>
        have hselect : s.selectList = [] := by
          have := hacc
          simp only [operator, accepts, Bool.and_eq_true, List.isEmpty_iff] at this
          exact this.1
        obtain ⟨hone, hskip⟩ := @Reading.top_eq_one_of_keyRows count s [] hdistinct htop fun m => by
          have hlength := congrArg List.length (h (numbered (m + 1)))
          rw [Reading.rows_project_counting hacc hps fun _ _ => Reading.aggregation?_counting_nil _,
            Reading.rows_eq_wholeRows _ hselect, List.length_map, List.length_map, List.length_map] at hlength
          exact hlength.symm
        exact Or.inr ⟨Reading.ordering_eq_nil_of_project hacc hps hdistinct hone hskip h, hone⟩
    · rintro hacts Row Value _ _ R rows rfl hplain
      rw [R.rows_congr hadded]
      rcases hacts with ⟨n, hn, hzero⟩ | ⟨hread, hrows⟩
      · -- a limit of no rows
        have hnone : ∀ t : Statement, t.top = s.top → R.rows t rows = [] := by
          intro t ht
          unfold Reading.rows Reading.limited
          rw [ht, show s.top = some n from hn]
          dsimp only
          rw [hzero]
          rfl
        rw [hnone { s with selectList := ps } rfl, hnone s rfl]
        rfl
      · exact R.rows_project_eq_map hacc (fun hps => hread (read_eq_nil_iff.2 hps)) hplain hskip hrows rows

end RowOperator

/-! ## Operators of a query -/

/-- A select list added to a statement that takes a projection is its whole select list. -/
theorem RowOperator.added_project {t u : Statement} (hacc : s.accepts .project = true) (hsame : s.SameClauses t)
    (hu : Statement.SameClauses { t with selectList := t.selectList ++ ps } u) :
    (project (read ps)).Added s u := by
  have hs : s.selectList = [] ∧ s.grouping = [] := by simpa [accepts] using hacc
  have hmid : Statement.SameClauses { s with selectList := ps } { t with selectList := t.selectList ++ ps } := by
    refine ⟨hsame.distinct, ?_, hsame.condition, hsame.grouping, hsame.ordering, hsame.top, hsame.skip⟩
    change t.selectList ++ ps = ps
    rw [hsame.selectList, hs.1]
    rfl
  exact ⟨ps, rfl, hmid.trans hu⟩

namespace Build

variable {b b' b1 : Build} {i j : StatementId} {x : SymbolId}

/-- A record over the rows of an input that takes a projection becomes its select list. -/
theorem projectRecord_added {input : Binding Operand} {fields : List (String × Operand)} (hv : ValueOK input.expr)
    (hf : ∀ f ∈ fields, ValueOK f.2) (hb : Good b) (hj : b.inJoin = false)
    (hin : Runs (Build.input input.expr input.var input.type) b (j, x) b1)
    (hacc : (b1.store.get j).accepts .project = true) (hr : Runs (projectRecord input fields) b i b') :
    i = j ∧ ∃ items, List.Forall₂ (fun (field : String × Operand) item => ∃ sql b2 b3, Runs field.2.build b2 sql b3 ∧
        item = ⟨[sql.toPart], some (.text field.1)⟩) fields items ∧
      (RowOperator.project items).Added (b1.store.get j) (b'.store.get i) := by
  simp only [projectRecord, appendSelect, addOutput, runs_bind, runs_updateStatement, runs_pure] at hr
  obtain ⟨⟨k, items⟩, b2, hover, -, b3, hb3, -, b4, hb4, rfl, rfl⟩ := hr
  obtain ⟨rfl, hlt, hsame⟩ := overRows_clauses hv (builds_mapM fun f h => projectField_builds (hf f h)) hb hj hin hacc hover
  obtain ⟨hget3, hlt3⟩ := get_update hb3 hlt
  obtain ⟨hget4, -⟩ := get_update hb4 hlt3
  obtain ⟨_, _, hitems⟩ := overRows_body hover
  have hoperands : ∀ item ∈ items.map (fun item => (item.2.toPart, item.1)), item.1.IsOperand :=
    forall_mem_map.2 fun item _ => toPart_ne item.2
  have hread := read_selectItems hoperands
  rw [map_map, map_map] at hread
  refine ⟨rfl, read (Part.separated ", " (items.map fun item => selectItem item.2.toPart item.1)), ?_,
    RowOperator.added_project hacc hsame ?_⟩
  · refine hread ▸ forall₂_map_right_iff.2 ((forall₂_of_runs_mapM hitems).imp fun field item h => ?_)
    obtain ⟨b5, b6, h⟩ := h
    obtain ⟨hname, hsql⟩ := projectField_cases h
    exact ⟨item.2, b5, b6, hsql, by rw [hname]; rfl⟩
  · rw [hget4, hget3]
    exact ⟨rfl, rfl, rfl, rfl, rfl, rfl, rfl⟩

theorem projectValue_added {input : Binding Operand} {value : Operand} (hv : ValueOK input.expr) (hval : ValueOK value)
    (hb : Good b) (hj : b.inJoin = false) (hin : Runs (Build.input input.expr input.var input.type) b (j, x) b1)
    (hacc : (b1.store.get j).accepts .project = true) (hr : Runs (projectValue input value) b i b') :
    i = j ∧ ∃ sql b2 b3, Runs value.build b2 sql b3 ∧
      (RowOperator.project [{ expr := [sql.toPart] }]).Added (b1.store.get j) (b'.store.get i) := by
  simp only [projectValue, appendSelect, runs_bind, runs_updateStatement] at hr
  obtain ⟨⟨k, sql⟩, b2, hover, -, b3, hb3, hr⟩ := hr
  obtain ⟨rfl, hlt, hsame⟩ := overRows_clauses hv hval.toPart hb hj hin hacc hover
  obtain ⟨hget3, hlt3⟩ := get_update hb3 hlt
  obtain ⟨b4, b5, hsql⟩ := overRows_body hover
  have hend : i = k ∧ (b3.store.get k).SameClauses (b'.store.get k) := by
    split at hr
    · simp only [addOutput, runs_bind, runs_updateStatement, runs_pure] at hr
      obtain ⟨-, b6, hb6, rfl, rfl⟩ := hr
      rw [(get_update hb6 hlt3).1]
      exact ⟨rfl, rfl, rfl, rfl, rfl, rfl, rfl, rfl⟩
    · obtain ⟨rfl, rfl⟩ := runs_pure.1 hr
      exact ⟨rfl, rfl, rfl, rfl, rfl, rfl, rfl, rfl⟩
  obtain ⟨rfl, hsame'⟩ := hend
  rw [hget3] at hsame'
  have hread : read [sql.toPart] = [{ expr := [sql.toPart] }] :=
    read_operands fun p hp => mem_singleton.1 hp ▸ toPart_ne sql
  refine ⟨rfl, sql, b4, b5, hsql, ?_⟩
  rw [← hread]
  exact RowOperator.added_project hacc hsame hsame'

/-- A statement that takes the operator is not wrapped. -/
theorem wrapUnless_accepted {name : String} {type : DataType} (hacc : (b.store.get j).accepts op = true)
    (hr : Runs (wrapUnless op name type j) b i b') : i = j ∧ b' = b :=
  ((wrapUnless_cases hr).resolve_right fun hno => hno.1 hacc).2

end Build

namespace Expr

variable (config : Config)

/-- The operator that an expression adds to the statement of its input, and the step that makes that
statement. -/
def opened? : Expr → Option (Operator × BuildM StatementId)
  | project source _ => some (.project, Prod.fst <$> input (toOperand config source.expr) source.var source.type)
  | sort source _ => some (.sort, Prod.fst <$> input (toOperand config source.expr) source.var source.type)
  | distinct input => some (.distinct, asStatement (toOperand config input) true)
  | limit input _ _ => some (.limit, asStatement (toOperand config input) false)
  | newCollection _ [element input] => some (.element, asStatement (toOperand config input) true)
  | _ => none

/-- What an expression does to the rows of its input, by the texts of its fields, keys and counts. -/
inductive OperatesBy : Expr → RowOperator → Prop
  | record {source : Binding Expr} {fields : List (String × Expr)} {items : List SelectItem} :
    List.Forall₂ (fun field item => ∃ sql b b', Runs (build config field.2) b sql b' ∧
      item = ⟨[sql.toPart], some (.text field.1)⟩) fields items →
    OperatesBy (project source (newRecord fields)) (.project items)
  | value {source : Binding Expr} {value : Expr} {sql : Fragment} {b b' : Build} : (∀ fields, value ≠ newRecord fields) →
    Runs (build config value) b sql b' → OperatesBy (project source value) (.project [{ expr := [sql.toPart] }])
  | sort {source : Binding Expr} {keys : List (SortKey Expr)} {items : List (List Part)} :
    List.Forall₂ (fun key item => ∃ sql b b', Runs (build config key.expr) b sql b' ∧ item = sortText key sql) keys items →
    OperatesBy (sort source keys) (.sort (Part.separated ", " items))
  | distinct {input : Expr} : OperatesBy (distinct input) .distinct
  | limit {input count : Expr} {n : List Part} {b : Build} : Runs (rowCount (toOperand config count)) b n b →
    OperatesBy (limit input count false) (.limit n)
  | first {elementType : DataType} {input : Expr} :
    OperatesBy (newCollection elementType [element input]) (.limit [.text "1"])

variable {config}

theorem opened_places {e : Expr} {opened : BuildM StatementId} (hop : opened? config e = some (op, opened))
    (hs : All SkipsByKeys e) : Places ⟨False, False, True⟩ .apart [] opened fun i => [i] := by
  have hfits : ∀ {c : Expr}, All SkipsByKeys c → Fits ⟨False, False, True⟩ (toOperand config c) := fun hc =>
    (placesAll False.elim fun _ => hc).fits
  have hrows : ∀ {c : Expr} (name : String) (type : DataType), All SkipsByKeys c →
      Places ⟨False, False, True⟩ .apart [] (Prod.fst <$> input (toOperand config c) name type) fun i => [i] := by
    intro c name type hc
    rw [map_eq_pure_bind]
    exact Places.hands.bind ((placesStatements id).input (hfits hc).text name type) fun _ => Places.hands.done rfl
  unfold opened? at hop
  split at hop
  · cases hop
    exact hrows _ _ (hs.child (by simp [children]))
  · cases hop
    exact hrows _ _ (hs.child (by simp [children]))
  · cases hop
    exact Places.asStatement id (hfits (hs.child (by simp [children]))) true
  · cases hop
    exact Places.asStatement id (hfits (hs.child (by simp [children]))) false
  · cases hop
    rename_i input
    have helement : All SkipsByKeys (element input) := hs.child (by simp [children])
    exact Places.asStatement id (hfits (helement.child (by simp [children]))) true
  · cases hop

/-- The operator of an expression whose input takes it is written into the statement of the input. -/
theorem operator_added {e : Expr} {opened : BuildM StatementId} {b b1 b' : Build} {j : StatementId} {f : Fragment}
    (hop : opened? config e = some (op, opened)) (hb : Good b) (hj : b.inJoin = false) (hin : Runs opened b j b1)
    (hacc : (b1.store.get j).accepts op = true) (hrun : Runs (build config e) b f b') :
    f = .statement j ∧ ∃ rowOp, OperatesBy config e rowOp ∧ (b1.store.get j).accepts rowOp.operator = true ∧
      rowOp.Added (b1.store.get j) (b'.store.get j) := by
  have hvalue : ∀ c : Expr, ValueOK (toOperand config c) := fun c => (buildsSound c).value
  unfold opened? at hop
  split at hop
  · -- a projection
    rename_i source projection
    cases hop
    obtain ⟨⟨_, x⟩, hin, rfl⟩ := runs_map.1 hin
    by_cases hrecord : ∃ fields, projection = newRecord fields
    · obtain ⟨fields, rfl⟩ := hrecord
      rw [build, namedOperands_eq_map] at hrun
      obtain ⟨i, rfl, hproject⟩ := runs_asFragment.1 hrun
      obtain ⟨rfl, items, hitems, hadded⟩ := projectRecord_added (hvalue _) (forall_mem_map.2 fun _ _ => hvalue _)
        hb hj hin hacc hproject
      exact ⟨rfl, _, .record (forall₂_map_left_iff.1 hitems), hacc, hadded⟩
    · have hne : ∀ fields, projection ≠ newRecord fields := fun fields h => hrecord ⟨fields, h⟩
      rw [build] at hrun
      · obtain ⟨i, rfl, hproject⟩ := runs_asFragment.1 hrun
        obtain ⟨rfl, sql, b3, b4, hsql, hadded⟩ := projectValue_added (hvalue _) (hvalue projection) hb hj hin hacc hproject
        exact ⟨rfl, _, .value hne hsql, hacc, hadded⟩
      · exact fun fields => hne fields
  · -- an order
    rename_i source keys
    cases hop
    obtain ⟨⟨_, x⟩, hin, rfl⟩ := runs_map.1 hin
    rw [build, keyOperands_eq_map] at hrun
    obtain ⟨i, rfl, hsort⟩ := runs_asFragment.1 hrun
    have hordering : (b1.store.get j).ordering = [] := by
      have : (b1.store.get j).selectList = [] ∧ (b1.store.get j).grouping = [] ∧ (b1.store.get j).ordering = [] ∧
          (b1.store.get j).top = none := by simpa [accepts, and_assoc] using hacc
      exact this.2.2.1
    obtain ⟨rfl, -, items, hitems, hadded⟩ := ordered_clauses (hvalue _) (forall_mem_map.2 fun _ _ => hvalue _)
      hb hj hin hacc hordering hsort
    exact ⟨rfl, _, .sort (forall₂_map_left_iff.1 hitems), hacc, hadded⟩
  · -- `DISTINCT`
    rename_i input
    cases hop
    rw [build] at hrun
    simp only [asFragment, Build.distinct, runs_bind, runs_updateStatement, runs_pure] at hrun
    obtain ⟨i, b2, ⟨_, _, has, _, _, hwrap, -, _, hb2, rfl, rfl⟩, rfl, rfl⟩ := hrun
    obtain ⟨rfl, rfl⟩ := hin.unique has
    obtain ⟨rfl, rfl⟩ := wrapUnless_accepted hacc hwrap
    obtain ⟨ho, -⟩ := asStatement_spec (hvalue _) hb hj hin
    obtain ⟨hget, -⟩ := get_update hb2 ho.lt
    refine ⟨rfl, _, .distinct, hacc, ?_⟩
    rw [hget]
    exact ⟨rfl, rfl, rfl, rfl, rfl, rfl, rfl⟩
  · -- a limit
    rename_i input count withTies
    cases hop
    rw [build] at hrun
    simp only [asFragment, Build.limit, runs_bind, runs_ite, runs_throw, runs_pure, false_and, exists_const, and_false,
      false_or] at hrun
    obtain ⟨i, b2, ⟨hties, _, _, has, _, _, hwrap, n, _, hcount, _, _, hset, rfl, rfl⟩, rfl, rfl⟩ := hrun
    obtain ⟨rfl, rfl⟩ := hin.unique has
    obtain ⟨rfl, rfl⟩ := wrapUnless_accepted hacc hwrap
    obtain ⟨rfl, -⟩ := rowCount_spec (buildsSound count).count hcount
    obtain ⟨ho, -⟩ := asStatement_spec (hvalue _) hb hj hin
    obtain ⟨s, hs, hb'⟩ := runs_tryUpdateStatement.1 hset
    obtain ⟨hget, -⟩ := get_update hb' ho.lt
    obtain rfl : withTies = false := by simpa using hties
    refine ⟨rfl, _, .limit hcount, hacc, ?_⟩
    rw [hget, setTop_eq hs]
    exact ⟨rfl, rfl, rfl, rfl, rfl, rfl, rfl⟩
  · -- the single element of a collection
    rename_i input
    cases hop
    rw [build] at hrun
    simp only [asFragment, Build.singleton, runs_bind, runs_pure] at hrun
    obtain ⟨i, b2, ⟨_, _, has, _, _, hwrap, _, _, hset, rfl, rfl⟩, rfl, rfl⟩ := hrun
    obtain ⟨rfl, rfl⟩ := hin.unique has
    obtain ⟨rfl, rfl⟩ := wrapUnless_accepted hacc hwrap
    obtain ⟨ho, -⟩ := asStatement_spec (hvalue _) hb hj hin
    obtain ⟨s, hs, hb'⟩ := runs_tryUpdateStatement.1 hset
    obtain ⟨hget, -⟩ := get_update hb' ho.lt
    refine ⟨rfl, _, .first, hacc, ?_⟩
    rw [hget, setTop_eq hs]
    exact ⟨rfl, rfl, rfl, rfl, rfl, rfl, rfl⟩
  · cases hop

end Expr

/-- A projection, an order, `DISTINCT`, a limit or the choice of a single element, over an input that
takes it, is written into the statement of the input. If every `Skip` has sort keys, no statement
skips rows without an order, and the statement returns what the operator makes of the rows it
returned before, whatever the texts mean, if and only if the operator acts on rows: all but
projections always do, and a projection if it has fields and the rows are not compared. -/
theorem operator_rows_iff {config : Config} {e : Expr} {op : Operator} {opened : BuildM StatementId} {b b₁ b' : Build}
    {j : StatementId} {f : Fragment} (hop : e.opened? config = some (op, opened)) (hskips : e.All Expr.SkipsByKeys)
    (hb : Good b) (hj : b.inJoin = false) (hoffsets : OffsetsOrdered b) (hin : Runs opened b j b₁)
    (hacc : (b₁.statements.get j).accepts op = true) (hrun : Runs (e.build config) b f b') :
    f = .statement j ∧ OffsetsOrdered b' ∧ ∃ rowOp, e.OperatesBy config rowOp ∧ ∀ count : List Part → Nat,
      (∀ (Row Value : Type) [DecidableEq Row] [DecidableEq Value] (R : Reading Row Value) (rows : List Row),
        R.count = count → rowOp.Plain R →
          R.rows (b'.statements.get j) rows = rowOp.apply R (R.rows (b₁.statements.get j) rows)) ↔
      rowOp.ActsOnRows count (b₁.statements.get j) := by
  obtain ⟨rfl, rowOp, hoperates, hacc', hadded⟩ := Expr.operator_added hop hb hj hin hacc hrun
  have hplaces : Expr.PlacesAll config False True e := Expr.placesAll False.elim fun _ => hskips
  refine ⟨rfl, hplaces.loud.offsetsOrdered hrun hj hoffsets, rowOp, hoperates, fun count => ?_⟩
  exact RowOperator.rows_iff hadded hacc' ((Expr.opened_places hop hskips).offsetsOrdered hin hj hoffsets j) count

/-- The numbers behind the first two, in records. -/
def laterRecords : Expr := .project (laterNumbers.bind "q") (.newRecord [("n", numberOf "q")])

theorem laterRecords_skipsByKeys : laterRecords.All Expr.SkipsByKeys := by
  have hvar : ∀ v, Expr.All Expr.SkipsByKeys (.var v numbersTable.rowType) := fun _ => ⟨trivial, nofun⟩
  have hnumber : ∀ v, Expr.All Expr.SkipsByKeys (numberOf v) := fun v => ⟨trivial, forall_mem_singleton.2 (hvar v)⟩
  have hlater : Expr.All Expr.SkipsByKeys laterNumbers :=
    ⟨cons_ne_nil _ _, forall_mem_cons.2 ⟨⟨trivial, nofun⟩, forall_mem_cons.2 ⟨⟨trivial, nofun⟩,
      forall_mem_singleton.2 (hnumber "p")⟩⟩⟩
  exact ⟨trivial, forall_mem_cons.2 ⟨hlater, forall_mem_singleton.2
    ⟨trivial, forall_mem_singleton.2 (hnumber "q")⟩⟩⟩

/-- A record of the rows behind the first two is written into the statement that skips them, and
keeps its meaning. -/
theorem project_rows_of_skip : ∃ opened j b₁ f b',
    laterRecords.opened? {} = some (.project, opened) ∧ laterRecords.All Expr.SkipsByKeys ∧ OffsetsOrdered {} ∧
    Runs opened {} j b₁ ∧ (b₁.statements.get j).accepts .project = true ∧
    (b₁.statements.get j).skip.isSome = true ∧ Runs (laterRecords.build {}) {} f b' ∧ f = .statement j ∧
    ∃ items, laterRecords.OperatesBy {} (.project items) ∧
      ∀ (Row Value : Type) [DecidableEq Row] [DecidableEq Value] (R : Reading Row Value) (rows : List Row),
        (RowOperator.project items).Plain R → R.rows (b'.statements.get j) rows =
          (R.rows (b₁.statements.get j) rows).map (R.projected items) := by
  obtain ⟨j, b₁, hin, htest⟩ := exists_runs (b := {})
    (m := Prod.fst <$> input (laterNumbers.toOperand {}) "q" laterNumbers.rowType)
    (p := fun j b => (b.statements.get j).accepts .project && ((b.statements.get j).skip.isSome &&
      !(b.statements.get j).distinct)) (by decide +kernel)
  obtain ⟨hacc, htest⟩ := Bool.and_eq_true_iff.1 htest
  obtain ⟨hskip, hdistinct⟩ := Bool.and_eq_true_iff.1 htest
  obtain ⟨f, b', hrun, -⟩ := exists_runs (b := {}) (p := fun _ _ => true) (m := laterRecords.build {}) (by decide +kernel)
  obtain ⟨hf, -, rowOp, hoperates, hiff⟩ := operator_rows_iff
    (show laterRecords.opened? {} = some (.project, _) from rfl) laterRecords_skipsByKeys Query.good_start rfl
    OffsetsOrdered.start hin hacc hrun
  refine ⟨_, j, b₁, f, b', rfl, laterRecords_skipsByKeys, OffsetsOrdered.start, hin, hacc, hskip, hrun, hf, ?_⟩
  cases hoperates with
  | record hitems =>
    refine ⟨_, .record hitems, fun Row Value _ _ R rows hplain => ?_⟩
    refine (hiff R.count).2 (Or.inr ⟨?_, Or.inl (by simpa using hdistinct)⟩) Row Value R rows rfl hplain
    rintro rfl
    cases hitems
  | value hne _ => exact absurd rfl (hne _)

/-- The columns `a` of two rows that differ. -/
def distinctColumns : Expr :=
  .project ((Expr.distinct (.limit pairsTable (.constant (.int32 2)) false)).bind "q") (.newRecord [("a", columnOf "q" "a")])

/-- Two rows that differ have two records, also if their columns `a` are the same. But `DISTINCT` stands
in the statement that takes the record, and then compares the records. -/
theorem project_over_distinct_loses_rows :
    (Query.compile {} distinctColumns).toOption =
      some ⟨"SELECT DISTINCT dst.a AS a FROM (SELECT c.k AS k, c.a AS a FROM t AS c LIMIT 2) AS dst", ["a"]⟩ ∧
    ∃ opened j b₁ b', distinctColumns.opened? {} = some (.project, opened) ∧ Runs opened {} j b₁ ∧
      (b₁.statements.get j).accepts .project = true ∧ Runs (distinctColumns.build {}) {} (.statement j) b' ∧
      ((Reading.counting (fun _ => 2) []).rows (b₁.statements.get j) (numbered 2)).length = 2 ∧
      ((Reading.counting (fun _ => 2) []).rows (b'.statements.get j) (numbered 2)).length = 1 := by
  obtain ⟨j, b₁, hin, hbefore⟩ := exists_runs (b := {})
    (m := Prod.fst <$> input (Expr.toOperand {} (.distinct (.limit pairsTable (.constant (.int32 2)) false))) "q"
      (Expr.distinct (.limit pairsTable (.constant (.int32 2)) false)).rowType)
    (p := fun j b => (b.statements.get j).accepts .project &&
      ((Reading.counting (fun _ => 2) []).rows (b.statements.get j) (numbered 2)).length == 2) (by decide +kernel)
  obtain ⟨hacc, hrows⟩ := Bool.and_eq_true_iff.1 hbefore
  obtain ⟨f, b', hrun, hafter⟩ := exists_runs (b := {}) (m := distinctColumns.build {})
    (p := fun f b => f.statements.all fun j =>
      ((Reading.counting (fun _ => 2) []).rows (b.statements.get j) (numbered 2)).length == 1) (by decide +kernel)
  obtain ⟨rfl, -⟩ := Expr.operator_added (show distinctColumns.opened? {} = some (.project, _) from rfl) Query.good_start
    rfl hin hacc hrun
  exact ⟨by decide +kernel, _, j, b₁, b', rfl, hin, hacc, hrun, by simpa using hrows, by simpa using hafter⟩

end RelSql
