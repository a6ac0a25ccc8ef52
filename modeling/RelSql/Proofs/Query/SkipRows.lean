/-
Sort keys and a count of rows to skip, over a statement that takes them, become its `ORDER BY` and
`OFFSET` clauses. Both act before `LIMIT`. So the statement returns what it returned before, in order
and without the first rows, unless it had a limit: then other rows are kept.
-/
import RelSql.Proofs.Query.GroupRows

namespace RelSql

open List Build

variable {s : Statement}

/-! ## An order and an offset in place of none -/

theorem Statement.accepts_skip (h : s.accepts .skip = true) :
    s.selectList = [] ∧ s.grouping = [] ∧ s.ordering = [] ∧ s.distinct = false := by
  simpa [accepts, and_assoc] using h

namespace Reading

variable {n ps : List Part}

section

variable {Row Value : Type} (R : Reading Row Value)

/-- Which of two whole rows of a result an `ORDER BY` clause puts first. -/
def ahead (ordering : List Part) (a b : Output Row Value) : Bool :=
  match a.row?, b.row? with
  | some x, some y => R.precedes ordering x y
  | none, _ => true
  | some _, none => false

/-- The rows of a result in the order that an `ORDER BY` clause means. -/
def sorted (ordering : List Part) (results : List (Output Row Value)) : List (Output Row Value) :=
  if ordering.isEmpty then results else results.insertionSort fun a b => R.ahead ordering a b = true

theorem sorted_nil (ordering : List Part) : R.sorted ordering [] = [] := by
  unfold sorted; split <;> rfl

theorem mem_sorted {ordering : List Part} {results : List (Output Row Value)} {o : Output Row Value} :
    o ∈ R.sorted ordering results ↔ o ∈ results := by
  unfold sorted
  split
  · rfl
  · exact mem_insertionSort _

theorem sorted_map_whole (s : Statement) (rows : List Row) :
    R.sorted s.ordering (rows.map .whole) = (s.sortedBy R.precedes rows).map .whole := by
  unfold sorted Statement.sortedBy
  split
  · rfl
  · exact (map_insertionSort _ _ Output.whole rows fun _ _ _ _ => Iff.rfl).symm

/-- Without `DISTINCT`, `ORDER BY` and `OFFSET` only the limit is left. -/
theorem wholeRows_of_accepts_skip [DecidableEq Row] (hs : s.accepts .skip = true) (hskip : s.skip = none)
    (source : List Row) : R.wholeRows s source = R.limited s (R.kept s source) := by
  obtain ⟨-, -, hordering, hdistinct⟩ := Statement.accepts_skip hs
  unfold wholeRows skipped Statement.distinctBy
  rw [s.sortedBy_nil hordering, hskip, hdistinct]; rfl

theorem wholeRows_ordering_skip [DecidableEq Row] (hs : s.accepts .skip = true) (source : List Row) :
    R.wholeRows { s with ordering := ps, skip := some n } source =
      R.limited s ((({ s with ordering := ps } : Statement).sortedBy R.precedes (R.kept s source)).drop (R.count n)) := by
  obtain ⟨-, -, -, hdistinct⟩ := Statement.accepts_skip hs
  unfold wholeRows Statement.distinctBy
  rw [show ({ s with ordering := ps, skip := some n } : Statement).distinct = false from hdistinct]; rfl

/-- An order and an offset act on the rows of the result if it has no limit. -/
theorem rows_ordering_skip [DecidableEq Row] [DecidableEq Value] (hs : s.accepts .skip = true) (hskip : s.skip = none)
    (htop : ∀ m ∈ s.top, R.count m = 0) (source : List Row) :
    R.rows { s with ordering := ps, skip := some n } source = (R.sorted ps (R.rows s source)).drop (R.count n) := by
  have hselect := (Statement.accepts_skip hs).1
  rw [R.rows_eq_wholeRows hselect, R.rows_eq_wholeRows (s := { s with ordering := ps, skip := some n }) hselect,
    R.wholeRows_of_accepts_skip hs hskip, R.wholeRows_ordering_skip hs]
  cases ht : s.top with
  | none =>
    have hlimited : ∀ l : List Row, R.limited s l = l := fun l => by unfold limited; rw [ht]
    rw [hlimited, hlimited, map_drop]
    exact congrArg (drop _) (R.sorted_map_whole { s with ordering := ps } _).symm
  | some m =>
    have hlimited : ∀ l : List Row, R.limited s l = [] := fun l => by
      unfold limited; rw [ht]; dsimp only; rw [htop m ht]; rfl
    rw [hlimited, hlimited, map_nil, R.sorted_nil, drop_nil]

end

/-! ## A limit in between -/

section

variable {count : List Part → Nat} {holds : Nat × Nat → Bool} {isAggregate : String → Bool}

/-- Sorting puts numbered rows back in order. -/
theorem insertionSort_reverse_numbered (n : Nat) :
    (numbered n).reverse.insertionSort (fun a b => (pairs count holds isAggregate).precedes ps a b = true) =
      numbered n := by
  have : IsTrans (Nat × Nat) fun a b => (pairs count holds isAggregate).precedes ps a b = true := ⟨precedes_trans _ ps⟩
  have : Std.Total fun a b => (pairs count holds isAggregate).precedes ps a b = true := ⟨precedes_total _ ps⟩
  refine List.Perm.eq_of_pairwise (fun a b ha hb hab hba => ?_) (pairwise_insertionSort _ _)
    (pairwise_map.2 (pairwise_lt_range.imp fun h => decide_eq_true (Nat.le_of_lt h)))
    ((perm_insertionSort _ _).trans (reverse_perm _))
  obtain ⟨k, -, rfl⟩ := mem_map.1 (mem_reverse.1 ((mem_insertionSort _).1 ha))
  obtain ⟨l, -, rfl⟩ := mem_map.1 hb
  exact congrArg (Prod.mk 1) (le_antisymm (of_decide_eq_true hab) (of_decide_eq_true hba))

/-- Rows in falling order, more than the limit and the offset together: the limit used to cut off
the smaller numbers, and now that they are put in order first one of them is returned. -/
theorem rows_ordering_skip_ne {m : List Part} (hs : s.accepts .skip = true) (hskip : s.skip = none) (hps : ps ≠ [])
    (htop : s.top = some m) (hm : count m ≠ 0) :
    (pairs count (fun _ => true) isAggregate).rows { s with ordering := ps, skip := some n }
        (numbered (count n + 1 + count m)).reverse ≠
      ((pairs count (fun _ => true) isAggregate).sorted ps ((pairs count (fun _ => true) isAggregate).rows s
        (numbered (count n + 1 + count m)).reverse)).drop (count n) := by
  have hselect := (Statement.accepts_skip hs).1
  have hkept : ∀ rows, (pairs count (fun _ => true) isAggregate).kept s rows = rows := by
    intro rows
    unfold kept
    split
    · rfl
    · exact filter_eq_self.2 fun _ _ => rfl
  have hlimited : ∀ rows : List (Nat × Nat), (pairs count (fun _ => true) isAggregate).limited s rows =
      rows.take (count m) := by
    intro rows
    unfold limited
    rw [htop]; rfl
  -- the row behind the skipped ones is returned
  have hafter : (.whole (1, count n) : Output (Nat × Nat) Nat) ∈ (pairs count (fun _ => true) isAggregate).rows
      { s with ordering := ps, skip := some n } (numbered (count n + 1 + count m)).reverse := by
    rw [rows_eq_wholeRows (s := { s with ordering := ps, skip := some n }) _ hselect, wholeRows_ordering_skip _ hs,
      hkept, hlimited]
    unfold Statement.sortedBy
    rw [if_neg (by simpa using hps), insertionSort_reverse_numbered]
    change _ ∈ ((((range _).map _).drop (count n)).take (count m)).map _
    rw [range_add, range_succ, append_assoc, map_append, drop_left' (by simp),
      singleton_append, map_cons]
    obtain ⟨k, hk⟩ := Nat.exists_eq_succ_of_ne_zero hm
    rw [hk, take_succ_cons, map_cons]
    exact mem_cons_self
  -- but the limit leaves only rows with larger numbers
  intro heq
  rw [heq, rows_eq_wholeRows _ hselect, wholeRows_of_accepts_skip _ hs hskip, hkept, hlimited] at hafter
  obtain ⟨row, hrow, hwhole⟩ := mem_map.1 ((mem_sorted _).1 (mem_of_mem_drop hafter))
  rw [take_reverse, mem_reverse, length_numbered, Nat.add_sub_cancel] at hrow
  unfold numbered at hrow
  rw [range_add, map_append, drop_left' (by simp), map_map] at hrow
  obtain ⟨k, -, rfl⟩ := mem_map.1 hrow
  have : count n + 1 + k = count n := congrArg Prod.snd (Output.whole.inj hwhole)
  omega

end

end Reading

/-! ## Skipped rows of a query -/

/-- Sort keys and a count of rows to skip, over an input that takes them, are written into the
statement of the input, which skipped no rows so far. It returns the rows it returned before, in the
order of the keys and without as many of the first ones, whatever the texts mean, if and only if it
has no limit (or one of no rows). -/
theorem skip_rows_iff {config : Config} {source : Binding Expr} {keys : List (SortKey Expr)} {rowCount : Expr}
    {b b₁ b' : Build} {i j : StatementId} {x : SymbolId} (hb : Good b) (hj : b.inJoin = false)
    (hin : Runs (input (source.expr.toOperand config) source.var source.type) b (j, x) b₁)
    (hacc : (b₁.statements.get j).accepts .skip = true) (hkeys : keys ≠ [])
    (hrun : Runs (skip (source.with (source.expr.toOperand config)) (Expr.keyOperands config keys)
      (rowCount.toOperand config)) b i b') :
    i = j ∧ (b₁.statements.get j).skip = none ∧ ∃ items n,
      List.Forall₂ (fun key item => ∃ sql b₂ b₃, Runs (key.expr.build config) b₂ sql b₃ ∧ item = sortText key sql)
        keys items ∧
      (∃ b₂, Runs (Build.rowCount (rowCount.toOperand config)) b₂ n b₂) ∧
      (b'.statements.get i).ordering = Part.separated ", " items ∧ (b'.statements.get i).skip = some n ∧
      ∀ count : List Part → Nat,
        (∀ (Row Value : Type) [DecidableEq Row] [DecidableEq Value] (R : Reading Row Value) (rows : List Row),
          R.count = count → R.rows (b'.statements.get i) rows =
            (R.sorted (Part.separated ", " items) (R.rows (b₁.statements.get j) rows)).drop (count n)) ↔
        ∀ m ∈ (b₁.statements.get j).top, count m = 0 := by
  have hvalue : ∀ e : Expr, ValueOK (e.toOperand config) := fun e => (Expr.buildsSound e).value
  rw [Expr.keyOperands_eq_map] at hrun
  simp only [skip, runs_bind, runs_pure] at hrun
  obtain ⟨k, b₂, hord, n, b₃, hcount, _, b₄, hset, rfl, rfl⟩ := hrun
  obtain ⟨-, -, hordering, -⟩ := Statement.accepts_skip hacc
  obtain ⟨rfl, hlt, items, hitems, hsame⟩ := ordered_clauses (hvalue _) (List.forall_mem_map.2 fun _ _ => hvalue _)
    hb hj hin hacc hordering hord
  obtain ⟨rfl, -⟩ := rowCount_spec (Expr.buildsSound rowCount).count hcount
  obtain ⟨s, hs, hb'⟩ := runs_tryUpdateStatement.1 hset
  obtain ⟨hget, -⟩ := get_update hb' hlt
  have hskip : (b₁.statements.get i).skip = none := by
    unfold Statement.setSkip at hs
    split at hs
    · cases hs
    · rename_i hnone
      exact hsame.skip.symm.trans (Option.not_isSome_iff_eq_none.1 hnone)
  have hclauses : Statement.SameClauses
      { b₁.statements.get i with ordering := Part.separated ", " items, skip := some n } (b'.statements.get i) := by
    change Statement.SameClauses _ (b'.store.get i)
    rw [hget, setSkip_eq hs]
    exact ⟨hsame.distinct, hsame.selectList, hsame.condition, hsame.grouping, hsame.ordering, hsame.top, rfl⟩
  have hitems := List.forall₂_map_left_iff.1 hitems
  have hne : Part.separated ", " items ≠ [] := by
    have hempty := isEmpty_sortTexts (hitems.imp (by rintro _ _ ⟨sql, _, _, _, h⟩; exact ⟨sql, h⟩))
    rw [ne_eq, ← List.isEmpty_iff, hempty, List.isEmpty_iff]
    exact hkeys
  refine ⟨rfl, hskip, items, n, hitems, ⟨_, hcount⟩, hclauses.ordering, hclauses.skip, fun count => ⟨?_, ?_⟩⟩
  · intro h m hm
    by_contra hpos
    have := h _ _ (.pairs count (fun _ => true) fun _ => false) (numbered (count n + 1 + count m)).reverse rfl
    rw [Reading.rows_congr _ hclauses] at this
    exact Reading.rows_ordering_skip_ne hacc hskip hne hm hpos this
  · rintro htop Row Value _ _ R rows rfl
    rw [R.rows_congr hclauses]
    exact R.rows_ordering_skip hacc hskip htop rows

def keyedByNumber (var : String) : List (SortKey Expr) := [{ expr := numberOf var }]

/-- Skipped rows of a table are written into its statement, and keep their meaning. -/
theorem skip_rows_of_table : ∃ i j x b₁ b',
    Runs (input (numbersTable.toOperand {}) "q" numbersTable.rowType) {} (j, x) b₁ ∧
    (b₁.statements.get j).accepts .skip = true ∧ keyedByNumber "q" ≠ [] ∧
    Runs (skip ((numbersTable.bind "q").with (numbersTable.toOperand {})) (Expr.keyOperands {} (keyedByNumber "q"))
      (Expr.toOperand {} (.constant (.int32 2)))) {} i b' ∧
    i = j ∧ ∃ n, (b'.statements.get i).skip = some n ∧
      ∀ (Row Value : Type) [DecidableEq Row] [DecidableEq Value] (R : Reading Row Value) (rows : List Row),
        R.rows (b'.statements.get i) rows =
          (R.sorted (b'.statements.get i).ordering (R.rows (b₁.statements.get j) rows)).drop (R.count n) := by
  obtain ⟨⟨j, x⟩, b₁, hin, htest⟩ := exists_runs (m := input (numbersTable.toOperand {}) "q" numbersTable.rowType)
    (b := {}) (p := fun r b => (b.statements.get r.1).accepts .skip && (b.statements.get r.1).top.isNone)
    (by decide +kernel)
  obtain ⟨hacc, htop⟩ := Bool.and_eq_true_iff.1 htest
  obtain ⟨i, b', hrun, -⟩ := exists_runs (b := {}) (p := fun _ _ => true)
    (m := skip ((numbersTable.bind "q").with (numbersTable.toOperand {})) (Expr.keyOperands {} (keyedByNumber "q"))
      (Expr.toOperand {} (.constant (.int32 2)))) (by decide +kernel)
  refine ⟨i, j, x, b₁, b', hin, hacc, List.cons_ne_nil _ _, hrun, ?_⟩
  obtain ⟨hij, -, items, n, -, -, hordering, hskip, hiff⟩ :=
    skip_rows_iff Query.good_start rfl hin hacc (List.cons_ne_nil _ _) hrun
  refine ⟨hij, n, hskip, fun Row Value _ _ R rows => ?_⟩
  rw [hordering]
  refine (hiff R.count).2 (fun m hm => ?_) Row Value R rows rfl
  rw [Option.isNone_iff_eq_none.1 htop] at hm; cases hm

/-- Two rows without the first two are none, but written into the statement with the limit the order
and the offset come first, and there is a third row. -/
theorem skip_over_limit_returns_more :
    (Query.compile {} (.skip (twoNumbers.bind "q") (keyedByNumber "q") (.constant (.int32 2)))).toOption =
      some ⟨"SELECT c.k AS k FROM t AS c ORDER BY c.k ASC LIMIT 2 OFFSET 2", ["k"]⟩ ∧
    ∃ i j x b₁ b', Runs (input (twoNumbers.toOperand {}) "q" twoNumbers.rowType) {} (j, x) b₁ ∧
      (b₁.statements.get j).accepts .skip = true ∧
      Runs (skip ((twoNumbers.bind "q").with (twoNumbers.toOperand {})) (Expr.keyOperands {} (keyedByNumber "q"))
        (Expr.toOperand {} (.constant (.int32 2)))) {} i b' ∧
      (Reading.eight.sorted (b'.statements.get i).ordering
        (Reading.eight.rows (b₁.statements.get j) [3, 2, 1])).drop 2 = [] ∧
      (Reading.eight.rows (b'.statements.get i) [3, 2, 1]).filterMap Output.row? = [3] := by
  obtain ⟨⟨j, x⟩, b₁, hin, hbefore⟩ := exists_runs (b := {}) (m := input (twoNumbers.toOperand {}) "q" twoNumbers.rowType)
    (p := fun r b => (b.statements.get r.1).accepts .skip &&
      (Reading.eight.rows (b.statements.get r.1) [3, 2, 1]).length == 2) (by decide +kernel)
  obtain ⟨hacc, hrows⟩ := Bool.and_eq_true_iff.1 hbefore
  obtain ⟨i, b', hrun, hafter⟩ := exists_runs (b := {})
    (m := skip ((twoNumbers.bind "q").with (twoNumbers.toOperand {})) (Expr.keyOperands {} (keyedByNumber "q"))
        (Expr.toOperand {} (.constant (.int32 2))))
    (p := fun i b => (Reading.eight.rows (b.statements.get i) [3, 2, 1]).filterMap Output.row? == [3])
    (by decide +kernel)
  refine ⟨by decide +kernel, i, j, x, b₁, b', hin, hacc, hrun, List.drop_eq_nil_of_le ?_, by simpa using hafter⟩
  unfold Reading.sorted
  split
  · exact (beq_iff_eq.1 hrows).le
  · rw [List.length_insertionSort]; exact (beq_iff_eq.1 hrows).le

end RelSql
