/-
A filter over a statement that takes it is written into the `WHERE` clause, and acts before the
other clauses. That is the filter of the rows that the statement returns, unless the statement skips
rows: `DISTINCT` and `ORDER BY` do not mind rows that are missing, `OFFSET` does.
-/
import RelSql.Proofs.Build.Clauses

namespace RelSql

open Statement Build

/-! ## A condition in place of no condition -/

theorem Statement.accepts_filter {s : Statement} (h : s.accepts .filter = true) :
    s.selectList = [] ∧ s.condition = [] ∧ s.grouping = [] ∧ s.top = none := by
  simpa [accepts, and_assoc] using h

namespace Reading

variable {Row Value : Type} [DecidableEq Row] [DecidableEq Value] (R : Reading Row Value)

/-- The condition acts on the rows of the result if no rows are skipped. -/
theorem rows_condition {s : Statement} {ps : List Part} (hs : s.accepts .filter = true) (hps : ps ≠ [])
    (hskip : ∀ n ∈ s.skip, R.count n = 0) (source : List Row) :
    R.rows { s with condition := ps } source = (R.rows s source).filter (Output.satisfies (R.holds ps)) := by
  obtain ⟨hselect, hcondition, -, htop⟩ := accepts_filter hs
  have hrest : ∀ rows : List Row, R.limited s (R.skipped s rows) = rows := by
    intro rows
    unfold limited skipped
    rw [htop]
    cases hn : s.skip with
    | none => rfl
    | some n => dsimp only; rw [hskip n hn]; rfl
  have hkept : R.kept { s with condition := ps } source = (R.kept s source).filter (R.holds ps) := by
    unfold kept
    rw [hcondition, if_neg (by simpa using hps)]; rfl
  rw [R.rows_eq_wholeRows hselect, R.rows_eq_wholeRows (s := { s with condition := ps }) hselect, List.filter_map]
  congr 1
  -- the test goes down through the clauses to the rows of the `FROM` list
  change R.limited s (R.skipped s (s.sortedBy R.precedes (s.distinctBy id (R.kept { s with condition := ps } source)))) =
    (R.limited s (R.skipped s (s.sortedBy R.precedes (s.distinctBy id (R.kept s source))))).filter (R.holds ps)
  rw [hrest, hrest, s.filter_sortedBy R.precedes_total R.precedes_trans,
    s.filter_distinctBy fun a b hab => by rw [show a = b from hab], hkept]

end Reading

/-! ## A reading in which clauses differ -/

/-- Rows are pairs of a key, which is the value of every expression, and a number, by which they are
ordered. Aggregates count their arguments. -/
def Reading.pairs (count : List Part → Nat) (holds : Nat × Nat → Bool) (isAggregate : String → Bool) :
    Reading (Nat × Nat) Nat where
  holds _ row := holds row
  value _ row := row.1
  null := 0
  aggregate? f := if isAggregate f then some fun _ values => values.length else none
  precedes _ a b := decide (a.2 ≤ b.2)
  precedes_total _ a b := by simpa using le_total a.2 b.2
  precedes_trans _ a b c := by simpa using le_trans
  count := count

/-- Rows with one key and the numbers below `n`. -/
def numbered (n : Nat) : List (Nat × Nat) := (List.range n).map fun k => (1, k)

theorem numbered_succ (n : Nat) : numbered (n + 1) = numbered n ++ [(1, n)] := by
  unfold numbered
  rw [List.range_succ, List.map_append]; rfl

@[simp] theorem length_numbered (n : Nat) : (numbered n).length = n := by simp [numbered]

theorem nodup_numbered (n : Nat) : (numbered n).Nodup :=
  List.nodup_range.map fun a b h => by simpa using h

namespace Reading

variable {count : List Part → Nat} {holds : Nat × Nat → Bool} {isAggregate : String → Bool}

/-- Rows that are in order are returned as they are, up to `OFFSET` and `LIMIT`. -/
theorem wholeRows_numbered {s : Statement} (hcondition : s.condition = [] ∨ ∀ row, holds row = true) (n : Nat) :
    (pairs count holds isAggregate).wholeRows s (numbered n) =
      (pairs count holds isAggregate).limited s ((pairs count holds isAggregate).skipped s (numbered n)) := by
  have hkept : (pairs count holds isAggregate).kept s (numbered n) = numbered n := by
    unfold kept
    split
    · rfl
    · rename_i h
      exact List.filter_eq_self.2 fun row _ => (hcondition.resolve_left (by simpa using h)) row
  have hdistinct : s.distinctBy id (numbered n) = numbered n := by
    unfold distinctBy
    rw [distinctOn_eq_self (by simpa using nodup_numbered n), ite_self]
  have hsorted : s.sortedBy (pairs count holds isAggregate).precedes (numbered n) = numbered n := by
    unfold sortedBy
    rw [List.Pairwise.insertionSort_eq, ite_self]
    exact List.pairwise_map.2 (List.pairwise_lt_range.imp fun h => decide_eq_true (Nat.le_of_lt h))
  unfold wholeRows
  rw [hkept, hdistinct, hsorted]

/-- With an offset the condition acts on the wrong rows: of as many rows as are skipped and one more
only the last is returned, but if the condition is true of the last row alone, it is skipped. -/
theorem rows_condition_ne {s : Statement} {ps n : List Part} (hs : s.accepts .filter = true) (hps : ps ≠ [])
    (hskip : s.skip = some n) (hn : count n ≠ 0) :
    (pairs count (fun row => row.2 = count n) isAggregate).rows { s with condition := ps } (numbered (count n + 1)) ≠
      ((pairs count (fun row => row.2 = count n) isAggregate).rows s (numbered (count n + 1))).filter
        (Output.satisfies fun row => row.2 = count n) := by
  obtain ⟨hselect, hcondition, -, htop⟩ := accepts_filter hs
  have hlast : (numbered (count n + 1)).filter (fun row => row.2 = count n) = [(1, count n)] := by
    rw [numbered_succ, List.filter_append, List.filter_eq_nil_iff.2]
    · simp
    · intro row hrow
      obtain ⟨k, hk, rfl⟩ := List.mem_map.1 hrow
      simpa using Nat.ne_of_lt (List.mem_range.1 hk)
  have hnone : (pairs count (fun row => row.2 = count n) isAggregate).wholeRows { s with condition := ps }
      (numbered (count n + 1)) = [] := by
    have hkept : (pairs count (fun row => row.2 = count n) isAggregate).kept { s with condition := ps }
        (numbered (count n + 1)) = [(1, count n)] := by
      unfold kept
      rw [if_neg (by simpa using hps)]; exact hlast
    have hone : ∀ t : Statement, t.sortedBy (pairs count (fun row => row.2 = count n) isAggregate).precedes
        (t.distinctBy id [(1, count n)]) = [(1, count n)] := by
      intro t
      unfold distinctBy sortedBy
      split <;> split <;> rfl
    unfold wholeRows
    rw [hkept, hone]
    unfold limited skipped
    dsimp only
    rw [htop, hskip]
    exact List.drop_eq_nil_of_le (Nat.one_le_iff_ne_zero.2 hn)
  have hsome : (pairs count (fun row => row.2 = count n) isAggregate).wholeRows s (numbered (count n + 1)) =
      [(1, count n)] := by
    rw [wholeRows_numbered (Or.inl hcondition)]
    unfold limited skipped
    rw [htop, hskip, numbered_succ]
    exact List.drop_left' (length_numbered _)
  rw [rows_eq_wholeRows _ hselect, rows_eq_wholeRows (s := { s with condition := ps }) _ hselect, hnone, hsome]
  simp [Output.satisfies, Output.row?]

end Reading

/-! ## Filters of a query -/

/-- A filter over an input that takes it is written into the statement of the input. It returns the
rows of that statement that satisfy the predicate, in their order and whatever the texts mean, if and
only if the statement skips no rows. -/
theorem filter_rows_iff {config : Config} {negated : Bool} {source : Binding Expr} {predicate : Expr}
    {b b₁ b' : Build} {i j : StatementId} {x : SymbolId} (hb : Good b)
    (hj : b.inJoin = false) (hin : Runs (input (source.expr.toOperand config) source.var source.type) b (j, x) b₁)
    (hacc : (b₁.statements.get j).accepts .filter = true)
    (hrun : Runs (filter negated (source.with (source.expr.toOperand config)) (predicate.toOperand config)) b i b') :
    i = j ∧ ∃ sql b₂ b₃, Runs (predicate.build config) b₂ sql b₃ ∧
      (b'.statements.get i).condition = (if negated then [.text "NOT (", sql.toPart, .text ")"] else [sql.toPart]) ∧
      ∀ count : List Part → Nat,
        (∀ (Row Value : Type) [DecidableEq Row] [DecidableEq Value] (R : Reading Row Value) (rows : List Row),
          R.count = count → R.rows (b'.statements.get i) rows =
            (R.rows (b₁.statements.get j) rows).filter (Output.satisfies (R.holds (b'.statements.get i).condition))) ↔
        ∀ n ∈ (b₁.statements.get j).skip, count n = 0 := by
  have hv : ValueOK (source.expr.toOperand config) := (Expr.buildsSound _).value
  have hp : ValueOK (predicate.toOperand config) := (Expr.buildsSound _).value
  simp only [filter, appendCondition, runs_bind, runs_updateStatement, runs_pure] at hrun
  obtain ⟨⟨k, sql⟩, b₂, hover, -, b₃, hb₃, rfl, rfl⟩ := hrun
  obtain ⟨rfl, hlt, hsame⟩ := overRows_clauses hv hp.toPart hb hj hin hacc hover
  obtain ⟨b₄, b₅, hsql⟩ : ∃ b₄ b₅, Runs (predicate.build config) b₄ sql b₅ := by
    simp only [overRows, runs_bind, runs_within, runs_inScope, runs_pure, Prod.mk.injEq] at hover
    obtain ⟨_, _, -, _, _, ⟨_, ⟨_, ⟨_, _, -, _, _, -, hsql⟩, -⟩, -⟩, ⟨-, rfl⟩, -⟩ := hover
    exact ⟨_, _, hsql⟩
  generalize hps : (if negated then [.text "NOT (", sql.toPart, .text ")"] else [sql.toPart] : List Part) = ps at hb₃
  have hne : ps ≠ [] := by rw [← hps]; cases negated <;> exact List.cons_ne_nil _ _
  have hcondition := (Statement.accepts_filter hacc).2.1
  have hget : b'.statements.get i = { b₂.statements.get i with condition := ps } := by
    rw [hb₃]
    refine (Store.get_modify_self (σ := b₂.store) hlt _).trans ?_
    have : (b₂.store.get i).condition = [] := hsame.condition.trans hcondition
    rw [this]; rfl
  have hclauses : Statement.SameClauses { b₁.statements.get i with condition := ps } (b'.statements.get i) := by
    rw [hget]
    exact ⟨hsame.distinct, hsame.selectList, rfl, hsame.grouping, hsame.ordering, hsame.top, hsame.skip⟩
  refine ⟨rfl, sql, b₄, b₅, hsql, hclauses.condition.trans hps.symm, fun count => ?_⟩
  rw [show (b'.statements.get i).condition = ps from hclauses.condition]
  constructor
  · intro h n hn
    by_contra hcount
    have := h _ _ (.pairs count (fun row => row.2 = count n) fun _ => false) (numbered (count n + 1)) rfl
    rw [Reading.rows_congr _ hclauses] at this
    exact Reading.rows_condition_ne hacc hne hn hcount this
  · rintro hskip Row Value _ _ R rows rfl
    rw [R.rows_congr hclauses]
    exact R.rows_condition hacc hne hskip rows

/-- A run whose result passes a test. -/
theorem exists_runs {α : Type} {m : BuildM α} {b : Build} {p : α → Build → Bool}
    (h : (m.run b).toOption.any (fun r => p r.1 r.2) = true) : ∃ a b', Runs m b a b' ∧ p a b' = true := by
  unfold Runs
  cases hr : m.run b with
  | error e => rw [hr] at h; cases h
  | ok r => rw [hr] at h; exact ⟨r.1, r.2, rfl, h⟩

def numbersTable : Expr := .scan { name := "t", members := [("k", .scalar .int32)] }

def numberOf (var : String) : Expr := .property (.var var numbersTable.rowType) "k"

def pairsTable : Expr := .scan { name := "t", members := [("k", .scalar .int32), ("a", .scalar .int32)] }

def columnOf (var name : String) : Expr := .property (.var var pairsTable.rowType) name

/-- The rows of a table by their numbers, without the first two. -/
def laterNumbers : Expr :=
  .skip (numbersTable.bind "p") [{ expr := numberOf "p" }] (.constant (.int32 2))

def isEight : Expr := .compare .eq (numberOf "q") (.constant (.int32 8))

/-- Rows are numbers, conditions single out the number eight, and the count is two. -/
def Reading.eight : Reading Nat Nat where
  holds _ row := row == 8
  value _ row := row
  null := 0
  aggregate? _ := none
  precedes _ a b := decide (a ≤ b)
  precedes_total _ a b := by simpa using le_total a b
  precedes_trans _ a b c := by simpa using le_trans
  count
    | [.text "2"] => 2
    | _ => 0

/-- A filter over the table itself is written into its statement, and keeps its meaning. -/
theorem filter_rows_of_table : ∃ i j x b₁ b',
    Runs (input (numbersTable.toOperand {}) "q" numbersTable.rowType) {} (j, x) b₁ ∧
    (b₁.statements.get j).accepts .filter = true ∧
    Runs (filter false ((numbersTable.bind "q").with (numbersTable.toOperand {})) (isEight.toOperand {})) {} i b' ∧
    i = j ∧ ∀ (Row Value : Type) [DecidableEq Row] [DecidableEq Value] (R : Reading Row Value) (rows : List Row),
      R.rows (b'.statements.get i) rows =
        (R.rows (b₁.statements.get j) rows).filter (Output.satisfies (R.holds (b'.statements.get i).condition)) := by
  obtain ⟨⟨j, x⟩, b₁, hin, htest⟩ := exists_runs (m := input (numbersTable.toOperand {}) "q" numbersTable.rowType)
    (b := {}) (p := fun r b => (b.statements.get r.1).accepts .filter && (b.statements.get r.1).skip.isNone)
    (by decide +kernel)
  obtain ⟨hacc, hskip⟩ := Bool.and_eq_true_iff.1 htest
  obtain ⟨i, b', hrun, -⟩ := exists_runs (b := {}) (p := fun _ _ => true)
    (m := filter false ((numbersTable.bind "q").with (numbersTable.toOperand {})) (isEight.toOperand {}))
    (by decide +kernel)
  refine ⟨i, j, x, b₁, b', hin, hacc, hrun, ?_⟩
  obtain ⟨hij, -, -, -, -, -, hiff⟩ := filter_rows_iff Query.good_start rfl hin hacc hrun
  refine ⟨hij, fun Row Value _ _ R rows => ?_⟩
  refine (hiff R.count).2 (fun n hn => ?_) Row Value R rows rfl
  rw [Option.isNone_iff_eq_none.1 hskip] at hn; cases hn

/-- A filter over the rows behind the first two is written into the same statement, and then the
only eight is among the rows that are skipped. -/
theorem filter_over_skip_loses_rows :
    (Query.compile {} (.filter (laterNumbers.bind "q") isEight)).toOption =
      some ⟨"SELECT p.k AS k FROM t AS p WHERE p.k = 8 ORDER BY p.k ASC OFFSET 2", ["k"]⟩ ∧
    ∃ i j x b₁ b', Runs (input (laterNumbers.toOperand {}) "q" laterNumbers.rowType) {} (j, x) b₁ ∧
      (b₁.statements.get j).accepts .filter = true ∧
      Runs (filter false ((laterNumbers.bind "q").with (laterNumbers.toOperand {})) (isEight.toOperand {})) {} i b' ∧
      ((Reading.eight.rows (b₁.statements.get j) [1, 2, 8]).filter (Output.satisfies (· == 8))).filterMap Output.row? = [8] ∧
      Reading.eight.rows (b'.statements.get i) [1, 2, 8] = [] := by
  obtain ⟨⟨j, x⟩, b₁, hin, hbefore⟩ := exists_runs (b := {}) (m := input (laterNumbers.toOperand {}) "q" laterNumbers.rowType)
    (p := fun r b => (b.statements.get r.1).accepts .filter &&
      ((Reading.eight.rows (b.statements.get r.1) [1, 2, 8]).filter (Output.satisfies (· == 8))).filterMap
        Output.row? == [8]) (by decide +kernel)
  obtain ⟨hacc, hrows⟩ := Bool.and_eq_true_iff.1 hbefore
  obtain ⟨i, b', hrun, hafter⟩ := exists_runs (b := {})
    (m := filter false ((laterNumbers.bind "q").with (laterNumbers.toOperand {})) (isEight.toOperand {}))
    (p := fun i b => (Reading.eight.rows (b.statements.get i) [1, 2, 8]).isEmpty) (by decide +kernel)
  exact ⟨by decide +kernel, i, j, x, b₁, b', hin, hacc, hrun, by simpa using hrows, by simpa using hafter⟩

end RelSql
