/-
A query is compiled by the rules of the compiler: whatever the expression, also one that is not well
typed, compiling it never ends with the report that no statement is being built, that a node has no
statement where one is expected, that a row count is set twice or that a column is renamed twice. An
offset is set twice only if some `Skip` has no sort keys.
-/
import RelSql.Proofs.Build.Failures
import RelSql.Proofs.Query.SkipRows
import RelSql.Proofs.Statement.Failures

namespace RelSql

open Build

namespace Query

variable [Variables] {config : Config} {query : Expr} {keyed : Prop} {e : Error}

theorem plan_not_internal (hq : Heeds keyed (query.toOperand config)) (h : plan config query = .error e) :
    ¬ e.Internal keyed := by
  have hroot : Obeys keyed (root config query) := by
    unfold root
    split
    · exact (hq.asStatement true).obeys.andThen fun _ _ => clean_updated _ _ _
    · exact hq.obeys.andThen fun _ _ => cleanExtents.pure _
  unfold plan at h
  cases hr : (root config query).run {} with
  | error e' =>
    rw [hr] at h
    cases h
    exact fun he => hroot ⟨good_start, rfl⟩ he hr
  | ok r =>
    rw [hr] at h
    change (if r.2.pendingVariable = true then _ else _) = _ at h
    split at h
    · cases h; exact id
    · cases h

/-- A query whose plan is made fails while it is written. -/
theorem fails_of_compile (h : compile config query = .error e) : plan config query = .error e ∨
    ∃ f b names, plan config query = .ok (f, b) ∧ renderParts b.statements b.names [f.toPart] = (.error e, names) := by
  unfold compile at h
  cases hp : plan config query with
  | error e' => rw [hp] at h; cases h; exact Or.inl rfl
  | ok r =>
    obtain ⟨f, b⟩ := r
    rw [hp] at h
    cases hr : renderParts b.statements b.names [f.toPart] with
    | mk pieces names =>
      cases pieces with
      | error e' =>
        simp only [bind, Except.bind, hr] at h
        cases h
        exact Or.inr ⟨f, b, names, rfl, hr⟩
      | ok pieces =>
        simp only [bind, Except.bind, hr] at h
        cases h

end Query

/-- A rule of the compiler is broken only while a query is written. -/
theorem Query.fails_of_internal {config : Config} {query : Expr} {keyed : Prop} {e : Error}
    (hs : keyed → query.All Expr.SkipsByKeys) (h : compile config query = .error e) (he : e.Internal keyed) :
    ∃ f b names, plan config query = .ok (f, b) ∧
      renderParts b.statements b.names [f.toPart] = (.error e, names) := by
  have hheeds : Heeds keyed (query.toOperand config) :=
    Expr.heeds heedful_rowVariable (fun _ _ hc => (Expr.placesAll False.elim fun _ => hc).loud) hs
  exact (fails_of_compile h).resolve_left fun hp => plan_not_internal hheeds hp he

/-- Compiling a query never reports that a rule of the compiler was broken, and an offset is never set
twice if every `Skip` has sort keys. -/
theorem compile_keeps_rules (config : Config) (query : Expr) :
    (∀ cause, Query.compile config query = .error (.badState cause) →
      cause ≠ .noStatement ∧ cause ≠ .limitTwice ∧ cause ≠ .expectedStatement ∧
        ∀ column, cause ≠ .columnRenamedTwice column) ∧
    (query.All Expr.SkipsByKeys → Query.compile config query ≠ .error (.badState .offsetTwice)) := by
  -- none of these is a cause for which writing fails
  have hnot : ∀ {keyed : Prop} {e : Error}, (keyed → query.All Expr.SkipsByKeys) →
      Query.compile config query = .error e → e.Internal keyed → e.OfWriting := by
    intro keyed e hs h he
    obtain ⟨f, b, names, -, hr⟩ := Query.fails_of_internal hs h he
    exact ofWriting_renderParts hr
  refine ⟨fun cause h => ?_, fun hs h => hnot (fun _ : True => hs) h trivial⟩
  refine ⟨?_, ?_, ?_, fun column => ?_⟩ <;> rintro rfl <;> exact hnot False.elim h trivial

/-- The numbers without the first one, and of these without the first two. -/
def skippedTwice (keys : String → List (SortKey Expr)) : Expr :=
  .skip ((Expr.skip (numbersTable.bind "p") (keys "p") (.constant (.int32 1))).bind "q") (keys "q") (.constant (.int32 2))

/-- With sort keys the second offset is that of a statement around the first. -/
theorem skippedTwice_compiles :
    (skippedTwice keyedByNumber).All Expr.SkipsByKeys ∧
    (Query.compile {} (skippedTwice keyedByNumber)).toOption =
      some ⟨"SELECT q.k AS k FROM (SELECT p.k AS k FROM t AS p ORDER BY p.k ASC OFFSET 1) AS q ORDER BY q.k ASC OFFSET 2",
        ["k"]⟩ ∧
    Query.compile {} (skippedTwice keyedByNumber) ≠ .error (.badState .offsetTwice) := by
  have hnumber : ∀ v, (numberOf v).All Expr.SkipsByKeys := fun v =>
    ⟨trivial, List.forall_mem_singleton.2 ⟨trivial, nofun⟩⟩
  have hskip : ∀ {input : Binding Expr} {v : String} {n : Int32}, input.expr.All Expr.SkipsByKeys →
      (Expr.skip input (keyedByNumber v) (.constant (.int32 n))).All Expr.SkipsByKeys := fun h =>
    ⟨List.cons_ne_nil _ _, List.forall_mem_cons.2 ⟨h, List.forall_mem_cons.2 ⟨⟨trivial, nofun⟩,
      List.forall_mem_singleton.2 (hnumber _)⟩⟩⟩
  have hall : (skippedTwice keyedByNumber).All Expr.SkipsByKeys := hskip (hskip ⟨trivial, nofun⟩)
  exact ⟨hall, by decide +kernel, (compile_keeps_rules {} (skippedTwice keyedByNumber)).2 hall⟩

-- Without keys the first offset is set on a statement that takes the second one, too.
example : (match Query.compile {} (skippedTwice fun _ => []) with
    | .error e => some e.message
    | .ok _ => none) = some "invalid compiler state: statement already has an OFFSET clause" := by decide +kernel

end RelSql
