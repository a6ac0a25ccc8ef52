/-
What an operator does to the clauses of the statement it is added to. Opening the statement of an
input declares an extent in its `FROM` list and leaves the other clauses as they are, and what is
built inside it leaves them too.
-/
import RelSql.Proofs.Build.Expressions
import RelSql.Proofs.Statement.Rows

namespace RelSql

open RelSql.Part

theorem Statement.accepts_groupBy {s : Statement} (h : s.accepts .groupBy = true) :
    s.selectList = [] ∧ s.grouping = [] ∧ s.ordering = [] := by
  simpa [accepts, and_assoc] using h

theorem Statement.SameClauses.accepts {s t : Statement} (h : s.SameClauses t) (op : Operator) :
    t.accepts op = s.accepts op := by
  unfold Statement.accepts
  rw [h.distinct, h.selectList, h.condition, h.grouping, h.ordering, h.top]

namespace Build

open Store (Owns around)

variable {α : Type}

theorem Runs.unique {m : BuildM α} {b b1 b2 : Build} {a1 a2 : α} (h1 : Runs m b a1 b1) (h2 : Runs m b a2 b2) :
    a1 = a2 ∧ b1 = b2 := by
  unfold Runs at h1 h2
  rw [h1] at h2
  exact Prod.mk.inj (Except.ok.inj h2)

section

variable {op : Operator}

variable {b b' b1 : Build} {i j : StatementId} {x : SymbolId}

theorem declareExtent_clauses {u : PUnit} (hr : Runs (declareExtent i x) b u b') (hi : i < b.store.size) :
    (b.store.get i).SameClauses (b'.store.get i) := by
  rcases runs_declareExtent.1 hr with ⟨-, rfl⟩ | ⟨-, rfl⟩
  · exact ⟨rfl, rfl, rfl, rfl, rfl, rfl, rfl⟩
  · have hget : Store.get { b.registered x with statements := b.statements.modify i (·.withExtent x) }.store i =
        (b.store.get i).withExtent x :=
      Store.get_modify_self (σ := (b.registered x).store) hi _
    rw [hget]
    exact ⟨rfl, rfl, rfl, rfl, rfl, rfl, rfl⟩

/-- An input that takes the operator is opened as it is. -/
theorem inputFor_accepted {operand : Operand} {name : String} {type : DataType} {y : SymbolId}
    (hin : Runs (input operand name type) b (j, x) b1) (hacc : (b1.store.get j).accepts op = true)
    (hr : Runs (inputFor op operand name type) b (i, y) b') : i = j ∧ y = x ∧ b' = b1 := by
  obtain ⟨k, z, b2, hin', hr⟩ := inputFor_cases hr
  obtain ⟨heq, rfl⟩ := hin.unique hin'
  obtain ⟨rfl, rfl⟩ := Prod.mk.inj heq
  exact (hr.resolve_right fun hno => hno.1 hacc).2

/-- What is built over the rows of an input that takes the operator leaves its clauses as they are. -/
theorem overRows_clauses {input : Binding Operand} {body : BuildM α} {post : α → List Part} {a : α}
    (hv : ValueOK input.expr) (hbody : Builds (Made []) body fun a => Made (post a)) (hb : Good b)
    (hj : b.inJoin = false) (hin : Runs (Build.input input.expr input.var input.type) b (j, x) b1)
    (hacc : (b1.store.get j).accepts op = true) (hr : Runs (overRows op input body) b (i, a) b') :
    i = j ∧ i < b'.store.size ∧ (b1.store.get j).SameClauses (b'.store.get i) := by
  obtain ⟨y, b2, _, b3, b4, hfor, ho, -, -, hdecl, hopen, hbody', rfl⟩ := overRows_cases hv hb hj hr
  obtain ⟨rfl, rfl, rfl⟩ := inputFor_accepted hin hacc hfor
  obtain ⟨hstep, -⟩ := hbody hopen.good (by rw [hopen.inJoin]; exact hj) (le_refl _) Store.sound_nil hbody'
  refine ⟨rfl, (hopen.step hstep).owns.lt, (declareExtent_clauses hdecl ho.lt).trans ?_⟩
  exact (hstep.grows.text i hopen.owns.lt).sameClauses

/-- The text of a sort key whose expression has the text `sql`. -/
def sortText {α : Type} (key : SortKey α) (sql : Fragment) : List Part :=
  [sql.toPart] ++ collationParts key.collation ++ [.text (if key.ascending then " ASC" else " DESC")]

/-- A list of sort keys is empty only if there are none. -/
theorem isEmpty_sortTexts {keys : List (SortKey α)} {items : List (List Part)}
    (h : List.Forall₂ (fun key item => ∃ sql, item = sortText key sql) keys items) :
    (separated ", " items).isEmpty = keys.isEmpty := by
  have hne : ∀ item ∈ items, id item ≠ [] := by
    induction h with
    | nil => exact nofun
    | cons h _ ih =>
      obtain ⟨sql, rfl⟩ := h
      exact List.forall_mem_cons.2 ⟨List.cons_ne_nil _ _, ih⟩
  have hempty : (separated ", " (items.map id)).isEmpty = items.isEmpty := isEmpty_separated hne
  rw [List.map_id] at hempty
  rw [hempty]
  cases h <;> rfl

/-- What is built over the rows of an input. -/
theorem overRows_body {input : Binding Operand} {body : BuildM α} {a : α}
    (hr : Runs (overRows op input body) b (i, a) b') : ∃ b2 b3, Runs body b2 a b3 := by
  simp only [overRows, runs_bind, runs_within, runs_inScope, runs_pure, Prod.mk.injEq] at hr
  obtain ⟨_, _, -, _, _, ⟨_, ⟨_, ⟨_, _, -, _, _, -, hbody⟩, -⟩, -⟩, ⟨-, rfl⟩, -⟩ := hr
  exact ⟨_, _, hbody⟩

theorem overRows_items {input : Binding Operand} {keys : List (SortKey Operand)} {items : List (List Part)}
    (hr : Runs (overRows op input (keys.mapM sortItem)) b (i, items) b') :
    List.Forall₂ (fun key item => ∃ sql b2 b3, Runs key.expr.build b2 sql b3 ∧ item = sortText key sql) keys items := by
  obtain ⟨_, _, hitems⟩ := overRows_body hr
  refine (forall₂_of_runs_mapM hitems).imp fun key item h => ?_
  simp only [sortItem, runs_bind, runs_pure] at h
  obtain ⟨b4, _, sql, b5, hsql, rfl, -⟩ := h
  exact ⟨sql, b4, b5, hsql, rfl⟩

/-- An order over the rows of an input that takes the operator becomes its `ORDER BY` clause. -/
theorem ordered_clauses {input : Binding Operand} {keys : List (SortKey Operand)} (hv : ValueOK input.expr)
    (hk : ∀ k ∈ keys, ValueOK k.expr) (hb : Good b) (hj : b.inJoin = false)
    (hin : Runs (Build.input input.expr input.var input.type) b (j, x) b1) (hacc : (b1.store.get j).accepts op = true)
    (hordering : (b1.store.get j).ordering = []) (hr : Runs (ordered op input keys) b i b') :
    i = j ∧ i < b'.store.size ∧ ∃ items,
      List.Forall₂ (fun key item => ∃ sql b2 b3, Runs key.expr.build b2 sql b3 ∧ item = sortText key sql) keys items ∧
      Statement.SameClauses { b1.store.get j with ordering := separated ", " items } (b'.store.get i) := by
  obtain ⟨items, b2, hover, hb3⟩ := ordered_cases hr
  obtain ⟨rfl, hlt, hsame⟩ := overRows_clauses hv (builds_mapM fun k h => sortItem_builds (hk k h)) hb hj hin hacc hover
  obtain ⟨hget, hlt'⟩ := get_update hb3 hlt
  refine ⟨rfl, hlt', items, overRows_items hover, ?_⟩
  rw [hget]
  have hnone : (b2.store.get i).ordering = [] := hsame.ordering.trans hordering
  refine ⟨hsame.distinct, hsame.selectList, hsame.condition, hsame.grouping, ?_, hsame.top, hsame.skip⟩
  change (b2.store.get i).ordering ++ _ = _
  rw [hnone]; rfl

end

end Build

end RelSql
