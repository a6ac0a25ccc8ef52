/-
When the aliases of a query cannot be told apart. A group that is written in place repeats its keys in
the `GROUP BY` list; a statement in a key is then written twice, and an alias in it that gets a new name
the first time cannot get one the second time. This is the only way in which an alias cannot be bound:
elsewhere every statement has one place.
-/
import RelSql.Proofs.Build.Placing
import RelSql.Proofs.Query.OwnRules
import RelSql.Proofs.Statement.Rebinding

namespace RelSql

open Build

namespace Query

variable {config : Config} {query : Expr} {flat : Prop} {f : Fragment} {b : Build}

theorem root_places (hs : flat → query.All Expr.KeysFlat) :
    Places ⟨flat, False, False⟩ .apart [] (root config query) Fragment.statements := by
  have hquery : Fits ⟨flat, False, False⟩ (query.toOperand config) := (Expr.placesAll hs False.elim).fits
  refine Places.hands.ite (fun _ => ?_) fun _ => ?_
  · exact Places.hands.bind (Places.asStatement id hquery true) fun i =>
      Places.hands.bind (Places.hands.mark i) fun _ => Places.hands.pure fun j => by simp
  · exact Places.hands.bind hquery.text fun sql => Places.hands.pure fun j => by simp

/-- Every statement of a plan has one place, and keys without statements leave no statement in a
`GROUP BY` list. -/
theorem plan_linear (hs : flat → query.All Expr.KeysFlat) (h : plan config query = .ok (f, b)) :
    b.statements.Linear f.statements ∧ (flat → FlatGroups b) := by
  have hb := root_places hs (runs_of_plan h).1 rfl
  refine ⟨List.nodup_iff_count_le_one.2 fun j => ?_, fun hf k => (hb.kept k ⟨fun _ => rfl, False.elim⟩).1 hf⟩
  have hcount := hb.count j
  have hmade : b.made j ≤ 1 := by unfold made; split <;> omega
  have hstart : used {} j = 0 ∧ made {} j = 0 := ⟨rfl, rfl⟩
  change f.statements.count j + b.used j + made {} j ≤ 0 + used {} j + b.made j at hcount
  rw [List.count_append]
  change f.statements.count j + b.used j ≤ 1
  omega

end Query

/-- An alias cannot be bound only where the statement that declares it stands in a `GROUP BY` list, and
never if the keys of groups that are written in place have no statements in them. -/
theorem alias_bound_outside_keys (config : Config) (query : Expr) :
    (∀ name, Query.compile config query = .error (.badState (.aliasBound name)) →
      ∃ f b, Query.plan config query = .ok (f, b) ∧ b.store.RepeatsAlias name) ∧
    (query.All Expr.KeysFlat → ∀ name, Query.compile config query ≠ .error (.badState (.aliasBound name))) := by
  have hrepeats : ∀ name, Query.compile config query = .error (.badState (.aliasBound name)) →
      ∃ f b, Query.plan config query = .ok (f, b) ∧ b.store.RepeatsAlias name := by
    intro name h
    obtain ⟨f, b, names, hp, hr⟩ := Query.fails_of_internal (fun h : False => h.elim) h trivial
    obtain ⟨hok, -⟩ := Query.plan_sound hp
    obtain ⟨hlinear, -⟩ := Query.plan_linear (fun h : False => h.elim) hp
    exact ⟨f, b, hp, Store.repeatsAlias_of_renderParts hok hlinear hr⟩
  refine ⟨hrepeats, fun hs name h => ?_⟩
  obtain ⟨f, b, hp, k, ⟨i, hoccurs⟩, -⟩ := hrepeats name h
  obtain ⟨-, hflat⟩ := Query.plan_linear (fun _ : True => hs) hp
  obtain ⟨j, hj, -⟩ := Statements.occurs_iff.1 hoccurs
  have hnone : Part.statements (b.statements.get i).grouping = [] := hflat trivial i
  exact absurd hj (by rw [show b.store.statements = b.statements from rfl, hnone]; exact List.not_mem_nil)

/-- The numbers that are one, grouped by whether the table, under the same alias, is without them. -/
def groupedByMissing (aggregates : List (String × Aggregate Expr)) : Expr :=
  .groupBy ((Expr.filter (numbersTable.bind "c") (.compare .eq (numberOf "c") (.constant (.int32 1)))).bindGroup "q" "g")
    [("n", .isEmpty (.filter (numbersTable.bind "c") (.compare .eq (numberOf "c") (numberOf "q"))))] aggregates

def greatestNegated : List (String × Aggregate Expr) :=
  [("m", { function := { name := "MAX" }, argument := .negate (numberOf "g") })]

/-- In place the key is written twice, and the alias of its statement is to be bound again. -/
theorem groupedByMissing_not_bound :
    (match Query.compile {} (groupedByMissing []) with
      | .error e => some e.message
      | .ok _ => none) = some "invalid compiler state: extent 'c' is already bound under another alias" := by
  decide +kernel

/-- With an aggregate that needs an inner statement the key is written there, once. -/
theorem groupedByMissing_bound :
    (groupedByMissing greatestNegated).All Expr.KeysFlat ∧
    (Query.compile {} (groupedByMissing greatestNegated)).toOption =
      some ⟨"SELECT q.key_0 AS n, MAX(q.agg_0) AS m FROM (SELECT NOT EXISTS (SELECT c1.k AS k FROM t AS c1 " ++
        "WHERE c1.k = c.k) AS key_0, -(c.k) AS agg_0 FROM t AS c WHERE c.k = 1) AS q GROUP BY q.key_0",
        ["n", "m"]⟩ ∧
    ∀ name, Query.compile {} (groupedByMissing greatestNegated) ≠ .error (.badState (.aliasBound name)) := by
  have hnumber : ∀ v, (numberOf v).All Expr.KeysFlat := fun v =>
    ⟨trivial, List.forall_mem_singleton.2 ⟨trivial, nofun⟩⟩
  have hrows : ∀ {value : Expr}, value.All Expr.KeysFlat →
      (Expr.filter (numbersTable.bind "c") (.compare .eq (numberOf "c") value)).All Expr.KeysFlat := fun h =>
    ⟨trivial, List.forall_mem_cons.2 ⟨⟨trivial, nofun⟩, List.forall_mem_singleton.2
      ⟨trivial, List.forall_mem_cons.2 ⟨hnumber "c", List.forall_mem_singleton.2 h⟩⟩⟩⟩
  have hall : (groupedByMissing greatestNegated).All Expr.KeysFlat :=
    ⟨fun hplain => absurd (hplain _ List.mem_cons_self) (by decide), List.forall_mem_cons.2 ⟨hrows ⟨trivial, nofun⟩,
      List.forall_mem_cons.2 ⟨⟨trivial, List.forall_mem_singleton.2 (hrows (hnumber "q"))⟩,
        List.forall_mem_singleton.2 ⟨trivial, List.forall_mem_singleton.2 (hnumber "g")⟩⟩⟩⟩
  exact ⟨hall, by decide +kernel, (alias_bound_outside_keys {} (groupedByMissing greatestNegated)).2 hall⟩

end RelSql
