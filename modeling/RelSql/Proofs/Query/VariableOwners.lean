/-
Every variable has an owner. While a query is compiled, the extent that a variable in scope stands for belongs to one of
the statements being built, and a visit of the variable records the extent in exactly those that stand above the innermost
owner. A visit that checks this is watched through whole compilations: no check fails.
-/
import RelSql.Proofs.Query.OwnRules
import RelSql.Proofs.Query.TextTemplate

namespace RelSql

open Build List

variable {x : SymbolId} {name : String} {b b' : Build}

namespace Build

/-- The statements being built that stand above the innermost one that has the extent. -/
def above (x : SymbolId) (b : Build) : List StatementId :=
  b.building.takeWhile fun k => !(b.statements.get k).hasFromExtent x

/-- The extent belongs to a statement being built, and from `b` to `b'` it was recorded as one of an enclosing statement in
exactly the statements above that. -/
def OwnerKept (x : SymbolId) (b b' : Build) : Prop :=
  (∃ k ∈ b.building, x ∈ (b.statements.get k).fromExtents) ∧
    ∀ k < b.statements.size, (b'.statements.get k).outerExtents =
      if k ∈ b.above x then ((b.statements.get k).addOuterExtent x).outerExtents else (b.statements.get k).outerExtents

instance : Decidable (OwnerKept x b b') := inferInstanceAs (Decidable (_ ∧ _))

/-- A visit of a variable that fails if the extent found for it has no owner, or is recorded elsewhere than above it. -/
def watchedVariable (name : String) : BuildM Fragment := fun b => do
  let r ← rowVariable name b
  if ∀ x ∈ b.scopes.lookup? name, OwnerKept x b r.2 then return r else throw (.badState .noStatement)

/-- A watched visit is a visit, unless a check fails. -/
theorem run_watchedVariable (name : String) (b : Build) : (watchedVariable name).run b = (rowVariable name).run b ∨
    (watchedVariable name).run b = .error (.badState .noStatement) ∧ ∃ x f b', b.scopes.lookup? name = some x ∧
      Runs (rowVariable name) b f b' ∧ ¬ OwnerKept x b b' := by
  unfold watchedVariable StateT.run
  beta_reduce
  cases hr : rowVariable name b with
  | error e => exact Or.inl rfl
  | ok r =>
    change (if _ then _ else _) = _ ∨ (if _ then _ else _) = _ ∧ _
    split
    · exact Or.inl rfl
    · rename_i hnot
      simp only [not_forall] at hnot
      obtain ⟨x, hx, hnot⟩ := hnot
      exact Or.inr ⟨rfl, x, r.1, r.2, hx, hr, hnot⟩

theorem runs_watchedVariable {f : Fragment} (hr : Runs (watchedVariable name) b f b') : Runs (rowVariable name) b f b' := by
  rcases run_watchedVariable name b with heq | ⟨heq, -⟩
  · exact heq.symm.trans hr
  · cases heq.symm.trans hr

theorem addOuterExtent_twice (s : Statement) (x : SymbolId) : (s.addOuterExtent x).addOuterExtent x = s.addOuterExtent x :=
  if_pos (by simpa using (Store.sameText_addOuterExtent s x).2.1)

/-- Marking an extent records it in the statements on the way to the first that has it. -/
theorem get_markedOuter (k : StatementId) : ∀ (path : List StatementId) {σ : Store}, (∀ k ∈ path, k < σ.size) →
    Statements.get (markedOuter x path σ.statements) k =
      if k ∈ path.takeWhile fun k => !(σ.get k).hasFromExtent x then (σ.get k).addOuterExtent x else σ.get k
  | [], σ, _ => rfl
  | i :: rest, σ, hlt => by
    obtain ⟨hi, hrest⟩ := forall_mem_cons.1 hlt
    unfold markedOuter
    split
    · rename_i hhas
      change (σ.get i).hasFromExtent x = true at hhas
      simp only [takeWhile_cons, hhas]; rfl
    rename_i hhas
    change ¬ (σ.get i).hasFromExtent x = true at hhas
    have hpath := get_markedOuter k rest (σ := σ.modify i (·.addOuterExtent x)) (by simpa using hrest)
    have hfrom : ∀ j, ((σ.modify i (·.addOuterExtent x)).get j).hasFromExtent x = (σ.get j).hasFromExtent x := fun j => by
      unfold Statement.hasFromExtent
      rw [((Store.grows_mark σ i x (j + 1)).text j (Nat.lt_succ_self j)).fromExtents]
    simp only [hfrom] at hpath
    rw [takeWhile_cons_of_pos (by simpa using hhas)]
    refine hpath.trans ?_
    by_cases hk : k = i
    · rw [hk, Store.get_modify_self hi, addOuterExtent_twice, ite_self, if_pos mem_cons_self]
    · simp only [mem_cons, hk, Store.get_modify_of_ne hk, false_or]

/-- The extent of a variable has an owner where the state is in order. -/
theorem ownerKept_rowVariable {f : Fragment} (hb : Good b) (hr : Runs (rowVariable name) b f b')
    (hx : b.scopes.lookup? name = some x) : OwnerKept x b b' := by
  obtain ⟨-, y, hy, -, rfl⟩ := rowVariable_cases hr
  obtain rfl : x = y := Option.some.inj (hx.symm.trans hy)
  obtain ⟨frame, hf, v, hv, rfl⟩ := Scopes.mem_of_lookup? hx
  refine ⟨hb.scopes frame hf v hv, fun k _ => ?_⟩
  change (Statements.get (markedOuter v.2 b.building b.store.statements) k).outerExtents = _
  rw [get_markedOuter k _ hb.building]
  exact apply_ite Statement.outerExtents _ _ _

end Build

/-- While a query is compiled, every extent that is found for a variable belongs to a statement being built, and the visit
records it in exactly the statements above the innermost owner: compiled with visits that check this, and that differ from
the plain ones only where a check fails, no query fails by a check, and each has the outcome that it has when compiled
plainly. -/
theorem compile_variables_owned (config : Config) (query : Expr) :
    (∀ name b, (watchedVariable name).run b = (rowVariable name).run b ∨
      (watchedVariable name).run b = .error (.badState .noStatement)) ∧
    @Query.compile ⟨watchedVariable⟩ config query ≠ .error (.badState .noStatement) ∧
    @Query.compile ⟨watchedVariable⟩ config query = Query.compile config query := by
  have hwatched : ∀ name b, (watchedVariable name).run b = (rowVariable name).run b ∨
      (watchedVariable name).run b = .error (.badState .noStatement) :=
    fun name b => (run_watchedVariable name b).imp_right And.left
  suffices hnever : @Query.compile ⟨watchedVariable⟩ config query ≠ .error (.badState .noStatement) from
    ⟨hwatched, hnever, (Query.compile_watched hwatched config query).resolve_right hnever⟩
  intro h
  let _ : Variables := ⟨watchedVariable⟩
  have _ : Variables.Sound := ⟨fun name _ _ _ _ hb hj hn hpre hr => rowVariable_builds name hb hj hn hpre (runs_watchedVariable hr)⟩
  have hvisit : ∀ name, Heedful False (watchedVariable name) := by
    intro name
    have hplain : Heedful False (rowVariable name) := heedful_rowVariable name
    refine ⟨fun _ _ _ hb hr => hplain.step hb (runs_watchedVariable hr), fun b e hb he hfail => ?_⟩
    rcases run_watchedVariable name b with heq | ⟨-, x, f, b', hx, hr, hnot⟩
    · exact hplain.obeys hb he (heq.symm.trans hfail)
    · exact hnot (ownerKept_rowVariable hb.good hr hx)
  rcases Query.fails_of_compile h with hp | ⟨f, b, names, -, hr⟩
  · exact Query.plan_not_internal (Expr.heeds hvisit False.elim False.elim) hp trivial
  · exact ofWriting_renderParts hr

-- A variable of the outer query is recorded in the inner statement, and the check holds.
example : (@Query.compile ⟨watchedVariable⟩ {} (.filter (numbersTable.bind "p") (.isEmpty (.filter (numbersTable.bind "q")
    (.compare .eq (numberOf "q") (numberOf "p")))))).toBool = true := by decide +kernel

-- The check fails where no statement being built has the extent.
example : let b : Build := { scopes := ⟨[[("p", 0)]]⟩, statements := #[{}], building := [0] }
    ((rowVariable "p").run b).toBool = true ∧ ((watchedVariable "p").run b).toBool = false := by decide +kernel

end RelSql
