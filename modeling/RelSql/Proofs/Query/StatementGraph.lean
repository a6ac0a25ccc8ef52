/-
The statements of a query stand in each other without a cycle, so none is written deeper than there are statements.
-/
import RelSql.Proofs.Statement.Failures
import RelSql.Proofs.Statement.Nesting
import RelSql.Proofs.Query.Scoping

namespace RelSql

open Build RelSql.Part Relation List

variable {i : StatementId}

/-- Writing goes down a way `l` to a statement, on which no statement comes twice. So it ends before the depth is used up. -/
theorem Statements.depth_suffices {S : Statements} (hacyclic : ∀ k, ¬ TransGen S.Contains k k)
    (hrange : ∀ i j, S.Contains i j → j < S.size) {depth : Nat} {l : List StatementId} (hnodup : (i :: l).Nodup)
    (hlt : ∀ k ∈ i :: l, k < S.size) (hway : ∀ k ∈ l, TransGen S.Contains k i) (hd : S.size ≤ depth + l.length) {ν ν' : Names}
    {e : Error} (h : Render.Fails (Render.statement S depth i) ν e ν') : e ≠ .badState .nestedInItself := by
  induction depth generalizing i l ν e ν' with
  | zero =>
    have hlength := (subperm_of_subset hnodup fun k hk => mem_range.2 (hlt k hk)).length_le
    rw [length_range, length_cons] at hlength
    omega
  | succ depth ih =>
    refine Render.NestedWrites.statement (P := (· ≠ .badState .nestedInItself)) ⟨by simp, by simp⟩ (fun j hj => ?_) h
    have hc : S.Contains i j := mem_statements.2 hj
    have hway' : ∀ k ∈ i :: l, TransGen S.Contains k j := forall_mem_cons.2 ⟨.single hc, fun k hk => (hway k hk).tail hc⟩
    exact fun ν e ν' => ih (nodup_cons.2 ⟨fun hm => hacyclic j (hway' j hm), hnodup⟩)
      (forall_mem_cons.2 ⟨hrange i j hc, hlt⟩) hway' (by rw [length_cons]; omega)

/-- No statement that is made for a query stands in itself, at any depth, and each of them is written without going round. -/
theorem statements_acyclic {config : Config} {query : Expr} {f : Fragment} {b : Build}
    (h : Runs (query.build config) {} f b ∨ Runs (Query.root config query) {} f b) :
    (∀ k, ¬ TransGen b.statements.Contains k k) ∧
    ∀ i < b.statements.size, ∀ ν ν',
      ¬ Render.Fails (Render.statement b.statements b.statements.size i) ν (.badState .nestedInItself) ν' := by
  have hok : b.store.OK := by
    rcases h with h | h
    · exact ((Expr.buildsSound query).value Query.good_start rfl (le_refl _) Store.sound_nil h).1.store
    · exact (Query.root_sound h).1
  have hacyclic : ∀ k, ¬ TransGen b.statements.Contains k k := fun k hk =>
    hok.acyclic k (Statements.occurs_iff.2 (TransGen.head'_iff.1 hk))
  refine ⟨hacyclic, fun i hi ν ν' hfails => ?_⟩
  exact Statements.depth_suffices hacyclic (fun i j hc => (hok.statement i).statements j (mem_statements.1 hc))
    (nodup_singleton i) (forall_mem_singleton.2 hi) (forall_mem_nil _) (le_refl _) hfails rfl

/-- The subquery of a filter stands in the statement of the filter. -/
theorem filteredPairs_acyclic : ∃ f b, Runs (Query.root {} filteredPairs) {} f b ∧ b.statements.Contains 0 1 ∧
    ∀ k, ¬ TransGen b.statements.Contains k k := by
  have h : ((Query.root {} filteredPairs).run {}).toOption.any
      (fun r => Part.statements (r.2.statements.get 0).parts == [1]) = true := by decide +kernel
  obtain ⟨⟨f, b⟩, hrun, hin⟩ := (Option.any_eq_true _ _).1 h
  have hrun := ok_of_toOption hrun
  refine ⟨f, b, hrun, ?_, (statements_acyclic (Or.inr hrun)).1⟩
  rw [Statements.Contains, beq_iff_eq.1 hin]
  exact mem_cons_self

end RelSql
