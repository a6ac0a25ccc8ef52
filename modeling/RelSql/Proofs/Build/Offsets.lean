/-
Offsets and orders. Only `Skip` sets an offset, on the statement that has just got its keys.
-/
import RelSql.Proofs.Build.Clauses
import RelSql.Proofs.Build.HandKinds

namespace RelSql

open List

namespace Expr

/-- A `Skip` has sort keys. -/
def SkipsByKeys : Expr → Prop
  | skip _ keys _ => keys ≠ []
  | _ => True

end Expr

namespace Build

/-- No statement skips rows without an order. -/
def OffsetsOrdered (b : Build) : Prop :=
  ∀ k, (b.statements.get k).ordering = [] → (b.statements.get k).skip = none

theorem OffsetsOrdered.start : OffsetsOrdered {} := fun _ _ => rfl

/-- A statement has an order when it has got keys. -/
theorem ordering_ne_nil {input : Binding Operand} {keys : List (SortKey Operand)} {op : Operator} {b b' : Build} {i : StatementId}
    (hr : Runs (ordered op input keys) b i b') (hne : keys ≠ []) (hlt : i < b'.store.size) : (b'.store.get i).ordering ≠ [] := by
  obtain ⟨items, b1, hover, hb'⟩ := ordered_cases hr
  have hempty := isEmpty_sortTexts ((overRows_items hover).imp (by
    rintro _ _ ⟨sql, _, _, _, h⟩
    exact ⟨sql, h⟩))
  have hlt' : i < b1.store.size := by
    rw [hb'] at hlt
    change i < (b1.statements.modify i _).size at hlt
    rwa [Array.size_modify] at hlt
  rw [(get_update hb' hlt').1]
  intro hnone
  rw [List.isEmpty_iff.2 (List.append_eq_nil_iff.1 hnone).2, eq_comm, List.isEmpty_iff] at hempty
  exact hne hempty

end Build

end RelSql
