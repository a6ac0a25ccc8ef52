/-
Expressions with rows as inputs. What such an expression builds delivers its rows: as a statement that
shows them, as a join whose inputs show them, or as text whose columns are exposed. An operator opens a
statement over it, and where it needs a subselect for that, the rows stay within reach.
-/
import RelSql.Proofs.Build.Reading

namespace RelSql

open RelSql.Part Build Store

/-- The text delivers rows of the type. The nodes that always declare their extent do so, and only
joins leave more than one extent. -/
inductive Store.Delivers (σ : Store) (e : Expr) (ty : DataType) : Fragment → Prop where
  | rows {i : StatementId} {x : SymbolId} (h : σ.RowsOf i x ty) (hj : e.isJoin = false) : Delivers σ e ty (.statement i)
  | source {i : StatementId} (hx : (σ.get i).fromExtents = []) (hs : (σ.get i).selectList = [])
      (hp : ∀ j, (σ.get i).Pending j → σ.Supplies j ty) (hd : declaresExtent e = false) (hj : e.isJoin = false) :
      Delivers σ e ty (.statement i)
  | joined {i : StatementId} (h : σ.JoinRows i ty) (hj : e.isJoin = true) : Delivers σ e ty (.statement i)
  | parts {ps : List Part} (hl : σ.Legible ps) (hp : ∀ j, (group ps).subselect? = some j → σ.Supplies j ty)
      (hd : declaresExtent e = false) (hj : e.isJoin = false) : Delivers σ e ty (.parts ps)

theorem Store.Delivers.legible {σ : Store} {e : Expr} {ty : DataType} {f : Fragment} (h : σ.Delivers e ty f) :
    σ.Legible [f.toPart] := by
  cases h with
  | parts hl _ _ _ => exact legible_group.2 hl
  | rows _ _ | source _ _ _ _ _ | joined _ _ => exact readsOnly_statement.2 readsOnly_nil

namespace Build

theorem legible_sourceParts {σ : Store} {ps : List Part} (isCall : Bool) (h : σ.Legible ps) :
    σ.Legible (sourceParts isCall (.parts ps)) := by
  have hgroup : σ.Legible [.group ps] := legible_group.2 h
  unfold sourceParts
  split
  · exact hgroup
  · exact readsOnly_text.2 (hgroup.cons_text readsOnly_nil (by decide))

/-- The operand delivers rows, and those are rows with members. -/
structure RowsRead (vars : List Member) (operand : Operand) : Prop where
  sound : ValueOK operand
  row : operand.expr.rowType.isRow = true
  reads : Reads vars (AllLegible []) operand.build fun f σ => σ.Delivers operand.expr operand.expr.rowType f

theorem Ready.enter {vars : List Member} {b : Build} (h : Ready vars b) : Ready vars { b with scopes := b.scopes.enter } :=
  ⟨h.good.enter, h.free, h.columns, h.bound.enter⟩

section

variable {vars : List Member} {σ : Store} {path : Path} {b b' : Build} {i : StatementId} {x : SymbolId} {e : Expr}
  {ty : DataType} {name : String} {operand : Operand}

/-! ## Statements over inputs -/

theorem sourceStatement_columns (hv : RowsRead vars operand) (hb : Ready vars b)
    (hr : Runs (sourceStatement operand) b i b') :
    b'.store.ColumnsOK ∧ b'.store.Delivers operand.expr operand.expr.rowType (.statement i) := by
  have hok' := (sourceStatement_spec hv.sound hb.good hb.free hr).1.ok
  obtain ⟨f, b1, hf, ⟨rfl, rfl⟩ | ⟨hother, rfl, hb'⟩⟩ := sourceStatement_cases hr
  · exact (hv.reads hb allLegible_nil hf).2
  · obtain ⟨hs, hc, hd⟩ := hv.reads hb allLegible_nil hf
    cases hd with
    | rows _ _ | source _ _ _ _ _ | joined _ _ => exact absurd rfl (hother _)
    | @parts ps hl hp hdecl hjoin =>
      have hitems := fromItems_source operand.expr.isCall (.parts ps)
      generalize hs' : ({ fromList := sourceParts operand.expr.isCall (.parts ps) } : Statement) = s at hb' hitems
      have hstore : b'.store = b1.store.push s := by rw [hb']; rfl
      rw [hstore] at hok' ⊢
      have hget : (b1.store.push s).get b1.store.size = s := Store.get_push_size _ _
      have hal : s.aliases = [] := by
        unfold Statement.aliases
        rw [hitems]
        cases operand.expr.isCall <;> rfl
      have hfrom : b1.store.Legible s.fromList := by
        rw [← hs']
        exact legible_sourceParts _ hl
      refine ⟨hc.push hs.store hok' (by rw [← hs']) (by rw [← hs']) hal ?_,
        .source (by rw [hget, ← hs']) (by rw [hget, ← hs']) (fun j hj => ?_) hdecl hjoin⟩
      · have hnil : b1.store.Legible [] := readsOnly_nil
        refine Statement.forall_mem_clauses.2 ⟨?_, hfrom, ?_⟩
        · rw [← hs']; exact hnil
        · rw [← hs']; exact ⟨hnil, hnil, hnil, hnil, hnil⟩
      · rw [hget] at hj
        obtain ⟨p, hsub, hsuf⟩ := hj
        rw [hitems] at hsuf
        have heq := List.singleton_inj.1 (hsuf.eq_of_length rfl)
        split at heq
        · cases heq
        · obtain rfl := FromItem.enclosed.inj heq
          exact (hp j hsub).lasts (lasts_push _ _)

theorem variableExtent_columns {k : StatementId} (h : Owns σ path b.store k) (hc : b.store.ColumnsOK)
    (hrow : ty.isRow = true) (hd : b.store.Delivers e ty (.statement k)) (hr : Runs (variableExtent name ty k) b (i, x) b') :
    b'.store.ColumnsOK ∧ InputRows b'.store i x ty := by
  have hok' := (variableExtent_spec h hr).1.ok
  obtain ⟨rfl, hcases⟩ := variableExtent_cases hr
  cases hd with
  | @rows _ y hrows hj =>
    rw [hrows.extents] at hcases
    obtain ⟨hf, -⟩ | ⟨hf, rfl⟩ | ⟨hlen, -⟩ := hcases
    · cases hf
    · obtain rfl := List.singleton_inj.1 hf
      exact ⟨hc, Or.inr hrows⟩
    · exact absurd hlen (lt_irrefl 1)
  | source hx hs hp _ _ =>
    rw [hx] at hcases
    obtain ⟨-, hnew⟩ | ⟨hf, -⟩ | ⟨hlen, -⟩ := hcases
    · have hbridge : Bridges b.store (b.store.get i).Pending ty none := ⟨hrow, hp⟩
      obtain ⟨hn, -⟩ := newExtent_spec hnew h.ok (by simp)
      obtain ⟨hc', -, hunused, hpros⟩ := newExtent_columns hc h.ok (by simp) hbridge hnew
      have hget := hn.get i
      exact ⟨hc', Or.inl ⟨by rw [hget]; exact hx, by rw [hget]; exact hs, hunused, by rw [hget]; exact hpros⟩⟩
    · cases hf
    · exact absurd hlen (Nat.not_lt_zero 1)
  | joined hrows hj =>
    have hseveral := hrows.several
    obtain ⟨hf, -⟩ | ⟨hf, -⟩ | ⟨-, rfl, hb'⟩ := hcases
    · simp [hf] at hseveral
    · simp [hf] at hseveral
    · obtain ⟨hc', -, hrows'⟩ := merge_columns h.ok hok' h.lt hc hrows rfl (fun s => rfl) hb'
      exact ⟨hc', Or.inr hrows'⟩

theorem isJoin_of_declaresExtent (h : declaresExtent e = true) : e.isJoin = false := by
  cases e <;> first | rfl | cases h

end

end Build

end RelSql
