/-
How writing can fail: an extent that already has a new name is to get another one, a statement has no
select list, or statements are nested deeper than there are statements. A column is renamed where it is
written first, so never a second time.
-/
import RelSql.Proofs.Statement.Settle

namespace RelSql

open RelSql.Part List

/-- The causes for which writing fails. -/
def Error.OfWriting : Error → Prop
  | badState (.aliasBound _) | badState .emptySelect | badState .nestedInItself => True
  | _ => False

namespace Render

/-- The step fails with the error and leaves the names `ν'`. -/
def Fails {α : Type} (m : Render α) (ν : Names) (e : Error) (ν' : Names) : Prop := m.run ν = (.error e, ν')

section

variable {α β : Type} {ν ν' : Names} {e : Error}

@[simp] theorem not_fails_pure {a : α} : ¬ Fails (pure a) ν e ν' := by
  intro h; cases h

@[simp] theorem not_fails_get : ¬ Fails (get : Render Names) ν e ν' := by
  intro h; cases h

@[simp] theorem not_fails_set {μ : Names} : ¬ Fails (set μ : Render PUnit) ν e ν' := by
  intro h; cases h

@[simp] theorem fails_throw {e' : Error} : Fails (throw e' : Render α) ν e ν' ↔ e = e' ∧ ν' = ν := by
  constructor
  · intro h; cases h; exact ⟨rfl, rfl⟩
  · rintro ⟨rfl, rfl⟩; rfl

theorem fails_bind {m : Render α} {f : α → Render β} :
    Fails (m >>= f) ν e ν' ↔ Fails m ν e ν' ∨ ∃ a ν1, Runs m ν a ν1 ∧ Fails (f a) ν1 e ν' := by
  have hrun : (m >>= f).run ν = ExceptT.bindCont f (m.run ν).1 (m.run ν).2 := rfl
  unfold Fails Runs
  rw [hrun]
  rcases m.run ν with ⟨e' | a, ν1⟩
  · constructor
    · intro h; cases h; exact Or.inl rfl
    · rintro (h | ⟨a, ν1', h, -⟩)
      · cases h; rfl
      · cases h
  · constructor
    · intro h; exact Or.inr ⟨a, ν1, rfl, h⟩
    · rintro (h | ⟨a', ν1', h, h'⟩)
      · cases h
      · cases h; exact h'

theorem fails_ite {c : Prop} [Decidable c] {m m' : Render α} :
    Fails (if c then m else m') ν e ν' ↔ c ∧ Fails m ν e ν' ∨ ¬ c ∧ Fails m' ν e ν' := by
  by_cases hc : c <;> simp [hc]

end

variable {ν ν' : Names} {e : Error}

theorem not_fails_symbol {i : SymbolId} : ¬ Fails (symbol i) ν e ν' := by
  intro h
  simp only [symbol, fails_bind, not_fails_get, not_fails_set, not_fails_pure, runs_get, runs_set, fails_ite, false_or,
    and_assoc, exists_and_left, exists_eq_left, and_false, or_false, Bool.and_eq_true, Bool.not_eq_true'] at h
  obtain ⟨-, hnew, -, h⟩ := h
  unfold Symbols.rename? at h
  rw [hnew] at h
  simp only [Bool.false_eq_true, if_false, fails_bind, not_fails_set, not_fails_pure, and_false, exists_false, or_false] at h

/-- Settling fails at an extent that has a new name already and whose first name is taken. -/
theorem fails_settleAliases_cons {taken : List String} {x : SymbolId} {rest : List SymbolId}
    (h : Fails (settleAliases taken (x :: rest)) ν e ν') :
    (taken.any (Ident.same · (ν.symbols.get x).name) = true ∧ (ν.symbols.get x).isRenamed = true ∧
      e = .badState (.aliasBound (ν.symbols.get x).name)) ∨
    ∃ ν1, SettlesOne taken x ν ν1 ∧ Fails (settleAliases (taken ++ [(ν1.symbols.get x).currentName]) rest) ν1 e ν' := by
  unfold settleAliases at h
  simp only [fails_bind, not_fails_get, not_fails_set, runs_get, runs_set, fails_ite, false_or,
    and_assoc, exists_and_left, exists_eq_left] at h
  rcases h with ⟨hc, a, h⟩ | ⟨hc, h⟩
  · unfold Symbols.rename? at h
    by_cases hr : (ν.symbols.get x).isRenamed = true
    · rw [if_pos hr] at h
      simp only [fails_bind, fails_throw, runs_throw, false_and, exists_false, or_false] at h
      exact Or.inl ⟨hc, hr, h.1⟩
    · rw [if_neg hr] at h
      simp only [fails_bind, not_fails_set, not_fails_get, runs_set, runs_get, false_or, and_assoc, exists_and_left,
        exists_eq_left, exists_const] at h
      exact Or.inr ⟨_, Or.inl ⟨hc, by simpa [Symbol.isRenamed] using hr, rfl⟩, h⟩
  · exact Or.inr ⟨ν, Or.inr ⟨by simpa using hc, rfl⟩, h⟩

/-! ## The causes -/

/-- The causes that a statement has of its own are among these. -/
structure Causes (P : Error → Prop) : Prop where
  bound : ∀ name, P (.badState (.aliasBound name))
  empty : P (.badState .emptySelect)

variable {P : Error → Prop}

theorem Causes.settleAliases (hP : Causes P) {es : List SymbolId} : ∀ {taken : List String} {ν : Names},
    Fails (settleAliases taken es) ν e ν' → P e := by
  induction es with
  | nil =>
    intro taken ν h
    exact absurd h not_fails_pure
  | cons x rest ih =>
    intro taken ν h
    rcases fails_settleAliases_cons h with ⟨-, -, rfl⟩ | ⟨ν1, -, h⟩
    · exact hP.bound _
    · exact ih h

section

variable {nested : StatementId → Render (List Piece)} {ps qs : List Part}

/-- The statements in the parts are written, or fail for one of the causes. -/
def NestedWrites (P : Error → Prop) (nested : StatementId → Render (List Piece)) (ps : List Part) : Prop :=
  ∀ ⦃j : StatementId⦄, .statement j ∈ atoms ps → ∀ ⦃ν : Names⦄ ⦃e : Error⦄ ⦃ν' : Names⦄, Fails (nested j) ν e ν' → P e

theorem nestedWrites_append :
    NestedWrites P nested (ps ++ qs) ↔ NestedWrites P nested ps ∧ NestedWrites P nested qs := by
  simp only [NestedWrites, atoms_append, mem_append, or_imp, forall_and]

mutual

theorem NestedWrites.part : ∀ {p : Part} {ν : Names}, NestedWrites P nested [p] → Fails (part nested p) ν e ν' → P e
  | .text s, ν, _, h => by unfold Render.part at h; exact absurd h not_fails_pure
  | .line, ν, _, h => by unfold Render.part at h; exact absurd h not_fails_pure
  | .symbol i, ν, _, h => by unfold Render.part at h; exact absurd h not_fails_symbol
  | .group ps, ν, hn, h => by
    unfold Render.part at h
    have hps : NestedWrites P nested ps := fun j hj => hn (by simpa using hj)
    exact NestedWrites.parts hps h
  | .statement j, ν, hn, h => by unfold Render.part at h; exact hn (by simp) h

theorem NestedWrites.parts : ∀ {ps : List Part} {ν : Names}, NestedWrites P nested ps → Fails (parts nested ps) ν e ν' → P e
  | [], ν, _, h => by unfold Render.parts at h; exact absurd h not_fails_pure
  | p :: rest, ν, hn, h => by
    have hn : NestedWrites P nested ([p] ++ rest) := hn
    obtain ⟨hp, hrest⟩ := nestedWrites_append.1 hn
    unfold Render.parts at h
    simp only [fails_bind, not_fails_pure, and_false, exists_false, or_false] at h
    rcases h with h | ⟨first, ν1, -, h⟩
    · exact NestedWrites.part hp h
    · exact NestedWrites.parts hrest h

end

theorem NestedWrites.clause (hn : NestedWrites P nested ps) {keyword : String}
    (h : Fails (clause nested keyword ps) ν e ν') : P e := by
  simp only [Render.clause, fails_ite, fails_bind, not_fails_pure, and_false, exists_false, or_false, false_or] at h
  exact hn.parts h.2

theorem NestedWrites.count {ps : Option (List Part)} (hn : NestedWrites P nested (ps.getD [])) {keyword : String}
    (h : Fails (count nested keyword ps) ν e ν') : P e := by
  cases ps with
  | none => exact absurd h not_fails_pure
  | some ps =>
    simp only [Render.count, fails_bind, not_fails_pure, and_false, exists_false, or_false] at h
    exact hn.parts h

theorem NestedWrites.clauses {s : Statement} (hn : NestedWrites P nested s.parts) (hP : Causes P)
    (h : Fails (clauses nested s) ν e ν') : P e := by
  simp only [Statement.parts, nestedWrites_append] at hn
  obtain ⟨⟨⟨⟨⟨⟨hselect, hfrom⟩, hcondition⟩, hgrouping⟩, hordering⟩, htop⟩, hskip⟩ := hn
  have hordered : ∀ c : Bool, NestedWrites P nested (if c then s.ordering else []) := fun c => by
    split
    · exact hordering
    · exact fun j hj => absurd hj not_mem_nil
  simp only [Render.clauses, fails_bind, fails_ite, fails_throw, runs_throw, not_fails_pure, and_false, false_and, exists_false,
    or_false] at h
  rcases h with ⟨-, rfl, -⟩ | ⟨-, h | ⟨_, _, -, h | ⟨_, _, -, h | ⟨_, _, -, h | ⟨_, _, -, h | ⟨_, _, -, h | ⟨_, _, -, h⟩⟩⟩⟩⟩⟩⟩
  · exact hP.empty
  · exact hselect.parts h
  · exact hfrom.clause h
  · exact hcondition.clause h
  · exact hgrouping.clause h
  · exact (hordered _).clause h
  · exact htop.count h
  · exact hskip.count h

end

/-- A statement fails for one of the causes if those in its clauses do. -/
theorem NestedWrites.statement {statements : Statements} {depth : Nat} {i : StatementId} (hP : Causes P)
    (hn : NestedWrites P (statement statements depth) (statements.get i).parts)
    (h : Fails (statement statements (depth + 1) i) ν e ν') : P e := by
  simp only [Render.statement, resolveAliases, fails_bind, not_fails_get, not_fails_pure, runs_get, and_false, exists_false,
    or_false, false_or, and_assoc, exists_and_left, exists_eq_left] at h
  rcases h with h | ⟨_, _, -, h⟩
  · exact hP.settleAliases h
  · exact hn.clauses hP h

theorem ofWriting_statement (statements : Statements) (depth : Nat) (ps : List Part) :
    NestedWrites Error.OfWriting (statement statements depth) ps := by
  induction depth generalizing ps with
  | zero =>
    intro j _ ν e ν' h
    obtain ⟨rfl, -⟩ := fails_throw.1 h
    exact trivial
  | succ depth ih => exact fun j _ ν e ν' h => (ih _).statement ⟨fun _ => trivial, trivial⟩ h

end Render

/-- Writing fails for no other causes. -/
theorem ofWriting_renderParts {statements : Statements} {ν ν' : Names} {ps : List Part} {e : Error}
    (h : renderParts statements ν ps = (.error e, ν')) : e.OfWriting :=
  (Render.ofWriting_statement statements statements.size ps).parts h

end RelSql
