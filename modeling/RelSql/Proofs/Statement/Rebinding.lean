/-
When an alias cannot be bound. While a text is written an extent gets a new name only where the
statement that declares it is written, so it has one before that only if the statement was written
before. Where every statement has one place, this takes a `GROUP BY` list that repeats the statement.
-/
import RelSql.Proofs.Statement.Failures
import RelSql.Proofs.Statement.Nesting
import RelSql.Proofs.Statement.Written

namespace RelSql

open Names RelSql.Part List

namespace Store

variable {σ : Store} {ν ν' : Names}

/-- Only extents that the statements in `written` declare have new names. -/
def BoundIn (σ : Store) (written : StatementId → Prop) (ν : Names) : Prop :=
  ∀ k, ∀ e ∈ (σ.get k).declaredExtents, (ν.symbols.get e).isRenamed = true → written k

/-- A statement that a `GROUP BY` list repeats declares the alias. -/
def RepeatsAlias (σ : Store) (name : String) : Prop :=
  ∃ k, σ.statements.Repeats k ∧ ∃ e ∈ (σ.get k).declaredExtents, (σ.symbols.get e).name = name

theorem boundIn_start (hok : σ.OK) : σ.BoundIn (fun _ => False) σ.names := by
  intro k e _ h
  have hnone := hok.symbols.original e
  unfold Store.symbols at hnone
  unfold Symbol.isRenamed at h
  rw [hnone] at h; cases h

theorem BoundIn.imp {written written' : StatementId → Prop} (h : σ.BoundIn written ν)
    (hw : ∀ k, written k → written' k) : σ.BoundIn written' ν :=
  fun k e he hr => hw k (h k e he hr)

/-- New names on the extents of one more statement. -/
theorem BoundIn.of_changed {written : StatementId → Prop} (h : σ.BoundIn written ν) (hok : σ.OK) {j : StatementId}
    (hchanged : ∀ e, (ν'.symbols.get e).newName ≠ (ν.symbols.get e).newName → e ∈ (σ.get j).declaredExtents) :
    σ.BoundIn (fun k => written k ∨ k = j) ν' := by
  intro k e he hr
  by_cases hsame : (ν'.symbols.get e).newName = (ν.symbols.get e).newName
  · unfold Symbol.isRenamed at hr
    rw [hsame] at hr
    exact Or.inl (h k e he hr)
  · exact Or.inr (hok.unique k j e (declared_aliases hok he) (declared_aliases hok (hchanged e hsame)))

end Store

namespace Render

open Store Statements

variable {σ : Store} {α β : Type}

/-! ## Steps that write parts -/

/-- The step writes the parts. If a `GROUP BY` list repeats all statements in them that were written
before, it binds aliases only of the statements in the parts, and cannot bind one only if a `GROUP BY`
list repeats its statement. -/
def Binds (σ : Store) (ps : List Part) (m : Render α) : Prop :=
  ∀ ⦃written : StatementId → Prop⦄ ⦃ν : Names⦄, σ.Renaming ν → σ.BoundIn written ν →
    (∀ k, Occurs σ.statements ps k → written k → σ.statements.Repeats k) →
    (∀ ⦃a : α⦄ ⦃ν' : Names⦄, Runs m ν a ν' →
      σ.Renaming ν' ∧ σ.BoundIn (fun k => written k ∨ Occurs σ.statements ps k) ν') ∧
    ∀ ⦃name : String⦄ ⦃ν' : Names⦄, Fails m ν (.badState (.aliasBound name)) ν' → σ.RepeatsAlias name

variable {ps qs : List Part}

theorem binds_pure (a : α) : Binds σ ps (pure a : Render α) := by
  intro written ν hr hb _
  refine ⟨fun a' ν' h => ?_, fun name ν' h => absurd h not_fails_pure⟩
  obtain ⟨-, rfl⟩ := runs_pure.1 h
  exact ⟨hr, hb.imp fun _ => Or.inl⟩

theorem binds_throw {e : Error} (he : ∀ name, e ≠ .badState (.aliasBound name)) : Binds σ ps (throw e : Render α) := by
  intro written ν _ _ _
  refine ⟨fun a ν' h => absurd h runs_throw, fun name ν' h => ?_⟩
  exact absurd (fails_throw.1 h).1.symm (he name)

theorem binds_ite {c : Prop} [Decidable c] {m m' : Render α} (h : Binds σ ps m) (h' : Binds σ ps m') :
    Binds σ ps (if c then m else m') := by
  split
  · exact h
  · exact h'

theorem Binds.of_statements {m : Render α} (h : Binds σ qs m) (hs : statements ps = statements qs) :
    Binds σ ps m := by
  have hoccurs : ∀ k, Occurs σ.statements ps k ↔ Occurs σ.statements qs k := fun k => by
    rw [occurs_iff, occurs_iff, hs]
  intro written ν hr hb hrep
  obtain ⟨hruns, hfails⟩ := h hr hb fun k hk => hrep k ((hoccurs k).2 hk)
  refine ⟨fun a ν' hm => ?_, hfails⟩
  obtain ⟨hr', hb'⟩ := hruns hm
  exact ⟨hr', hb'.imp fun k => Or.imp_right (hoccurs k).2⟩

theorem Binds.bind {m : Render α} {f : α → Render β} (hm : Binds σ ps m) (hf : ∀ a, Binds σ qs (f a))
    (hapart : σ.statements.Apart (ps ++ qs)) : Binds σ (ps ++ qs) (m >>= f) := by
  intro written ν hr hb hrep
  obtain ⟨-, -, hcommon⟩ := apart_append.1 hapart
  obtain ⟨hruns, hfails⟩ := hm hr hb fun k hk => hrep k (occurs_append.2 (Or.inl hk))
  have hrest : ∀ k, Occurs σ.statements qs k → (written k ∨ Occurs σ.statements ps k) → σ.statements.Repeats k := by
    rintro k hk (hw | hp)
    · exact hrep k (occurs_append.2 (Or.inr hk)) hw
    · exact hcommon k hp hk
  refine ⟨fun c ν' h => ?_, fun name ν' h => ?_⟩
  · obtain ⟨a, ν1, h1, h2⟩ := runs_bind.1 h
    obtain ⟨hr1, hb1⟩ := hruns h1
    obtain ⟨hr', hb'⟩ := (hf a hr1 hb1 hrest).1 h2
    refine ⟨hr', hb'.imp fun k => ?_⟩
    rw [occurs_append, or_assoc]; exact id
  · rcases fails_bind.1 h with h | ⟨a, ν1, h1, h2⟩
    · exact hfails h
    · obtain ⟨hr1, hb1⟩ := hruns h1
      exact (hf a hr1 hb1 hrest).2 h2

/-- What follows without writing parts. -/
theorem Binds.andPure {m : Render α} (h : Binds σ ps m) (f : α → β) : Binds σ ps (m >>= fun a => pure (f a)) := by
  intro written ν hr hb hrep
  obtain ⟨hruns, hfails⟩ := h hr hb hrep
  refine ⟨fun c ν' hm => ?_, fun name ν' hm => ?_⟩
  · obtain ⟨a, ν1, h1, h2⟩ := runs_bind.1 hm
    obtain ⟨-, rfl⟩ := runs_pure.1 h2
    exact hruns h1
  · rcases fails_bind.1 hm with hm | ⟨a, ν1, -, h2⟩
    · exact hfails hm
    · exact absurd h2 not_fails_pure

theorem binds_symbol (i : SymbolId) (hok : σ.OK) : Binds σ ps (symbol i) := by
  intro written ν hr hb _
  refine ⟨fun pieces ν' h => ?_, fun name ν' h => absurd h not_fails_symbol⟩
  rcases symbol_cases hr h with ⟨hext, -, -, -, rfl⟩ | ⟨-, -, rfl⟩
  · refine ⟨renaming_recolumned hr hext, fun k e he hrenamed => Or.inl (hb k e he ?_)⟩
    rcases get_recolumned (ν := ν) i e with h | ⟨rfl, -⟩
    · rwa [h] at hrenamed
    · exact absurd (isExtent_declared hok he) hext
  · exact ⟨hr, hb.imp fun _ => Or.inl⟩

/-! ## Aliases of one statement -/

/-- An alias that cannot be bound had a new name before. -/
theorem fails_settleAliases {es : List SymbolId} : ∀ {taken : List String} {ν ν' : Names} {name : String}, es.Nodup →
    Fails (settleAliases taken es) ν (.badState (.aliasBound name)) ν' →
    ∃ e ∈ es, (ν.symbols.get e).isRenamed = true ∧ (ν.symbols.get e).name = name := by
  induction es with
  | nil => exact fun _ h => absurd h not_fails_pure
  | cons x rest ih =>
    intro taken ν ν' name hnodup h
    obtain ⟨hnot, hnodup⟩ := nodup_cons.1 hnodup
    rcases fails_settleAliases_cons h with ⟨-, hr, he⟩ | ⟨ν1, hone, h⟩
    · cases he
      exact ⟨x, mem_cons_self, hr, rfl⟩
    · obtain ⟨e, he, hr, hname⟩ := ih hnodup h
      have hsame : ν1.symbols.get e = ν.symbols.get e := by
        rcases hone with ⟨-, -, rfl⟩ | ⟨-, rfl⟩
        · rcases get_freshened (ν := ν) (e := x) e with h | ⟨rfl, -⟩
          · exact h
          · exact absurd he hnot
        · rfl
      rw [hsame] at hr hname
      exact ⟨e, mem_cons_of_mem _ he, hr, hname⟩

/-- The aliases of a statement that stands anew are bound, unless it was written before. -/
theorem binds_resolveAliases (hok : σ.OK) {j : StatementId} {written : StatementId → Prop} {ν : Names}
    (hr : σ.Renaming ν) (hb : σ.BoundIn written ν) (hrep : written j → σ.statements.Repeats j) :
    (∀ ⦃u : PUnit⦄ ⦃ν' : Names⦄, Runs (resolveAliases (σ.get j)) ν u ν' →
      σ.Renaming ν' ∧ σ.BoundIn (fun k => written k ∨ k = j) ν') ∧
    ∀ ⦃name : String⦄ ⦃ν' : Names⦄, Fails (resolveAliases (σ.get j)) ν (.badState (.aliasBound name)) ν' →
      σ.RepeatsAlias name := by
  refine ⟨fun u ν' h => ?_, fun name ν' h => ?_⟩
  · simp only [resolveAliases, runs_bind, runs_get, and_assoc, exists_and_left, exists_eq_left] at h
    have hs := settleAliases_spec hr (nodup_declared hok j) (fun e => isExtent_declared hok) h
    refine ⟨hs.names, hb.of_changed hok fun e he => ?_⟩
    obtain ⟨before, after, heq, -⟩ := hs.changed e he
    rw [heq]
    exact mem_append_right _ mem_cons_self
  · simp only [resolveAliases, fails_bind, not_fails_get, runs_get, false_or, and_assoc, exists_and_left,
      exists_eq_left] at h
    obtain ⟨e, he, hrenamed, hname⟩ := fails_settleAliases (nodup_declared hok j) h
    rw [hr.name] at hname
    exact ⟨j, hrep (hb j e he hrenamed), e, he, hname⟩

/-! ## Parts, clauses and statements -/

section

variable {nested : StatementId → Render (List Piece)}

mutual

theorem binds_part (hok : σ.OK) (hn : ∀ j, Binds σ [.statement j] (nested j)) :
    ∀ p : Part, σ.statements.Apart [p] → Binds σ [p] (part nested p)
  | .text s, _ => by unfold part; exact binds_pure _
  | .line, _ => by unfold part; exact binds_pure _
  | .symbol i, _ => by unfold part; exact binds_symbol i hok
  | .group ps, h => by
    have hs : statements [.group ps] = statements ps := by simp
    unfold Statements.Apart at h
    rw [hs] at h
    unfold part
    exact (binds_parts hok hn ps h).of_statements hs
  | .statement j, _ => by unfold part; exact hn j

theorem binds_parts (hok : σ.OK) (hn : ∀ j, Binds σ [.statement j] (nested j)) :
    ∀ ps : List Part, σ.statements.Apart ps → Binds σ ps (parts nested ps)
  | [], _ => by unfold parts; exact binds_pure _
  | p :: rest, h => by
    rw [← singleton_append] at h ⊢
    obtain ⟨hp, hrest, -⟩ := apart_append.1 h
    have hpart := binds_part hok hn p hp
    have hparts := binds_parts hok hn rest hrest
    unfold parts
    exact hpart.bind (fun first => hparts.andPure (first ++ ·)) h

end

variable (hok : σ.OK) (hn : ∀ j, Binds σ [.statement j] (nested j))

include hok hn

theorem binds_clause (keyword : String) (h : σ.statements.Apart ps) : Binds σ ps (clause nested keyword ps) := by
  unfold clause
  split
  · exact binds_pure _
  · exact (binds_parts hok hn ps h).andPure _

theorem binds_count (keyword : String) {count : Option (List Part)} (h : σ.statements.Apart (count.getD [])) :
    Binds σ (count.getD []) (Render.count nested keyword count) := by
  cases count with
  | none => exact binds_pure _
  | some ps => exact (binds_parts hok hn ps h).andPure _

theorem binds_clauses {s : Statement} (h : σ.statements.Apart s.parts) : Binds σ s.parts (clauses nested s) := by
  have hparts : s.parts = s.selectList ++ (s.fromList ++ (s.condition ++ (s.grouping ++ (s.ordering ++
      (s.top.getD [] ++ s.skip.getD []))))) := by simp [Statement.parts]
  rw [hparts] at h ⊢
  obtain ⟨hselect, h1, -⟩ := apart_append.1 h
  obtain ⟨hfrom, h2, -⟩ := apart_append.1 h1
  obtain ⟨hcondition, h3, -⟩ := apart_append.1 h2
  obtain ⟨hgrouping, h4, -⟩ := apart_append.1 h3
  obtain ⟨hordering, h5, -⟩ := apart_append.1 h4
  obtain ⟨htop, hskip, -⟩ := apart_append.1 h5
  have hordered : ∀ c : Bool, Binds σ s.ordering (clause nested "ORDER BY " (if c then s.ordering else [])) := by
    intro c
    split
    · exact binds_clause hok hn _ hordering
    · exact binds_pure _
  unfold clauses
  refine binds_ite ?_ ?_
  · exact binds_throw (e := .badState .emptySelect) (by rintro name ⟨⟩)
  · refine (binds_parts hok hn _ hselect).bind (fun select => ?_) h
    refine (binds_clause hok hn _ hfrom).bind (fun sources => ?_) h1
    refine (binds_clause hok hn _ hcondition).bind (fun condition => ?_) h2
    refine (binds_clause hok hn _ hgrouping).bind (fun grouping => ?_) h3
    refine (hordered _).bind (fun ordering => ?_) h4
    exact (binds_count hok hn _ htop).bind (fun top => (binds_count hok hn _ hskip).andPure _) h5

end

theorem binds_statement (hok : σ.OK) (hapart : ∀ i, σ.statements.Apart (σ.get i).parts) (depth : Nat) :
    ∀ j, Binds σ [.statement j] (statement σ.statements depth j) := by
  induction depth with
  | zero => exact fun j => binds_throw (by rintro name ⟨⟩)
  | succ depth ih =>
    intro j written ν hr hb hrep
    have hj : Occurs σ.statements [.statement j] j := .here (by simp)
    have hbelow : ∀ k, Occurs σ.statements (σ.get j).parts k → Occurs σ.statements [.statement j] k := fun k hk =>
      .within (by simp) hk
    obtain ⟨hruns, hfails⟩ := binds_resolveAliases hok hr hb (hrep j hj)
    -- the statement does not stand in itself
    have hbody : ∀ k, Occurs σ.statements (σ.get j).parts k → (written k ∨ k = j) → σ.statements.Repeats k := by
      rintro k hk (hw | rfl)
      · exact hrep k (hbelow k hk) hw
      · exact absurd hk (hok.acyclic k)
    have hclauses := binds_clauses hok ih (hapart j)
    refine ⟨fun pieces ν' h => ?_, fun name ν' h => ?_⟩
    · simp only [statement, runs_bind, runs_pure] at h
      obtain ⟨_, ν1, h1, body, ν2, h2, -, rfl⟩ := h
      obtain ⟨hr1, hb1⟩ := hruns h1
      obtain ⟨hr2, hb2⟩ := (hclauses hr1 hb1 hbody).1 h2
      refine ⟨hr2, hb2.imp ?_⟩
      rintro k ((hw | rfl) | hk)
      · exact Or.inl hw
      · exact Or.inr hj
      · exact Or.inr (hbelow k hk)
    · simp only [statement, fails_bind, not_fails_pure, and_false, exists_false, or_false] at h
      rcases h with h | ⟨_, ν1, h1, h⟩
      · exact hfails h
      · obtain ⟨hr1, hb1⟩ := hruns h1
        exact (hclauses hr1 hb1 hbody).2 h

end Render

/-- Where every statement has one place, an alias that cannot be bound is that of a statement which a
`GROUP BY` list repeats. -/
theorem Store.repeatsAlias_of_renderParts {σ : Store} (hok : σ.OK) {ps : List Part}
    (hl : σ.statements.Linear (Part.statements ps)) {name : String} {ν : Names}
    (h : renderParts σ.statements σ.names ps = (.error (.badState (.aliasBound name)), ν)) : σ.RepeatsAlias name := by
  have hnested := Render.binds_statement hok (hl.apart_parts hok.acyclic) σ.statements.size
  have hparts := Render.binds_parts hok hnested ps hl.apart_roots
  exact (hparts (Store.renaming_start hok) (Store.boundIn_start hok) fun _ _ hw => hw.elim).2 h

end RelSql
