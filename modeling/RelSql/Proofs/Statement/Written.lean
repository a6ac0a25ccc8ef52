/-
The text of a query once its names are settled. Writing settles names on the way, but a name that
has been written does not change any more: the text is that of its parts with the names that are
there at the end, and the extents that its statements declare are fixed by then.
-/
import RelSql.Proofs.Statement.Settle

namespace RelSql

open RelSql.Part Statement Symbols Names List

variable {ks : List StatementId} {i : SymbolId}

/-! ## The text under settled names -/

/-- The statement as it is written: below the top the order of rows is kept only for a statement
that returns some of them. -/
def Statement.written (s : Statement) : Statement :=
  if s.topMost || s.top.isSome || s.skip.isSome then s else { s with ordering := [] }

def Statements.written (statements : Statements) : Statements := statements.map Statement.written

theorem Statements.get_written (statements : Statements) (k : StatementId) :
    statements.written.get k = (statements.get k).written := by
  unfold Statements.written Statements.get
  rw [Array.getD_eq_getD_getElem?, Array.getD_eq_getD_getElem?, Array.getElem?_map]
  cases statements[k]? <;> rfl

namespace Writing

section

variable (symbols : Symbols) (nested : StatementId → List Piece)

/-- The text of one atom, with `nested` for the statements. -/
def atom : Part → List Piece
  | .text s => [.text s]
  | .line => [.line]
  | .symbol i => [.name i (symbols.get i).currentName]
  | .group _ => []
  | .statement i => nested i

def parts (ps : List Part) : List Piece := (atoms ps).flatMap (atom symbols nested)

def clause (keyword : String) (ps : List Part) : List Piece :=
  if ps.isEmpty then [] else .line :: .text keyword :: parts symbols nested ps

def count (keyword : String) : Option (List Part) → List Piece
  | none => []
  | some ps => .text keyword :: parts symbols nested ps

def clauses (s : Statement) : List Piece :=
  (.text "SELECT " :: if s.distinct then [.text "DISTINCT "] else []) ++ parts symbols nested s.selectList ++
    clause symbols nested "FROM " s.fromList ++ clause symbols nested "WHERE " s.condition ++
    clause symbols nested "GROUP BY " s.grouping ++ clause symbols nested "ORDER BY " s.ordering ++
    count symbols nested " LIMIT " s.top ++ count symbols nested " OFFSET " s.skip

end

def statement (statements : Statements) (symbols : Symbols) : Nat → StatementId → List Piece
  | 0, _ => []
  | depth + 1, i => .enter i :: clauses symbols (statement statements symbols depth) (statements.get i) ++ [.leave]

/-- The text of parts over the statements of a query. -/
def text (statements : Statements) (symbols : Symbols) (ps : List Part) : List Piece :=
  parts symbols (statement statements symbols statements.size) ps

end Writing

namespace Store

variable {σ : Store} {ν ν' ν1 : Names} {pieces : List Piece}

/-- The extents that the statement declares are fixed. -/
def Settled (σ : Store) (ν : Names) (k : StatementId) : Prop :=
  ∀ e ∈ (σ.get k).declaredExtents, ν.symbols.Fixed σ.statements e

theorem Settled.later (hok : σ.OK) (hr : σ.Renaming ν) (hr' : σ.Renaming ν') (hl : σ.Later ν ν') {k : StatementId}
    (h : σ.Settled ν k) : σ.Settled ν' k :=
  fun e he => hl.fixed_later hok hr hr' (h e he)

/-- A step wrote the text `w`, which is that text under all later names too, by events that it records, and
settled the statements that `occurs` holds of. -/
structure Wrote (σ : Store) (occurs : StatementId → Prop) (w : Symbols → List Piece) (ν ν' : Names)
    (pieces : List Piece) : Prop where
  names : σ.Renaming ν'
  later : σ.Later ν ν'
  traced : ν.Traced ν' pieces
  text : ∀ ν'', σ.Renaming ν'' → σ.Later ν' ν'' → pieces = w ν''.symbols
  settled : ∀ j, occurs j → σ.Settled ν' j

variable {occurs occurs' : StatementId → Prop} {w w' : Symbols → List Piece}

/-- Text that needs no names. -/
theorem Wrote.of_eq (hr : σ.Renaming ν) (ho : ∀ j, ¬ occurs j) (hw : ∀ symbols, pieces = w symbols)
    (he : pieces.filterMap Piece.event? = []) : σ.Wrote occurs w ν ν pieces :=
  ⟨hr, .refl ν, .refl he, fun ν'' _ _ => hw ν''.symbols, fun j hj => absurd hj (ho j)⟩

theorem Wrote.append (hok : σ.OK) (hr : σ.Renaming ν) {more : List Piece} (h : σ.Wrote occurs w ν ν1 pieces)
    (h' : σ.Wrote occurs' w' ν1 ν' more) :
    σ.Wrote (fun j => occurs j ∨ occurs' j) (fun symbols => w symbols ++ w' symbols) ν ν' (pieces ++ more) := by
  refine ⟨h'.names, h.later.trans hok hr h.names h'.later, h.traced.append h'.traced, fun ν'' hr'' hl => ?_,
    fun j hj => ?_⟩
  · rw [h.text ν'' hr'' (h'.later.trans hok h.names h'.names hl), h'.text ν'' hr'' hl]
  · rcases hj with hj | hj
    · exact (h.settled j hj).later hok h.names h'.names h'.later
    · exact h'.settled j hj

theorem Wrote.imp (h : σ.Wrote occurs w ν ν' pieces) (ho : ∀ j, occurs' j → occurs j) (f : List Piece → List Piece)
    (hw : ∀ symbols, w' symbols = f (w symbols))
    (he : (f pieces).filterMap Piece.event? = pieces.filterMap Piece.event?) : σ.Wrote occurs' w' ν ν' (f pieces) :=
  ⟨h.names, h.later, h.traced.of_events he, fun ν'' hr hl => by rw [hw, ← h.text ν'' hr hl], fun j hj => h.settled j (ho j hj)⟩

theorem Wrote.keeps (hok : σ.OK) (hr : σ.Renaming ν) (h : σ.Wrote occurs w ν ν' pieces)
    (hks : ∀ k ∈ ks, σ.Settled ν k) : ∀ k ∈ ks, σ.Settled ν' k :=
  fun k hk => (hks k hk).later hok hr h.names h.later

/-! ## Symbols -/

/-- A symbol that is no extent which a statement declares is fixed unless it is marked. -/
theorem fixed_of_undeclared (hm : (ν.symbols.get i).needsRenaming = false) (h : ∀ k, i ∉ (σ.get k).declaredExtents) :
    ν.symbols.Fixed σ.statements i := by
  refine Or.inr ⟨hm, fun k pre post hs => absurd ?_ (h k)⟩
  unfold Store.get; rw [hs]; exact mem_append_right _ mem_cons_self

/-- An extent is fixed once a statement that declares it is settled. -/
theorem fixed_of_settled (hok : σ.OK) (hr : σ.Renaming ν) (hks : ∀ k ∈ ks, σ.Settled ν k) (hi : σ.symbols.IsExtent i)
    (hheld : (σ.symbols.get i).stands = true → ∃ k ∈ ks, i ∈ (σ.get k).aliases) :
    ν.symbols.Fixed σ.statements i := by
  have hm : (ν.symbols.get i).needsRenaming = false := by
    by_contra hm
    have := hr.marked i (by simpa using hm)
    unfold Symbols.IsExtent at hi
    rw [this] at hi; cases hi
  by_cases hdecl : ∃ l, i ∈ (σ.get l).declaredExtents
  · obtain ⟨l, hl⟩ := hdecl
    have ha := declared_aliases hok hl
    obtain ⟨k, hk, hik⟩ := hheld ((hok.statement l).aliases i ha).1
    obtain rfl := hok.unique k l i hik ha
    exact hks k hk i hl
  · exact fixed_of_undeclared hm fun k hk => hdecl ⟨k, hk⟩

theorem renaming_recolumned (hr : σ.Renaming ν) (hi : ¬ σ.symbols.IsExtent i) :
    σ.Renaming (recolumned ν i) := by
  have hsymbol : ∀ k, ((recolumned ν i).symbols.get k).name = (ν.symbols.get k).name ∧
      ((recolumned ν i).symbols.get k).type = (ν.symbols.get k).type ∧
      ((recolumned ν i).symbols.get k).join = (ν.symbols.get k).join ∧
      (((recolumned ν i).symbols.get k).needsRenaming = true → (ν.symbols.get k).needsRenaming = true) := by
    intro k
    rcases get_recolumned (ν := ν) i k with h | ⟨-, h⟩ <;> rw [h]
    · exact ⟨rfl, rfl, rfl, id⟩
    · exact ⟨rfl, rfl, rfl, nofun⟩
  have hnew : ∀ k, σ.symbols.IsExtent k → ((recolumned ν i).symbols.get k).newName = (ν.symbols.get k).newName := by
    intro k hk
    rcases get_recolumned (ν := ν) i k with h | ⟨rfl, -⟩
    · rw [h]
    · exact absurd hk hi
  have hcases : ∀ k n, ((recolumned ν i).symbols.get k).newName = some n →
      (ν.symbols.get k).newName = some n ∨ k = i ∧ n = (ν.columns.fresh (ν.symbols.get i).name).1 := by
    intro k n hk
    rcases get_recolumned (ν := ν) i k with h | ⟨rfl, h⟩ <;> rw [h] at hk
    · exact Or.inl hk
    · exact Or.inr ⟨rfl, (Option.some.inj hk).symm⟩
  refine ⟨?_, fun k => (hsymbol k).1.trans (hr.name k), fun k => (hsymbol k).2.1.trans (hr.type k),
    fun k => (hsymbol k).2.2.1.trans (hr.join k), fun k h => hr.marked k ((hsymbol k).2.2.2 h), hr.extents.congr hnew,
    hr.columns.rename hcases⟩
  rw [← hr.size]; simp [recolumned, setNeedsRenaming]

theorem later_recolumned (hi : ¬ σ.symbols.IsExtent i) (hn : (ν.symbols.get i).newName = none)
    (hm : (ν.symbols.get i).needsRenaming = true) : σ.Later ν (recolumned ν i) := by
  refine ⟨⟨fun k n h => ?_, fun k n hk h h' => ?_, fun _ h => h, fun k h => ?_⟩, fun k h => ?_⟩
  · rcases get_recolumned (ν := ν) i k with hk | ⟨rfl, -⟩
    · rw [hk]; exact h
    · rw [hn] at h; cases h
  · rcases get_recolumned (ν := ν) i k with hk' | ⟨rfl, -⟩
    · rw [hk', h] at h'; cases h'
    · exact absurd hk hi
  · rcases get_recolumned (ν := ν) i k with hk | ⟨-, hk⟩ <;> rw [hk] at h
    · exact h
    · cases h
  · rcases get_recolumned (ν := ν) i k with hk | ⟨rfl, -⟩
    · rw [hk]
    · -- a marked column without a new name is not fixed
      rcases h with h | ⟨h, -⟩
      · unfold Symbol.isRenamed at h; rw [hn] at h; cases h
      · rw [hm] at h; cases h

end Store

namespace Render

open Store

variable {pieces : List Piece} {ps : List Part}

variable {σ : Store} {ν ν' : Names}

/-- A symbol keeps its name, or it is a marked column that gets a fresh one. -/
theorem symbol_cases (hr : σ.Renaming ν) (h : Runs (symbol i) ν pieces ν') :
    (¬ σ.symbols.IsExtent i ∧ (ν.symbols.get i).newName = none ∧ (ν.symbols.get i).needsRenaming = true ∧
      pieces = [.name i (ν.columns.fresh (ν.symbols.get i).name).1] ∧ ν' = recolumned ν i) ∨
    (((ν.symbols.get i).needsRenaming = true → (ν.symbols.get i).isRenamed = true) ∧
      pieces = [.name i (ν.symbols.get i).currentName] ∧ ν' = ν) := by
  simp only [symbol, runs_bind, runs_get, runs_ite, runs_set, and_assoc, exists_and_left, exists_eq_left,
    exists_const, Bool.and_eq_true, Bool.not_eq_true'] at h
  rcases h with ⟨hm, hn, h⟩ | ⟨hcase, h⟩
  · have hext : ¬ σ.symbols.IsExtent i := by
      intro hi
      unfold Symbols.IsExtent at hi
      rw [hr.marked i hm] at hi; cases hi
    unfold rename? at h
    rw [hn] at h
    simp only [Bool.false_eq_true, if_false, runs_bind, runs_set, runs_pure, exists_eq_left, exists_const] at h
    exact Or.inl ⟨hext, by simpa [Symbol.isRenamed] using hn, hm, h.1, h.2⟩
  · obtain ⟨rfl, rfl⟩ := runs_pure.1 h
    refine Or.inr ⟨fun hm => ?_, rfl, rfl⟩
    by_contra hn
    exact hcase ⟨hm, by simpa using hn⟩

theorem symbol_spec (hok : σ.OK) (hr : σ.Renaming ν) (hi : i < ν.symbols.size)
    (hfix : σ.symbols.IsExtent i → ν.symbols.Fixed σ.statements i) (h : Runs (symbol i) ν pieces ν') :
    σ.Wrote (fun _ => False) (fun symbols => [.name i (symbols.get i).currentName]) ν ν' pieces := by
  -- once the symbol is fixed, what is written is its name from then on
  have hwrote : ∀ {μ : Names}, σ.Renaming μ → σ.Later ν μ → ν.Traced μ [.name i (μ.symbols.get i).currentName] →
      μ.symbols.Fixed σ.statements i → σ.Wrote (fun _ => False) (fun symbols => [.name i (symbols.get i).currentName])
        ν μ [.name i (μ.symbols.get i).currentName] := by
    intro μ hμ hl ht hf
    exact ⟨hμ, hl, ht, fun ν'' hr'' hl'' => by rw [hl''.currentName_fixed hμ hr'' hf], nofun⟩
  rcases symbol_cases hr h with ⟨hext, hnone, hm, rfl, rfl⟩ | ⟨hcase, rfl, rfl⟩
  · have hnew := newName_recolumned hi
    have hfixed : (recolumned ν i).symbols.Fixed σ.statements i := by
      left; unfold Symbol.isRenamed; rw [hnew]; rfl
    have htype : (ν.symbols.get i).type = none := by rw [hr.type]; exact Option.not_isSome_iff_eq_none.1 hext
    have hcurrent := currentName_of_newName hnew
    have ht := traced_recolumned htype hi hnone
    rw [← hcurrent] at ht ⊢
    exact hwrote (renaming_recolumned hr hext) (later_recolumned hext hnone hm) ht hfixed
  · refine hwrote hr (.refl _) ⟨_, .written ⟨rfl, hcase⟩ (.nil _), rfl⟩ ?_
    by_cases hext : σ.symbols.IsExtent i
    · exact hfix hext
    · by_cases hm : (ν'.symbols.get i).needsRenaming = true
      · exact Or.inl (hcase hm)
      · exact fixed_of_undeclared (by simpa using hm) fun k hk => hext (isExtent_declared hok hk)

/-! ## Parts and clauses -/

/-- What the parts mention is held by the statements `ks` around them. -/
structure Placed (σ : Store) (ks : List StatementId) (ps : List Part) : Prop where
  symbols : ∀ e, .symbol e ∈ atoms ps → e < σ.symbols.size
  held : ∀ e, .symbol e ∈ atoms ps → (σ.symbols.get e).stands = true → ∃ k ∈ ks, e ∈ (σ.get k).aliases
  statements : ∀ j, .statement j ∈ atoms ps → ∃ path : Path, (∀ q ∈ path, q.1 ∈ ks) ∧
    Sound σ 0 path [.statement j]

theorem Placed.of_subset {qs : List Part} (h : Placed σ ks qs) (hsub : ∀ p ∈ atoms ps, p ∈ atoms qs) :
    Placed σ ks ps :=
  ⟨fun e he => h.symbols e (hsub _ he), fun e he => h.held e (hsub _ he), fun j hj => h.statements j (hsub _ hj)⟩

section

variable {nested : StatementId → Render (List Piece)} {ks : List StatementId}
  {text : Symbols → StatementId → List Piece}

/-- What writing a statement inside the statements `ks` does. -/
def WritesNested (σ : Store) (ks : List StatementId) (nested : StatementId → Render (List Piece))
    (text : Symbols → StatementId → List Piece) : Prop :=
  ∀ ⦃j : StatementId⦄ ⦃path : Path⦄ ⦃ν ν' : Names⦄ ⦃pieces : List Piece⦄, (∀ q ∈ path, q.1 ∈ ks) →
    Sound σ 0 path [.statement j] → σ.Renaming ν → (∀ k ∈ ks, σ.Settled ν k) → Runs (nested j) ν pieces ν' →
    σ.Wrote (Occurs σ.statements.written [.statement j]) (fun symbols => text symbols j) ν ν' pieces

mutual

theorem part_spec (hok : σ.OK) (hn : WritesNested σ ks nested text) :
    ∀ (p : Part) {ν ν' : Names} {pieces : List Piece}, Placed σ ks [p] → σ.Renaming ν → (∀ k ∈ ks, σ.Settled ν k) →
      Runs (part nested p) ν pieces ν' →
      σ.Wrote (Occurs σ.statements.written [p]) (fun symbols => Writing.parts symbols (text symbols) [p]) ν ν' pieces
  | .text s, ν, ν', pieces, _, hr, _, h => by
    simp only [part, runs_pure] at h
    obtain ⟨rfl, rfl⟩ := h
    exact .of_eq hr (fun j hj => by cases hj <;> simp_all) (fun _ => rfl) rfl
  | .line, ν, ν', pieces, _, hr, _, h => by
    simp only [part, runs_pure] at h
    obtain ⟨rfl, rfl⟩ := h
    exact .of_eq hr (fun j hj => by cases hj <;> simp_all) (fun _ => rfl) rfl
  | .symbol i, ν, ν', pieces, hp, hr, hks, h => by
    have hmem : .symbol i ∈ Part.atoms [Part.symbol i] := by simp
    have hw := symbol_spec hok hr (by rw [hr.size]; exact hp.symbols i hmem)
      (fun hext => fixed_of_settled hok hr hks hext (hp.held i hmem)) (by simpa only [part] using h)
    exact hw.imp (fun j hj => by cases hj <;> simp_all) id (fun _ => by simp [Writing.parts, Writing.atom]) rfl
  | .group ps, ν, ν', pieces, hp, hr, hks, h => by
    have hw := parts_spec hok hn ps (hp.of_subset fun p h => by simpa using h) hr hks (by simpa only [part] using h)
    exact hw.imp (fun j hj => hj.of_subset fun k hk => by simpa using hk) id (fun _ => by simp [Writing.parts]) rfl
  | .statement j, ν, ν', pieces, hp, hr, hks, h => by
    obtain ⟨path, hpath, hs⟩ := hp.statements j (by simp)
    have hw := hn hpath hs hr hks (by simpa only [part] using h)
    exact hw.imp (fun _ h => h) id (fun _ => by simp [Writing.parts, Writing.atom]) rfl

theorem parts_spec (hok : σ.OK) (hn : WritesNested σ ks nested text) :
    ∀ (ps : List Part) {ν ν' : Names} {pieces : List Piece}, Placed σ ks ps → σ.Renaming ν →
      (∀ k ∈ ks, σ.Settled ν k) → Runs (parts nested ps) ν pieces ν' →
      σ.Wrote (Occurs σ.statements.written ps) (fun symbols => Writing.parts symbols (text symbols) ps) ν ν' pieces
  | [], ν, ν', pieces, _, hr, _, h => by
    simp only [parts, runs_pure] at h
    obtain ⟨rfl, rfl⟩ := h
    exact .of_eq hr (fun j hj => by cases hj <;> simp_all) (fun _ => by simp [Writing.parts]) rfl
  | p :: rest, ν, ν', pieces, hp, hr, hks, h => by
    simp only [parts, runs_bind, runs_pure] at h
    obtain ⟨first, ν1, hfirst, more, ν2, hmore, rfl, rfl⟩ := h
    have h1 := part_spec hok hn p (hp.of_subset fun q hq => by
      rw [atoms_cons]; exact mem_append_left _ (by simpa using hq)) hr hks hfirst
    have h2 := parts_spec hok hn rest (hp.of_subset fun q hq => by
      rw [atoms_cons]; exact mem_append_right _ hq) h1.names
      (h1.keeps hok hr hks) hmore
    refine (h1.append hok hr h2).imp (fun j hj => ?_) id (fun symbols => ?_) rfl
    · rw [← singleton_append] at hj; exact occurs_append.1 hj
    · simp [Writing.parts]

end

/-- A clause behind its keyword. -/
theorem clause_spec (hok : σ.OK) (hn : WritesNested σ ks nested text) {keyword : String} (hp : Placed σ ks ps)
    (hr : σ.Renaming ν) (hks : ∀ k ∈ ks, σ.Settled ν k) (h : Runs (clause nested keyword ps) ν pieces ν') :
    σ.Wrote (Occurs σ.statements.written ps)
      (fun symbols => Writing.clause symbols (text symbols) keyword ps) ν ν' pieces := by
  unfold clause at h
  split at h
  · rename_i hempty
    obtain rfl := isEmpty_iff.1 hempty
    obtain ⟨rfl, rfl⟩ := runs_pure.1 h
    exact .of_eq hr (fun j hj => by cases hj <;> simp_all) (fun _ => rfl) rfl
  · rename_i hempty
    simp only [runs_bind, runs_pure] at h
    obtain ⟨body, ν1, hbody, rfl, rfl⟩ := h
    refine (parts_spec hok hn ps hp hr hks hbody).imp (fun _ h => h) (.line :: .text keyword :: ·) (fun symbols => ?_)
      rfl
    rw [Writing.clause, if_neg hempty]

theorem count_spec (hok : σ.OK) (hn : WritesNested σ ks nested text) {keyword : String} {ps : Option (List Part)}
    (hp : Placed σ ks (ps.getD [])) (hr : σ.Renaming ν) (hks : ∀ k ∈ ks, σ.Settled ν k)
    (h : Runs (count nested keyword ps) ν pieces ν') :
    σ.Wrote (Occurs σ.statements.written (ps.getD []))
      (fun symbols => Writing.count symbols (text symbols) keyword ps) ν ν' pieces := by
  cases ps with
  | none =>
    obtain ⟨rfl, rfl⟩ := runs_pure.1 h
    exact .of_eq hr (fun j hj => by cases hj <;> simp_all) (fun _ => rfl) rfl
  | some ps =>
    simp only [count, runs_bind, runs_pure] at h
    obtain ⟨body, ν1, hbody, rfl, rfl⟩ := h
    exact (parts_spec hok hn ps hp hr hks hbody).imp (fun _ h => h) (.text keyword :: ·) (fun _ => rfl) rfl

/-- The clauses of a statement, those that are written. -/
theorem clauses_spec (hok : σ.OK) (hn : WritesNested σ ks nested text) {s : Statement} (hp : Placed σ ks s.parts)
    (hr : σ.Renaming ν) (hks : ∀ k ∈ ks, σ.Settled ν k) (h : Runs (clauses nested s) ν pieces ν') :
    σ.Wrote (Occurs σ.statements.written s.written.parts)
      (fun symbols => Writing.clauses symbols (text symbols) s.written) ν ν' pieces := by
  have hordering : s.written.ordering = if s.topMost || s.top.isSome || s.skip.isSome then s.ordering else [] := by
    unfold Statement.written; split <;> rfl
  have hsame : s.written = { s with ordering := s.written.ordering } := by
    unfold Statement.written; split <;> rfl
  have hp' : Placed σ ks s.written.parts := by
    refine hp.of_subset fun p hm => ?_
    unfold Statement.parts at hm ⊢
    rw [hsame, hordering] at hm
    simp only [atoms_append, mem_append] at hm ⊢
    split at hm
    · exact hm
    · simp only [atoms_nil, not_mem_nil, or_false] at hm
      tauto
  simp only [clauses, runs_bind, runs_ite, runs_throw, runs_pure, and_false, false_or, false_and, exists_false] at h
  rw [← hordering] at h
  rw [hsame] at hp' ⊢
  generalize s.written.ordering = written at h hp' ⊢
  obtain ⟨-, select, ν1, h1, sources, ν2, h2, condition, ν3, h3, grouping, ν4, h4, ordering, ν5, h5, top, ν6,
    h6, skip, ν7, h7, rfl, rfl⟩ := h
  have hsub : ∀ {ps : List Part}, (∀ p ∈ atoms ps, p ∈ atoms ({ s with ordering := written } : Statement).parts) →
      Placed σ ks ps := fun h => hp'.of_subset h
  have w1 := parts_spec hok hn _ (hsub fun p hm => by simp [Statement.parts, hm]) hr hks h1
  have k1 := w1.keeps hok hr hks
  have w2 := clause_spec hok hn (hsub fun p hm => by simp [Statement.parts, hm]) w1.names k1 h2
  have k2 := w2.keeps hok w1.names k1
  have w3 := clause_spec hok hn (hsub fun p hm => by simp [Statement.parts, hm]) w2.names k2 h3
  have k3 := w3.keeps hok w2.names k2
  have w4 := clause_spec hok hn (hsub fun p hm => by simp [Statement.parts, hm]) w3.names k3 h4
  have k4 := w4.keeps hok w3.names k3
  have w5 := clause_spec hok hn (hsub fun p hm => by simp [Statement.parts, hm]) w4.names k4 h5
  have k5 := w5.keeps hok w4.names k4
  have w6 := count_spec hok hn (hsub fun p hm => by simp [Statement.parts, hm]) w5.names k5 h6
  have k6 := w6.keeps hok w5.names k5
  have w7 := count_spec hok hn (hsub fun p hm => by simp [Statement.parts, hm]) w6.names k6 h7
  have hall := (((((w1.append hok hr w2).append hok hr w3).append hok hr w4).append hok hr w5).append hok hr w6).append
    hok hr w7
  -- the head of the text stands before the clauses
  have hend : σ.Wrote (Occurs σ.statements.written ({ s with ordering := written } : Statement).parts)
      (fun symbols => Writing.clauses symbols (text symbols) { s with ordering := written }) ν ν'
      ((.text "SELECT " :: if s.distinct then [.text "DISTINCT "] else []) ++
        (select ++ sources ++ condition ++ grouping ++ ordering ++ top ++ skip)) :=
    hall.imp (fun j hj => by simpa only [Statement.parts, occurs_append] using hj)
      ((.text "SELECT " :: if s.distinct then [.text "DISTINCT "] else []) ++ ·)
      (fun symbols => by simp only [Writing.clauses, append_assoc]) (by cases s.distinct <;> rfl)
  simpa only [append_assoc] using hend

end

/-! ## Statements -/

theorem exists_of_held {e : SymbolId} : ∀ {path : Path}, σ.Held e path → ∃ q ∈ path, e ∈ (σ.get q.1).aliases
  | (k, v) :: _, Or.inl h => ⟨(k, v), mem_cons_self, h⟩
  | _ :: _, Or.inr ⟨_, h⟩ => by
    obtain ⟨q, hq, he⟩ := exists_of_held h
    exact ⟨q, mem_cons_of_mem _ hq, he⟩

/-- The parts of a statement that is sound are held by it and the statements around it. -/
theorem placed_parts (hok : σ.OK) {path : Path} {j : StatementId} (hpath : ∀ q ∈ path, q.1 ∈ ks)
    (hs : Sound σ 0 path [.statement j]) : Placed σ (j :: ks) (σ.get j).parts := by
  obtain ⟨-, -, hplace⟩ := (sound_statement hok).1 hs
  have hpath' : ∀ v, ∀ q ∈ (j, v) :: path, q.1 ∈ j :: ks := by
    intro v q hq
    rcases mem_cons.1 hq with rfl | hq
    · exact mem_cons_self
    · exact mem_cons_of_mem _ (hpath q hq)
  refine ⟨(hok.statement j).symbols, fun e he hstands => ?_, fun l hl => ?_⟩
  · rcases mem_atoms_parts (p := .symbol e) nofun nofun he with ⟨v, he⟩ | ⟨x, hx, hxe⟩
    · obtain ⟨q, hq, hqe⟩ := exists_of_held ((hplace v).held [] e (.here he) hstands)
      exact ⟨q.1, hpath' v q hq, hqe⟩
    · cases hxe
      exact ⟨j, mem_cons_self, hx⟩
  · rcases mem_atoms_parts (p := .statement l) nofun nofun hl with ⟨v, hl⟩ | ⟨x, -, hx⟩
    · refine ⟨(j, v) :: path, hpath' v, (hplace v).of_subset fun p hp _ _ => ?_⟩
      simp only [atoms_cons, atomsOf_statement, atoms_nil, append_nil, mem_singleton] at hp
      rw [hp]; exact hl
    · cases hx

theorem statement_spec (hok : σ.OK) : ∀ (depth : Nat) (ks : List StatementId),
    WritesNested σ ks (statement σ.statements depth)
      (fun symbols => Writing.statement σ.statements.written symbols depth)
  | 0, _ => fun j path ν ν' pieces _ _ _ _ h => absurd h runs_throw
  | depth + 1, ks => by
    intro j path ν ν' pieces hpath hs hr hks h
    simp only [statement, runs_bind, runs_pure] at h
    obtain ⟨_, ν1, hresolve, body, ν2, hbody, rfl, rfl⟩ := h
    obtain ⟨hr1, hl1, ht1, hsettled⟩ := resolveAliases_spec hok hr hresolve
    -- the statement is settled before its body is written, with those around it
    have hks1 : ∀ k ∈ j :: ks, σ.Settled ν1 k := by
      intro k hk
      rcases mem_cons.1 hk with rfl | hk
      · exact hsettled
      · exact (hks k hk).later hok hr hr1 hl1
    have hw := clauses_spec hok (statement_spec hok depth (j :: ks)) (placed_parts hok hpath hs) hr1 hks1 hbody
    have ht : ν.Traced ν' (.enter j :: body ++ [.leave]) :=
      (ht1.append hw.traced).of_events (by simp [filterMap_cons, Piece.event?])
    refine ⟨hw.names, hl1.trans hok hr hr1 hw.later, ht, fun ν'' hr'' hl'' => ?_, fun l hl => ?_⟩
    · have hget : σ.statements.written.get j = (σ.get j).written := Statements.get_written _ j
      rw [hw.text ν'' hr'' hl'', ← hget]; rfl
    · cases hl with
      | here hl =>
        obtain rfl : l = j := by simpa using hl
        exact hw.keeps hok hr1 hks1 l mem_cons_self
      | within hk hl =>
        rename_i k
        obtain rfl : k = j := by simpa using hk
        rw [Statements.get_written] at hl
        exact hw.settled l hl

/-- Writing succeeds with the text of the parts under the names that are there afterwards, and all
statements in it are settled by then. What was fixed before has kept its name, and the names came about by
the events that the text records. -/
theorem renderParts_spec (hok : σ.OK) (hs : Sound σ 0 [] ps)
    (h : renderParts σ.statements σ.names ps = (.ok pieces, ν)) :
    σ.Renaming ν ∧ pieces = Writing.text σ.statements.written ν.symbols ps ∧
      (∀ j, Occurs σ.statements.written ps j → σ.Settled ν j) ∧ σ.Later σ.names ν ∧ σ.names.Traced ν pieces := by
  have hplaced : Placed σ [] ps := by
    refine ⟨hs.symbols, fun e he hstands => ?_, fun j hj => ⟨[], nofun, hs.of_subset fun p hp _ _ => ?_⟩⟩
    · exact (hs.held [] e (.here he) hstands).elim
    · simp only [atoms_cons, atomsOf_statement, atoms_nil, append_nil, mem_singleton] at hp
      rw [hp]; exact hj
  have hw := parts_spec hok (statement_spec hok σ.statements.size []) ps hplaced (renaming_start hok) nofun h
  refine ⟨hw.names, ?_, hw.settled, hw.later, hw.traced⟩
  rw [hw.text ν hw.names (.refl ν), Writing.text]
  unfold Statements.written
  rw [Array.size_map]

end Render

end RelSql
