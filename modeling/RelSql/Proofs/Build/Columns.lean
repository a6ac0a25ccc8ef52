/-
The columns of subselects while a query is built. `Store.Readable` says of a column of an extent that
the subselect behind the extent, if there is one, exposes it. `Store.ColumnsOK` is the invariant that
all clauses read only such columns, with what is needed to keep it: where the columns of a star come
from, and which of them may still be renamed.
-/
import RelSql.Proofs.Build.Extents
import RelSql.Proofs.Statement.Exposed

namespace RelSql

open Statement Symbols Ident List

theorem Statement.SameText.clauses {s t : Statement} (h : s.SameText t) : t.clauses = s.clauses := by
  unfold SameText at h; rw [h]; rfl

namespace Store

open Build (IsColumn)

variable {i : StatementId} {f : Statement → Statement}

variable {σ τ υ : Store}

/-! ## What lasts -/

/-- `τ` is `σ` later on: a select list stays as it is once it is there, and so do the extents that it
selects from; `FROM` lists only grow. -/
structure Lasts (σ τ : Store) : Prop where
  symbols : σ.symbols.Grows τ.symbols
  select : ∀ k, (σ.get k).selectList ≠ [] →
    (τ.get k).selectList = (σ.get k).selectList ∧ (τ.get k).fromExtents = (σ.get k).fromExtents
  fromList : ∀ k, (σ.get k).fromList <+: (τ.get k).fromList

theorem Lasts.refl (σ : Store) : Lasts σ σ := ⟨.refl _, fun _ _ => ⟨rfl, rfl⟩, fun _ => prefix_refl _⟩

theorem Lasts.trans (h : Lasts σ τ) (h' : Lasts τ υ) : Lasts σ υ := by
  refine ⟨h.symbols.trans h'.symbols, fun k hk => ?_, fun k => (h.fromList k).trans (h'.fromList k)⟩
  obtain ⟨hs, hf⟩ := h.select k hk
  obtain ⟨hs', hf'⟩ := h'.select k (by rw [hs]; exact hk)
  exact ⟨hs'.trans hs, hf'.trans hf⟩

theorem Lasts.of_sameText (hs : σ.symbols.Grows τ.symbols) (ht : ∀ k < σ.size, (σ.get k).SameText (τ.get k)) :
    Lasts σ τ := by
  refine ⟨hs, fun k hk => ?_, fun k => ?_⟩
  · have hlt : k < σ.size := by
      by_contra hlt
      rw [get_of_size_le (not_lt.1 hlt)] at hk
      exact hk rfl
    exact ⟨(ht k hlt).selectList, (ht k hlt).fromExtents⟩
  · by_cases hlt : k < σ.size
    · rw [(ht k hlt).fromList]
    · rw [get_of_size_le (not_lt.1 hlt)]
      exact nil_prefix

theorem Grows.lasts (h : Grows σ.size σ τ) : Lasts σ τ := .of_sameText h.symbols h.text

theorem lasts_push (σ : Store) (s : Statement) : Lasts σ (σ.push s) :=
  .of_sameText (.refl _) fun k hk => by rw [get_push_of_lt hk]; exact .refl _

/-- A statement without a select list may change, if its `FROM` list grows. -/
theorem lasts_modify (hs : (σ.get i).selectList ≠ [] → (f (σ.get i)).selectList = (σ.get i).selectList ∧
      (f (σ.get i)).fromExtents = (σ.get i).fromExtents) (hi : (σ.get i).fromList <+: (f (σ.get i)).fromList) :
    Lasts σ (σ.modify i f) := by
  refine ⟨.refl _, fun k hk => ?_, fun k => ?_⟩
  · rw [get_modify]
    split
    · rename_i h; rw [← h.1] at hk ⊢; exact hs hk
    · exact ⟨rfl, rfl⟩
  · rw [get_modify]
    split
    · rename_i h; rw [← h.1]; exact hi
    · exact prefix_refl _

section

variable {i k : StatementId} {x e : SymbolId} {c : Part} {n : String}

theorem Lasts.items (h : Lasts σ τ) (k : StatementId) : (σ.get k).fromItems <+: (τ.get k).fromItems := by
  obtain ⟨new, hnew⟩ := h.fromList k
  unfold fromItems
  rw [← hnew]; exact fromItems_append (σ.get k) new

theorem Lasts.exposed (h : Lasts σ τ) (hc : c ∈ (σ.get k).exposed) : c ∈ (τ.get k).exposed := by
  rw [exposed_congr (h.select k (select_ne_nil_of_exposed hc)).1]; exact hc

theorem Lasts.aliases (h : Lasts σ τ) (hx : x ∈ (σ.get k).aliases) : x ∈ (τ.get k).aliases :=
  (h.items k).filterMap _ |>.subset hx

/-! ## Columns that can be read -/

/-- The statement selects all columns of a join, and the name is that of one of its inputs. -/
def NamesInput (σ : Store) (i : StatementId) (n : String) : Prop :=
  (∃ c, .symbol c ∈ (σ.get i).exposed) ∧ ∃ l join y, (σ.get i).fromExtents = [l] ∧
    (σ.symbols.get l).join = some join ∧ y ∈ join.extents ∧ y < σ.symbols.size ∧
    same (σ.symbols.get y).name n = true

theorem NamesInput.lasts (h : σ.NamesInput i n) (hl : Lasts σ τ) : τ.NamesInput i n := by
  obtain ⟨⟨c, hc⟩, l, join, y, hf, hj, hy, hlt, hsame⟩ := h
  have hl' : l < σ.symbols.size := by
    by_contra hge
    rw [Symbols.get_of_size_le (not_lt.1 hge)] at hj
    cases hj
  refine ⟨⟨c, hl.exposed hc⟩, l, join, y, ?_, ?_, hy, lt_of_lt_of_le hlt hl.symbols.size, ?_⟩
  · rw [(hl.select i (Statement.select_ne_nil_of_exposed hc)).2]; exact hf
  · rw [(hl.symbols.symbol l hl').join]; exact hj
  · rw [(hl.symbols.symbol y hlt).name]; exact hsame

/-- The statement exposes a column of that name: one that it names so, or the column that its only
extent has filed under the name. A star over a join does not expose the inputs of the join, which are
let through here. -/
def Offers (σ : Store) (i : StatementId) (n : String) : Prop :=
  (∃ m, .text m ∈ (σ.get i).exposed ∧ same m n = true) ∨
    (∃ l c, (σ.get i).fromExtents = [l] ∧ (σ.symbols.get l).join = none ∧
      (σ.symbols.get l).column? n = some c ∧ .symbol c ∈ (σ.get i).exposed) ∨
    σ.NamesInput i n

theorem Offers.lasts (h : σ.Offers i n) (hl : Lasts σ τ) : τ.Offers i n := by
  rcases h with ⟨m, hm, hs⟩ | ⟨l, c, hf, hj, hcol, hc⟩ | h
  · exact Or.inl ⟨m, hl.exposed hm, hs⟩
  · have hlt := (files_of_column? hcol).lt
    have hg := hl.symbols.symbol l hlt
    refine Or.inr (Or.inl ⟨l, c, ?_, by rw [hg.join]; exact hj, hg.column n c hcol, hl.exposed hc⟩)
    rw [(hl.select i (select_ne_nil_of_exposed hc)).2]; exact hf
  · exact Or.inr (Or.inr (h.lasts hl))

theorem Offers.of_same {m : String} (h : σ.Offers i m) (hs : same m n = true) : σ.Offers i n := by
  rcases h with ⟨m', hm, hs'⟩ | ⟨l, c, hf, hj, hcol, hc⟩ | h
  · exact Or.inl ⟨m', hm, same_trans hs' hs⟩
  · refine Or.inr (Or.inl ⟨l, c, hf, hj, ?_, hc⟩)
    unfold Symbol.column? at hcol ⊢
    rw [← same_iff.1 hs]; exact hcol
  · obtain ⟨hc, l, join, y, hf, hj, hy, hlt, hsame⟩ := h
    exact Or.inr (Or.inr ⟨hc, l, join, y, hf, hj, hy, hlt, same_trans hsame hs⟩)

/-- The subselect exposes the column that is read off its alias. -/
def Exposes (σ : Store) (i : StatementId) (x : SymbolId) : Part → Prop
  | .text n => (σ.symbols.get x).join = none ∧ σ.Offers i n
  | c => c ∈ (σ.get i).exposed

theorem Exposes.lasts (h : σ.Exposes i x c) (hl : Lasts σ τ) (hx : x < σ.symbols.size) : τ.Exposes i x c := by
  cases c with
  | text n => exact ⟨by rw [(hl.symbols.symbol x hx).join]; exact h.1, h.2.lasts hl⟩
  | line | symbol c | group ps | statement j => exact hl.exposed h

/-- The column may be read off the extent: it has an alias, and the subselect behind that exposes the
column. Text behind a column is no column. -/
def Readable (σ : Store) (x : SymbolId) (c : Part) : Prop :=
  IsColumn σ x ∨ ∃ k, x ∈ (σ.get k).aliases ∧ ∀ i, (σ.get k).Wraps i x → σ.Exposes i x c

theorem lt_of_alias (hok : σ.OK) (hx : x ∈ (σ.get k).aliases) : x < σ.symbols.size :=
  lt_of_stands ((hok.statement k).aliases x hx).1

theorem Readable.lasts (h : σ.Readable x c) (hok : σ.OK) (hok' : τ.OK) (hl : Lasts σ τ) : τ.Readable x c := by
  rcases h with h | ⟨k, hx, h⟩
  · exact Or.inl (h.grows hl.symbols)
  · refine Or.inr ⟨k, hl.aliases hx, fun i hi => ?_⟩
    exact (h i (hi.of_prefix (hl.items k) (hok'.statement k).nodup hx)).lasts hl (lt_of_alias hok hx)

theorem Readable.of_same {m : String} (h : σ.Readable x (.text m)) (hs : same m n = true) :
    σ.Readable x (.text n) := by
  rcases h with h | ⟨k, hx, h⟩
  · exact Or.inl h
  · exact Or.inr ⟨k, hx, fun i hi => ⟨(h i hi).1, (h i hi).2.of_same hs⟩⟩

/-- The text reads only columns that may be read. -/
def Legible (σ : Store) (ps : List Part) : Prop := Part.ReadsOnly σ.Readable ps

theorem Legible.lasts {ps : List Part} (h : σ.Legible ps) (hok : σ.OK) (hok' : τ.OK) (hl : Lasts σ τ) :
    τ.Legible ps :=
  Part.ReadsOnly.mono h fun _ _ hr => hr.lasts hok hok' hl

end

/-! ## The invariant -/

/-- The extent has the column: a plain one has filed it, a nested join brings it along. -/
def Holds (σ : Store) (e c : SymbolId) : Prop :=
  ((σ.symbols.get e).join = none ∧ ∃ key, σ.symbols.Files e key c) ∨
    ∃ join, (σ.symbols.get e).join = some join ∧ c ∈ join.columns

/-- The column clashes with another one of some star. -/
def Clashing (σ : Store) (c : SymbolId) : Prop :=
  ∃ k c', c' ≠ c ∧ key (σ.symbols.get c').name = key (σ.symbols.get c).name ∧
    .symbol c ∈ (σ.get k).exposed ∧ .symbol c' ∈ (σ.get k).exposed

/-- No join has a column that is filed by the only extent of a statement. -/
def Apart (σ : Store) (join : JoinInfo) : Prop :=
  ∀ c ∈ join.columns, ∀ i l key, (σ.get i).fromExtents = [l] → (σ.symbols.get l).join = none → ¬ σ.symbols.Files l key c

/-- The invariant of the columns of a query under construction. -/
structure ColumnsOK (σ : Store) : Prop where
  aliased : ∀ ⦃e key c⦄, σ.symbols.Files e key c → ∃ k, e ∈ (σ.get k).aliases
  marked : ∀ ⦃c⦄, (σ.symbols.get c).needsRenaming = true → σ.Clashing c
  listed : ∀ ⦃k c⦄, .symbol c ∈ (σ.get k).exposed → ∃ x ∈ (σ.get k).fromExtents, ∃ e, σ.symbols.Reaches x e ∧ σ.Holds e c
  nested : ∀ ⦃k y join⦄, y ∈ (σ.get k).aliases → (σ.symbols.get y).join = some join →
    ∀ c ∈ join.columns, ∀ i, (σ.get k).Wraps i y → .symbol c ∈ (σ.get i).exposed
  apart : ∀ ⦃y join⦄, (σ.symbols.get y).join = some join → σ.Apart join
  reads : ∀ k, ∀ ps ∈ (σ.get k).clauses, σ.Legible ps

section

variable {es : List SymbolId}

variable {e c : SymbolId} {k : StatementId}

theorem Holds.lt (h : σ.Holds e c) (hok : σ.OK) : c < σ.symbols.size := by
  rcases h with ⟨-, key, h⟩ | ⟨join, hj, h⟩
  · exact (hok.symbols.columns e _ h).1
  · exact ((hok.symbols.joins e join hj).columns c h).1

theorem ColumnsOK.lt_of_exposed (h : σ.ColumnsOK) (hok : σ.OK) (hc : .symbol c ∈ (σ.get k).exposed) :
    c < σ.symbols.size := by
  obtain ⟨x, -, e, -, he⟩ := h.listed hc
  exact he.lt hok

theorem Clashing.lasts (h : σ.Clashing c) (hc : σ.ColumnsOK) (hok : σ.OK) (hl : Lasts σ τ) : τ.Clashing c := by
  obtain ⟨k, c', hne, hkey, h1, h2⟩ := h
  refine ⟨k, c', hne, ?_, hl.exposed h1, hl.exposed h2⟩
  rw [(hl.symbols.symbol c (hc.lt_of_exposed hok h1)).name, (hl.symbols.symbol c' (hc.lt_of_exposed hok h2)).name]
  exact hkey

theorem Holds.filing (h : σ.Holds e c) (hf : Symbols.Filing es σ.symbols τ.symbols) (he : e < σ.symbols.size) :
    τ.Holds e c := by
  have hg := hf.grows.symbol e he
  rcases h with ⟨hj, key, h⟩ | ⟨join, hj, h⟩
  · exact Or.inl ⟨by rw [hg.join]; exact hj, key, hf.old h⟩
  · exact Or.inr ⟨join, by rw [hg.join]; exact hj, h⟩

theorem Reaches_lt (hok : σ.OK) {x : SymbolId} (hx : x ∈ (σ.get k).fromExtents) (hr : σ.symbols.Reaches x e) :
    e < σ.symbols.size :=
  lt_of_le_of_lt (hr.le hok.symbols) ((hok.statement k).fromExtents x hx).lt

/-- Later stores keep the invariant, if whatever is new in them does: marks come from clashes, what is
exposed comes from the extents of the statement, the columns of a new nested join from its subselect, new
joins are apart, and the clauses are legible. -/
theorem ColumnsOK.later (h : σ.ColumnsOK) (hok : σ.OK) (hok' : τ.OK) (hl : Lasts σ τ)
    (hf : Symbols.Filing es σ.symbols τ.symbols) (hes : ∀ e ∈ es, ∃ k, e ∈ (τ.get k).aliases)
    (hm : ∀ c, (τ.symbols.get c).needsRenaming = true → (σ.symbols.get c).needsRenaming = true ∨ τ.Clashing c)
    (hj : ∀ y join, (τ.symbols.get y).join = some join → (σ.symbols.get y).join = some join ∨ τ.Apart join)
    (hlisted : ∀ k c, .symbol c ∈ (τ.get k).exposed → .symbol c ∈ (σ.get k).exposed ∨
      ∃ x ∈ (τ.get k).fromExtents, ∃ e, τ.symbols.Reaches x e ∧ τ.Holds e c)
    (hnested : ∀ k, ∀ y ∈ (τ.get k).aliases, y ∈ (σ.get k).aliases ∨ ∀ join, (τ.symbols.get y).join = some join →
      ∀ c ∈ join.columns, ∀ j, (τ.get k).Wraps j y → .symbol c ∈ (τ.get j).exposed)
    (hapart : ∀ k l, (τ.get k).fromExtents = [l] → (σ.get k).fromExtents = [l] ∨ (τ.symbols.get l).isJoin = true ∨
      ∀ key c, ¬ τ.symbols.Files l key c)
    (hreads : ∀ k, ∀ ps ∈ (τ.get k).clauses, ps ∈ (σ.get k).clauses ∨ τ.Legible ps) : τ.ColumnsOK := by
  refine ⟨fun e key c hc => ?_, fun c hc => ?_, fun k c hc => ?_, fun k y join hy hjoin c hc i hi => ?_,
    fun y join hjoin => ?_, fun k ps hps => ?_⟩
  · rcases hf.new hc with hc | ⟨he, -⟩
    · obtain ⟨k, hk⟩ := h.aliased hc
      exact ⟨k, hl.aliases hk⟩
    · exact hes e he
  · exact (hm c hc).elim (fun hc => (h.marked hc).lasts h hok hl) id
  · refine (hlisted k c hc).elim (fun hold => ?_) id
    obtain ⟨x, hx, e, hr, he⟩ := h.listed hold
    refine ⟨x, ?_, e, hr.grows hok.symbols hf.grows ((hok.statement k).fromExtents x hx).lt,
      he.filing hf (Reaches_lt hok hx hr)⟩
    rw [(hl.select k (select_ne_nil_of_exposed hold)).2]; exact hx
  -- items are only added behind, so that an old alias names the source that it named
  · rcases hnested k y hy with hold | hnew
    · rw [(hf.grows.symbol y (lt_of_alias hok hold)).join] at hjoin
      exact hl.exposed (h.nested hold hjoin c hc i (hi.of_prefix (hl.items k) (hok'.statement k).nodup hold))
    · exact hnew join hjoin c hc i hi
  · rcases hj y join hjoin with hold | hnew
    · intro c hc i l key hfrom hlj hfile
      rcases hapart i l hfrom with hfrom | hl | hl
      · have hlt := ((hok.statement i).fromExtents l (by rw [hfrom]; exact mem_singleton_self l)).lt
        rw [(hf.grows.symbol l hlt).join] at hlj
        -- a column that is filed only now is none of an old join, whose columns were there before
        rcases hf.new hfile with hfile | ⟨-, hge⟩
        · exact h.apart hold c hc i l key hfrom hlj hfile
        · exact absurd ((hok.symbols.joins y join hold).columns c hc).1 (not_lt.2 hge)
      · rw [Symbol.isJoin, hlj] at hl; cases hl
      · exact hl key c hfile
    · exact hnew
  · exact (hreads k ps hps).elim (fun hold => (h.reads k ps hold).lasts hok hok' hl) id

/-- New names keep the invariant: columns are filed only by extents with an alias, marks come from
clashes, and new joins are apart. -/
theorem ColumnsOK.withNames (h : σ.ColumnsOK) (hok : σ.OK) (hok' : τ.OK) (hst : τ.statements = σ.statements)
    (hf : Symbols.Filing es σ.symbols τ.symbols) (hes : ∀ e ∈ es, ∃ k, e ∈ (σ.get k).aliases)
    (hm : ∀ c, (τ.symbols.get c).needsRenaming = true → (σ.symbols.get c).needsRenaming = true)
    (hj : ∀ y join, (τ.symbols.get y).join = some join → (σ.symbols.get y).join = some join ∨ τ.Apart join) :
    τ.ColumnsOK := by
  have hget : ∀ k, τ.get k = σ.get k := fun k => by unfold get; rw [hst]
  have hl : Lasts σ τ := .of_sameText hf.grows fun k _ => by rw [hget]; exact .refl _
  refine h.later hok hok' hl hf (by simpa only [hget] using hes) (fun c hc => Or.inl (hm c hc)) hj
    (fun k c hc => Or.inl ?_) (fun k y hy => Or.inl ?_) (fun k l hl => Or.inl ?_) fun k ps hps => Or.inl ?_
  all_goals rw [hget] at *; assumption

/-- A store with the same symbols files nothing. -/
theorem filing_of_eq (hok : σ.OK) (hs : τ.symbols = σ.symbols) : Symbols.Filing [] σ.symbols τ.symbols := by
  rw [hs]; exact .refl hok.tidy.once

/-- Only recording outer extents keeps the invariant. -/
theorem ColumnsOK.sameText (h : σ.ColumnsOK) (hok : σ.OK) (hok' : τ.OK) (hs : τ.symbols = σ.symbols)
    (ht : ∀ k, (σ.get k).SameText (τ.get k)) : τ.ColumnsOK := by
  refine h.later hok hok' (.of_sameText (by rw [hs]; exact .refl _) fun k _ => ht k) (filing_of_eq hok hs) nofun
    (fun c hc => Or.inl (hs ▸ hc)) (fun y join hj => Or.inl (hs ▸ hj)) (fun k c hc => Or.inl ?_)
    (fun k y hy => Or.inl ?_) (fun k l hl => Or.inl ?_) fun k ps hps => Or.inl ?_
  · rwa [exposed_congr (ht k).selectList] at hc
  · rwa [(ht k).aliases] at hy
  · rwa [(ht k).fromExtents] at hl
  · rwa [(ht k).clauses] at hps

/-- A new statement without extents keeps the invariant if its clauses are legible. -/
theorem ColumnsOK.push (h : σ.ColumnsOK) (hok : σ.OK) {s : Statement} (hok' : (σ.push s).OK) (hs : s.selectList = [])
    (hx : s.fromExtents = []) (ha : s.aliases = []) (hc : ∀ ps ∈ s.clauses, σ.Legible ps) : (σ.push s).ColumnsOK := by
  have hl := lasts_push σ s
  have hcases : ∀ k, (σ.push s).get k = s ∨ (σ.push s).get k = σ.get k := by
    intro k
    rw [get_push]
    split
    · exact Or.inl rfl
    · exact Or.inr rfl
  refine h.later hok hok' hl (filing_of_eq hok rfl) nofun (fun c hc => Or.inl hc) (fun y join hj => Or.inl hj)
    (fun k c hc => ?_) (fun k y hy => ?_) (fun k l hl => ?_) fun k ps hps => ?_
  · rcases hcases k with he | he <;> rw [he] at hc
    · rw [exposed_of_select_nil hs] at hc; cases hc
    · exact Or.inl hc
  · rcases hcases k with he | he <;> rw [he] at hy
    · rw [ha] at hy; cases hy
    · exact Or.inl hy
  · rcases hcases k with he | he <;> rw [he] at hl
    · rw [hx] at hl; cases hl
    · exact Or.inl hl
  · rcases hcases k with he | he <;> rw [he] at hps
    · exact Or.inr ((hc ps hps).lasts hok hok' hl)
    · exact Or.inl hps

/-- A changed statement keeps the invariant. What it exposes has to come from its extents, the
columns of a new nested join from its subselect, and its clauses have to be legible. -/
theorem ColumnsOK.modify (h : σ.ColumnsOK) (hok : σ.OK) (hok' : (σ.modify i f).OK) (hi : i < σ.size)
    (hl : Lasts σ (σ.modify i f)) (hlisted : ∀ c, .symbol c ∈ (f (σ.get i)).exposed →
      ∃ x ∈ (f (σ.get i)).fromExtents, ∃ e, σ.symbols.Reaches x e ∧ σ.Holds e c)
    (hnested : ∀ y ∈ (f (σ.get i)).aliases, y ∉ (σ.get i).aliases → ∀ join, (σ.symbols.get y).join = some join →
      ∀ c ∈ join.columns, ∀ j, (f (σ.get i)).Wraps j y → .symbol c ∈ (σ.get j).exposed)
    (hapart : ∀ l, (f (σ.get i)).fromExtents = [l] → (σ.get i).fromExtents = [l] ∨ (σ.symbols.get l).isJoin = true ∨
      ∀ key c, ¬ σ.symbols.Files l key c) (hreads : ∀ ps ∈ (f (σ.get i)).clauses, (σ.modify i f).Legible ps) :
    (σ.modify i f).ColumnsOK := by
  have hcases : ∀ k, (k = i ∧ (σ.modify i f).get k = f (σ.get i)) ∨ (σ.modify i f).get k = σ.get k := by
    intro k
    by_cases hk : k = i
    · subst hk; exact Or.inl ⟨rfl, get_modify_self hi f⟩
    · exact Or.inr (get_modify_of_ne hk f)
  refine h.later hok hok' hl (filing_of_eq hok rfl) nofun (fun c hc => Or.inl hc) (fun y join hj => Or.inl hj)
    (fun k c hc => ?_) (fun k y hy => ?_) (fun k l hk => ?_) fun k ps hps => ?_
  · rcases hcases k with ⟨-, he⟩ | he <;> rw [he] at hc ⊢
    · exact Or.inr (hlisted c hc)
    · exact Or.inl hc
  · rcases hcases k with ⟨rfl, he⟩ | he <;> rw [he] at hy ⊢
    · by_cases hold : y ∈ (σ.get k).aliases
      · exact Or.inl hold
      · exact Or.inr fun join hj c hc j hw => hl.exposed (hnested y hy hold join hj c hc j hw)
    · exact Or.inl hy
  · rcases hcases k with ⟨rfl, he⟩ | he <;> rw [he] at hk
    · exact hapart l hk
    · exact Or.inl hk
  · rcases hcases k with ⟨-, he⟩ | he <;> rw [he] at hps
    · exact Or.inr (hreads ps hps)
    · exact Or.inl hps

/-- A statement with other clauses, the same select list and the same `FROM` list. -/
theorem ColumnsOK.clauses (h : σ.ColumnsOK) (hok : σ.OK) (hok' : (σ.modify i f).OK) (hi : i < σ.size)
    (hs : (f (σ.get i)).selectList = (σ.get i).selectList) (hf : (f (σ.get i)).fromList = (σ.get i).fromList)
    (hx : (f (σ.get i)).fromExtents = (σ.get i).fromExtents) (hreads : ∀ ps ∈ (f (σ.get i)).clauses, σ.Legible ps) :
    (σ.modify i f).ColumnsOK ∧ Lasts σ (σ.modify i f) := by
  have hitems : (f (σ.get i)).fromItems = (σ.get i).fromItems := by unfold fromItems; rw [hf]
  have hal : (f (σ.get i)).aliases = (σ.get i).aliases := by unfold aliases; rw [hitems]
  have hl : Lasts σ (σ.modify i f) := lasts_modify (fun _ => ⟨hs, hx⟩) (by rw [hf])
  refine ⟨h.modify hok hok' hi hl (fun c hc => ?_) (fun y hy hno => ?_) (fun l hl => Or.inl (by rw [← hx]; exact hl))
    fun ps hps => (hreads ps hps).lasts hok hok' hl, hl⟩
  · rw [exposed_congr hs] at hc
    rw [hx]; exact h.listed hc
  · rw [hal] at hy; exact absurd hy hno

/-- A column that is filed by the only extent of a statement is not marked for renaming: only that
statement lists columns of the extent, and it has no other one of that name. -/
theorem ColumnsOK.unmarked {l : SymbolId} {key : String} (h : σ.ColumnsOK) (hok : σ.OK)
    (hx : (σ.get i).fromExtents = [l]) (hj : (σ.symbols.get l).join = none) (hf : σ.symbols.Files l key c) :
    (σ.symbols.get c).needsRenaming = false := by
  by_contra hm
  obtain ⟨k, c', hne, hname, hc, hc'⟩ := h.marked (by simpa using hm)
  have hl : l ∈ (σ.get i).fromExtents := by rw [hx]; exact mem_singleton_self l
  have hflat : (σ.symbols.get l).isFlat = false := by unfold Symbol.isFlat; rw [hj]
  -- the statement with the clash has the column from `l`, and so is the one that declares `l`
  obtain ⟨x, hxk, e, hr, he⟩ := h.listed hc
  obtain rfl : e = l := by
    rcases he with ⟨-, key', he⟩ | ⟨join, hjoin, hmem⟩
    · exact hok.tidy.once.extent he hf
    · exact absurd hf (h.apart hjoin c hmem i l key hx hj)
  obtain rfl : k = i := hok.unique k i e ((hok.statement k).leaves x hxk e hr) ((hok.statement i).leaves e hl e (.self hflat))
  obtain ⟨x', hxk', e', hr', he'⟩ := h.listed hc'
  rw [hx, mem_singleton] at hxk'
  subst hxk'
  obtain rfl : e' = x' := (reaches_of_not_flat hflat).1 hr'
  rcases he' with ⟨-, key', he'⟩ | ⟨join, hjoin, -⟩
  · rw [hok.tidy.once.key he', hok.tidy.once.key hf] at hname
    exact hne (hok.tidy.once.column (hname ▸ he') hf)
  · rw [hj] at hjoin; cases hjoin

end

end Store

end RelSql
