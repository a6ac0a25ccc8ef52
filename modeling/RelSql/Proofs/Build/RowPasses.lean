/-
Rows on their way into statements. An expression with rows is the source of a statement, a variable over it
stands for an extent, and the statement is one about the rows once the extent is declared; it may have to be
wrapped or completed then. A property of rows that each of these steps passes on is one of the statement that an
operator makes out of the rows of its input.
-/
import RelSql.Proofs.Build.Clauses
import RelSql.Proofs.Statement.Exposed

namespace RelSql

open RelSql.Part Build

namespace Statement

variable {s t : Statement}

/-- The statement gets a mark or a plain row count, and stays as it is otherwise. -/
inductive Cuts (s : Statement) : Statement → Prop where
  | distinct : Cuts s { s with distinct := true }
  | top {ps : List Part} {c : String} (h : atoms ps = [.text c]) : Cuts s { s with top := some ps }
  | skip {ps : List Part} {c : String} (h : atoms ps = [.text c]) : Cuts s { s with skip := some ps }

theorem Cuts.kept (h : s.Cuts t) : t.selectList = s.selectList ∧ t.fromList = s.fromList ∧
    t.fromExtents = s.fromExtents ∧ t.joinExtents = s.joinExtents ∧ t.output = s.output := by
  cases h <;> exact ⟨rfl, rfl, rfl, rfl, rfl⟩

theorem Cuts.clauses {p : List Part → Prop} (h : s.Cuts t) (hs : ∀ ps ∈ s.clauses, p ps)
    (hp : ∀ {ps c}, atoms ps = [.text c] → p ps) : ∀ ps ∈ t.clauses, p ps := by
  obtain ⟨hselect, hfrom, hcondition, hgrouping, hordering, htop, hskip⟩ := forall_mem_clauses.1 hs
  cases h with
  | distinct => exact hs
  | top h => exact forall_mem_clauses.2 ⟨hselect, hfrom, hcondition, hgrouping, hordering, hp h, hskip⟩
  | skip h => exact forall_mem_clauses.2 ⟨hselect, hfrom, hcondition, hgrouping, hordering, htop, hp h⟩

end Statement

namespace Build

open Store

/-- A property of rows of a type by the stages that they go through: what reads them, the extent of a variable
over it, the statement with the extent declared, and the one that selects them. `Ready` holds wherever an
expression is built, and `Inv` of all statements. -/
structure RowPass (type : DataType) where
  Ready : Build → Prop
  Inv : Store → Prop
  Source : Store → StatementId → Prop
  Input : Store → StatementId → SymbolId → Prop
  Rows : Store → StatementId → Prop
  Shown : Store → StatementId → Prop

namespace RowPass

variable {type : DataType} {P : RowPass type}

/-- The steps pass the property on from one stage to the next. -/
structure Lawful (P : RowPass type) : Prop where
  good : ∀ ⦃b : Build⦄, P.Ready b → Good b ∧ b.inJoin = false
  enter : ∀ ⦃b : Build⦄, P.Ready b → P.Ready { b with scopes := b.scopes.enter }
  extent : ∀ ⦃σ : Store⦄ ⦃b b' : Build⦄ ⦃path k i x name⦄, Owns σ path b.store k → P.Inv b.store → P.Source b.store k →
    Runs (variableExtent name type k) b (i, x) b' → P.Inv b'.store ∧ P.Input b'.store i x
  rows : ∀ ⦃σ : Store⦄ ⦃i x⦄, InputOf σ i x → P.Input σ i x → P.Rows σ i ∨ (σ.get i).fromExtents = [] ∧ (σ.get i).selectList = []
  wrap : ∀ ⦃σ : Store⦄ ⦃b b' : Build⦄ ⦃path k i x name⦄, Owns σ path b.store k → P.Inv b.store → P.Rows b.store k →
    Runs (subselect k name type true) b (i, x) b' → P.Inv b'.store ∧ P.Input b'.store i x
  declare : ∀ ⦃σ : Store⦄ ⦃b b' : Build⦄ ⦃path i x u⦄, Owns σ path b.store i → InputOf b.store i x → P.Inv b.store →
    P.Input b.store i x → Runs (declareExtent i x) b u b' → P.Inv b'.store ∧ P.Rows b'.store i
  complete : ∀ ⦃σ : Store⦄ ⦃b b' : Build⦄ ⦃path i u⦄, Owns σ path b.store i → P.Inv b.store → P.Rows b.store i →
    Runs (selectAllIfNone i) b u b' → P.Inv b'.store ∧ P.Rows b'.store i ∧ P.Shown b'.store i
  cut : ∀ ⦃σ : Store⦄ ⦃b b' : Build⦄ ⦃path i f⦄, Owns σ path b.store i → b'.store.OK → P.Inv b.store → P.Rows b.store i →
    b' = { b with statements := b.statements.modify i f } → (b.store.get i).Cuts (f (b.store.get i)) →
    P.Inv b'.store ∧ P.Rows b'.store i

/-- The operand has rows with the property. -/
structure Feeds (P : RowPass type) (operand : Operand) : Prop where
  sound : ValueOK operand
  source : ∀ ⦃b b' : Build⦄ ⦃i⦄, P.Ready b → Runs (sourceStatement operand) b i b' → P.Inv b'.store ∧ P.Source b'.store i
  declared : declaresExtent operand.expr = true → ∀ ⦃b b' : Build⦄ ⦃i⦄, P.Ready b → Runs operand.build b (.statement i) b' →
    P.Inv b'.store ∧ P.Rows b'.store i

/-- The step makes a statement about rows with the property. -/
def Keeps (P : RowPass type) (m : BuildM StatementId) : Prop :=
  ∀ ⦃b b' : Build⦄ ⦃i⦄, P.Ready b → Runs m b i b' → Step b b' ∧ P.Inv b'.store ∧ P.Rows b'.store i

section

variable {operand : Operand} {b b' : Build} {i : StatementId} {x : SymbolId} {name : String} {op : Operator}

theorem Lawful.input (h : P.Lawful) (hv : P.Feeds operand) (hb : P.Ready b)
    (hr : Runs (input operand name type) b (i, x) b') : P.Inv b'.store ∧ P.Input b'.store i x := by
  rw [input_eq] at hr
  obtain ⟨k, b1, hk, hr⟩ := runs_bind.1 hr
  obtain ⟨hgood, hfree⟩ := h.good hb
  obtain ⟨hc, hsource⟩ := hv.source hb hk
  exact h.extent (sourceStatement_spec hv.sound hgood hfree hk).1 hc hsource hr

theorem Lawful.inputFor (h : P.Lawful) (hv : P.Feeds operand) (hb : P.Ready b)
    (hr : Runs (inputFor op operand name type) b (i, x) b') : P.Inv b'.store ∧ P.Input b'.store i x := by
  obtain ⟨k, y, b1, hin, ⟨-, rfl, rfl, rfl⟩ | ⟨-, hsub⟩⟩ := inputFor_cases hr
  · exact h.input hv hb hin
  · obtain ⟨ho, -, hx⟩ := input_spec hv.sound (h.good hb).1 (h.good hb).2 hin
    obtain ⟨hc, hinput⟩ := h.input hv hb hin
    rcases h.rows hx hinput with hrows | ⟨hnone, hs⟩
    · exact h.wrap ho hc hrows hsub
    · -- without an extent there is nothing to wrap
      obtain ⟨_, _, _, ⟨-, -, _, hsel, -⟩ | ⟨hne, -⟩, -⟩ := subselect_cases hsub
      · exact absurd hsel (not_runs_selectAll hnone)
      · exact absurd hs (hne rfl)

end

variable {operand count : Operand} {P : RowPass operand.expr.rowType} {b b' : Build} {i : StatementId} {complete : Bool}

theorem Lawful.declaredStatement (h : P.Lawful) (hv : P.Feeds operand) (hb : P.Ready b)
    (hr : Runs (declaredStatement operand) b i b') : P.Inv b'.store ∧ P.Rows b'.store i := by
  rcases declaredStatement_cases hr with ⟨hd, hf⟩ | ⟨y, b1, _, b2, hin, hdecl, rfl⟩
  · exact hv.declared hd hb hf
  · obtain ⟨hgood, hfree⟩ := h.good (h.enter hb)
    obtain ⟨ho, -, hx⟩ := input_spec hv.sound hgood hfree hin
    obtain ⟨hc, hinput⟩ := h.input hv (h.enter hb) hin
    obtain ⟨hc', hrows⟩ := h.declare ho hx hc hinput hdecl
    exact ⟨hc', hrows⟩

theorem Lawful.asStatement (h : P.Lawful) (hv : P.Feeds operand) (hb : P.Ready b)
    (hr : Runs (asStatement operand complete) b i b') :
    Step b b' ∧ P.Inv b'.store ∧ P.Rows b'.store i ∧ (complete = true → P.Shown b'.store i) := by
  obtain ⟨hgood, hfree⟩ := h.good hb
  obtain ⟨ho', hs'⟩ := asStatement_spec hv.sound hgood hfree hr
  refine ⟨⟨ho'.ok, hs', ho'.grows⟩, ?_⟩
  obtain ⟨b1, hk, hr⟩ := asStatement_cases hr
  obtain ⟨hc, hrows⟩ := h.declaredStatement hv hb hk
  rcases hr with ⟨-, _, hsel⟩ | ⟨rfl, rfl⟩
  · obtain ⟨hc', hrows', hshown⟩ := h.complete (declaredStatement_spec hv.sound hgood hfree hk).1 hc hrows hsel
    exact ⟨hc', hrows', fun _ => hshown⟩
  · exact ⟨hc, hrows, nofun⟩

/-! ## Row counts and duplicates -/

/-- An operand as a statement that takes the operator, wrapped if need be. -/
theorem Lawful.wrapped (h : P.Lawful) (hv : P.Feeds operand) {b1 : Build} {j : StatementId} {op : Operator}
    {name : String} (hb : P.Ready b) (has : Runs (Build.asStatement operand complete) b j b1)
    (hwrap : Runs (wrapUnless op name operand.expr.rowType j) b1 i b') :
    Owns b.store (around b.building) b'.store i ∧ P.Inv b'.store ∧ P.Rows b'.store i := by
  obtain ⟨hgood, hfree⟩ := h.good hb
  obtain ⟨ho, -⟩ := asStatement_spec hv.sound hgood hfree has
  obtain ⟨-, hc, hrows, -⟩ := h.asStatement hv hb has
  refine ⟨(wrapUnless_spec ho hwrap).1, ?_⟩
  rcases wrapUnless_cases hwrap with ⟨-, rfl, rfl⟩ | ⟨-, y, b2, _, hsub, hdecl⟩
  · exact ⟨hc, hrows⟩
  · obtain ⟨ho2, -, hx⟩ := subselect_spec ho hsub
    obtain ⟨hc2, hinput⟩ := h.wrap ho hc hrows hsub
    exact h.declare ho2 hx hc2 hinput hdecl

theorem atoms_rowCount {ps : List Part} (hcount : CountOK count) (hr : Runs (rowCount count) b ps b') :
    b' = b ∧ ∃ t, atoms ps = [.text t] := by
  obtain ⟨rfl, t, rfl | rfl⟩ := rowCount_text hcount hr <;> exact ⟨rfl, t, by simp⟩

theorem Lawful.limit (h : P.Lawful) (hv : P.Feeds operand) (hcount : CountOK count) (withTies : Bool) :
    P.Keeps (limit withTies operand count) := by
  intro b b' i hb hr
  obtain ⟨ho', hs'⟩ := limit_makes hv.sound hcount (h.good hb).1 (h.good hb).2 hr
  simp only [Build.limit, runs_bind, runs_ite, runs_throw, runs_pure, false_and, exists_const, and_false, false_or] at hr
  obtain ⟨-, j, b1, has, k, b2, hwrap, ps, b3, hn, _, b4, hset, rfl, rfl⟩ := hr
  obtain ⟨ho, hc, hrows⟩ := h.wrapped hv hb has hwrap
  obtain ⟨rfl, t, hps⟩ := atoms_rowCount hcount hn
  obtain ⟨s, hs, hb'⟩ := runs_tryUpdateStatement.1 hset
  obtain rfl := setTop_eq hs
  exact ⟨⟨ho'.ok, hs', ho'.grows⟩, h.cut ho ho'.ok hc hrows hb' (.top hps)⟩

theorem Lawful.singleton (h : P.Lawful) (hv : P.Feeds operand) : P.Keeps (singleton operand) := by
  intro b b' i hb hr
  obtain ⟨ho', hs'⟩ := singleton_makes hv.sound (h.good hb).1 (h.good hb).2 hr
  simp only [Build.singleton, runs_bind, runs_pure] at hr
  obtain ⟨j, b1, has, k, b2, hwrap, _, b3, hset, rfl, rfl⟩ := hr
  obtain ⟨ho, hc, hrows⟩ := h.wrapped hv hb has hwrap
  obtain ⟨s, hs, hb'⟩ := runs_tryUpdateStatement.1 hset
  obtain rfl := setTop_eq hs
  exact ⟨⟨ho'.ok, hs', ho'.grows⟩, h.cut ho ho'.ok hc hrows hb' (.top (c := "1") (by simp))⟩

theorem Lawful.distinct (h : P.Lawful) (hv : P.Feeds operand) : P.Keeps (distinct operand) := by
  intro b b' i hb hr
  obtain ⟨ho', hs'⟩ := distinct_makes hv.sound (h.good hb).1 (h.good hb).2 hr
  simp only [Build.distinct, runs_bind, runs_updateStatement, runs_pure] at hr
  obtain ⟨j, b1, has, k, b2, hwrap, -, b3, hb3, rfl, rfl⟩ := hr
  obtain ⟨ho, hc, hrows⟩ := h.wrapped hv hb has hwrap
  exact ⟨⟨ho'.ok, hs', ho'.grows⟩, h.cut ho ho'.ok hc hrows hb3 .distinct⟩

/-- A row count behind an order. -/
theorem Lawful.skip {P : RowPass type} (h : P.Lawful) {input : Binding Operand} {keys : List (SortKey Operand)}
    (hv : ValueOK input.expr) (hk : ∀ k ∈ keys, ValueOK k.expr) (hcount : CountOK count)
    (hord : P.Keeps (ordered .skip input keys)) : P.Keeps (skip input keys count) := by
  intro b b' i hb hr
  obtain ⟨hgood, hfree⟩ := h.good hb
  obtain ⟨ho', hs'⟩ := skip_makes hv hk hcount hgood hfree hr
  simp only [Build.skip, runs_bind, runs_pure] at hr
  obtain ⟨k, b1, hrun, ps, b2, hn, _, b3, hset, rfl, rfl⟩ := hr
  obtain ⟨-, hc, hrows⟩ := hord hb hrun
  obtain ⟨rfl, t, hps⟩ := atoms_rowCount hcount hn
  obtain ⟨s, hs, hb'⟩ := runs_tryUpdateStatement.1 hset
  obtain rfl := setSkip_eq hs
  exact ⟨⟨ho'.ok, hs', ho'.grows⟩, h.cut (ordered_makes hv hk hgood hfree hrun).1 ho'.ok hc hrows hb' (.skip hps)⟩

end RowPass

end Build

end RelSql
