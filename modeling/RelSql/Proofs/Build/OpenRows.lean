/-
Statements that will return the members of the rows they read. As long as such a statement selects
nothing, its one extent is plain and has no columns, so that a star over it selects one new column for
each member. What is built inside the statement cannot change that: it files no columns of extents that
are not its own.
-/
import RelSql.Proofs.Build.RowPasses
import RelSql.Proofs.Build.Stars

namespace RelSql

open Symbols Ident Store List

variable {f : Statement → Statement} {name : String} {names : List String}

/-- The rows of the type have members, all of different names. -/
structure DataType.HasColumns (ty : DataType) : Prop where
  row : ty.isRow = true
  some : ty.properties ≠ []
  names : ty.properties.Pairwise fun m n => same m.1 n.1 = false

namespace Store

variable {σ τ : Store} {i : StatementId} {x : SymbolId} {ty : DataType}

/-- An extent over rows of the type: no join, and without columns so far. -/
structure Plain (σ : Store) (x : SymbolId) (ty : DataType) : Prop where
  type : (σ.symbols.get x).type = some ty
  join : (σ.symbols.get x).join = none
  columns : (σ.symbols.get x).columns = []

/-- The statement selects nothing so far, and reads rows of the type as the extent. -/
structure Bare (σ : Store) (i : StatementId) (x : SymbolId) (ty : DataType) : Prop where
  select : (σ.get i).selectList = []
  extents : (σ.get i).fromExtents = [x]
  plain : σ.Plain x ty

/-- The column is reported under the name: it is new, and nothing marks it for another one. -/
def Reports (σ : Store) : OutputColumn → String → Prop
  | .named n, name => n = name
  | .symbol c, name => c < σ.symbols.size ∧ σ.symbols.get c = .column name

/-- The statement returns columns that are reported under the names. -/
structure Returns (σ : Store) (i : StatementId) (names : List String) : Prop where
  select : (σ.get i).selectList ≠ []
  output : List.Forall₂ σ.Reports (σ.get i).output names

/-- The statement of an expression with rows of the type: it has no extent yet, selects nothing yet, or
returns the members. -/
inductive Tabled (σ : Store) (ty : DataType) (i : StatementId) : Prop where
  | source (hs : (σ.get i).selectList = []) (hx : (σ.get i).fromExtents = [])
  | bare (x : SymbolId) (h : σ.Bare i x ty)
  | returns (h : σ.Returns i (ty.properties.map Prod.fst))

theorem Plain.lt (h : σ.Plain x ty) : x < σ.symbols.size := by
  by_contra hx
  have ht := h.type
  rw [Symbols.get_of_size_le (not_lt.1 hx)] at ht
  cases ht

theorem Plain.isFlat (h : σ.Plain x ty) : (σ.symbols.get x).isFlat = false := by
  unfold Symbol.isFlat
  rw [h.join]

theorem Plain.of_symbol (h : σ.Plain x ty) (hs : τ.symbols.get x = σ.symbols.get x) : τ.Plain x ty :=
  ⟨by rw [hs]; exact h.type, by rw [hs]; exact h.join, by rw [hs]; exact h.columns⟩

theorem Bare.alias (h : σ.Bare i x ty) (hok : σ.OK) : x ∈ (σ.get i).aliases :=
  (hok.statement i).leaves x (by rw [h.extents]; exact mem_singleton_self x) x (.self h.plain.isFlat)

theorem Bare.lt (h : σ.Bare i x ty) (hok : σ.OK) : i < σ.size := lt_of_mem_aliases (h.alias hok)

/-- What is built while the statement waits leaves it as it is. -/
theorem Bare.grows (h : σ.Bare i x ty) (hok : σ.OK) (hg : Grows σ.size σ τ) : τ.Bare i x ty := by
  have hi := h.lt hok
  have hsame := hg.text i hi
  have hsymbol := hg.symbols.symbol x h.plain.lt
  refine ⟨by rw [hsame.selectList]; exact h.select, by rw [hsame.fromExtents]; exact h.extents, ?_, ?_, ?_⟩
  · rw [hsymbol.type]; exact h.plain.type
  · rw [hsymbol.join]; exact h.plain.join
  · rw [hg.columns i hi x (h.alias hok)]; exact h.plain.columns

/-- The statement may get other clauses. -/
theorem Bare.modify (h : σ.Bare i x ty) (hok : σ.OK) (hs : (f (σ.get i)).selectList = (σ.get i).selectList)
    (hx : (f (σ.get i)).fromExtents = (σ.get i).fromExtents) :
    (σ.modify i f).Bare i x ty := by
  have hget : (σ.modify i f).get i = f (σ.get i) := get_modify_self (h.lt hok) f
  exact ⟨by rw [hget, hs]; exact h.select, by rw [hget, hx]; exact h.extents, h.plain.of_symbol rfl⟩

theorem Reports.of_symbols {o : OutputColumn} (h : σ.Reports o name) (hsize : σ.symbols.size ≤ τ.symbols.size)
    (hs : ∀ c < σ.symbols.size, σ.symbols.get c = .column name → τ.symbols.get c = .column name) :
    τ.Reports o name := by
  cases o with
  | named n => exact h
  | symbol c => exact ⟨lt_of_lt_of_le h.1 hsize, hs c h.1 h.2⟩

theorem Returns.of_symbols (h : σ.Returns i names) (hsize : σ.symbols.size ≤ τ.symbols.size)
    (hs : ∀ c < σ.symbols.size, τ.symbols.get c = σ.symbols.get c)
    (hselect : (τ.get i).selectList = (σ.get i).selectList) (hout : (τ.get i).output = (σ.get i).output) :
    τ.Returns i names := by
  refine ⟨by rw [hselect]; exact h.select, ?_⟩
  rw [hout]
  exact h.output.imp fun o name hr => hr.of_symbols hsize fun c hc hcol => (hs c hc).trans hcol

theorem Returns.modify (h : σ.Returns i names) (hs : (f (σ.get i)).selectList = (σ.get i).selectList)
    (ho : (f (σ.get i)).output = (σ.get i).output) :
    (σ.modify i f).Returns i names := by
  have hget := get_modify σ i i f
  refine h.of_symbols (le_refl _) (fun _ _ => rfl) ?_ ?_ <;> rw [hget] <;> split
  · exact hs
  · rfl
  · exact ho
  · rfl

end Store

namespace Build

open Store

/-! ## A star over new columns -/

/-- A plain extent without columns gets a new one for each name. -/
theorem starMembers_new {x : SymbolId} : ∀ {names : List String} {b b' : Build} {stars : List StarColumn},
    names.Pairwise (fun m n => same m n = false) → x < b.names.symbols.size →
    (∀ n ∈ names, (b.names.symbols.get x).column? n = none) → Runs (names.mapM (starMember x)) b stars b' →
    b.names.symbols.size ≤ b'.names.symbols.size ∧
      (∀ d < b.names.symbols.size, d ≠ x → b'.names.symbols.get d = b.names.symbols.get d) ∧
      List.Forall₂ (fun s name => s.column < b'.names.symbols.size ∧ b'.names.symbols.get s.column = .column name)
        stars names
  | [], b, b', stars, _, _, _, hr => by
    rw [mapM_nil] at hr
    obtain ⟨rfl, rfl⟩ := runs_pure.1 hr
    exact ⟨le_refl _, fun _ _ _ => rfl, .nil⟩
  | name :: rest, b, b', stars, hd, hx, hnone, hr => by
    obtain ⟨hhead, hd⟩ := pairwise_cons.1 hd
    obtain ⟨hno, hnone⟩ := forall_mem_cons.1 hnone
    rw [mapM_cons] at hr
    simp only [runs_bind, runs_pure] at hr
    obtain ⟨s, b1, hs, more, b2, hmore, rfl, rfl⟩ := hr
    simp only [starMember, runs_bind, runs_registerColumn, runs_columnOf, runs_pure, and_assoc, exists_and_left,
      exists_eq_left, exists_const, columnOrInsert_of_none hno] at hs
    obtain ⟨rfl, hb1⟩ := hs
    have hget := get_insert hx name
    have hsymbols : b1.names.symbols = (b.names.symbols.push (.column name)).modify x fun s =>
        { s with columns := s.columns ++ [(key name, b.names.symbols.size)] } := by rw [hb1]
    rw [← hsymbols] at hget
    have hsize : b1.names.symbols.size = b.names.symbols.size + 1 := by rw [hsymbols]; simp
    have hfree : ∀ n ∈ rest, (b1.names.symbols.get x).column? n = none := by
      intro n hn
      rw [hget, if_neg (Nat.ne_of_lt hx), if_pos rfl]
      -- the new column has another key than those to come
      have hne : key n ≠ key name := fun h => by
        have hsame := hhead n hn
        rw [same_iff.2 h.symm] at hsame
        cases hsame
      have hold := hnone n hn
      unfold Symbol.column? at hold ⊢
      rw [lookup_append, hold, lookup_cons, beq_eq_false_iff_ne.2 hne]
      rfl
    have hlater : ∀ {d : SymbolId}, d < b.names.symbols.size → d < b1.names.symbols.size :=
      fun hlt => by rw [hsize]; exact Nat.lt_succ_of_lt hlt
    have hnew : b.names.symbols.size < b1.names.symbols.size := by rw [hsize]; exact Nat.lt_succ_self _
    obtain ⟨hle, hkeep, hall⟩ := starMembers_new hd (hlater hx) hfree hmore
    refine ⟨(Nat.le_of_lt hnew).trans hle, fun d hlt hne => ?_, .cons ?_ hall⟩
    · rw [hkeep d (hlater hlt) hne, hget, if_neg (Nat.ne_of_lt hlt), if_neg hne]
    · dsimp only
      rw [hkeep _ hnew (Nat.ne_of_gt hx), hget, if_pos rfl]
      exact ⟨lt_of_lt_of_le hnew hle, rfl⟩

section

variable {columns : List SymbolId} {u : PUnit} {operand : Operand}

variable {σ : Store} {path : Path} {b b' : Build} {i : StatementId} {x : SymbolId} {ty : DataType}

theorem leaves_of_plain (h : b.store.Plain x ty) : b.names.symbols.leaves x = [x] := by
  have hlt := h.lt
  have hj : (b.names.symbols.get x).join = none := h.join
  unfold leaves
  obtain ⟨n, hn⟩ := Nat.exists_eq_succ_of_ne_zero (Nat.ne_of_gt (Nat.zero_lt_of_lt hlt))
  change Array.size b.names.symbols = _ at hn
  rw [hn, expand, hj]

/-- The columns of a plain extent are new, one for each member. -/
theorem starColumns_new {stars : List StarColumn} (h : b.store.Plain x ty) (hd : ty.HasColumns)
    (hr : Runs (starColumns x) b stars b') :
    List.Forall₂ (fun s name => s.column < b'.names.symbols.size ∧ b'.names.symbols.get s.column = .column name)
      stars (ty.properties.map Prod.fst) := by
  have ht : (b.names.symbols.get x).type = some ty := h.type
  have hj : (b.names.symbols.get x).join = none := h.join
  have hc : (b.names.symbols.get x).columns = [] := h.columns
  simp only [starColumns, runs_bind, runs_symbol, and_assoc, exists_and_left, exists_eq_left, hj,
    memberNames_of_row ht hd.row] at hr
  refine (starMembers_new (pairwise_map.2 hd.names) h.lt (fun n _ => ?_) hr).2.2
  unfold Symbol.column?
  rw [hc]; rfl

/-- A star over the plain extent of a statement returns the members of its rows. -/
theorem selectAll_returns (h : Owns σ path b.store i) (hbare : b.store.Bare i x ty) (hd : ty.HasColumns)
    (hr : Runs (selectAll i) b columns b') : b'.store.Returns i (ty.properties.map Prod.fst) := by
  have hleaves : starLeaves b.store i = [x] := by
    rw [starLeaves, hbare.extents, flatMap_singleton]; exact leaves_of_plain hbare.plain
  obtain ⟨starss, b1, hstars, hne, rfl, hb'⟩ := runs_selectAll.1 hr
  rw [hleaves, mapM_cons, mapM_nil] at hstars
  simp only [runs_bind, runs_pure, and_assoc, exists_and_left, exists_eq_left] at hstars
  obtain ⟨stars, _, hstars, rfl, rfl⟩ := hstars
  rw [flatten_singleton] at hne hb'
  have hall := starColumns_new hbare.plain hd hstars
  have hstep := (starColumns_spec h.ok hbare.plain.lt hstars).1
  -- the columns have the names of the members, and so none is marked
  have hnames : stars.map (fun s => (b1.names.symbols.get s.column).name) = ty.properties.map Prod.fst := by
    rw [← forall₂_eq_eq_eq, forall₂_map_left_iff]
    exact hall.imp fun s name hs => by rw [hs.2]; rfl
  have hpairwise : (stars.map StarColumn.column).Pairwise fun c d =>
      key (b1.names.symbols.get c).name ≠ key (b1.names.symbols.get d).name := by
    have hdistinct : (ty.properties.map Prod.fst).Pairwise fun m n => key m ≠ key n :=
      pairwise_map.2 (hd.names.imp fun hs heq => by rw [same_iff.2 heq] at hs; cases hs)
    rw [← hnames, pairwise_map] at hdistinct
    exact pairwise_map.2 hdistinct
  rw [marked, markClashes_of_pairwise hpairwise fun _ _ => rfl] at hb'
  have hget : b'.store.get i = withStar stars (b.store.get i) := by
    have hi : i < b1.store.size := lt_of_lt_of_le h.lt hstep.retains.size
    have hstore : b'.store = b1.store.modify i (withStar stars) := by rw [hb']; rfl
    rw [hstore, get_modify_self hi, hstep.get]
  have houtput : (b'.store.get i).output = stars.map fun s => .symbol s.column := by
    rw [hget]
    change (b.store.get i).output ++ _ = _
    rw [(h.ok.tidy.selects i).output hbare.select, nil_append, map_map]; rfl
  refine ⟨by rw [hget]; exact selectList_withStar hne _, ?_⟩
  rw [houtput, forall₂_map_left_iff]
  refine hall.imp fun s name hs => ?_
  rw [hb']; exact hs

theorem selectAllIfNone_returns (h : Owns σ path b.store i) (ht : b.store.Tabled ty i) (hd : ty.HasColumns)
    (hr : Runs (selectAllIfNone i) b u b') : b'.store.Returns i (ty.properties.map Prod.fst) := by
  rcases selectAllIfNone_cases hr with ⟨hnil, columns, hr⟩ | ⟨hne, rfl⟩
  · cases ht with
    | source hs hx => exact absurd hr (not_runs_selectAll hx)
    | bare x hbare => exact selectAll_returns h hbare hd hr
    | returns hreturns => exact absurd hnil hreturns.select
  · cases ht with
    | source hs hx => exact absurd hs hne
    | bare x hbare => exact absurd hbare.select hne
    | returns hreturns => exact hreturns

/-! ## Inputs -/

/-- What the operand builds outside of a join, if it is a statement, reads rows of the type. -/
def Tabulates (operand : Operand) (ty : DataType) : Prop :=
  ∀ ⦃b b' : Build⦄ ⦃i : StatementId⦄, Good b → b.inJoin = false → Runs operand.build b (.statement i) b' →
    b'.store.Tabled ty i

theorem sourceStatement_tabled (ht : Tabulates operand ty) (hb : Good b) (hj : b.inJoin = false)
    (hr : Runs (sourceStatement operand) b i b') : b'.store.Tabled ty i := by
  obtain ⟨f, b1, hf, ⟨rfl, rfl⟩ | ⟨-, rfl, hb'⟩⟩ := sourceStatement_cases hr
  · exact ht hb hj hf
  · have hget : b'.store.get b1.store.size = { fromList := sourceParts operand.expr.isCall f } := by
      rw [hb']; exact get_push_size b1.store _
    exact .source (by rw [hget]) (by rw [hget])

theorem plain_newSymbol (hr : Runs (newSymbol (.extent name ty)) b x b') : b'.store.Plain x ty := by
  obtain ⟨rfl, hb'⟩ := runs_newSymbol.1 hr
  have hget : b'.store.symbols.get b.names.symbols.size = .extent name ty := by
    rw [hb']
    change Symbols.get (b.names.symbols.push _) _ = _
    rw [Symbols.get_push, if_pos rfl]
  exact ⟨by rw [hget]; rfl, by rw [hget]; rfl, by rw [hget]; rfl⟩

/-- The extent that a variable stands for, if the statement selects nothing yet. -/
structure Vacant (σ : Store) (i : StatementId) (x : SymbolId) (ty : DataType) : Prop where
  select : (σ.get i).selectList = []
  plain : σ.Plain x ty

theorem Vacant.tabled (h : Vacant σ i x ty) (hx : InputOf σ i x) : σ.Tabled ty i := by
  rcases hx with hx | ⟨hx, -⟩
  · exact .bare x ⟨h.select, hx, h.plain⟩
  · exact .source h.select hx

/-- A statement read by a variable selects nothing yet, or returns the members. -/
theorem variableExtent_tabled {k : StatementId} (ht : b.store.Tabled ty k)
    (hr : Runs (variableExtent name ty k) b (i, x) b') :
    Vacant b'.store i x ty ∨ b'.store.Returns i (ty.properties.map Prod.fst) := by
  have hpush : ∀ {s : Symbol} {c : SymbolId}, c < b.names.symbols.size →
      get (b.names.symbols.push s) c = b.names.symbols.get c := fun hc => get_push_of_lt hc _
  have hsize : ∀ s : Symbol, b.names.symbols.size ≤ (b.names.symbols.push s).size := by simp
  obtain ⟨rfl, ⟨hf, hnew⟩ | ⟨hf, rfl⟩ | ⟨hlen, rfl, hb'⟩⟩ := variableExtent_cases hr
  · have hb' := (runs_newSymbol.1 hnew).2
    cases ht with
    | source hs _ => exact Or.inl ⟨by rw [hb']; exact hs, plain_newSymbol hnew⟩
    | bare z hbare => rw [hbare.extents] at hf; cases hf
    | returns hreturns =>
      refine Or.inr (hreturns.of_symbols ?_ (fun c hc => ?_) ?_ ?_) <;> rw [hb']
      · exact hsize _
      · exact hpush hc
      · rfl
      · rfl
  · cases ht with
    | source _ hx => rw [hx] at hf; cases hf
    | bare z hbare =>
      obtain rfl : z = x := by rw [hbare.extents] at hf; exact (cons.inj hf).1
      exact Or.inl ⟨hbare.select, hbare.plain⟩
    | returns hreturns => exact Or.inr hreturns
  · cases ht with
    | source _ hx => rw [hx] at hlen; cases hlen
    | bare w hbare => rw [hbare.extents] at hlen; exact absurd hlen (lt_irrefl 1)
    | returns hreturns =>
      have hmodified : (b.store.modify i fun s => { s with fromExtents := [b.names.symbols.size] }).Returns i
          (ty.properties.map Prod.fst) := hreturns.modify rfl rfl
      refine Or.inr (hmodified.of_symbols ?_ (fun c hc => ?_) ?_ ?_) <;> rw [hb']
      · exact hsize _
      · exact hpush hc
      · rfl
      · rfl

/-- A variable over the statement has its extent declared there. -/
theorem declareExtent_bare (h : Owns σ path b.store i) (hx : InputOf b.store i x) (hv : Vacant b.store i x ty)
    (hr : Runs (declareExtent i x) b u b') : b'.store.Bare i x ty := by
  refine ⟨?_, (declareExtent_spec h hx hr).2.2, ?_⟩
  · rw [(declareExtent_clauses hr h.lt).selectList]; exact hv.select
  · rcases runs_declareExtent.1 hr with ⟨-, rfl⟩ | ⟨-, rfl⟩
    · exact hv.plain
    · exact hv.plain.of_symbol rfl

theorem declareExtent_returns (h : b.store.Returns i names) (hr : Runs (declareExtent i x) b u b') :
    b'.store.Returns i names := by
  rcases runs_declareExtent.1 hr with ⟨-, rfl⟩ | ⟨-, rfl⟩
  · exact h
  · exact (h.modify (f := (·.withExtent x)) rfl rfl).of_symbols (le_refl _) (fun _ _ => rfl) rfl rfl

/-! ## Subselects -/

theorem newSubselect_select {join : Option JoinInfo} {b1 : Build} (hx : Runs (newExtent name ty join) b x b1)
    (hb' : b' = { b1 with statements := b1.statements.push (overSubselect i) }) :
    (b'.store.get b1.statements.size).selectList = [] ∧ (join = none → b'.store.Plain x ty) := by
  refine ⟨?_, fun hj => ?_⟩
  · have hget : b'.store.get b1.statements.size = overSubselect i := by
      rw [hb']; exact get_push_size b1.store _
    rw [hget]; rfl
  · subst hj
    have hplain : b1.store.Plain x ty := plain_newSymbol hx
    exact hplain.of_symbol (by rw [hb']; rfl)

theorem selectAll_symbols (hok : b.store.OK) (hr : Runs (selectAll i) b columns b') :
    b.store.symbols.Grows b'.store.symbols := by
  obtain ⟨starss, b1, hstars, -, -, hb'⟩ := runs_selectAll.1 hr
  refine (starLeaves_spec hok hstars).1.filing.grows.trans ?_
  rw [hb']
  exact grows_markClashes _ _ _

/-- The statement over a subselect selects nothing yet. Its extent is plain, unless the subselect was a
join up to now. -/
theorem subselect_vacant {complete : Bool} {outer : StatementId} (h : Owns σ path b.store i)
    (hr : Runs (subselect i name ty complete) b (outer, x) b') :
    (b'.store.get outer).selectList = [] ∧ (b.store.Tabled ty i → b'.store.Plain x ty) := by
  obtain ⟨join, b1, b2, hcomplete, hy, rfl, hb'⟩ := subselect_cases hr
  obtain ⟨hselect, hplain⟩ := newSubselect_select hy hb'
  refine ⟨hselect, fun ht => hplain ?_⟩
  rcases hcomplete with ⟨-, hnil, columns, hsel, hnest⟩ | ⟨-, rfl, rfl⟩
  · cases ht with
    | source hs hx => exact absurd hsel (not_runs_selectAll hx)
    | returns hreturns => exact absurd hnil hreturns.select
    | bare z hbare =>
      -- the star leaves the extent as it is, and that is no join
      obtain ⟨ho, -, -, hextents, -⟩ := selectAll_spec h hbare.select hsel
      rw [hbare.extents] at hextents
      have hj : (b1.store.symbols.get z).join = none :=
        ((selectAll_symbols h.ok hsel).symbol z hbare.plain.lt).join.trans hbare.plain.join
      rw [(runs_nestedJoin?.1 hnest).1, hextents, head?_cons, Option.bind_some, hj]; rfl
  · rfl

/-! ## Operators over inputs -/

/-- Other clauses of the statement change nothing. -/
theorem update_tabled (hok : b.store.OK) (ht : b.store.Tabled ty i)
    (hb' : b' = { b with statements := b.statements.modify i f })
    (hs : (f (b.store.get i)).selectList = (b.store.get i).selectList)
    (hx : (f (b.store.get i)).fromExtents = (b.store.get i).fromExtents)
    (hout : (f (b.store.get i)).output = (b.store.get i).output) : b'.store.Tabled ty i := by
  have hstore : b'.store = b.store.modify i f := by rw [hb']; rfl
  rw [hstore]
  cases ht with
  | source hselect hextents =>
    have hget := get_modify b.store i i f
    refine .source ?_ ?_ <;> rw [hget] <;> split
    · exact hs.trans hselect
    · exact hselect
    · exact hx.trans hextents
    · exact hextents
  | bare x h => exact .bare x (h.modify hok hs hx)
  | returns h => exact .returns (h.modify hs hout)

/-- The rows of a type as a statement is to return them. -/
def tabledPass (ty : DataType) : RowPass ty where
  Ready b := Good b ∧ b.inJoin = false
  Inv _ := True
  Source σ i := σ.Tabled ty i
  Input σ i x := Vacant σ i x ty ∨ σ.Returns i (ty.properties.map Prod.fst)
  Rows σ i := σ.Tabled ty i
  Shown σ i := σ.Returns i (ty.properties.map Prod.fst)

theorem tabledPass_lawful (hd : ty.HasColumns) : (tabledPass ty).Lawful where
  good _ hb := hb
  enter _ hb := ⟨hb.1.enter, hb.2⟩
  extent _ _ _ _ _ _ _ _ _ _ ht hr := ⟨trivial, variableExtent_tabled ht hr⟩
  rows _ _ _ hx h := Or.inl (h.elim (·.tabled hx) .returns)
  wrap _ _ _ _ _ _ _ _ ho _ ht hr :=
    have ⟨hselect, hplain⟩ := subselect_vacant ho hr
    ⟨trivial, Or.inl ⟨hselect, hplain ht⟩⟩
  declare _ _ _ _ _ _ _ ho hx _ h hr := ⟨trivial, h.elim (fun hv => .bare _ (declareExtent_bare ho hx hv hr))
    fun h => .returns (declareExtent_returns h hr)⟩
  complete _ _ _ _ _ _ ho _ ht hr :=
    have h := selectAllIfNone_returns ho ht hd hr
    ⟨trivial, .returns h, h⟩
  cut _ _ _ _ _ _ ho _ _ ht hb' hcut :=
    have ⟨hs, _, hx, _, hout⟩ := hcut.kept
    ⟨trivial, update_tabled ho.ok ht hb' hs hx hout⟩

theorem Tabulates.feeds (ht : Tabulates operand ty) (hv : ValueOK operand) : (tabledPass ty).Feeds operand where
  sound := hv
  source _ _ _ hb hr := ⟨trivial, sourceStatement_tabled ht hb.1 hb.2 hr⟩
  declared _ _ _ _ hb hr := ⟨trivial, ht hb.1 hb.2 hr⟩

/-- What is built over the rows of an input leaves its statement as it is: it selects nothing, and its
extent has no columns. -/
theorem overRows_bare {α : Type} {op : Operator} {input : Binding Operand} {body : BuildM α} {post : α → List Part}
    {a : α} (hop : op.isEarly = true) (hv : ValueOK input.expr) (ht : Tabulates input.expr input.type)
    (hd : input.type.HasColumns) (hbody : Builds (Made []) body fun a => Made (post a)) (hb : Good b)
    (hj : b.inJoin = false) (hr : Runs (overRows op input body) b (i, a) b') : ∃ x, b'.store.Bare i x input.type := by
  obtain ⟨x, b1, _, b2, b3, hin, ho, -, hi, hdecl, hopen, hbody', rfl⟩ := overRows_cases hv hb hj hr
  obtain ⟨hstep, -⟩ := hbody hopen.good (by rw [hopen.inJoin]; exact hj) (le_refl _) sound_nil hbody'
  obtain ⟨-, hvacant | hreturns⟩ := (tabledPass_lawful hd).inputFor (ht.feeds hv) ⟨hb, hj⟩ hin
  · have hbare : b2.store.Bare i x input.type :=
      declareExtent_bare (b := { b1 with building := i :: b1.building, scopes := b1.scopes.enter }) ho hi hvacant hdecl
    exact ⟨x, Store.Bare.grows (σ := b2.store) hbare hopen.owns.ok hstep.grows⟩
  · exact absurd (inputFor_selectList hop hin) hreturns.select

end

end Build

end RelSql
