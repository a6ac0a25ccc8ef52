/-
Statements and their extents. A statement that a step has made is its own until it is handed on:
it may declare extents, select all their columns, become a subselect of a new statement, and stays
sound in all that.
-/
import RelSql.Proofs.Build.Values

namespace RelSql

open List RelSql.Part Symbols Statement

open Store (Sound FragmentSound Fresh Owns around)

variable {op : Operator} {b b' : Build} {τ : Store} {c x : SymbolId} {name : String} {type : DataType}
  {join : Option JoinInfo}

/-- The operator is added before anything is selected. -/
def Operator.isEarly : Operator → Bool
  | filter | project | sort | groupBy | skip => true
  | distinct | limit | element => false

theorem Statement.selectList_of_accepts {s : Statement} (hop : op.isEarly = true) (h : s.accepts op = true) :
    s.selectList = [] := by
  cases op with
  | distinct | limit | element => cases hop
  | _ =>
    simp only [accepts, Bool.and_eq_true, List.isEmpty_iff] at h
    tauto

/-! ## The extents that a star stands for -/

/-- What `expand` finds is reached through flat joins. -/
theorem Symbols.reaches_of_mem_expand {symbols : Symbols} :
    ∀ {depth : Nat} {i e : SymbolId}, e ∈ symbols.expand depth i → symbols.Reaches i e
  | 0, i, e, h => by cases h
  | depth + 1, i, e, h => by
    unfold expand at h
    cases hj : (symbols.get i).join with
    | none =>
      rw [hj] at h
      rw [mem_singleton.1 h]
      exact .self (by rw [Symbol.isFlat, hj])
    | some join =>
      simp only [hj] at h
      split at h
      · rename_i hn
        rw [mem_singleton.1 h]
        exact .self (by rw [Symbol.isFlat, hj]; simp [hn])
      · rename_i hn
        obtain ⟨y, hy, he⟩ := mem_flatMap.1 h
        exact .input hj (by simpa using hn) (mem_of_mem_filter hy) (reaches_of_mem_expand he)

namespace Build

/-! ## New symbols -/

/-- A step that changes no statement. -/
structure NameStep (b b' : Build) : Prop extends Step b b' where
  statements : b'.statements = b.statements

theorem NameStep.get (h : NameStep b b') (k : StatementId) : b'.store.get k = b.store.get k := by
  unfold Store.get store; rw [h.statements]

theorem nameStep_of (hok : b.store.OK) (names : Names) (hb' : b' = { b with names }) (hw : names.symbols.WF)
    (hg : b.store.symbols.Grows names.symbols)
    (hc : ∀ e < b.names.symbols.size, (names.symbols.get e).columns = (b.names.symbols.get e).columns)
    (he : ∀ name, b.names.extents.contains name = true → names.extents.contains name = true)
    (ht : (b.store.withNames names).Tidy) : NameStep b b' := by
  subst hb'
  refine ⟨⟨hok.withNames hw hg he ht, ⟨rfl, rfl, rfl⟩, Store.retains_withNames _ hg he, fun k _ e hk => hc e ?_⟩, rfl⟩
  exact lt_of_stands ((hok.statement k).aliases e hk).1

/-- The symbol is a column. -/
def IsColumn (σ : Store) (c : SymbolId) : Prop := c < σ.symbols.size ∧ (σ.symbols.get c).type = none

theorem IsColumn.grows {σ : Store} (h : IsColumn σ c) (hg : σ.symbols.Grows τ.symbols) :
    IsColumn τ c :=
  ⟨lt_of_lt_of_le h.1 hg.size, by rw [(hg.symbol c h.1).type]; exact h.2⟩

theorem IsColumn.sound {σ : Store} (h : IsColumn σ c) (n : Nat) (path : Path) :
    Sound σ n path [.symbol c] :=
  Store.sound_symbol.2 ⟨h.1, fun hs => by simp [Symbol.stands, h.2] at hs⟩

/-- The join can become the one of a new extent: it is nested, and its columns have no place yet. -/
structure Nests (σ : Store) (join : JoinInfo) : Prop where
  nested : join.nested = true
  ok : Symbols.JoinOK σ.symbols σ.symbols.size join
  unplaced : σ.Unplaced join.columns

/-- A new extent, plain or a nested join, that no statement declares yet. -/
theorem newExtent_spec (hr : Runs (newExtent name type join) b x b') (hok : b.store.OK)
    (hj : ∀ j ∈ join, Nests b.store j) : NameStep b b' ∧ Fresh b'.store x := by
  have hnew : ∀ s : Symbol, s.stands = true → Symbols.WF (b.store.symbols.push s) → s.columns = [] →
      (∀ j, s.join = some j → b.store.Unplaced j.columns) → Runs (newSymbol s) b x b' →
      NameStep b b' ∧ Fresh b'.store x := by
    intro s hs hw hc hu hr
    obtain ⟨rfl, hb'⟩ := runs_newSymbol.1 hr
    have hstep := nameStep_of hok _ hb' hw (grows_push _ s) (fun e he => by rw [get_push_of_lt he])
      (fun _ h => h) (hok.tidy.pushSymbol hok.symbols hc fun j hj => Or.inr (hu j hj))
    refine ⟨hstep, ?_, fun k hk => ?_⟩
    · rw [hb']
      change (get (b.names.symbols.push s) b.names.symbols.size).stands = true
      rw [get_push, if_pos rfl]; exact hs
    · rw [hstep.get] at hk
      exact Nat.lt_irrefl _ (lt_of_stands ((hok.statement k).aliases _ hk).1)
  cases join with
  | none => exact hnew _ rfl (wf_push_extent hok.symbols name type) rfl nofun hr
  | some j =>
    obtain ⟨hn, hjok, hu⟩ := hj j rfl
    refine hnew _ ?_ (wf_push_joined hok.symbols name type hjok) rfl (fun j' hj' => ?_) hr
    · simp [Symbol.stands, Symbol.isFlat, Symbol.joined, hn]
    · cases hj'; exact hu

/-! ## Declaring an extent -/

end Build

theorem Registry.contains_register (r : Registry) (name other : String) :
    (r.register name).contains other = (Ident.same other name || r.contains other) := by
  unfold register
  split
  · rename_i h
    by_cases hs : Ident.same other name = true
    · have : r.contains other = r.contains name := by
        unfold contains lastNumber?
        rw [show Ident.key other = Ident.key name by simpa [Ident.same] using hs]
      simp [hs, this, h]
    · simp [hs]
  · exact contains_set r name other 0

namespace Build

variable {u : PUnit} {es : List SymbolId} {stars : List StarColumn}

/-- The state in which the name of an extent is registered. -/
def registered (b : Build) (x : SymbolId) : Build :=
  { b with names := { b.names with extents := b.names.extents.register (b.names.symbols.get x).name } }

theorem runs_declareExtent {i : StatementId} :
    Runs (declareExtent i x) b u b' ↔
      (b.store.get i).fromExtents.head? = some x ∧ b' = b ∨
      (b.store.get i).fromExtents.head? ≠ some x ∧
        b' = { b.registered x with statements := b.statements.modify i (·.withExtent x) } := by
  simp only [declareExtent, runs_bind, runs_statement, runs_ite, runs_pure, runs_updateStatement, runs_symbol,
    runs_registerExtent, and_assoc, exists_and_left, exists_eq_left, exists_const, bne_iff_ne, ne_eq, not_not, true_and]
  exact or_comm

theorem declareExtent_select {i : StatementId} (hr : Runs (declareExtent i x) b u b') (k : StatementId) :
    (b'.store.get k).selectList = (b.store.get k).selectList := by
  rcases runs_declareExtent.1 hr with ⟨-, rfl⟩ | ⟨-, rfl⟩
  · rfl
  · change ((b.store.modify i (·.withExtent x)).get k).selectList = _
    rw [Store.get_modify]
    split <;> rfl

theorem registered_spec (hok : b.store.OK) (x : SymbolId) : NameStep b (b.registered x) ∧
    (b.registered x).names.extents.contains ((b.registered x).store.symbols.get x).name = true := by
  have hfiling : Symbols.Filing [] b.store.symbols (b.registered x).names.symbols := .refl hok.tidy.once
  refine ⟨nameStep_of hok _ rfl hok.symbols (.refl _) (fun _ _ => rfl) (fun name hc => ?_)
    (hok.tidy.withNames hok.symbols hfiling (fun _ h => h) (fun _ _ _ => Or.inl) (fun _ h => h) fun _ _ => Or.inl), ?_⟩
  · change (b.names.extents.register _).contains name = true
    rw [Registry.contains_register, hc, Bool.or_true]
  · change (b.names.extents.register _).contains _ = true
    rw [Registry.contains_register]
    exact Bool.or_eq_true_iff.2 (Or.inl (by simp [Ident.same, store, Store.symbols, registered]))

/-- The extent that a variable over the statement stands for: the one that the statement has, or a
new one for a statement that has none. -/
def InputOf (σ : Store) (i : StatementId) (x : SymbolId) : Prop :=
  (σ.get i).fromExtents = [x] ∨ (σ.get i).fromExtents = [] ∧ Fresh σ x

section

variable {σ : Store} {path : Path} {b b' : Build} {i : StatementId} {x : SymbolId}

theorem NameStep.owns (h : NameStep b b') (ho : Owns σ path b.store i) : Owns σ path b'.store i :=
  ho.step h.store h.grows

theorem listed_withExtent {s : Statement} (hs : Store.Listed s) (hempty : s.fromExtents = [] → s.aliases = [])
    (h : s.fromExtents = []) : Store.Listed (s.withExtent x) := by
  have hfrom : (s.withExtent x).fromExtents = [x] := by
    change s.fromExtents ++ [x] = [x]; rw [h]; rfl
  have ha : (s.withExtent x).aliases = [x] := by rw [aliases_withExtent, hempty h]; rfl
  refine Or.inr ⟨?_, ha.trans hfrom.symm, by rw [hfrom]; simp⟩
  change s.joinExtents = none ∨ s.joinExtents = some []
  rcases hs with hs | ⟨hs, -, -⟩
  · rw [hs, hempty h]; exact Or.inr rfl
  · exact hs

theorem declareExtent_spec (h : Owns σ path b.store i) (hx : InputOf b.store i x)
    (hr : Runs (declareExtent i x) b u b') :
    Owns σ path b'.store i ∧ SameStacks b b' ∧ (b'.store.get i).fromExtents = [x] := by
  rw [runs_declareExtent] at hr
  rcases hx with hx | ⟨hx, hfresh⟩
  · rw [hx] at hr
    rcases hr with ⟨-, hb'⟩ | ⟨hne, -⟩
    · rw [hb']; exact ⟨h, .refl b, hx⟩
    · exact absurd rfl hne
  · rw [hx] at hr
    rcases hr with ⟨hne, -⟩ | ⟨-, hb'⟩
    · cases hne
    · obtain ⟨hn, hname⟩ := registered_spec h.ok x
      have ho := hn.owns h
      have hst := ho.ok.statement i
      have hx' : ((b.registered x).store.get i).fromExtents = [] := by rw [hn.get]; exact hx
      have hfresh' : Fresh (b.registered x).store x :=
        ⟨hfresh.stands, fun k => by rw [hn.get]; exact hfresh.undeclared k⟩
      have hstore : b'.store = (b.registered x).store.modify i (·.withExtent x) := by rw [hb']; rfl
      refine ⟨?_, by rw [hb']; exact ⟨rfl, rfl, rfl⟩, ?_⟩
      · rw [hstore]
        exact ho.declare (j := ((b.registered x).store.get i).joinExtents) hfresh' hname rfl
          (listed_withExtent hst.listed hst.empty hx')
      · rw [hstore, Store.get_modify_self ho.lt]
        change ((b.registered x).store.get i).fromExtents ++ [x] = [x]
        rw [hx']; rfl

end

/-! ## The columns of a star -/

/-- A step that changes no statement, and only files columns of the extents `es`. -/
structure StarStep (es : List SymbolId) (b b' : Build) : Prop where
  store : b'.store.OK
  same : SameStacks b b'
  retains : Store.Retains b.store.size b.store b'.store
  statements : b'.statements = b.statements
  columns : ∀ e ∉ es, e < b.names.symbols.size → (b'.names.symbols.get e).columns = (b.names.symbols.get e).columns
  filing : Symbols.Filing es b.store.symbols b'.store.symbols
  marks : ∀ d, (b'.store.symbols.get d).SameMarks (b.store.symbols.get d)

theorem StarStep.refl (es : List SymbolId) (hok : b.store.OK) : StarStep es b b :=
  ⟨hok, .refl b, (Store.Grows.refl _ _).toRetains, rfl, fun _ _ _ => rfl, .refl hok.tidy.once, fun _ => ⟨rfl, rfl⟩⟩

theorem StarStep.trans {b1 b2 : Build} (h : StarStep es b b1) (h' : StarStep es b1 b2) :
    StarStep es b b2 := by
  refine ⟨h'.store, h.same.trans h'.same, ?_, h'.statements.trans h.statements, fun e he hlt => ?_,
    h.filing.trans h'.filing, fun d => ⟨(h'.marks d).needsRenaming.trans (h.marks d).needsRenaming,
      (h'.marks d).join.trans (h.marks d).join⟩⟩
  · have hr := h.retains
    have hr' := h'.retains
    have hsize : ∀ {k}, k < b.store.size → k < b1.store.size := fun hk => lt_of_lt_of_le hk hr.size
    exact ⟨hr.size.trans hr'.size, fun k hk => (hr.text k hk).trans (hr'.text k (hsize hk)),
      fun k hk x hx => hr'.outer k (hsize hk) x (hr.outer k hk x hx), hr.symbols.trans hr'.symbols,
      fun name hn => hr'.extents name (hr.extents name hn)⟩
  · rw [h'.columns e he (lt_of_lt_of_le hlt h.retains.symbols.size), h.columns e he hlt]

theorem StarStep.mono {es' : List SymbolId} (h : StarStep es b b') (hs : ∀ e ∈ es, e ∈ es') :
    StarStep es' b b' :=
  { h with columns := fun e he => h.columns e fun hmem => he (hs e hmem), filing := h.filing.mono hs }

theorem StarStep.get (h : StarStep es b b') (k : StatementId) :
    b'.store.get k = b.store.get k := by
  unfold Store.get Build.store; rw [h.statements]

/-- A run over a list of steps that file columns. -/
theorem mapM_files {α β : Type} {f : α → BuildM β} (es : List SymbolId) (P : Symbols → α → β → Prop) {xs : List α}
    (hP : ∀ symbols symbols' x y, P symbols x y → (∀ e ∈ es, e < symbols.size) → symbols.Grows symbols' → P symbols' x y)
    (hf : ∀ x ∈ xs, ∀ b y b', b.store.OK → (∀ e ∈ es, e < b.names.symbols.size) → Runs (f x) b y b' →
      StarStep es b b' ∧ P b'.names.symbols x y) :
    ∀ {b b' : Build} {ys : List β}, b.store.OK → (∀ e ∈ es, e < b.names.symbols.size) → Runs (xs.mapM f) b ys b' →
      StarStep es b b' ∧ List.Forall₂ (P b'.names.symbols) xs ys := by
  induction xs with
  | nil =>
    intro b b' ys hok _ hr
    rw [mapM_nil] at hr
    obtain ⟨rfl, rfl⟩ := runs_pure.1 hr
    exact ⟨.refl es hok, .nil⟩
  | cons x rest ih =>
    intro b b' ys hok hlt hr
    rw [mapM_cons] at hr
    simp only [runs_bind, runs_pure] at hr
    obtain ⟨y, b1, hy, more, b2, hmore, rfl, rfl⟩ := hr
    obtain ⟨hs, hp⟩ := hf x mem_cons_self b y b1 hok hlt hy
    have hlt1 : ∀ e ∈ es, e < b1.names.symbols.size := fun e he => lt_of_lt_of_le (hlt e he) hs.filing.grows.size
    obtain ⟨hs', hrest⟩ := ih (fun z hz => hf z (mem_cons_of_mem _ hz)) hs.store hlt1 hmore
    -- what was filed for the first item stays so while the others are filed
    exact ⟨hs.trans hs', .cons (hP _ _ x y hp hlt1 hs'.filing.grows) hrest⟩

/-- The star of an extent: the columns that a nested join brings along, or one for each member. -/
def StarsAt (symbols : Symbols) (e : SymbolId) (stars : List StarColumn) : Prop :=
  match (symbols.get e).join with
  | some join => stars = join.columns.map (⟨e, none, ·⟩)
  | none => List.Forall₂ (fun m s => s.source = e ∧ s.member = some m ∧ (symbols.get e).column? m = some s.column)
      (memberNames (symbols.get e)) stars

section

variable {xs ys : Symbols} {e : SymbolId} {stars : List StarColumn}

theorem StarsAt.grows (h : StarsAt xs e stars) (he : e < xs.size) (hg : xs.Grows ys) : StarsAt ys e stars := by
  have hs := hg.symbol e he
  unfold StarsAt at h ⊢
  rw [hs.join]
  cases hj : (xs.get e).join with
  | some join => rw [hj] at h; exact h
  | none =>
    rw [hj] at h
    unfold memberNames at h ⊢
    rw [hs.type]
    exact h.imp fun m s hms => ⟨hms.1, hms.2.1, hs.column m _ hms.2.2⟩

theorem StarsAt.source (h : StarsAt xs e stars) : ∀ s ∈ stars, s.source = e := by
  intro s hs
  unfold StarsAt at h
  split at h
  · rw [h] at hs
    obtain ⟨c, -, rfl⟩ := mem_map.1 hs
    rfl
  · obtain ⟨n, hn, rfl⟩ := getElem_of_mem hs
    exact (h.get (by rw [h.length_eq]; exact hn) hn).1

theorem StarsAt.shown (h : StarsAt xs e stars) : stars.map StarColumn.column = xs.shown e := by
  unfold StarsAt at h
  unfold Symbols.shown
  cases hj : (xs.get e).join with
  | some join =>
    rw [hj] at h
    rw [h, map_map]
    exact map_id _
  | none =>
    rw [hj] at h
    dsimp only at h ⊢
    generalize memberNames (xs.get e) = members at h
    induction h with
    | nil => rfl
    | cons hms _ ih => rw [filterMap_cons_some hms.2.2, map_cons, ih]

end

theorem starMember_spec {member : String} {star : StarColumn} (hok : b.store.OK) (hx : x < b.names.symbols.size)
    (hr : Runs (starMember x member) b star b') :
    StarStep [x] b b' ∧ star.source = x ∧ star.member = some member ∧
      (b'.names.symbols.get x).column? member = some star.column := by
  simp only [starMember, runs_bind, runs_registerColumn, runs_columnOf, runs_pure, and_assoc, exists_and_left,
    exists_eq_left, exists_const] at hr
  obtain ⟨rfl, rfl⟩ := hr
  obtain ⟨hw, hg, hlt, ht⟩ := columnOrInsert_spec hok.symbols
    (rfl : b.store.symbols.columnOrInsert x member = (_, _))
  obtain ⟨hf, hcol, hm, hnew⟩ := columnOrInsert_filing hok.symbols hok.tidy.once hx
    (rfl : b.names.symbols.columnOrInsert x member = (_, _))
  have hregister := b.names.columns.contains_register member
  refine ⟨⟨hok.withNames hw hg (fun _ h => h) (hok.tidy.withNames hok.symbols hf (fun name hn => ?_) (fun e key c hc => ?_)
    (fun c hc => (hm c).needsRenaming.trans hc) fun y join hj => Or.inl ((hm y).join.symm.trans hj)),
    ⟨rfl, rfl, rfl⟩, Store.retains_withNames _ hg fun _ h => h, rfl,
    fun e he => columns_columnOrInsert (by simpa using he) member, hf, hm⟩, rfl, rfl, hcol⟩
  · exact (hregister name).trans (Bool.or_eq_true_iff.2 (Or.inr hn))
  · refine (hnew e key c hc).imp id fun hname => ?_
    refine (hregister _).trans (Bool.or_eq_true_iff.2 (Or.inl ?_))
    exact Ident.same_iff.2 (congrArg Ident.key hname)

theorem starColumns_spec (hok : b.store.OK) (hx : x < b.names.symbols.size) (hr : Runs (starColumns x) b stars b') :
    StarStep [x] b b' ∧ StarsAt b'.names.symbols x stars := by
  simp only [starColumns, runs_bind, runs_symbol, and_assoc, exists_and_left, exists_eq_left] at hr
  cases hj : (b.names.symbols.get x).join with
  | some join =>
    rw [hj] at hr
    obtain ⟨rfl, rfl⟩ := runs_pure.1 hr
    refine ⟨.refl _ hok, ?_⟩
    unfold StarsAt
    rw [hj]
  | none =>
    rw [hj] at hr
    obtain ⟨hs, hall⟩ := mapM_files [x] (fun symbols m (star : StarColumn) => star.source = x ∧ star.member = some m ∧
        (symbols.get x).column? m = some star.column)
      (fun _ _ _ _ h hlt hg => ⟨h.1, h.2.1, (hg.symbol x (hlt x (mem_singleton_self x))).column _ _ h.2.2⟩)
      (fun _ _ _ _ _ hok hlt hr => starMember_spec hok (hlt x (mem_singleton_self x)) hr) hok (by simpa using hx) hr
    have hg : (b.names.symbols.get x).Grows (b'.names.symbols.get x) := hs.filing.grows.symbol x hx
    refine ⟨hs, ?_⟩
    unfold StarsAt memberNames
    rw [hg.join, hj, hg.type]
    exact hall

section

variable {e : SymbolId} {starss : List (List StarColumn)} {columns : List SymbolId} {complete : Bool}
  {operand : Operand} {k : StatementId}

variable {σ : Store} {path : Path} {b b' : Build} {i : StatementId}

/-- The extents that the star of a statement stands for. -/
def starLeaves (σ : Store) (i : StatementId) : List SymbolId := (σ.get i).fromExtents.flatMap σ.symbols.leaves

theorem reaches_of_mem_starLeaves (h : e ∈ starLeaves σ i) :
    ∃ x ∈ (σ.get i).fromExtents, σ.symbols.Reaches x e := by
  obtain ⟨x, hx, he⟩ := mem_flatMap.1 h
  exact ⟨x, hx, reaches_of_mem_expand he⟩

theorem mem_aliases_of_starLeaves (hok : σ.OK) (h : e ∈ starLeaves σ i) : e ∈ (σ.get i).aliases := by
  obtain ⟨x, hx, hr⟩ := reaches_of_mem_starLeaves h
  exact (hok.statement i).leaves x hx e hr

/-- Filing the columns of the star of a statement. -/
theorem starLeaves_spec (hok : b.store.OK) (hr : Runs ((starLeaves b.store i).mapM starColumns) b starss b') :
    StarStep (starLeaves b.store i) b b' ∧ List.Forall₂ (StarsAt b'.names.symbols) (starLeaves b.store i) starss := by
  have hlt : ∀ e ∈ starLeaves b.store i, e < b.names.symbols.size := fun e he =>
    lt_of_stands ((hok.statement i).aliases e (mem_aliases_of_starLeaves hok he)).1
  obtain ⟨hs, hall⟩ := mapM_files (starLeaves b.store i) (fun symbols e stars => e ∈ starLeaves b.store i ∧ StarsAt symbols e stars)
    (fun _ _ e _ h hlt hg => ⟨h.1, h.2.grows (hlt e h.1) hg⟩) (fun e he b y b' hok hlt hr => by
      obtain ⟨hs, hstars⟩ := starColumns_spec hok (hlt e he) hr
      exact ⟨hs.mono (by simpa using he), he, hstars⟩) hok hlt hr
  exact ⟨hs, hall.imp fun _ _ h => h.2⟩

/-- The statement with a star as its select list. -/
def withStar (stars : List StarColumn) (s : Statement) : Statement :=
  { s with
    selectList := s.selectList ++ separated ", " (stars.map StarColumn.parts)
    output := s.output ++ (stars.map StarColumn.column).map OutputColumn.symbol }

theorem selectList_withStar (h : stars ≠ []) (s : Statement) :
    (withStar stars s).selectList ≠ [] := by
  intro hnil
  have hempty : (separated ", " (stars.map StarColumn.parts)).isEmpty = stars.isEmpty :=
    isEmpty_separated fun _ _ => cons_ne_nil _ _
  rw [(append_eq_nil_iff.1 hnil).2] at hempty
  exact h (isEmpty_iff.1 hempty.symm)

/-- The names in which columns that share a name are marked. -/
def marked (names : Names) (columns : List SymbolId) : Names :=
  { names with symbols := names.symbols.markClashes [] columns }

/-- The steps of a star: its columns are filed, those that share a name marked, and all of them selected. -/
theorem runs_selectAll : Runs (selectAll i) b columns b' ↔
    ∃ starss b1, Runs ((starLeaves b.store i).mapM starColumns) b starss b1 ∧ starss.flatten ≠ [] ∧
      columns = starss.flatten.map StarColumn.column ∧
      b' = { b1 with names := marked b1.names columns, statements := b1.statements.modify i (withStar starss.flatten) } := by
  simp only [selectAll, appendSelect, addOutput, runs_bind, runs_get, runs_statement, runs_ite, runs_throw,
    runs_updateStatement, runs_modify, runs_pure, and_assoc, exists_and_left, exists_eq_left, exists_const,
    and_false, false_and, false_or, List.isEmpty_iff]
  refine exists_congr fun starss => exists_congr fun b1 => and_congr_right fun _ => and_congr_right fun _ =>
    and_congr_right fun hc => ?_
  rw [show b1.statements.modify i (withStar starss.flatten) = _ from congrArg Store.statements (Store.modify_modify
    b1.store i (fun s => { s with selectList := s.selectList ++ Part.separated ", " (starss.flatten.map StarColumn.parts) })
    fun s => { s with output := s.output ++ (starss.flatten.map StarColumn.column).map OutputColumn.symbol }).symm, hc]
  rfl

theorem exists_starsAt {symbols : Symbols} (h : List.Forall₂ (StarsAt symbols) es starss) {s : StarColumn}
    (hs : s ∈ starss.flatten) :
    ∃ e ∈ es, ∃ stars ∈ starss, StarsAt symbols e stars ∧ s ∈ stars := by
  obtain ⟨stars, hmem, hs⟩ := mem_flatten.1 hs
  obtain ⟨n, hn, rfl⟩ := getElem_of_mem hmem
  have hn' : n < es.length := by rw [h.length_eq]; exact hn
  exact ⟨es[n], getElem_mem hn', _, hmem, h.get hn' hn, hs⟩

theorem shown_of_starsAt {symbols : Symbols} (h : List.Forall₂ (StarsAt symbols) es starss) :
    starss.flatten.map StarColumn.column = es.flatMap symbols.shown := by
  induction h with
  | nil => rfl
  | cons hstars _ ih => rw [flatten_cons, map_append, flatMap_cons, hstars.shown, ih]

theorem isColumn_of_shown (hok : τ.OK) (h : c ∈ τ.symbols.shown e) : IsColumn τ c := by
  rcases mem_shown h with ⟨key, hf⟩ | ⟨join, hj, hc⟩
  · exact hok.symbols.columns e _ hf
  · exact (hok.symbols.joins e join hj).columns c hc

/-- The columns of an extent that the statement declares are sound in its clauses. -/
theorem starColumn_sound (hok : τ.OK) {star : StarColumn} (ha : star.source ∈ (τ.get i).aliases)
    (hc : IsColumn τ star.column) (n : Nat) (path : Path) : Sound τ n ((i, .body) :: path) star.parts := by
  have hsource : Sound τ n ((i, .body) :: path) [.symbol star.source] :=
    Store.sound_symbol.2 ⟨lt_of_stands ((hok.statement i).aliases _ ha).1, fun _ => Or.inl ha⟩
  have hcolumn := hc.sound n ((i, .body) :: path)
  unfold StarColumn.parts
  cases star.member with
  | none | some m => simpa using ⟨hsource, hcolumn⟩

theorem marked_spec (hok : b.store.OK) (hc : ∀ c ∈ columns, IsColumn b.store c) :
    NameStep b { b with names := marked b.names columns } := by
  refine nameStep_of hok _ rfl (wf_markClashes columns hok.symbols (fun c h => (hc c h).2) (by simp))
    (grows_markClashes columns b.store.symbols []) (fun e _ => ?_) (fun _ h => h)
    (hok.tidy.withNames hok.symbols (@filing_markClashes _ [] hok.tidy.once [] columns) (fun _ h => h)
      (fun e key c hf => Or.inl (files_markClashes.1 hf)) (fun c => needsRenaming_markClashes columns)
      fun y join hj => Or.inl ?_)
  · obtain ⟨f, hf⟩ := get_markClashes columns b.names.symbols [] e
    rw [marked, hf]
  · obtain ⟨f, hf⟩ := get_markClashes columns b.names.symbols [] y
    rwa [marked, hf] at hj

/-- The columns of a star belong to no join when they are selected. -/
theorem unplaced_star (hok : σ.OK) (hi : i < σ.size) (hs : (σ.get i).selectList = []) (hes : es.Nodup)
    (ha : ∀ e ∈ es, e ∈ (σ.get i).aliases) (hne : stars ≠ []) :
    (σ.modify i (withStar stars)).Unplaced (es.flatMap σ.symbols.shown) := by
  refine hok.tidy.unplaced hes (fun e he => ?_) rfl (fun e => ?_) fun e he => ?_
  · rintro ⟨k, hk, hsel⟩
    obtain rfl := hok.unique k i e hk (ha e he)
    exact hsel hs
  · rintro ⟨k, hk, hsel⟩
    refine ⟨k, ?_⟩
    rw [Store.get_modify_of_ne (by rintro rfl; exact hsel hs)]
    exact ⟨hk, hsel⟩
  · refine ⟨i, ?_⟩
    rw [Store.get_modify_self hi]
    exact ⟨ha e he, selectList_withStar hne _⟩

/-- Selecting all columns of a statement keeps it sound; what it returns are columns, which have no place
yet in a join. -/
theorem selectAll_spec (h : Owns σ path b.store i) (hs : (b.store.get i).selectList = [])
    (hr : Runs (selectAll i) b columns b') :
    Owns σ path b'.store i ∧ SameStacks b b' ∧ (∀ c ∈ columns, IsColumn b'.store c) ∧
      (b'.store.get i).fromExtents = (b.store.get i).fromExtents ∧ b'.store.Unplaced columns := by
  obtain ⟨starss, b1, hstars, hne, rfl, hb'⟩ := runs_selectAll.1 hr
  obtain ⟨hn, hall⟩ := starLeaves_spec h.ok hstars
  have h1 : Owns σ path b1.store i := h.retained hn.store hn.retains fun e he =>
    hn.columns e fun hmem => he (mem_aliases_of_starLeaves h.ok hmem)
  have hshown := shown_of_starsAt hall
  have hcol : ∀ c ∈ starss.flatten.map StarColumn.column, IsColumn b1.store c := by
    intro c hc
    rw [hshown] at hc
    obtain ⟨e, -, hc⟩ := mem_flatMap.1 hc
    exact isColumn_of_shown hn.store hc
  have hsource : ∀ s ∈ starss.flatten, s.source ∈ (b1.store.get i).aliases := by
    intro s hs
    obtain ⟨e, he, stars, -, hstar, hs⟩ := exists_starsAt hall hs
    rw [hstar.source s hs, hn.get]
    exact mem_aliases_of_starLeaves h.ok he
  generalize starss.flatten = stars at *
  generalize hcs : stars.map StarColumn.column = columns at *
  have hn2 := marked_spec hn.store hcol
  generalize hb2 : ({ b1 with names := marked b1.names columns } : Build) = b2 at hn2
  have h2 := hn2.owns h1
  have hget : b2.store.get i = b.store.get i := (hn2.get i).trans (hn.get i)
  have hs2 : (b2.store.get i).selectList = [] := by rw [hget]; exact hs
  have hstore : b'.store = b2.store.modify i (withStar stars) := by rw [hb', ← hb2]; rfl
  have hsymbols : b2.store.symbols = b1.store.symbols.markClashes [] columns := by rw [← hb2]; rfl
  have hunplaced : b'.store.Unplaced columns := by
    have hmarked : (starLeaves b.store i).flatMap b2.store.symbols.shown = columns := by
      rw [hshown, hsymbols]
      exact flatMap_congr fun e _ => shown_markClashes _ _ _ e
    rw [hstore, ← hmarked]
    exact unplaced_star h2.ok h2.lt hs2 ((h.ok.statement i).nodup.sublist ((h.ok.statement i).inOrder _))
      (fun e he => by rw [hget]; exact mem_aliases_of_starLeaves h.ok he) hne
  have hsound : Sound b2.store (i + 1) ((i, .body) :: path) (separated ", " (stars.map StarColumn.parts)) := by
    rw [separated, Store.sound_separated]
    intro item hitem
    obtain ⟨s, hs, rfl⟩ := mem_map.1 hitem
    refine starColumn_sound h2.ok (by rw [hn2.get]; exact hsource s hs) ?_ _ _
    exact (hcol _ (by rw [← hcs]; exact mem_map_of_mem hs)).grows hn2.grows.symbols
  have hselects : b2.store.Selects i (withStar stars (b2.store.get i)) := by
    refine @Store.selects_stars _ _ _ stars (by rw [withStar, hs2]; rfl)
      (by rw [withStar, (h2.ok.tidy.selects i).output hs2]; rfl) ?_
    rw [hcs]
    refine fun hp => Names.pairwise_tellsApart (fun c hc => ?_) ?_ fun c hc d hd hne hkey => ?_
    · obtain ⟨e, key, hf, -⟩ := hunplaced.brought c hc
      rw [hstore] at hf
      exact h2.ok.tidy.known h2.ok.symbols hf
    · exact hunplaced.nodup (by rw [hstore]; exact hp)
    · change (b2.store.symbols.get c).needsRenaming = true
      change Ident.key (b2.store.symbols.get c).name = Ident.key (b2.store.symbols.get d).name at hkey
      rw [hsymbols, name_markClashes, name_markClashes] at hkey
      rw [hsymbols]
      exact marked_of_clash columns (forall_mem_nil _) (hcol c hc).1 (Or.inl hc) (Or.inl hd) hne hkey
  refine ⟨?_, (hn.same.trans hn2.same).trans (by rw [hb', ← hb2]; exact ⟨rfl, rfl, rfl⟩), fun c hc => ?_, ?_, hunplaced⟩
  · rw [hstore]
    exact h2.gains (gains_select _ _ _) (Or.inr ⟨hs2, hselects⟩) hsound (Nat.lt_succ_self i)
  · rw [hstore]; exact (hcol c hc).grows hn2.grows.symbols
  · rw [hstore, Store.get_modify_self h2.lt, ← hget]; rfl

/-- A statement without extents has no columns to select. -/
theorem not_runs_selectAll (hx : (b.store.get i).fromExtents = []) : ¬ Runs (selectAll i) b columns b' := by
  intro hr
  obtain ⟨starss, b1, hstars, hne, -⟩ := runs_selectAll.1 hr
  rw [starLeaves, hx] at hstars
  obtain ⟨rfl, -⟩ := runs_pure.1 hstars
  exact hne rfl

theorem selectAllIfNone_cases (hr : Runs (selectAllIfNone i) b u b') :
    (b.store.get i).selectList = [] ∧ (∃ columns, Runs (selectAll i) b columns b') ∨
      (b.store.get i).selectList ≠ [] ∧ b' = b := by
  simp only [selectAllIfNone, runs_bind, runs_statement, runs_ite, runs_pure, and_assoc, exists_and_left,
    exists_eq_left, List.isEmpty_iff] at hr
  rcases hr with ⟨hnil, columns, _, hr, -, rfl⟩ | ⟨hne, -, rfl⟩
  · exact Or.inl ⟨hnil, columns, hr⟩
  · exact Or.inr ⟨hne, rfl⟩

theorem selectAllIfNone_spec (h : Owns σ path b.store i) (hr : Runs (selectAllIfNone i) b u b') :
    Owns σ path b'.store i ∧ SameStacks b b' := by
  rcases selectAllIfNone_cases hr with ⟨hnil, columns, hr⟩ | ⟨-, rfl⟩
  · obtain ⟨ho, hs, -⟩ := selectAll_spec h hnil hr
    exact ⟨ho, hs⟩
  · exact ⟨h, .refl _⟩

/-! ## Subselects -/

variable {x : SymbolId}

/-- Only a statement that reads a join through its first extent has a join to nest. -/
theorem runs_nestedJoin? :
    Runs (nestedJoin? i columns) b join b' ↔
      join = ((b.store.get i).fromExtents.head?.bind fun x => (b.store.symbols.get x).join).map
        (fun j => { j with columns, nested := true }) ∧ b' = b := by
  simp only [nestedJoin?, runs_bind, runs_statement, and_assoc, exists_and_left, exists_eq_left]
  change _ ↔ join = ((b.statements.get i).fromExtents.head?.bind fun x => (b.names.symbols.get x).join).map _ ∧ _
  cases (b.statements.get i).fromExtents with
  | nil => exact runs_pure
  | cons x rest => cases hj : (b.names.symbols.get x).join <;> simp [hj]

/-- A join that becomes nested has the columns that were selected. -/
theorem nestedJoin?_spec (hok : b.store.OK) (hc : ∀ c ∈ columns, IsColumn b.store c) (hu : b.store.Unplaced columns)
    (hr : Runs (nestedJoin? i columns) b join b') : b' = b ∧ ∀ j ∈ join, Nests b.store j := by
  obtain ⟨rfl, rfl⟩ := runs_nestedJoin?.1 hr
  refine ⟨rfl, fun j hj => ?_⟩
  obtain ⟨inner, hinner, rfl⟩ := Option.mem_map.1 hj
  obtain ⟨first, hfirst, hinner⟩ := Option.mem_bind_iff.1 hinner
  have hlt : first < b'.store.symbols.size := ((hok.statement i).fromExtents first (mem_of_mem_head? hfirst)).lt
  have hjok := hok.symbols.joins first inner hinner
  exact ⟨rfl, ⟨fun y hy => (hjok.extents y hy).trans hlt, fun y hy =>
    ⟨(hjok.flattened y hy).1.trans hlt, (hjok.flattened y hy).2⟩, hc, fun hn => by cases hn⟩, hu⟩

/-- The statement over a subselect, with no extent yet. -/
def overSubselect (i : StatementId) : Statement := { fromList := [.text "(", .statement i, .text ")"] }

/-- A statement that has only a source, without an alias for it. -/
theorem statementOK_of_source {ps : List Part} (ha : ({ fromList := ps } : Statement).aliases = [])
    (hsym : ∀ e, .symbol e ∈ atoms ps → e < τ.symbols.size)
    (hst : ∀ j, .statement j ∈ atoms ps → j < τ.size) :
    τ.StatementOK { fromList := ps } := by
  have hatoms : atoms ({ fromList := ps } : Statement).parts = atoms ps := by simp [parts]
  refine ⟨by rwa [hatoms], by rwa [hatoms], ?_, ?_, fun _ => nil_sublist _, ?_, ?_, ?_,
    Or.inr ⟨Or.inl rfl, ha, Nat.zero_le _⟩, fun _ => ha⟩
  all_goals simp [ha]

theorem owns_overSubselect (h : Owns σ path τ i) :
    Owns σ path (τ.push (overSubselect i)) τ.size := by
  refine .of_new h.ok h.grows (statementOK_of_source rfl (by simp) fun j hj => ?_) rfl ⟨rfl, rfl⟩ fun v => ?_
  · obtain rfl : j = i := by simpa using hj
    exact h.lt
  · cases v with
    | body | source => exact Store.sound_nil
    | enclosed => exact h.sound.insert _ (by simp)

/-- A new extent and a new statement over a subselect. -/
theorem newSubselect_spec {b1 : Build} (h : Owns σ path b.store i) (hj : ∀ j ∈ join, Nests b.store j)
    (hx : Runs (newExtent name type join) b x b1)
    (hb' : b' = { b1 with statements := b1.statements.push (overSubselect i) }) :
    Owns σ path b'.store b1.store.size ∧ SameStacks b b' ∧ InputOf b'.store b1.store.size x := by
  obtain ⟨hn, hfresh⟩ := newExtent_spec hx h.ok hj
  have hstore : b'.store = b1.store.push (overSubselect i) := by rw [hb']; rfl
  refine ⟨by rw [hstore]; exact owns_overSubselect (hn.owns h), hn.same.trans (by rw [hb']; exact ⟨rfl, rfl, rfl⟩),
    Or.inr ⟨by rw [hstore, Store.get_push_size]; rfl, ?_⟩⟩
  rw [hstore]
  refine ⟨hfresh.stands, fun k => ?_⟩
  rw [Store.get_push]
  split
  · exact not_mem_nil
  · exact hfresh.undeclared k

/-- The steps of a subselect. A statement that has to be complete and selects nothing gets all its columns, and
is a nested join behind them if it was a join. Then there is an extent for it, and a statement around it. -/
theorem subselect_cases {outer : StatementId} (hr : Runs (subselect i name type complete) b (outer, x) b') :
    ∃ join b1 b2, (complete = true ∧ (b.store.get i).selectList = [] ∧
        (∃ columns, Runs (selectAll i) b columns b1 ∧ Runs (nestedJoin? i columns) b1 join b1) ∨
      (complete = true → (b.store.get i).selectList ≠ []) ∧ join = none ∧ b1 = b) ∧
      Runs (newExtent name type join) b1 x b2 ∧ outer = b2.store.size ∧
      b' = { b2 with statements := b2.statements.push (overSubselect i) } := by
  simp only [subselect, runs_bind, runs_statement, runs_ite, runs_pure, runs_newStatement, Prod.mk.injEq,
    and_assoc, exists_and_left, exists_eq_left, Bool.and_eq_true, List.isEmpty_iff, not_and] at hr
  rcases hr with ⟨hc, hnil, columns, b1, hsel, join, _, hnest, _, b2, hx, rfl, rfl, hb'⟩ | ⟨hne, _, b2, hx, rfl, rfl, hb'⟩
  · obtain ⟨-, rfl⟩ := runs_nestedJoin?.1 hnest
    exact ⟨join, _, b2, Or.inl ⟨hc, hnil, columns, hsel, hnest⟩, hx, rfl, hb'⟩
  · exact ⟨none, b, b2, Or.inr ⟨hne, rfl, rfl⟩, hx, rfl, hb'⟩

theorem subselect_spec {outer : StatementId} (h : Owns σ path b.store i)
    (hr : Runs (subselect i name type complete) b (outer, x) b') :
    Owns σ path b'.store outer ∧ SameStacks b b' ∧ InputOf b'.store outer x := by
  obtain ⟨join, b1, b2, ⟨-, hnil, columns, hsel, hnest⟩ | ⟨-, rfl, rfl⟩, hx, rfl, hb'⟩ := subselect_cases hr
  · obtain ⟨h1, hs1, hc, -, hu⟩ := selectAll_spec h hnil hsel
    obtain ⟨-, hj⟩ := nestedJoin?_spec h1.ok hc hu hnest
    obtain ⟨ho, hs, hi⟩ := newSubselect_spec h1 hj hx hb'
    exact ⟨ho, hs1.trans hs, hi⟩
  · exact newSubselect_spec h (by simp) hx hb'

theorem get_subselect {outer : StatementId} (hr : Runs (subselect i name type complete) b (outer, x) b') :
    outer < b'.store.size ∧ b'.store.get outer = overSubselect i := by
  obtain ⟨-, -, b1, -, -, rfl, rfl⟩ := subselect_cases hr
  refine ⟨?_, Store.get_push_size b1.store _⟩
  change b1.statements.size < (b1.statements.push (overSubselect i)).size
  rw [Array.size_push]; exact Nat.lt_succ_self _

/-! ## Inputs -/

theorem toPart_ne (f : Fragment) : f.toPart.IsOperand := by
  cases f <;> exact ⟨nofun, nofun⟩

/-- The source of rows that are no statement of their own, with or without parentheses. -/
theorem fromItems_source (isCall : Bool) (f : Fragment) : ({ fromList := sourceParts isCall f } : Statement).fromItems =
    [if isCall then .plain f.toPart else .enclosed f.toPart] := by
  have hp := toPart_ne f
  unfold fromItems sourceParts
  cases isCall with
  | true => exact readAll_single hp.1 hp.2 (by decide) []
  | false =>
    change FromItem.readAll "(" [f.toPart, .text ")"] = _
    rw [readAll_single hp.1 hp.2 (by decide)]; rfl

/-- The statement over a source of rows that is no statement of its own. -/
theorem owns_source {isCall : Bool} {f : Fragment} (hok : τ.OK) (hg : Store.Grows σ.size σ τ)
    (hf : Sound τ σ.size path [f.toPart]) :
    Owns σ path (τ.push { fromList := sourceParts isCall f }) τ.size := by
  have hitems := fromItems_source isCall f
  have hatoms : ∀ p, (∀ t, p ≠ .text t) → p ∈ atoms (sourceParts isCall f) → p ∈ atoms [f.toPart] := by
    intro p ht hp
    have h1 := ht "("
    have h2 := ht ")"
    cases isCall with
    | true => simpa [sourceParts] using hp
    | false => simpa [sourceParts, h1, h2] using hp
  have haliases : ({ fromList := sourceParts isCall f } : Statement).aliases = [] := by
    unfold aliases; rw [hitems]; cases isCall <;> rfl
  have hst := statementOK_of_source haliases (fun e he => hf.symbols e (hatoms _ (by simp) he)) fun j hj =>
    hf.statements j (hatoms _ (by simp) hj)
  refine .of_new hok hg hst haliases ⟨rfl, rfl⟩ fun v => ?_
  cases v with
  | body =>
    unfold place body conditions
    rw [hitems]; cases isCall <;> exact Store.sound_nil
  | source =>
    unfold place sources
    rw [hitems]
    cases isCall with
    | true => exact hf.insert _ (by simp)
    | false => exact Store.sound_nil
  | enclosed =>
    unfold place enclosed
    rw [hitems]
    cases isCall with
    | true => exact Store.sound_nil
    | false => exact hf.insert _ (by simp)

/-- The extents of a join, all of which it lists, become the inputs of one flat join. -/
theorem merge_spec {join : JoinInfo} {f : Statement → Statement} (h : Owns σ path b.store i)
    (hl : (b.store.get i).joinExtents = some (b.store.get i).aliases)
    (hj : join = { extents := (b.store.get i).fromExtents, flattened := join.flattened })
    (hfl : join.flattened = [] ∨ join.flattened = (b.store.get i).aliases)
    (hf : ∀ s, f s = s.relisted [b.names.symbols.size] s.joinExtents) (hb' : b' = { b with
      names := { b.names with symbols := b.names.symbols.push (.joined name type join) }
      statements := b.statements.modify i f }) :
    Owns σ path b'.store i ∧ (b'.store.get i).fromExtents = [b.names.symbols.size] ∧
      (b'.store.get i).joinExtents = some (b'.store.get i).aliases := by
  have hst := h.ok.statement i
  -- the join has the extents of the statement, and those reach only aliases of it
  have hjok : Symbols.JoinOK b.store.symbols b.store.symbols.size join := by
    have hext : join.extents = (b.store.get i).fromExtents := by rw [hj]
    refine ⟨fun z hz => (hst.fromExtents z (by rw [← hext]; exact hz)).lt, fun z hz => ?_, ?_, fun _ hne z hz e he => ?_⟩
    · rcases hfl with hfl | hfl <;> rw [hfl] at hz
      · cases hz
      · have hstands := (hst.aliases z hz).1
        exact ⟨lt_of_stands hstands, hstands⟩
    · rw [hj]; simp
    · rw [hfl.resolve_left hne]
      exact hst.leaves z (by rw [← hext]; exact hz) e he
  generalize hb1 : ({ b with
    names := { b.names with symbols := b.names.symbols.push (.joined name type join) } } : Build) = b1
  have hn : NameStep b b1 := nameStep_of h.ok _ hb1.symm (wf_push_joined h.ok.symbols _ _ hjok)
    (grows_push _ _) (fun e he => by rw [get_push_of_lt he]) (fun _ h => h)
    (h.ok.tidy.pushSymbol h.ok.symbols rfl fun j hj' => Or.inl (by cases hj'; rw [hj]))
  have ho := hn.owns h
  have hget := hn.get i
  have hx : b1.store.symbols.get b.names.symbols.size = .joined name type join := by
    rw [← hb1]
    change get (b.names.symbols.push _) _ = _
    rw [get_push, if_pos rfl]
  have hstore : b'.store = b1.store.modify i f := by rw [hb', ← hb1]; rfl
  -- a flat join reaches what its inputs reach
  have hreach : ∀ e, b1.store.symbols.Reaches b.names.symbols.size e → e ∈ (b1.store.get i).aliases := by
    intro e he
    rw [reaches_of_flat (by rw [hx]; rfl) (by rw [hj])] at he
    obtain ⟨z, hz, he⟩ := he
    have hz' : z ∈ (b.store.get i).fromExtents := by rw [hj] at hz; exact hz
    rw [hget]
    exact hst.leaves z hz' e (he.of_grows h.ok.symbols hn.grows.symbols (hst.fromExtents z hz').lt)
  have hextent : b1.store.symbols.IsExtent b.names.symbols.size := by
    rw [Symbols.IsExtent, hx]; rfl
  have ho' : Owns σ path (b1.store.modify i f) i := by
    refine ho.relist (hf _) (fun z hz => ?_) (fun depth => ?_) (Or.inl ?_) (by simp)
    · rw [mem_singleton] at hz
      subst hz
      exact ⟨hextent, hreach⟩
    · rw [flatMap_cons, flatMap_nil, append_nil]
      refine (expand_of_flat (by rw [hx]; rfl) (show join.nested = false by rw [hj]) depth).trans ?_
      have horder := (ho.ok.statement i).inOrder depth
      rwa [hget, ← show join.extents = (b.store.get i).fromExtents by rw [hj], ← hget] at horder
    · change (b1.store.get i).joinExtents = some (b1.store.get i).aliases
      rw [hget]; exact hl
  rw [hstore, Store.get_modify_self ho.lt, hf]
  refine ⟨ho', rfl, ?_⟩
  change (b1.store.get i).joinExtents = some (b1.store.get i).aliases
  rw [hget]; exact hl

/-- The statement of an operand, made for it if it has none of its own. -/
def sourceStatement (operand : Operand) : BuildM StatementId := do
  match ← operand.build with
  | .statement i => pure i
  | fragment => newStatement { fromList := sourceParts operand.expr.isCall fragment }

/-- What a variable over the statement stands for. -/
def variableExtent (name : String) (type : DataType) (i : StatementId) : BuildM (StatementId × SymbolId) := do
  let s ← statement i
  match s.fromExtents with
  | [] => return (i, ← newSymbol (.extent name type))
  | [extent] => return (i, extent)
  | extents =>
    let join : JoinInfo := { extents, flattened := s.joinExtents.getD [] }
    let extent ← newSymbol (.joined name type join)
    updateStatement i fun s => { s with fromExtents := [extent] }
    return (i, extent)

theorem input_eq (operand : Operand) (name : String) (type : DataType) :
    input operand name type = sourceStatement operand >>= variableExtent name type := by
  unfold input sourceStatement
  rw [bind_assoc]
  congr 1
  funext f
  cases f <;> simp only [pure_bind] <;> rfl

/-- A statement stands for itself, and any other text is the source of a new one. -/
theorem sourceStatement_cases (hr : Runs (sourceStatement operand) b i b') :
    ∃ f b1, Runs operand.build b f b1 ∧ (f = .statement i ∧ b' = b1 ∨ (∀ j, f ≠ .statement j) ∧ i = b1.store.size ∧
      b' = { b1 with statements := b1.statements.push { fromList := sourceParts operand.expr.isCall f } }) := by
  simp only [sourceStatement, runs_bind] at hr
  obtain ⟨f, b1, hf, hr⟩ := hr
  refine ⟨f, b1, hf, ?_⟩
  cases f with
  | statement j =>
    obtain ⟨rfl, rfl⟩ := runs_pure.1 hr
    exact Or.inl ⟨rfl, rfl⟩
  | _ => exact Or.inr ⟨by simp, runs_newStatement.1 hr⟩

theorem sourceStatement_spec (hv : ValueOK operand) (hb : Good b) (hj : b.inJoin = false)
    (hr : Runs (sourceStatement operand) b i b') :
    Owns b.store (around b.building) b'.store i ∧ SameStacks b b' := by
  obtain ⟨f, b1, hf, hr⟩ := sourceStatement_cases hr
  obtain ⟨hs, hfs⟩ := hv hb hj (le_refl _) Store.sound_nil hf
  rcases hr with ⟨rfl, rfl⟩ | ⟨-, rfl, rfl⟩
  · exact ⟨⟨hs.store, hs.grows, hfs⟩, hs.same⟩
  · exact ⟨owns_source hs.store hs.grows hfs.toPart, hs.same.trans ⟨rfl, rfl, rfl⟩⟩

/-- A statement without extents gets one for the variable, an only extent is what the variable stands
for, and several become the inputs of one flat join. -/
theorem variableExtent_cases (hr : Runs (variableExtent name type k) b (i, x) b') :
    i = k ∧ ((b.store.get k).fromExtents = [] ∧ Runs (newExtent name type none) b x b' ∨
      (b.store.get k).fromExtents = [x] ∧ b' = b ∨
      1 < (b.store.get k).fromExtents.length ∧ x = b.names.symbols.size ∧ b' = { b with
        names := { b.names with symbols := b.names.symbols.push (.joined name type
          { extents := (b.store.get k).fromExtents, flattened := (b.store.get k).joinExtents.getD [] }) }
        statements := b.statements.modify k fun s => { s with fromExtents := [b.names.symbols.size] } }) := by
  simp only [variableExtent, runs_bind, runs_statement, and_assoc, exists_and_left, exists_eq_left] at hr
  rcases hf : (b.statements.get k).fromExtents with _ | ⟨y, _ | ⟨z, rest⟩⟩
  · simp only [hf, runs_bind, runs_pure, Prod.mk.injEq] at hr
    obtain ⟨y, b1, hy, ⟨rfl, rfl⟩, rfl⟩ := hr
    exact ⟨rfl, Or.inl ⟨hf, hy⟩⟩
  · simp only [hf, runs_pure, Prod.mk.injEq] at hr
    obtain ⟨⟨rfl, rfl⟩, rfl⟩ := hr
    exact ⟨rfl, Or.inr (Or.inl ⟨hf, rfl⟩)⟩
  · simp only [hf, runs_bind, runs_newSymbol, runs_updateStatement, runs_pure, and_assoc, exists_and_left,
      exists_eq_left, exists_const, Prod.mk.injEq] at hr
    obtain ⟨rfl, rfl, rfl⟩ := hr
    have hlen : 1 < (b.store.get i).fromExtents.length := by
      change 1 < (b.statements.get i).fromExtents.length
      simp [hf]
    refine ⟨rfl, Or.inr (Or.inr ⟨hlen, rfl, ?_⟩)⟩
    change _ = { b with names := { b.names with symbols := b.names.symbols.push (.joined name type
      { extents := (b.statements.get i).fromExtents, flattened := _ }) }, statements := _ }
    rw [hf]
    rfl

theorem variableExtent_spec (h : Owns σ path b.store k) (hr : Runs (variableExtent name type k) b (i, x) b') :
    Owns σ path b'.store i ∧ SameStacks b b' ∧ InputOf b'.store i x := by
  obtain ⟨rfl, ⟨hf, hnew⟩ | ⟨hf, rfl⟩ | ⟨hlen, rfl, hb'⟩⟩ := variableExtent_cases hr
  · obtain ⟨hn, hfresh⟩ := newExtent_spec hnew h.ok (by simp)
    exact ⟨hn.owns h, hn.same, Or.inr ⟨by rw [hn.get]; exact hf, hfresh⟩⟩
  · exact ⟨h, .refl _, Or.inl hf⟩
  · -- more than one extent: a join, which lists all that it declares
    have hl : (b.store.get i).joinExtents = some (b.store.get i).aliases :=
      (h.ok.statement i).listed.resolve_right fun hh => absurd hlen (by omega)
    obtain ⟨ho, hfrom, -⟩ := merge_spec h hl rfl (Or.inr (by rw [hl]; rfl)) (fun s => rfl) hb'
    exact ⟨ho, by rw [hb']; exact ⟨rfl, rfl, rfl⟩, Or.inl hfrom⟩

/-- Reading an operand: its statement, and what its variable stands for. -/
theorem input_spec (hv : ValueOK operand) (hb : Good b) (hj : b.inJoin = false)
    (hr : Runs (input operand name type) b (i, x) b') :
    Owns b.store (around b.building) b'.store i ∧ SameStacks b b' ∧ InputOf b'.store i x := by
  rw [input_eq] at hr
  obtain ⟨k, b1, hk, hr⟩ := runs_bind.1 hr
  obtain ⟨ho, hs⟩ := sourceStatement_spec hv hb hj hk
  obtain ⟨ho', hs', hi⟩ := variableExtent_spec ho hr
  exact ⟨ho', hs.trans hs', hi⟩

/-- The statement of an input is taken as it is if it takes the operator, and as a subselect otherwise. -/
theorem inputFor_cases (hr : Runs (inputFor op operand name type) b (i, x) b') :
    ∃ k y b1, Runs (input operand name type) b (k, y) b1 ∧
      ((b1.store.get k).accepts op = true ∧ i = k ∧ x = y ∧ b' = b1 ∨
        (b1.store.get k).accepts op ≠ true ∧ Runs (subselect k name type true) b1 (i, x) b') := by
  simp only [inputFor, runs_bind, runs_statement, runs_ite, runs_pure, and_assoc, exists_and_left,
    exists_eq_left, Prod.mk.injEq] at hr
  obtain ⟨⟨k, y⟩, b1, hin, hr⟩ := hr
  exact ⟨k, y, b1, hin, hr⟩

theorem inputFor_spec (hv : ValueOK operand) (hb : Good b) (hj : b.inJoin = false)
    (hr : Runs (inputFor op operand name type) b (i, x) b') :
    Owns b.store (around b.building) b'.store i ∧ SameStacks b b' ∧ InputOf b'.store i x := by
  obtain ⟨k, y, b1, hin, ⟨-, rfl, rfl, rfl⟩ | ⟨-, hsub⟩⟩ := inputFor_cases hr
  · exact input_spec hv hb hj hin
  · obtain ⟨ho, hs, -⟩ := input_spec hv hb hj hin
    obtain ⟨ho', hs', hi'⟩ := subselect_spec ho hsub
    exact ⟨ho', hs.trans hs', hi'⟩

theorem accepts_overSubselect (i : StatementId) (op : Operator) : (overSubselect i).accepts op = true := by
  cases op <;> rfl

theorem accepts_inputFor (hr : Runs (inputFor op operand name type) b (i, x) b') :
    (b'.store.get i).accepts op = true := by
  obtain ⟨k, y, b1, -, ⟨hacc, rfl, rfl, rfl⟩ | ⟨-, hsub⟩⟩ := inputFor_cases hr
  · exact hacc
  · rw [(get_subselect hsub).2]
    exact accepts_overSubselect _ op

/-- The statement for an operator that is added before anything is selected. -/
theorem inputFor_selectList (hop : op.isEarly = true) (hr : Runs (inputFor op operand name type) b (i, x) b') :
    (b'.store.get i).selectList = [] :=
  selectList_of_accepts hop (accepts_inputFor hr)

theorem wrapUnless_cases (hr : Runs (wrapUnless op name type i) b k b') :
    (b.store.get i).accepts op = true ∧ k = i ∧ b' = b ∨ (b.store.get i).accepts op ≠ true ∧
      ∃ y b1 u, Runs (subselect i name type true) b (k, y) b1 ∧ Runs (declareExtent k y) b1 u b' := by
  simp only [wrapUnless, runs_bind, runs_statement, runs_ite, runs_pure, and_assoc, exists_and_left,
    exists_eq_left] at hr
  rcases hr with h | ⟨hno, ⟨outer, y⟩, b1, hsub, u, _, hdecl, rfl, rfl⟩
  · exact Or.inl h
  · exact Or.inr ⟨hno, y, b1, u, hsub, hdecl⟩

theorem wrapUnless_spec (h : Owns σ path b.store i) (hr : Runs (wrapUnless op name type i) b k b') :
    Owns σ path b'.store k ∧ SameStacks b b' := by
  rcases wrapUnless_cases hr with ⟨-, rfl, rfl⟩ | ⟨-, y, b1, _, hsub, hdecl⟩
  · exact ⟨h, .refl _⟩
  · obtain ⟨ho, hs, hi⟩ := subselect_spec h hsub
    obtain ⟨ho', hs', -⟩ := declareExtent_spec ho hi hdecl
    exact ⟨ho', hs.trans hs'⟩

/-- The statement of an operand, with its extent declared. -/
def declaredStatement (operand : Operand) : BuildM StatementId :=
  if declaresExtent operand.expr then operand.build >>= expectStatement
  else inScope do
    let (i, extent) ← input operand defaultVariable operand.expr.rowType
    declareExtent i extent
    bindVariable defaultVariable extent
    return i

/-- The statement with a select list, if that is asked for. -/
def completed (complete : Bool) (i : StatementId) : BuildM StatementId :=
  if complete then do selectAllIfNone i; return i else pure i

theorem asStatement_eq (operand : Operand) (complete : Bool) :
    asStatement operand complete = declaredStatement operand >>= completed complete := by
  unfold asStatement declaredStatement completed
  cases declaresExtent operand.expr <;> simp only [if_true, if_false, bind_assoc, Bool.false_eq_true]

theorem declaredStatement_cases (hr : Runs (declaredStatement operand) b i b') :
    declaresExtent operand.expr = true ∧ Runs operand.build b (.statement i) b' ∨
      ∃ y b1 u b2, Runs (input operand defaultVariable operand.expr.rowType) { b with scopes := b.scopes.enter } (i, y) b1 ∧
        Runs (declareExtent i y) b1 u b2 ∧ b' = { b2 with scopes := (b2.scopes.add defaultVariable y).leave } := by
  rcases runs_ite.1 hr with ⟨hd, hr⟩ | ⟨-, hr⟩
  · obtain ⟨f, b1, hf, hr⟩ := runs_bind.1 hr
    cases f with
    | statement j =>
      obtain ⟨rfl, rfl⟩ := runs_pure.1 hr
      exact Or.inl ⟨hd, hf⟩
    | _ => exact absurd hr runs_throw
  · simp only [runs_inScope, runs_bind, runs_bindVariable, runs_pure] at hr
    obtain ⟨_, ⟨⟨j, y⟩, b1, hin, u, b2, hdecl, -, _, rfl, rfl, rfl⟩, rfl⟩ := hr
    exact Or.inr ⟨y, b1, u, b2, hin, hdecl, rfl⟩

theorem declaredStatement_spec (hv : ValueOK operand) (hb : Good b) (hj : b.inJoin = false)
    (hr : Runs (declaredStatement operand) b i b') :
    Owns b.store (around b.building) b'.store i ∧ SameStacks b b' := by
  rcases declaredStatement_cases hr with ⟨-, hf⟩ | ⟨y, b1, _, b2, hin, hdecl, rfl⟩
  · obtain ⟨hs, hfs⟩ := hv hb hj (le_refl _) Store.sound_nil hf
    exact ⟨⟨hs.store, hs.grows, hfs⟩, hs.same⟩
  · obtain ⟨ho, hs, hi⟩ := input_spec hv hb.enter hj hin
    obtain ⟨ho', hs', -⟩ := declareExtent_spec ho hi hdecl
    have hsame := hs.trans hs'
    refine ⟨ho', hsame.building, hsame.joins, ?_⟩
    change (b2.scopes.add _ _).leave = b.scopes
    rw [hsame.scopes]; rfl

/-- An operand as a statement has its extent declared, and its columns selected if it has to be complete. -/
theorem asStatement_cases (hr : Runs (asStatement operand complete) b i b') :
    ∃ b1, Runs (declaredStatement operand) b i b1 ∧
      (complete = true ∧ (∃ u, Runs (selectAllIfNone i) b1 u b') ∨ complete = false ∧ b' = b1) := by
  rw [asStatement_eq] at hr
  obtain ⟨k, b1, hk, hr⟩ := runs_bind.1 hr
  cases complete with
  | true =>
    obtain ⟨u, _, hsel, hr⟩ := runs_bind.1 hr
    obtain ⟨rfl, rfl⟩ := runs_pure.1 hr
    exact ⟨b1, hk, Or.inl ⟨rfl, u, hsel⟩⟩
  | false =>
    obtain ⟨rfl, rfl⟩ := runs_pure.1 hr
    exact ⟨b', hk, Or.inr ⟨rfl, rfl⟩⟩

/-- An operand as a statement. -/
theorem asStatement_spec (hv : ValueOK operand) (hb : Good b) (hj : b.inJoin = false)
    (hr : Runs (asStatement operand complete) b i b') :
    Owns b.store (around b.building) b'.store i ∧ SameStacks b b' := by
  obtain ⟨b1, hk, ⟨-, _, hsel⟩ | ⟨-, rfl⟩⟩ := asStatement_cases hr
  · obtain ⟨ho, hs⟩ := declaredStatement_spec hv hb hj hk
    obtain ⟨ho', hs'⟩ := selectAllIfNone_spec ho hsel
    exact ⟨ho', hs.trans hs'⟩
  · exact declaredStatement_spec hv hb hj hk

end

end Build

end RelSql
