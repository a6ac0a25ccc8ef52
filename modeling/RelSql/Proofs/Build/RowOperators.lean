/-
The relational operators keep columns within reach. An operator opens the statement of its input and
adds a clause that reads the rows of the input; the statement shows the rows of the input after that,
or those that it selects.
-/
import RelSql.Proofs.Build.RowInputs
import RelSql.Proofs.Build.RowPasses

namespace RelSql

open RelSql.Part Statement List

variable {f : Statement → Statement}

namespace Store

variable {σ τ : Store} {i : StatementId} {x : SymbolId} {ty ty' : DataType}

theorem RowsOf.views (h : σ.RowsOf i x ty) (hs : (σ.get i).selectList = []) :
    σ.Views x ty ∧ ∀ e, σ.symbols.Reaches x e → σ.Starred e := by
  cases h with
  | closed _ hne _ => exact absurd hs hne
  | opened _ _ hv hl => exact ⟨hv, hl⟩

/-- Rows of a statement that keeps its select list and its extents. -/
theorem RowsOf.lasts (h : σ.RowsOf i x ty) (hok : σ.OK) (hok' : τ.OK) (hl : Lasts σ τ)
    (hs : (τ.get i).selectList = (σ.get i).selectList) (hx : (τ.get i).fromExtents = (σ.get i).fromExtents) :
    τ.RowsOf i x ty := by
  cases h with
  | closed hf hne h => exact .closed (hx.trans hf) (by rw [hs]; exact hne) (h.lasts hl)
  | opened hf hnil hv hstar =>
    refine .opened (hx.trans hf) (hs.trans hnil) (hv.lasts hok hok' hl) fun e he => ?_
    have he' : σ.symbols.Reaches x e := he.of_grows hok.symbols hl.symbols hv.lt
    exact (hstar e he').lasts (Reaches_lt hok (by rw [hf]; exact mem_singleton_self x) he') hok hok' hl

theorem Views.of_no_members (h : σ.Views x ty) (hn : ∀ n, ty'.member? n = none) : σ.Views x ty' := by
  have hno : ∀ {n m}, ty'.member? n ≠ some m := fun {n m} => by rw [hn n]; exact nofun
  cases h with
  | plain hj hx hs _ => exact .plain hj hx hs fun _ _ hm => absurd hm hno
  | flat input hj hf _ _ _ =>
    exact .flat input hj hf (fun _ _ hm => absurd hm hno) (fun _ _ hm => absurd hm hno) fun _ _ hm => absurd hm hno
  | nested input hj hf hx _ _ => exact .nested input hj hf hx (fun _ _ hm => absurd hm hno) fun _ _ hm => absurd hm hno

/-- A select list exposes the members of rows by their names. -/
theorem supplies_of_names {names : List String} (hexp : (σ.get i).exposed = names.map text)
    (hn : ty.properties.map Prod.fst = names) : σ.Supplies i ty := by
  intro n m hm
  obtain ⟨name, hmem, hsame⟩ := DataType.exists_of_member? hm
  exact Or.inl ⟨name, by rw [hexp]; exact mem_map_of_mem (hn ▸ hmem), hsame⟩

end Store

namespace Build

open Store

variable {vars : List Member} {b b' b1 b2 : Build} {i : StatementId} {x : SymbolId} {ty : DataType}

theorem Reads.asFragment {m : BuildM StatementId} {e : Expr}
    (h : Reads vars (AllLegible []) m fun i σ => ∃ x, σ.RowsOf i x ty) (hj : e.isJoin = false) :
    Reads vars (AllLegible []) (asFragment m) fun f σ => σ.Delivers e ty f :=
  h.bind fun _ => reads_pure fun _ ⟨_, hx⟩ => .rows hx hj

/-- A statement with another clause that is legible shows the rows that it showed. -/
theorem update_columns (hok : b.store.OK) (hok' : b'.store.OK) (hi : i < b.store.size) (hc : b.store.ColumnsOK)
    (hb' : b' = { b with statements := b.statements.modify i f })
    (hs : (f (b.store.get i)).selectList = (b.store.get i).selectList)
    (hf : (f (b.store.get i)).fromList = (b.store.get i).fromList)
    (hx : (f (b.store.get i)).fromExtents = (b.store.get i).fromExtents)
    (hreads : ∀ ps ∈ (f (b.store.get i)).clauses, b.store.Legible ps) :
    b'.store.ColumnsOK ∧ ∀ x ty, b.store.RowsOf i x ty → b'.store.RowsOf i x ty := by
  rw [store_update hb'] at hok' ⊢
  obtain ⟨hc', hl⟩ := hc.clauses hok hok' hi hs hf hx hreads
  refine ⟨hc', fun x ty h => h.lasts hok hok' hl ?_ ?_⟩ <;> rw [get_modify_self hi]
  · exact hs
  · exact hx

/-- Rows with members that are columns within reach. -/
def columnPass (vars : List Member) (ty : DataType) : RowPass ty where
  Ready := Ready vars
  Inv := ColumnsOK
  Source σ i := ∃ e, σ.Delivers e ty (.statement i)
  Input σ i x := InputRows σ i x ty
  Rows σ i := ∃ x, σ.RowsOf i x ty
  Shown σ i := σ.Supplies i ty

theorem columnPass_lawful (hrow : ty.isRow = true) : (columnPass vars ty).Lawful where
  good _ hb := ⟨hb.good, hb.free⟩
  enter _ hb := hb.enter
  extent _ _ _ _ _ _ _ _ ho hc := fun ⟨_, hd⟩ hr => variableExtent_columns ho hc hrow hd hr
  rows _ _ x _ h := h.symm.imp (fun hrows => ⟨x, hrows⟩) fun hun => ⟨hun.extents, hun.select⟩
  wrap _ _ _ _ _ _ _ _ ho hc := fun ⟨_, hrows⟩ hr =>
    have ⟨hc', hun, _⟩ := subselect_columns ho hc hrow hrows hr
    ⟨hc', Or.inl hun⟩
  declare _ _ _ _ _ x _ ho _ hc h hr :=
    have ⟨hc', _, hrows⟩ := declareExtent_columns ho hc h hr
    ⟨hc', x, hrows⟩
  complete _ _ _ _ _ _ ho hc := fun ⟨x, hrows⟩ hr =>
    have ⟨hc', _, hx, hs, hsup⟩ := selectAllIfNone_columns ho hc hrows hr
    ⟨hc', ⟨x, .closed hx hs hsup⟩, hsup⟩
  cut _ b _ _ i _ ho hok' hc := fun ⟨x, hrows⟩ hb' hcut =>
    have ⟨hs, hf, hx, _, _⟩ := hcut.kept
    have ⟨hc', hkept⟩ := update_columns ho.ok hok' ho.lt hc hb' hs hf hx
      (hcut.clauses (hc.reads i) fun h => readsOnly_of_length (by rw [h]; exact le_refl 1))
    ⟨hc', x, hkept x _ hrows⟩

theorem RowsRead.feeds {operand : Operand} (hv : RowsRead vars operand) :
    (columnPass vars operand.expr.rowType).Feeds operand where
  sound := hv.sound
  source _ _ _ hb hr :=
    have ⟨hc, hd⟩ := sourceStatement_columns hv hb hr
    ⟨hc, _, hd⟩
  declared hdecl _ _ _ hb hr := by
    obtain ⟨-, hc, hd⟩ := hv.reads hb allLegible_nil hr
    refine ⟨hc, ?_⟩
    cases hd with
    | @rows k x h _ => exact ⟨x, h⟩
    | source _ _ _ hno _ => exact absurd hdecl (by rw [hno]; exact nofun)
    | joined _ hj => rw [isJoin_of_declaresExtent hdecl] at hj; cases hj

theorem RowPass.Keeps.reads {m : BuildM StatementId} (h : (columnPass vars ty).Keeps m) :
    Reads vars (AllLegible []) m fun i σ => ∃ x, σ.RowsOf i x ty :=
  fun _ _ _ hb _ hr => h hb hr

/-! ## Opening a statement -/

section

variable {op : Operator} {operand : Operand}

/-- The statement of an input, opened for an operator that selects nothing yet. -/
theorem open_columns {name : String} {u : PUnit} (hop : ∀ s : Statement, s.accepts op = true → s.selectList = [])
    (hv : RowsRead vars operand) (hb : Ready vars b)
    (hin : Runs (inputFor op operand name operand.expr.rowType) b (i, x) b1)
    (hdecl : Runs (declareExtent i x) { b1 with building := i :: b1.building, scopes := b1.scopes.enter } u b2) :
    b2.store.ColumnsOK ∧ Scoped vars b2 ∧ (b2.store.get i).accepts op = true ∧ (b2.store.get i).selectList = [] ∧
      b2.store.RowsOf i x operand.expr.rowType := by
  obtain ⟨ho, hs, hi⟩ := inputFor_spec hv.sound hb.good hb.free hin
  obtain ⟨hc, hrows⟩ := (columnPass_lawful hv.row).inputFor hv.feeds hb hin
  have hacc : (b1.store.get i).accepts op = true := accepts_inputFor hin
  obtain ⟨hopen, hsc⟩ := open_spec [] hb.good ho hs hi hdecl
  obtain ⟨hc2, -, hrows2⟩ := declareExtent_columns (b := { b1 with
    building := i :: b1.building, scopes := b1.scopes.enter }) ho hc hrows hdecl
  have hacc2 : (b2.store.get i).accepts op = true := by
    rw [(declareExtent_clauses hdecl ho.lt).accepts op]; exact hacc
  exact ⟨hc2, hb.bound.enter.lasts hb.good.store hopen.owns.ok hopen.owns.grows.lasts hsc, hacc2, hop _ hacc2, hrows2⟩

/-- What is built over the rows of an input finds them in scope, and leaves the statement open. -/
theorem overRows_columns {α : Type} {input : Binding Operand} {body : BuildM α} {post : α → Store → Prop} {a : α}
    (hop : ∀ s : Statement, s.accepts op = true → s.selectList = []) (hv : RowsRead vars input.expr)
    (ht : input.type = input.expr.expr.rowType)
    (hbody : Reads ((input.var, input.type) :: vars) (AllLegible []) body post) (hb : Ready vars b)
    (hr : Runs (overRows op input body) b (i, a) b') :
    b'.store.ColumnsOK ∧ post a b'.store ∧ (b'.store.get i).accepts op = true ∧ ∃ x, b'.store.RowsOf i x input.type := by
  obtain ⟨x, b1, _, b2, b3, hin, -, -, -, hdecl, hopen, hbody', rfl⟩ := overRows_cases hv.sound hb.good hb.free hr
  rw [ht] at hin hbody ⊢
  obtain ⟨hc, hbound, hacc, hsel, hrows⟩ := open_columns hop hv hb hin hdecl
  obtain ⟨hstep, hc', hpost⟩ := hbody ⟨hopen.good, by rw [hopen.inJoin]; exact hb.free, hc,
    hbound.add (hrows.views hsel).1⟩ allLegible_nil hbody'
  have hsame := hstep.grows.text i hopen.owns.lt
  refine ⟨hc', hpost, ?_, x, hrows.lasts hopen.good.store hstep.store hstep.grows.lasts hsame.selectList hsame.fromExtents⟩
  exact (hsame.sameClauses.accepts op).trans hacc

end

/-! ## Filter, projection and order -/

section

variable {σ : Store} {keys : List (SortKey Operand)} {count : Operand}

variable {input : Binding Operand}

theorem filter_reads {negated : Bool} {predicate : Operand} (hv : RowsRead vars input.expr)
    (ht : input.type = input.expr.expr.rowType) (hp : ValueOK predicate)
    (hread : ValueReads ((input.var, input.type) :: vars) predicate) :
    Reads vars (AllLegible []) (filter negated input predicate) fun i σ => ∃ x, σ.RowsOf i x input.type := by
  intro b b' i hb _ hr
  obtain ⟨ho', hs'⟩ := filter_makes hv.sound hp hb.good hb.free hr
  obtain ⟨sql, b1, hover, hb2⟩ := filter_cases hr
  obtain ⟨ho, -, -⟩ := overRows_spec hv.sound hp.toPart hb.good hb.free hover
  obtain ⟨hc, hsql, hacc, x, hrows⟩ := overRows_columns (by simp +contextual [accepts]) hv ht hread hb hover
  have hnone : (b1.store.get i).condition = [] := by
    simp only [accepts, Bool.and_eq_true, List.isEmpty_iff] at hacc
    exact hacc.1.1.2
  have hnew : b1.store.Legible (if negated then [.text "NOT (", sql.toPart, .text ")"] else [sql.toPart]) := by
    have hpart : b1.store.Legible [sql.toPart] := hsql _ (List.mem_singleton_self _)
    cases negated with
    | false => exact hpart
    | true => exact readsOnly_text.2 (hpart.cons_text readsOnly_nil (by decide))
  obtain ⟨hselect, hfrom, -, hrest⟩ := forall_mem_clauses.1 (hc.reads i)
  obtain ⟨hc', hkept⟩ := update_columns ho.ok ho'.ok ho.lt hc hb2 rfl rfl rfl
    (forall_mem_clauses.2 ⟨hselect, hfrom, by rw [hnone]; exact hnew, hrest⟩)
  exact ⟨⟨ho'.ok, hs', ho'.grows⟩, hc', x, hkept x _ hrows⟩

theorem readsOnly_selectItem {p : SymbolId → Part → Prop} {r : Part} (h : Part.ReadsOnly p [r]) (name : String) :
    Part.ReadsOnly p (selectItem r name) :=
  readsOnly_line.2 (Part.ReadsOnly.cons_text h (readsOnly_text.2 readsOnly_nil) (by decide))

theorem readsOnly_namedItems {p : SymbolId → Part → Prop} {entries : List (Part × String)}
    (h : ∀ entry ∈ entries, Part.ReadsOnly p [entry.1]) : ∀ item ∈ namedItems entries, Part.ReadsOnly p item.1 :=
  forall_mem_map.2 fun entry hentry => readsOnly_selectItem (h entry hentry) _

section

variable {items : List (List Part × String)} {grouping : List Part} {output : List OutputColumn}
  (hok : b.store.OK) (hok' : b'.store.OK) (hi : i < b.store.size) (hc : b.store.ColumnsOK)
  (hb' : b' = { b with statements := b.statements.modify i (withItems items grouping output) })
  (hs : (b.store.get i).selectList = []) (hn : ∀ item ∈ items, SelectItem.Named item.1 item.2)
  (hitems : ∀ item ∈ items, b.store.Legible item.1) (hgrouping : b.store.Legible ((b.store.get i).grouping ++ grouping))

include hok hok' hi hc hb' hs hn hitems hgrouping

/-- A select list of named expressions keeps the invariant. -/
theorem withItems_columns : b'.store.ColumnsOK ∧ Lasts b.store b'.store ∧
    (b'.store.get i).exposed = (items.map Prod.snd).map text := by
  have hexp : (withItems items grouping output (b.store.get i)).exposed = (items.map Prod.snd).map text := by
    rw [exposed_named hn (by simp [withItems, hs]), map_map]; rfl
  have hselect : b.store.Legible ((b.store.get i).selectList ++ separated ", " (items.map Prod.fst)) := by
    rw [hs]; exact readsOnly_separated (by decide) (forall_mem_map.2 hitems)
  obtain ⟨-, hfrom, hcondition, -, hrest⟩ := forall_mem_clauses.1 (hc.reads i)
  have hreads : ∀ ps ∈ (withItems items grouping output (b.store.get i)).clauses, b.store.Legible ps :=
    forall_mem_clauses.2 ⟨hselect, hfrom, hcondition, hgrouping, hrest⟩
  rw [store_update hb'] at hok' ⊢
  have hl : Lasts b.store (b.store.modify i (withItems items grouping output)) :=
    lasts_modify (fun hne => absurd hs hne) prefix_rfl
  refine ⟨hc.modify hok hok' hi hl (fun c hmem => ?_) (fun y hy hno => absurd hy hno) (fun l hfrom => Or.inl hfrom)
    fun ps hps => (hreads ps hps).lasts hok hok' hl, hl, by rw [get_modify_self hi]; exact hexp⟩
  rw [hexp] at hmem
  obtain ⟨n, -, hn⟩ := mem_map.1 hmem
  cases hn

/-- A statement whose select list gets named expressions shows rows of their names. Without any, the
row has no members, and all columns stand for it. -/
theorem withItems_rows {ty' : DataType} (hx : (b.store.get i).fromExtents = [x])
    (hrows : items = [] → b.store.RowsOf i x ty) (hnames : ty'.properties.map Prod.fst = items.map Prod.snd) :
    b'.store.ColumnsOK ∧ b'.store.RowsOf i x ty' := by
  obtain ⟨hc', hl, hexp⟩ := withItems_columns hok hok' hi hc hb' hs hn hitems hgrouping
  have hget := (get_update hb' hi).1
  have hx' : (b'.store.get i).fromExtents = [x] := by rw [hget]; exact hx
  refine ⟨hc', ?_⟩
  cases items with
  | cons item items =>
    refine .closed hx' (select_ne_nil_of_exposed (c := .text item.2) ?_) (supplies_of_names hexp hnames)
    rw [hexp]; exact mem_cons_self
  | nil =>
    have hnil : (b'.store.get i).selectList = [] := by rw [hget]; simp [withItems, hs, separated]
    obtain ⟨hv, hstar⟩ := ((hrows rfl).lasts hok hok' hl (hnil.trans hs.symm) (hx'.trans hx.symm)).views hnil
    refine .opened hx' hnil (hv.of_no_members fun n => ?_) hstar
    rw [DataType.member?, map_eq_nil_iff.1 hnames]; rfl

end

/-- A projection onto a record shows rows with its fields. -/
theorem projectRecord_reads {fields : List (String × Operand)} (hv : RowsRead vars input.expr)
    (ht : input.type = input.expr.expr.rowType) (hf : ∀ f ∈ fields, ValueOK f.2)
    (hread : ∀ f ∈ fields, ValueReads ((input.var, input.type) :: vars) f.2)
    (hnames : ty.properties.map Prod.fst = fields.map Prod.fst) :
    Reads vars (AllLegible []) (projectRecord input fields) fun i σ => ∃ x, σ.RowsOf i x ty := by
  intro b b' i hb _ hr
  obtain ⟨ho', hs'⟩ := projectRecord_makes hv.sound hf hb.good hb.free hr
  obtain ⟨items, b1, hover, hb'⟩ := projectRecord_cases hr
  obtain ⟨ho, -, -⟩ := overRows_spec hv.sound (builds_mapM fun f h => projectField_builds (hf f h)) hb.good hb.free hover
  obtain ⟨hc, hitems, hacc, x, hrows⟩ := overRows_columns (by simp +contextual [accepts]) hv ht
    (legibleKind.mapM fun f h => legibleKind.projectField (hread f h)) hb hover
  have hnone : (b1.store.get i).selectList = [] := by
    simp only [accepts, Bool.and_eq_true, List.isEmpty_iff] at hacc
    exact hacc.1
  obtain ⟨_, _, hbody⟩ := overRows_body hover
  have hfields := map_of_runs_mapM (fun _ _ _ _ hr => (projectField_cases hr).1) hbody
  have hlegible : ∀ item ∈ fieldItems items, b1.store.Legible item.1 :=
    readsOnly_namedItems (List.forall_mem_map.2 fun item hi =>
      hitems _ (List.mem_map_of_mem hi))
  have hgrouping := (forall_mem_clauses.1 (hc.reads i)).2.2.2.1
  obtain ⟨hc', hrows'⟩ := withItems_rows ho.ok ho'.ok ho.lt hc hb' hnone (named_fieldItems items) hlegible
    (by rw [List.append_nil]; exact hgrouping) hrows.extents (fun _ => hrows)
    (by rw [hnames, hfields]; simp [fieldItems, namedItems, Function.comp_def])
  exact ⟨⟨ho'.ok, hs', ho'.grows⟩, hc', x, hrows'⟩

theorem ordered_reads {op : Operator}
    (hop : ∀ s : Statement, s.accepts op = true → s.selectList = [] ∧ s.ordering = []) (hv : RowsRead vars input.expr)
    (ht : input.type = input.expr.expr.rowType) (hk : ∀ k ∈ keys, ValueOK k.expr)
    (hread : ∀ k ∈ keys, ValueReads ((input.var, input.type) :: vars) k.expr) :
    Reads vars (AllLegible []) (ordered op input keys) fun i σ => ∃ x, σ.RowsOf i x input.type := by
  intro b b' i hb _ hr
  obtain ⟨ho', hs'⟩ := ordered_makes hv.sound hk hb.good hb.free hr
  obtain ⟨items, b1, hover, hb2⟩ := ordered_cases hr
  obtain ⟨ho, -, -⟩ := overRows_spec hv.sound (builds_mapM fun k h => sortItem_builds (hk k h)) hb.good hb.free hover
  obtain ⟨hc, hitems, hacc, x, hrows⟩ := overRows_columns (fun s hs => (hop s hs).1) hv ht
    (legibleKind.mapM fun k h => legibleKind.sortItem (hread k h)) hb hover
  have hnew : b1.store.Legible (separated ", " items) :=
    readsOnly_separated (by decide) fun item hi => hitems item (by simpa using hi)
  obtain ⟨hselect, hfrom, hcondition, hgrouping, -, hrest⟩ := forall_mem_clauses.1 (hc.reads i)
  obtain ⟨hc', hkept⟩ := update_columns ho.ok ho'.ok ho.lt hc hb2 rfl rfl rfl
    (forall_mem_clauses.2 ⟨hselect, hfrom, hcondition, hgrouping, by rw [(hop _ hacc).2]; exact hnew, hrest⟩)
  exact ⟨⟨ho'.ok, hs', ho'.grows⟩, hc', x, hkept x _ hrows⟩

theorem sort_reads (hv : RowsRead vars input.expr) (ht : input.type = input.expr.expr.rowType)
    (hk : ∀ k ∈ keys, ValueOK k.expr) (hread : ∀ k ∈ keys, ValueReads ((input.var, input.type) :: vars) k.expr) :
    Reads vars (AllLegible []) (sort input keys) fun i σ => ∃ x, σ.RowsOf i x input.type :=
  ordered_reads (by simp +contextual [accepts]) hv ht hk hread

/-! ## Row counts and duplicates -/

theorem skip_reads (hv : RowsRead vars input.expr) (ht : input.type = input.expr.expr.rowType)
    (hk : ∀ k ∈ keys, ValueOK k.expr) (hread : ∀ k ∈ keys, ValueReads ((input.var, input.type) :: vars) k.expr)
    (hcount : CountOK count) :
    Reads vars (AllLegible []) (skip input keys count) fun i σ => ∃ x, σ.RowsOf i x input.type :=
  ((columnPass_lawful (by rw [ht]; exact hv.row)).skip hv.sound hk hcount fun _ _ _ hb hr =>
    ordered_reads (by simp +contextual [accepts]) hv ht hk hread hb allLegible_nil hr).reads

variable {operand : Operand}

theorem limit_reads {withTies : Bool} (hv : RowsRead vars operand) (hcount : CountOK count) :
    Reads vars (AllLegible []) (limit withTies operand count) fun i σ => ∃ x, σ.RowsOf i x operand.expr.rowType :=
  ((columnPass_lawful hv.row).limit hv.feeds hcount withTies).reads

theorem singleton_reads (hv : RowsRead vars operand) :
    Reads vars (AllLegible []) (singleton operand) fun i σ => ∃ x, σ.RowsOf i x operand.expr.rowType :=
  ((columnPass_lawful hv.row).singleton hv.feeds).reads

theorem distinct_reads (hv : RowsRead vars operand) :
    Reads vars (AllLegible []) (distinct operand) fun i σ => ∃ x, σ.RowsOf i x operand.expr.rowType :=
  ((columnPass_lawful hv.row).distinct hv.feeds).reads

/-! ## Whole statements inside text -/

/-- An operand as a statement with a select list. -/
theorem asStatement_reads (hv : RowsRead vars operand) :
    Reads vars (AllLegible []) (asStatement operand true) fun i σ => σ.Supplies i operand.expr.rowType := by
  intro b b' i hb _ hr
  obtain ⟨hs, hc, -, hsup⟩ := (columnPass_lawful hv.row).asStatement hv.feeds hb hr
  exact ⟨hs, hc, hsup rfl⟩

theorem statement_reads (hv : RowsRead vars operand) :
    Reads vars (AllLegible []) (asStatement operand true) fun i => AllLegible [[.statement i]] :=
  (asStatement_reads hv).imp fun _ _ _ => forall_mem_singleton.2 (readsOnly_statement.2 readsOnly_nil)

/-- A statement in parentheses ends with no symbol. -/
theorem element_reads (hv : RowsRead vars operand) : Reads vars (AllLegible []) (element operand) Ended := by
  refine (legibleKind.element (statement_reads hv)).ended ?_
  rintro f ⟨b, b', hr⟩
  simp only [element, runs_bind, runs_pure] at hr
  obtain ⟨i, _, -, rfl, -⟩ := hr
  exact ⟨[.text "(", .statement i], ")", rfl⟩

theorem quantified_reads {q : Quantifier} {predicate : Operand} (hv : RowsRead vars input.expr)
    (ht : input.type = input.expr.expr.rowType) (hp : ValueOK predicate)
    (hread : ValueReads ((input.var, input.type) :: vars) predicate) :
    Reads vars (AllLegible []) (quantified q input predicate) fun f => AllLegible [[f.toPart]] := by
  intro b b' f hb hpre hr
  have hstep := (quantified_builds hv.sound hp hb.good hb.free (le_refl _) Store.sound_nil hr).1
  simp only [quantified, runs_bind, runs_pure] at hr
  obtain ⟨i, b1, hf, _, b2, hsel, rfl, rfl⟩ := hr
  obtain ⟨ho, -⟩ := filter_makes hv.sound hp hb.good hb.free hf
  obtain ⟨-, hc, x, hrows⟩ := filter_reads hv ht hp hread hb hpre hf
  obtain ⟨hc', -⟩ := selectAllIfNone_columns ho hc hrows hsel
  refine ⟨hstep, hc', forall_mem_singleton.2 (legible_group.2 ?_)⟩
  cases q == .all <;> simp [existsParts, Legible]

/-- A set operation is a source of the rows of its left side. -/
theorem setOperation_reads {op : SetOp} {left right : Operand} (hl : RowsRead vars left) (hr : RowsRead vars right) :
    Reads vars (AllLegible []) (setOperation op left right) fun f σ =>
      ∃ ps, f = .parts ps ∧ σ.Legible ps ∧ ∀ j, (Part.group ps).subselect? = some j → σ.Supplies j left.expr.rowType := by
  intro b b' f hb hpre hrun
  simp only [setOperation, runs_bind, runs_pure] at hrun
  obtain ⟨l, b1, hl', r, b2, hr', ls, b3, hls, rs, b4, hrs, rfl, rfl⟩ := hrun
  obtain ⟨hs1, hc1, hsup⟩ := asStatement_reads hl hb hpre hl'
  obtain ⟨hs2, hc2, -⟩ := asStatement_reads hr (hb.step hs1 hc1) allLegible_nil hr'
  obtain ⟨rfl, hleft⟩ := setSide_parts hls
  obtain ⟨rfl, hright⟩ := setSide_parts hrs
  refine ⟨hs1.trans hs2, hc2, _, rfl, ?_, fun j hj => ?_⟩
  · rcases hleft with rfl | rfl <;> rcases hright with rfl | rfl <;> simp [Legible]
  · have hjl : j = l := by rcases hleft with rfl | rfl <;> simpa [Part.subselect?, eq_comm] using hj
    rw [hjl]
    exact hsup.lasts hs2.grows.lasts

end

/-! ## Collections -/

/-- A collection of listed items is no subselect. -/
theorem collection_reads (elementType : DataType) {items : List Operand} (h : ∀ item ∈ items, ValueReads vars item) :
    Reads vars (AllLegible []) (collection elementType items) fun f σ =>
      ∃ ps, f = .parts ps ∧ σ.Legible ps ∧ (Part.group ps).subselect? = none := by
  intro b b' f hb hpre hr
  obtain ⟨hs, hc, hl⟩ := legibleKind.collection elementType h hb hpre hr
  simp only [collection, runs_ite, runs_bind, runs_pure] at hr
  rcases hr with ⟨-, rfl, -⟩ | ⟨-, rows, _, hrows, rfl, -⟩
  · exact ⟨hs, hc, _, rfl, legible_group.1 (forall_mem_singleton.1 hl), Part.subselect?_text (by simp)⟩
  · refine ⟨hs, hc, _, rfl, legible_group.1 (forall_mem_singleton.1 hl), ?_⟩
    have hselect : ∀ ps ∈ rows, ∃ rest, ps = .text "SELECT " :: rest := by
      refine forall_of_runs_mapM (fun item b1 ps b2 hps => ?_) hrows
      simp only [collectionItem, runs_bind, runs_pure] at hps
      obtain ⟨g, _, -, rfl, -⟩ := hps
      exact ⟨_, rfl⟩
    rcases rows with _ | ⟨ps, _ | ⟨next, more⟩⟩
    · rfl
    · obtain ⟨rest, rfl⟩ := hselect ps mem_cons_self
      rw [Part.separated, intercalate_singleton]
      exact Part.subselect?_text (by simp)
    · obtain ⟨rest, rfl⟩ := hselect ps mem_cons_self
      rw [Part.separated, intercalate_cons_cons]
      exact Part.subselect?_text (by simp)

end Build

end RelSql
