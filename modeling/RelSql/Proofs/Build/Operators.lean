/-
The relational operators make sound statements. What an operator adds to a clause is built while
its statement is the innermost one, with the variable of the input in scope, so it is sound there.
-/
import RelSql.Proofs.Build.Extents

namespace RelSql.Build

open RelSql.Part Statement Store List

open Store (Sound FragmentSound Owns around)

section

variable {u : PUnit} {α : Type} {op : Operator} {input : Binding Operand} {f : Statement → Statement} {σ : Store}
  {path : Path} {count : Operand} {ps : List Part}

variable {b b' b1 : Build} {i : StatementId}

/-- Inside a statement, with variables of its own in scope. -/
theorem good_inside (hb : Good b) (ho : Owns b.store (around b.building) b1.store i)
    (hbuilding : b1.building = i :: b.building) {frame : List (String × SymbolId)}
    (hscopes : b1.scopes.frames = frame :: b.scopes.frames)
    (hframe : ∀ v ∈ frame, v.2 ∈ (b1.store.get i).fromExtents) : Good b1 := by
  refine ⟨ho.ok, fun k hk => ?_, fun fr hf v hv => ?_⟩
  · rw [hbuilding] at hk
    rcases mem_cons.1 hk with rfl | hk
    · exact ho.lt
    · exact lt_of_lt_of_le (hb.building k hk) ho.grows.size
  · rw [hbuilding]
    rw [hscopes] at hf
    rcases mem_cons.1 hf with rfl | hf
    · exact ⟨i, mem_cons_self, hframe v hv⟩
    · obtain ⟨k, hk, hx⟩ := hb.scopes fr hf v hv
      refine ⟨k, mem_cons_of_mem _ hk, ?_⟩
      rw [(ho.grows.text k (hb.building k hk)).fromExtents]; exact hx

/-- The statement of an input, opened for an operator: the state in which the body of the operator
is built. -/
structure Opened (b b1 : Build) (i : StatementId) : Prop where
  good : Good b1
  owns : Owns b.store (around b.building) b1.store i
  building : b1.building = i :: b.building
  joins : b1.joins = b.joins
  scopes : b1.scopes.leave = b.scopes

theorem Opened.inJoin (h : Opened b b1 i) : b1.inJoin = b.inJoin := by
  unfold Build.inJoin; rw [h.joins]

theorem Opened.step {b2 : Build} (h : Opened b b1 i) (hs : Step b1 b2) : Opened b b2 i :=
  ⟨h.good.step hs, h.owns.step hs.store hs.grows, hs.same.building.trans h.building,
    hs.same.joins.trans h.joins, by rw [hs.same.scopes]; exact h.scopes⟩

/-- The state behind the opened statement. -/
def closed (b : Build) : Build := { b with scopes := b.scopes.leave, building := b.building.drop 1 }

theorem Opened.closed (h : Opened b b1 i) : SameStacks b b1.closed :=
  ⟨by change b1.building.drop 1 = _; rw [h.building]; rfl, h.joins, h.scopes⟩

/-- Opening the statement of an input, for any number of names of its variable. -/
theorem open_spec {x : SymbolId} (names : List String) (hb : Good b) (h : Owns b.store (around b.building) b1.store i)
    (hs : SameStacks b b1) (hx : InputOf b1.store i x) {b2 : Build} (hr : Runs (declareExtent i x)
      { b1 with building := i :: b1.building, scopes := b1.scopes.enter } u b2) :
    Opened b { b2 with scopes := ⟨(names.map fun name => (Ident.key name, x)) :: b.scopes.frames⟩ } i ∧
      b2.scopes = b.scopes.enter := by
  obtain ⟨ho, hs2, hfrom⟩ := declareExtent_spec (b := { b1 with
    building := i :: b1.building, scopes := b1.scopes.enter }) h hx hr
  have hbuilding : b2.building = i :: b.building := by
    rw [hs2.building]
    change i :: b1.building = _
    rw [hs.building]
  refine ⟨⟨good_inside hb ho hbuilding rfl fun v hv => ?_, ho, hbuilding, ?_, rfl⟩, by rw [hs2.scopes, ← hs.scopes]⟩
  · obtain ⟨name, -, rfl⟩ := mem_map.1 hv
    change x ∈ (b2.store.get i).fromExtents
    rw [hfrom]; exact mem_singleton_self x
  · change b2.joins = b.joins
    rw [hs2.joins]
    exact hs.joins

/-- The steps of what is built over the rows of an input: its statement is opened, and the extent of its
variable declared and bound before. -/
theorem overRows_cases {body : BuildM α} {a : α} (hv : ValueOK input.expr) (hb : Good b) (hj : b.inJoin = false)
    (hr : Runs (overRows op input body) b (i, a) b') :
    ∃ x b1 u b2 b3, Runs (inputFor op input.expr input.var input.type) b (i, x) b1 ∧
      Owns b.store (around b.building) b1.store i ∧ SameStacks b b1 ∧ InputOf b1.store i x ∧
      Runs (declareExtent i x) { b1 with building := i :: b1.building, scopes := b1.scopes.enter } u b2 ∧
      Opened b { b2 with scopes := b2.scopes.add input.var x } i ∧
      Runs body { b2 with scopes := b2.scopes.add input.var x } a b3 ∧
      b' = { b3 with scopes := b3.scopes.leave, building := b3.building.drop 1 } := by
  simp only [overRows, runs_bind, runs_within, runs_inScope, runs_bindVariable, runs_pure, Prod.mk.injEq] at hr
  obtain ⟨⟨k, x⟩, b1, hin, _, _, ⟨_, ⟨b3, ⟨u, b2, hdecl, -, _, rfl, hbody⟩, rfl⟩, rfl⟩, ⟨rfl, rfl⟩, rfl⟩ := hr
  obtain ⟨ho, hs, hi⟩ := inputFor_spec hv hb hj hin
  have hopen : Opened b { b2 with scopes := b2.scopes.add input.var x } i := by
    obtain ⟨h, hsc⟩ := open_spec [input.var] hb ho hs hi hdecl
    rw [hsc]; exact h
  exact ⟨x, b1, u, b2, b3, hin, ho, hs, hi, hdecl, hopen, hbody, rfl⟩

/-- What is built over the rows of an input is sound in the statement of the input. -/
theorem overRows_spec {body : BuildM α} {post : α → List Part} {a : α} (hv : ValueOK input.expr)
    (hbody : Builds (Made []) body fun a => Made (post a)) (hb : Good b) (hj : b.inJoin = false)
    (hr : Runs (overRows op input body) b (i, a) b') :
    Owns b.store (around b.building) b'.store i ∧ SameStacks b b' ∧
      ∃ m, i < m ∧ Sound b'.store m ((i, .body) :: around b.building) (post a) := by
  obtain ⟨x, b1, _, b2, b3, -, -, -, -, -, hopen, hbody', rfl⟩ := overRows_cases hv hb hj hr
  obtain ⟨hstep, hsound⟩ := hbody hopen.good (by rw [hopen.inJoin]; exact hj) (le_refl _) sound_nil hbody'
  have hclosed := (hopen.step hstep).closed
  refine ⟨(hopen.step hstep).owns, hclosed, _, hopen.owns.lt, ?_⟩
  rw [Made, hopen.building] at hsound
  exact hsound

/-- The statement over whose rows something was built selects nothing yet. -/
theorem overRows_selectList {body : BuildM α} {post : α → List Part} {a : α} (hop : op.isEarly = true)
    (hv : ValueOK input.expr) (hbody : Builds (Made []) body fun a => Made (post a)) (hb : Good b)
    (hj : b.inJoin = false) (hr : Runs (overRows op input body) b (i, a) b') : (b'.store.get i).selectList = [] := by
  obtain ⟨x, b1, _, b2, b3, hin, -, -, -, hdecl, hopen, hbody', rfl⟩ := overRows_cases hv hb hj hr
  obtain ⟨hstep, -⟩ := hbody hopen.good (by rw [hopen.inJoin]; exact hj) (le_refl _) sound_nil hbody'
  have hnil : (b1.store.get i).selectList = [] := inputFor_selectList hop hin
  exact ((hstep.grows.text i hopen.owns.lt).selectList.trans (declareExtent_select hdecl i)).trans hnil

/-- The step makes a statement that is sound where it was asked for. -/
def MakesStatement (m : BuildM StatementId) : Prop :=
  ∀ ⦃b b' : Build⦄ ⦃i : StatementId⦄, Good b → b.inJoin = false → Runs m b i b' →
    Owns b.store (around b.building) b'.store i ∧ SameStacks b b'

theorem runs_asFragment {m : BuildM StatementId} {f : Fragment} :
    Runs (asFragment m) b f b' ↔ ∃ i, f = .statement i ∧ Runs m b i b' := by
  simp only [asFragment, runs_bind, runs_pure]
  constructor
  · rintro ⟨i, _, hr, rfl, rfl⟩; exact ⟨i, rfl, hr⟩
  · rintro ⟨i, rfl, hr⟩; exact ⟨i, b', hr, rfl, rfl⟩

theorem runs_statement_asFragment {m : BuildM StatementId} : Runs (asFragment m) b (.statement i) b' ↔ Runs m b i b' := by
  simp [runs_asFragment]

theorem MakesStatement.asFragment {m : BuildM StatementId} (h : MakesStatement m) :
    Builds (Made []) (asFragment m) MadeFragment := by
  intro n b b' f hb hj hn _ hr
  obtain ⟨i, rfl, hm⟩ := runs_asFragment.1 hr
  obtain ⟨ho, hs⟩ := h hb hj hm
  exact ⟨⟨ho.ok, hs, ho.grows⟩, ho.sound.mono hn⟩

theorem store_update (hb' : b' = { b with statements := b.statements.modify i f }) :
    b'.store = b.store.modify i f := by
  rw [hb']; rfl

theorem get_update (hb' : b' = { b with statements := b.statements.modify i f }) (hi : i < b.store.size) :
    b'.store.get i = f (b.store.get i) ∧ i < b'.store.size := by
  subst hb'
  exact ⟨get_modify_self (σ := b.store) hi f, by change i < (b.statements.modify i f).size; rwa [Array.size_modify]⟩

/-- The statement gains sound parts. -/
theorem update_spec {v : View} {new : List Part} {m : Nat} (h : Owns σ path b.store i)
    (hb' : b' = { b with statements := b.statements.modify i f })
    (ha : (b.store.get i).Adds v new (f (b.store.get i))) (hs : Sound b.store m ((i, v) :: path) new) (him : i < m) :
    Owns σ path b'.store i ∧ SameStacks b b' := by
  have hstore : b'.store = b.store.modify i f := by rw [hb']; rfl
  exact ⟨by rw [hstore]; exact h.gains ha.toGains (Or.inl ha.select) hs him, by rw [hb']; exact ⟨rfl, rfl, rfl⟩⟩

/-- The statement gets its select list. -/
theorem select_spec {new : List Part} {m : Nat} (h : Owns σ path b.store i)
    (hb' : b' = { b with statements := b.statements.modify i f })
    (ha : (b.store.get i).Gains .body new (f (b.store.get i))) (hs : Sound b.store m ((i, .body) :: path) new)
    (him : i < m) (hnil : (b.store.get i).selectList = []) (hsel : b.store.Selects i (f (b.store.get i))) :
    Owns σ path b'.store i ∧ SameStacks b b' := by
  have hstore : b'.store = b.store.modify i f := by rw [hb']; rfl
  exact ⟨by rw [hstore]; exact h.gains ha (Or.inr ⟨hnil, hsel⟩) hs him, by rw [hb']; exact ⟨rfl, rfl, rfl⟩⟩

/-- Two updates of a statement are one. -/
theorem update_update {g : Statement → Statement} (h : b1 = { b with statements := b.statements.modify i f })
    (h' : b' = { b1 with statements := b1.statements.modify i g }) :
    b' = { b with statements := b.statements.modify i (g ∘ f) } := by
  rw [h', h]
  exact congrArg (fun σ : Store => { b with statements := σ.statements }) (modify_modify b.store i f g)

/-- More items in the select list of a statement, more parts behind `GROUP BY` and more columns that it
reports. -/
def withItems (items : List (List Part × String)) (grouping : List Part) (output : List OutputColumn) (s : Statement) :
    Statement :=
  { s with
    selectList := s.selectList ++ separated ", " (items.map Prod.fst)
    grouping := s.grouping ++ grouping
    output := s.output ++ output }

/-- The columns that items with names of their own are reported as. -/
def namedOutput (items : List (List Part × String)) : List OutputColumn := items.map fun item => .named item.2

/-- Expressions as items of a select list. -/
def namedItems (entries : List (Part × String)) : List (List Part × String) :=
  entries.map fun entry => (selectItem entry.1 entry.2, entry.2)

theorem named_namedItems {entries : List (Part × String)} (h : ∀ entry ∈ entries, entry.1.IsOperand) :
    ∀ item ∈ namedItems entries, SelectItem.Named item.1 item.2 :=
  forall_mem_map.2 fun entry hentry => SelectItem.named_selectItem (h entry hentry) entry.2

/-- The statement gets its select list of items with names. -/
theorem withItems_spec {items : List (List Part × String)} {grouping : List Part} {output : List OutputColumn} {m : Nat}
    (h : Owns σ path b.store i) (hb' : b' = { b with statements := b.statements.modify i (withItems items grouping output) })
    (hnil : (b.store.get i).selectList = []) (hn : ∀ item ∈ items, SelectItem.Named item.1 item.2)
    (hitems : ∀ item ∈ items, Sound b.store m ((i, .body) :: path) item.1)
    (hgrouping : Sound b.store m ((i, .body) :: path) grouping) (him : i < m)
    (hout : output = namedOutput items ∨ output = [] ∧ b.store.Wrapped i) : Owns σ path b'.store i ∧ SameStacks b b' := by
  have hselect : Sound b.store m ((i, .body) :: path) (separated ", " (items.map Prod.fst)) := by
    rw [separated, sound_separated]
    exact forall_mem_map.2 hitems
  have hempty := (h.ok.tidy.selects i).output hnil
  exact select_spec h hb' (gains_groups _ _ _ _) (sound_append.2 ⟨hselect, hgrouping⟩) him hnil
    (selects_named hn (by simp [withItems, hnil]) (by simpa [withItems, namedOutput, hempty] using hout))

/-- The statement gains marks. -/
theorem mark_spec (h : Owns σ path b.store i) (hb' : b' = { b with statements := b.statements.modify i f })
    (ha : (b.store.get i).Adds .body [] (f (b.store.get i))) : Owns σ path b'.store i ∧ SameStacks b b' :=
  update_spec (m := i + 1) h hb' ha sound_nil (Nat.lt_succ_self i)

/-! ## Filter, projection and order -/

theorem filter_cases {negated : Bool} {predicate : Operand} (hr : Runs (filter negated input predicate) b i b') :
    ∃ sql b1, Runs (overRows .filter input predicate.build) b (i, sql) b1 ∧ b' = { b1 with
      statements := b1.statements.modify i fun s => { s with
        condition := s.condition ++ if negated then [.text "NOT (", sql.toPart, .text ")"] else [sql.toPart] } } := by
  simp only [filter, appendCondition, runs_bind, runs_updateStatement, runs_pure] at hr
  obtain ⟨⟨k, sql⟩, b1, hover, -, b2, hb2, rfl, rfl⟩ := hr
  exact ⟨sql, b1, hover, hb2⟩

theorem filter_makes {negated : Bool} {predicate : Operand} (hv : ValueOK input.expr) (hp : ValueOK predicate) :
    MakesStatement (filter negated input predicate) := by
  intro b b' i hb hj hr
  obtain ⟨sql, b1, hover, hb2⟩ := filter_cases hr
  obtain ⟨ho, hs, m, him, hsound⟩ := overRows_spec hv hp.toPart hb hj hover
  obtain ⟨ho', hs'⟩ := update_spec ho hb2 (adds_condition _ _) (m := m)
    (by cases negated <;> simpa using hsound) him
  exact ⟨ho', hs.trans hs'⟩

theorem projectField_cases {field : String × Operand} {item : String × Fragment}
    (hr : Runs (projectField field) b item b') : field.1 = item.1 ∧ Runs field.2.build b item.2 b' := by
  simp only [projectField, runs_bind, runs_ite, runs_throw, runs_pure, and_false, false_and, exists_const, false_or] at hr
  obtain ⟨-, sql, _, hsql, rfl, rfl⟩ := hr
  exact ⟨rfl, hsql⟩

theorem projectField_builds {field : String × Operand} (h : ValueOK field.2) :
    Builds (Made []) (projectField field) fun item => Made [item.2.toPart] :=
  madeKind.projectField h

theorem sound_selectItem {n : Nat} {p : Part} (h : Sound σ n path [p]) (name : String) :
    Sound σ n path (selectItem p name) := by
  simpa [selectItem] using h

theorem sound_namedItems {n : Nat} {entries : List (Part × String)} (h : ∀ entry ∈ entries, Sound σ n path [entry.1]) :
    ∀ item ∈ namedItems entries, Sound σ n path item.1 :=
  forall_mem_map.2 fun entry hentry => sound_selectItem (h entry hentry) _

/-- The fields of a record as items. -/
def fieldItems (items : List (String × Fragment)) : List (List Part × String) :=
  namedItems (items.map fun item => (item.2.toPart, item.1))

theorem named_fieldItems (items : List (String × Fragment)) : ∀ item ∈ fieldItems items, SelectItem.Named item.1 item.2 :=
  named_namedItems (forall_mem_map.2 fun item _ => toPart_ne item.2)

theorem projectRecord_cases {fields : List (String × Operand)} (hr : Runs (projectRecord input fields) b i b') :
    ∃ items b1, Runs (overRows .project input (fields.mapM projectField)) b (i, items) b1 ∧ b' = { b1 with
      statements := b1.statements.modify i (withItems (fieldItems items) [] (namedOutput (fieldItems items))) } := by
  simp only [projectRecord, appendSelect, addOutput, runs_bind, runs_updateStatement, runs_pure] at hr
  obtain ⟨⟨k, items⟩, b1, hover, -, b2, hb2, -, b3, hb3, rfl, rfl⟩ := hr
  refine ⟨items, b1, hover, (update_update hb2 hb3).trans ?_⟩
  congr 2
  funext s
  simp [withItems, fieldItems, namedItems, namedOutput, Function.comp_def]

theorem projectRecord_makes {fields : List (String × Operand)} (hv : ValueOK input.expr)
    (hf : ∀ f ∈ fields, ValueOK f.2) : MakesStatement (projectRecord input fields) := by
  intro b b' i hb hj hr
  obtain ⟨items, b1, hover, hb'⟩ := projectRecord_cases hr
  have hbody := builds_mapM fun f h => projectField_builds (hf f h)
  obtain ⟨ho, hs, m, him, hsound⟩ := overRows_spec hv hbody hb hj hover
  rw [sound_flatMap] at hsound
  obtain ⟨ho', hs'⟩ := withItems_spec ho hb' (overRows_selectList rfl hv hbody hb hj hover) (named_fieldItems items)
    (sound_namedItems (forall_mem_map.2 hsound)) sound_nil him (Or.inl rfl)
  exact ⟨ho', hs.trans hs'⟩

theorem projectValue_cases {value : Operand} (hr : Runs (projectValue input value) b i b') :
    ∃ sql output b1, Runs (overRows .project input value.build) b (i, sql) b1 ∧ b' = { b1 with
      statements := b1.statements.modify i fun s =>
        { s with selectList := s.selectList ++ [sql.toPart], output := s.output ++ output } } := by
  simp only [projectValue, appendSelect, runs_bind, runs_updateStatement] at hr
  obtain ⟨⟨k, sql⟩, b1, hover, -, b2, hb2, hr⟩ := hr
  split at hr
  · simp only [addOutput, runs_bind, runs_updateStatement, runs_pure] at hr
    obtain ⟨-, b3, hb3, rfl, rfl⟩ := hr
    exact ⟨sql, _, b1, hover, update_update hb2 hb3⟩
  · simp only [runs_pure] at hr
    obtain ⟨rfl, rfl⟩ := hr
    exact ⟨sql, [], b1, hover, by simpa using hb2⟩

theorem projectValue_makes {value : Operand} (hv : ValueOK input.expr) (hval : ValueOK value) :
    MakesStatement (projectValue input value) := by
  intro b b' i hb hj hr
  obtain ⟨sql, output, b1, hover, hb'⟩ := projectValue_cases hr
  obtain ⟨ho, hs, m, him, hsound⟩ := overRows_spec hv hval.toPart hb hj hover
  have hnil := overRows_selectList rfl hv hval.toPart hb hj hover
  obtain ⟨ho', hs'⟩ := select_spec ho hb' (gains_select _ _ _) hsound him hnil
    (selects_value (toPart_ne sql) (by simp [hnil]))
  exact ⟨ho', hs.trans hs'⟩

theorem sortItem_builds {key : SortKey Operand} (h : ValueOK key.expr) :
    Builds (Made []) (sortItem key) Made := by
  simpa only [flatten_nil, flatten_singleton] using madeKind.sortItem h

theorem ordered_cases {keys : List (SortKey Operand)} (hr : Runs (ordered op input keys) b i b') :
    ∃ items b1, Runs (overRows op input (keys.mapM sortItem)) b (i, items) b1 ∧ b' = { b1 with
      statements := b1.statements.modify i fun s => { s with ordering := s.ordering ++ separated ", " items } } := by
  simp only [ordered, appendOrdering, runs_bind, runs_updateStatement, runs_pure] at hr
  obtain ⟨⟨k, items⟩, b1, hover, -, b2, hb2, rfl, rfl⟩ := hr
  exact ⟨items, b1, hover, hb2⟩

theorem ordered_makes {keys : List (SortKey Operand)} (hv : ValueOK input.expr) (hk : ∀ k ∈ keys, ValueOK k.expr) :
    MakesStatement (ordered op input keys) := by
  intro b b' i hb hj hr
  obtain ⟨items, b1, hover, hb2⟩ := ordered_cases hr
  obtain ⟨ho, hs, m, him, hsound⟩ := overRows_spec hv (builds_mapM fun k h => sortItem_builds (hk k h)) hb hj hover
  rw [sound_flatMap] at hsound
  obtain ⟨ho', hs'⟩ := update_spec ho hb2 (adds_ordering _ _) (m := m)
    (by rw [separated, sound_separated]; exact hsound) him
  exact ⟨ho', hs.trans hs'⟩

/-! ## Row counts -/

/-- A parameter is written as text, and changes nothing. -/
def CountOK (count : Operand) : Prop :=
  ∀ ⦃name : String⦄ ⦃type : DataType⦄ ⦃b b' : Build⦄ ⦃f : Fragment⦄, count.expr = .parameter name type →
    Runs count.build b f b' → b' = b ∧ ∃ t, f = .text t

theorem rowCount_text (hc : CountOK count) (hr : Runs (rowCount count) b ps b') :
    b' = b ∧ ∃ t, ps = [.text t] ∨ ps = [.group [.text t]] := by
  unfold rowCount at hr
  split at hr
  all_goals first
    | exact absurd hr runs_throw
    | (obtain ⟨rfl, rfl⟩ := runs_pure.1 hr
       exact ⟨rfl, _, Or.inl rfl⟩)
    | skip
  rename_i name type heq
  simp only [runs_bind, runs_pure] at hr
  obtain ⟨f, b1, hf, rfl, rfl⟩ := hr
  obtain ⟨rfl, t, rfl⟩ := hc heq hf
  exact ⟨rfl, t, Or.inr rfl⟩

theorem rowCount_spec (hc : CountOK count) (hr : Runs (rowCount count) b ps b') :
    b' = b ∧ ∀ σ n path, Sound σ n path ps := by
  obtain ⟨rfl, t, rfl | rfl⟩ := rowCount_text hc hr <;> exact ⟨rfl, fun _ _ _ => by simp⟩

theorem setSkip_eq {s s' : Statement} (h : s.setSkip ps = .ok s') :
    s' = { s with skip := some ps } := by
  unfold setSkip at h
  split at h
  · cases h
  · cases h; rfl

theorem setTop_eq {s s' : Statement} (h : s.setTop ps = .ok s') :
    s' = { s with top := some ps } := by
  unfold setTop at h
  split at h
  · cases h
  · cases h; rfl

theorem setSkip_spec (h : Owns σ path b.store i) (hps : ∀ σ n path, Sound σ n path ps)
    (hr : Runs (tryUpdateStatement i (·.setSkip ps)) b u b') :
    Owns σ path b'.store i ∧ SameStacks b b' := by
  obtain ⟨s, hs, hb'⟩ := runs_tryUpdateStatement.1 hr
  refine update_spec (m := i + 1) (v := .body) h hb' ?_ (hps _ _ _) (Nat.lt_succ_self i)
  rw [setSkip_eq hs]
  exact adds_skip _ ps

theorem setTop_spec (h : Owns σ path b.store i) (hps : ∀ σ n path, Sound σ n path ps)
    (hr : Runs (tryUpdateStatement i (·.setTop ps)) b u b') :
    Owns σ path b'.store i ∧ SameStacks b b' := by
  obtain ⟨s, hs, hb'⟩ := runs_tryUpdateStatement.1 hr
  refine update_spec (m := i + 1) (v := .body) h hb' ?_ (hps _ _ _) (Nat.lt_succ_self i)
  rw [setTop_eq hs]
  exact adds_top _ ps

theorem skip_makes {keys : List (SortKey Operand)} (hv : ValueOK input.expr) (hk : ∀ k ∈ keys, ValueOK k.expr)
    (hc : CountOK count) :
    MakesStatement (skip input keys count) := by
  intro b b' i hb hj hr
  simp only [skip, runs_bind, runs_pure] at hr
  obtain ⟨k, b1, hord, ps, b2, hcount, _, b3, hset, rfl, rfl⟩ := hr
  obtain ⟨ho, hs⟩ := ordered_makes hv hk hb hj hord
  obtain ⟨rfl, hps⟩ := rowCount_spec hc hcount
  obtain ⟨ho', hs'⟩ := setSkip_spec ho hps hset
  exact ⟨ho', hs.trans hs'⟩

theorem limit_makes {withTies : Bool} {input : Operand} (hv : ValueOK input) (hc : CountOK count) :
    MakesStatement (limit withTies input count) := by
  intro b b' i hb hj hr
  simp only [limit, runs_bind, runs_ite, runs_throw, runs_pure, false_and, exists_const, and_false,
    false_or] at hr
  obtain ⟨-, j, b1, has, k, b2, hwrap, ps, b3, hcount, _, b4, hset, rfl, rfl⟩ := hr
  obtain ⟨ho, hs⟩ := asStatement_spec hv hb hj has
  obtain ⟨ho2, hs2⟩ := wrapUnless_spec ho hwrap
  obtain ⟨rfl, hps⟩ := rowCount_spec hc hcount
  obtain ⟨ho3, hs3⟩ := setTop_spec ho2 hps hset
  exact ⟨ho3, (hs.trans hs2).trans hs3⟩

theorem distinct_makes {input : Operand} (hv : ValueOK input) : MakesStatement (distinct input) := by
  intro b b' i hb hj hr
  simp only [distinct, runs_bind, runs_updateStatement, runs_pure] at hr
  obtain ⟨j, b1, has, k, b2, hwrap, -, b3, hb3, rfl, rfl⟩ := hr
  obtain ⟨ho, hs⟩ := asStatement_spec hv hb hj has
  obtain ⟨ho2, hs2⟩ := wrapUnless_spec ho hwrap
  obtain ⟨ho3, hs3⟩ := mark_spec ho2 hb3 (adds_marks _ _ _)
  exact ⟨ho3, (hs.trans hs2).trans hs3⟩

theorem singleton_makes {input : Operand} (hv : ValueOK input) : MakesStatement (singleton input) := by
  intro b b' i hb hj hr
  simp only [singleton, runs_bind, runs_pure] at hr
  obtain ⟨j, b1, has, k, b2, hwrap, _, b3, hset, rfl, rfl⟩ := hr
  obtain ⟨ho, hs⟩ := asStatement_spec hv hb hj has
  obtain ⟨ho2, hs2⟩ := wrapUnless_spec ho hwrap
  obtain ⟨ho3, hs3⟩ := setTop_spec ho2 (fun _ _ _ => sound_text.2 sound_nil) hset
  exact ⟨ho3, (hs.trans hs2).trans hs3⟩

/-! ## Whole statements inside text -/

/-- A statement as part of a text. -/
theorem MakesStatement.builds {m : BuildM StatementId} (h : MakesStatement m) :
    Builds (Made []) m fun i => Made [.statement i] := by
  intro n b b' i hb hj hn _ hr
  obtain ⟨ho, hs⟩ := h hb hj hr
  exact ⟨⟨ho.ok, hs, ho.grows⟩, ho.sound.mono hn⟩

theorem asStatement_makes {operand : Operand} {complete : Bool} (hv : ValueOK operand) :
    MakesStatement (asStatement operand complete) :=
  fun _ _ _ hb hj hr => asStatement_spec hv hb hj hr

theorem sound_existsParts {n : Nat} (h : Sound σ n path [.statement i]) (negated : Bool) :
    Sound σ n path (existsParts negated i) := by
  cases negated <;> simpa [existsParts] using h

theorem quantified_builds {q : Quantifier} {predicate : Operand} (hv : ValueOK input.expr) (hp : ValueOK predicate) :
    Builds (Made []) (quantified q input predicate) MadeFragment := by
  have hmakes : MakesStatement (do
      let i ← filter (q == .all) input predicate
      selectAllIfNone i
      return i) := by
    intro b b' i hb hj hr
    simp only [runs_bind, runs_pure] at hr
    obtain ⟨k, b1, hf, _, b2, hsel, rfl, rfl⟩ := hr
    obtain ⟨ho, hs⟩ := filter_makes hv hp hb hj hf
    obtain ⟨ho', hs'⟩ := selectAllIfNone_spec ho hsel
    exact ⟨ho', hs.trans hs'⟩
  have heq : quantified q input predicate = (do
      let i ← filter (q == .all) input predicate
      selectAllIfNone i
      return i) >>= fun i => pure (.parts (existsParts (q == .all) i)) := by
    simp [quantified]
  rw [heq]
  exact hmakes.builds.bind fun _ => builds_pure fun _ _ _ hs => sound_existsParts hs _

end

end RelSql.Build
