/-
Queries whose types agree, and the columns that they read. The types agree if a variable has the type
of its input, a member is one of the members of its owner, and a relational operator has relational
expressions with rows as inputs. What such a query reads off its subselects is exposed there: what a
construct needs of its operands follows from their types, by induction on the size of the expression.
-/
import RelSql.Proofs.Build.Expressions
import RelSql.Proofs.Build.Offsets
import RelSql.Proofs.Build.RowGroups
import RelSql.Proofs.Build.RowJoins

namespace RelSql

open RelSql.Part Symbols List Build Store

namespace Expr

/-! ## Types that agree -/

/-- The nodes that can be inputs of relational operators: the operators themselves, and texts of
their own. -/
def isSource : Expr → Bool
  | scan _ | filter .. | project .. | join .. | crossJoin _ | groupBy .. | sort .. | skip .. | limit ..
  | distinct _ | setOp .. | newCollection .. => true
  | call .. | null _ | parameter .. | case .. | negate _ => true
  | _ => false

/-- The text ends with that of an operand, which need not have the type of the node. -/
def isRetyped : Expr → Bool
  | cast .. | arith .. => true
  | _ => false

/-- The expression is a source of rows of the type. -/
structure HasRows (e : Expr) (ty : DataType) : Prop where
  source : e.isSource = true
  type : e.type = .collection ty
  row : ty.isRow = true

/-- Two or more sources of rows, under variables of different names. -/
structure JoinsRows (inputs : List (Binding Expr)) : Prop where
  rows : ∀ b ∈ inputs, b.expr.HasRows b.type
  several : 2 ≤ inputs.length
  distinct : inputs.Pairwise fun a b => Ident.same a.var b.var = false

/-- The types at one node agree, where the variables are in scope. -/
def TypesAgree (vars : List Member) : Expr → Prop
  | var name ty => ∃ m, findMember? vars name = some m ∧ m.2 = ty
  | property owner name => owner.isRetyped = false ∧ (owner.type.member? name).isSome = true
  | filter input _ | sort input _ | skip input _ _ | quantifier _ input _ => input.expr.HasRows input.type
  | project input projection => input.expr.HasRows input.type ∧ ∃ fields, projection = newRecord fields
  | join _ left right _ => JoinsRows [left, right]
  | crossJoin inputs => JoinsRows inputs
  | groupBy input _ _ => input.expr.HasRows input.type
  | limit input _ _ | distinct input | element input | isEmpty input => input.HasRows input.rowType
  | setOp _ left right => left.HasRows left.rowType ∧ right.HasRows right.rowType
  | newCollection ty [element input] => ty = input.rowType
  | _ => True

/-- The inputs of a join, each with the variables of those before it. -/
def inputsInTurn : List (Binding Expr) → List (List Member × Expr)
  | [] => []
  | b :: rest => ([], b.expr) :: (inputsInTurn rest).map fun c => (c.1 ++ [b.member], c.2)

/-- The direct sub-expressions, each with the variables that the node binds for it. -/
def memberScopes : Expr → List (List Member × Expr)
  | filter input body | project input body | quantifier _ input body => [([], input.expr), ([input.member], body)]
  | join _ left right condition => inputsInTurn [left, right] ++ [([right.member, left.member], condition)]
  | crossJoin inputs => inputsInTurn inputs
  | groupBy input keys aggregates =>
    let vars := [(input.groupVar, input.type), (input.var, input.type)]
    ([], input.expr) :: keys.map (fun k => (vars, k.2)) ++ aggregates.map fun a => (vars, a.2.argument)
  | sort input keys => ([], input.expr) :: keys.map fun k => ([input.member], k.expr)
  | skip input keys count => ([], input.expr) :: ([], count) :: keys.map fun k => ([input.member], k.expr)
  | e => e.children.map fun c => ([], c)

/-- The types agree throughout the expression. -/
inductive Typed : List Member → Expr → Prop
  | intro {vars : List Member} {e : Expr} : e.TypesAgree vars → (∀ c ∈ e.memberScopes, Typed (c.1 ++ vars) c.2) →
    Typed vars e

variable {vars : List Member} {e c : Expr} {ty : DataType}

theorem Typed.agrees (h : Typed vars e) : e.TypesAgree vars := by
  cases h with | intro h _ => exact h

theorem Typed.under {bound : List Member} (h : Typed vars e) (hc : (bound, c) ∈ e.memberScopes) :
    Typed (bound ++ vars) c := by
  cases h with | intro _ h => exact h _ hc

theorem Typed.child (h : Typed vars e) (hc : ([], c) ∈ e.memberScopes) : Typed vars c := h.under hc

/-- Keys and values of the leaves of a disjunction are typed with it. -/
theorem Typed.of_terms? {terms : List (Term Expr)} (ht : terms? e = some terms) (h : Typed vars e) :
    ∀ t ∈ terms, Typed vars t.key ∧ Typed vars t.value := by
  refine forall_terms (fun _ _ _ h => ?_) (fun _ h => h.child mem_cons_self) (fun _ _ h => ?_) (splits_of_terms? ht) h
  all_goals exact ⟨h.child mem_cons_self, h.child (mem_cons_of_mem _ mem_cons_self)⟩

theorem rowType_of_type (h : e.type = .collection ty) : e.rowType = ty := by
  unfold Expr.rowType; rw [h]; rfl

theorem HasRows.rowType (h : e.HasRows ty) : e.rowType = ty := rowType_of_type h.type

/-! ## Sources -/

/-- A scan outside of a join is a statement that has no columns to expose. -/
theorem scan_reads (set : EntitySet) :
    Reads vars (AllLegible []) (Build.scan set) fun f σ => σ.Delivers (scan set) ty f := by
  intro b b' f hb _ hr
  have hstep := (scan_builds set hb.good hb.free (le_refl _) Store.sound_nil hr).1
  obtain ⟨rfl, -, hstore⟩ := scan_new hb.free hr
  have hok' := hstep.store
  rw [hstore] at hok'
  have hget : b'.store.get b.statements.size = { fromList := [.text set.source] } := by
    rw [hstore]; exact Store.get_push_size _ _
  have hnil : b.store.Legible [] := readsOnly_nil
  refine ⟨hstep, ?_, .source (by rw [hget]) (by rw [hget]) (fun j hp => ?_) rfl rfl⟩
  · rw [hstore]
    exact hb.columns.push hb.good.store hok' rfl rfl rfl (Statement.forall_mem_clauses.2
      ⟨hnil, readsOnly_text.2 hnil, hnil, hnil, hnil, hnil, hnil⟩)
  · rw [hget] at hp
    obtain ⟨p, -, hp⟩ := hp
    cases suffix_nil.1 hp

/-! ## Every expression -/

/-- What an expression reads, as what it is used for: a value, the owner of a member, an input. -/
structure ReadsWell (vars : List Member) (e : Expr) (m : BuildM Fragment) : Prop where
  value : Reads vars (AllLegible []) m fun f => AllLegible [[f.toPart]]
  member : e.type.isRow = true → e.isRetyped = false →
    Reads vars (AllLegible []) m fun f σ => σ.FragmentViews e.type f
  rows : e.isSource = true → Reads vars (AllLegible []) m fun f σ => σ.Delivers e e.rowType f
  taken : e.isJoin = true → TakenRows vars ⟨e, m⟩

variable {m : BuildM Fragment}

theorem isSource_of_isJoin (h : e.isJoin = true) : e.isSource = true := by
  cases e <;> first | rfl | cases h

theorem isApply_of_isSource (h : e.isSource = true) : e.isApply = false := by
  cases e <;> first | rfl | cases h

theorem ReadsWell.of_rows (h : Reads vars (AllLegible []) m fun f σ => σ.Delivers e e.rowType f)
    (ht : e.type.isRow = false) (hj : e.isJoin = true → TakenRows vars ⟨e, m⟩) : ReadsWell vars e m :=
  ⟨h.imp fun _ _ hd => forall_mem_singleton.2 hd.legible, fun hr => by (rw [ht] at hr; cases hr), fun _ => h, hj⟩

theorem ReadsWell.of_statement {m : BuildM StatementId}
    (h : Reads vars (AllLegible []) m fun i σ => ∃ x, σ.RowsOf i x ty) (ht : e.type = .collection ty)
    (hj : e.isJoin = false := by rfl) : ReadsWell vars e (asFragment m) := by
  refine .of_rows ?_ (by rw [ht]; rfl) fun hj' => ?_
  · rw [rowType_of_type ht]; exact h.asFragment hj
  · rw [hj] at hj'; cases hj'

theorem ReadsWell.of_parts
    (h : Reads vars (AllLegible []) m fun f σ => ∃ ps, f = .parts ps ∧ σ.Legible ps ∧
      ∀ j, (group ps).subselect? = some j → σ.Supplies j ty)
    (ht : e.type = .collection ty) (hd : declaresExtent e = false := by rfl) (hj : e.isJoin = false := by rfl) :
    ReadsWell vars e m := by
  refine .of_rows (h.imp fun f σ hf => ?_) (by rw [ht]; rfl) fun hj' => ?_
  · obtain ⟨ps, rfl, hl, hp⟩ := hf
    rw [rowType_of_type ht]; exact .parts hl hp hd hj
  · rw [hj] at hj'; cases hj'

theorem ReadsWell.of_member (h : Reads vars (AllLegible []) m fun f σ => σ.FragmentViews e.type f)
    (hs : e.isSource = false := by rfl) : ReadsWell vars e m :=
  ⟨h.imp fun _ _ hf => forall_mem_singleton.2 hf.legible, fun _ _ => h, fun hs' => by (rw [hs] at hs'; cases hs'),
    fun hj => by (rw [isSource_of_isJoin hj] at hs; cases hs)⟩

theorem ReadsWell.of_worded (h : Reads vars (AllLegible []) m Worded) (hd : declaresExtent e = false := by rfl)
    (hj : e.isJoin = false := by rfl) : ReadsWell vars e m := by
  refine ⟨h.imp fun _ _ hf => hf.1.legible, fun _ _ => h.imp fun _ _ hf => hf.1.views _,
    fun _ => h.imp fun f σ hf => ?_, fun hj' => by rw [hj] at hj'; cases hj'⟩
  obtain ⟨⟨ps, t, rfl, hl⟩, hnone⟩ := hf
  exact .parts hl (fun j hsub => by rw [hnone _ rfl] at hsub; cases hsub) hd hj

theorem ReadsWell.of_value (h : Reads vars (AllLegible []) m fun f => AllLegible [[f.toPart]])
    (ht : e.type.isRow = true → e.isRetyped = true := by exact nofun) (hs : e.isSource = false := by rfl) : ReadsWell vars e m :=
  ⟨h, fun hr hno => by (rw [ht hr] at hno; cases hno), fun hs' => by (rw [hs] at hs'; cases hs'),
    fun hj => by (rw [isSource_of_isJoin hj] at hs; cases hs)⟩

variable {config : Config}

/-- The expression reads well wherever it is typed. -/
def ReadsTyped (config : Config) (e : Expr) : Prop :=
  ∀ ⦃vars : List Member⦄, Typed vars e → ReadsWell vars e (e.build config)

theorem ReadsTyped.value {bound : List Member} (h : ReadsTyped config c) (ht : Typed vars e)
    (hc : (bound, c) ∈ e.memberScopes) : ValueReads (bound ++ vars) (toOperand config c) :=
  (h (ht.under hc)).value

theorem ReadsTyped.child (h : ReadsTyped config c) (ht : Typed vars e) (hc : ([], c) ∈ e.memberScopes := by
    first | exact mem_cons_self | exact mem_cons_of_mem _ mem_cons_self) : ValueReads vars (toOperand config c) :=
  h.value ht hc

theorem HasRows.rowsRead (h : e.HasRows ty) (hr : ReadsWell vars e (e.build config)) : RowsRead vars (toOperand config e) :=
  ⟨(buildsSound e).value, by change e.rowType.isRow = true; rw [h.rowType]; exact h.row, hr.rows h.source⟩

theorem ReadsTyped.rowsRead (h : ReadsTyped config c) (ht : Typed vars e) (hr : c.HasRows ty)
    (hc : ([], c) ∈ e.memberScopes := by exact mem_cons_self) : RowsRead vars (toOperand config c) :=
  hr.rowsRead (h (ht.child hc))

/-- Each input of a join reads well where those before it are in scope. -/
theorem inputsRead : ∀ {inputs : List (Binding Expr)} {vars : List Member}, (∀ b ∈ inputs, b.expr.HasRows b.type) →
    (∀ b ∈ inputs, ReadsTyped config b.expr) →
    (∀ c ∈ inputsInTurn inputs, Typed (c.1 ++ vars) c.2) →
    InputsRead vars (inputs.map fun b => b.with (toOperand config b.expr))
  | [], _, _, _, _ => trivial
  | b :: rest, vars, hrows, hread, ht => by
    obtain ⟨hb, hrest⟩ := forall_mem_cons.1 hrows
    obtain ⟨hbr, hrr⟩ := forall_mem_cons.1 hread
    obtain ⟨htb, htr⟩ := forall_mem_cons.1 ht
    have hwell := hbr htb
    refine ⟨⟨(buildsSound b.expr).input, hb.rowsRead hwell, hb.rowType.symm, isApply_of_isSource hb.source, hwell.taken⟩,
      inputsRead hrest hrr fun c hc => ?_⟩
    have hturn := htr _ (mem_map_of_mem hc)
    rwa [append_assoc] at hturn

theorem optional_reads {o : Option Expr} (h : ∀ c ∈ o, ReadsTyped config c) (ht : ∀ c ∈ o, Typed vars c) :
    ∀ operand ∈ o.map (toOperand config), ValueReads vars operand := by
  intro operand hm
  obtain ⟨c, hc, rfl⟩ := Option.map_eq_some_iff.1 hm
  exact (h c hc (ht c hc)).value

theorem joined_readsWell {keyword : String} {inputs : List (Binding Expr)} (condition : Option Expr)
    (he : e.isJoin = true) (hty : e.type = .collection (joinedRow inputs)) (hj : JoinsRows inputs)
    (hi : ∀ b ∈ inputs, ReadsTyped config b.expr) (ht : ∀ c ∈ inputsInTurn inputs, Typed (c.1 ++ vars) c.2)
    (hc : ∀ c ∈ condition, ReadsWell ((inputs.map Binding.member).reverse ++ vars) c (c.build config)) :
    ReadsWell vars e (asFragment (Build.joined keyword (inputs.map fun b => b.with (toOperand config b.expr))
      (condition.map (toOperand config)))) := by
  have hrow : e.rowType = .row (inputs.map Binding.member) := rowType_of_type hty
  have hv := inputsRead hj.rows hi ht
  have hmap : (inputs.map fun b => b.with (toOperand config b.expr)).map Binding.member = inputs.map Binding.member := by
    rw [map_map]; rfl
  generalize (inputs.map fun b => b.with (toOperand config b.expr)) = operands at hv hmap ⊢
  have hok : ∀ c ∈ condition.map (toOperand config), ValueOK c := optional_ok fun c _ => buildsSound c
  have hcond : ∀ c ∈ condition.map (toOperand config), ValueReads ((operands.map Binding.member).reverse ++ vars) c := by
    intro operand hm
    obtain ⟨c, hmem, rfl⟩ := Option.map_eq_some_iff.1 hm
    rw [hmap]; exact (hc c hmem).value
  have hd : (operands.map Binding.member).Pairwise fun a b => Ident.same a.1 b.1 = false := by
    rw [hmap]; exact pairwise_map.2 hj.distinct
  have htwo : 2 ≤ operands.length := by
    have hlength := congrArg length hmap
    have hseveral := hj.several
    simp only [length_map] at hlength
    omega
  rw [← hmap] at hrow
  refine .of_rows ?_ (by rw [hty]; rfl) fun _ => ?_
  · refine (joined_reads hv hok hcond hd htwo).bind fun i => reads_pure fun σ h => .joined ?_ he
    rw [hrow]; exact h
  · -- in first place of a join around it the same steps go on with the statement of that join
    intro σ outer frames b b' i f hjoining hun hin hcols hbound hr
    obtain ⟨j, b1, hr, hpure⟩ := runs_bind.1 hr
    obtain ⟨-, rfl⟩ := runs_pure.1 hpure
    show b'.store.ColumnsOK ∧ Lasts b.store b'.store ∧ b'.store.JoinRows i e.rowType
    rw [hrow]; exact joined_taken hv hok hcond hd htwo hjoining hun hin hcols hbound hr

/-- Every construct over typed operands reads only columns that are there. -/
theorem Construct.readsWell (h : Construct config (ReadsTyped config) e m) (ht : Typed vars e) : ReadsWell vars e m := by
  have hag := ht.agrees
  cases h with
  | scan set => exact .of_rows (scan_reads set) rfl nofun
  | @filter input predicate hi hp =>
    have hrows : input.expr.HasRows input.type := hag
    have hread := hp.value ht (mem_cons_of_mem _ mem_cons_self)
    exact .of_statement (filter_reads (hi.rowsRead ht hrows) hrows.rowType.symm
      (buildsSound predicate).value hread) hrows.type
  | @record input fields hi hf =>
    obtain ⟨hrows, -⟩ : input.expr.HasRows input.type ∧ _ := hag
    have hrecord : Typed (input.member :: vars) (newRecord fields) :=
      ht.under (mem_cons_of_mem _ mem_cons_self)
    have hread : ∀ f ∈ fields, ValueReads (input.member :: vars) (toOperand config f.2) := fun f hm =>
      (hf f hm (hrecord.child (mem_map_of_mem (mem_map_of_mem hm)))).value
    refine .of_statement (projectRecord_reads (hi.rowsRead ht hrows) hrows.rowType.symm
      (forall_mem_map.2 fun f _ => (buildsSound f.2).value) (forall_mem_map.2 hread) ?_) rfl rfl
    change (namedTypes fields).map Prod.fst = _
    rw [namedTypes_eq_map, map_map, map_map]; rfl
  | value _ _ hne =>
    -- a typed projection is a record
    obtain ⟨-, fields, hf⟩ := hag
    exact absurd hf (hne fields)
  | @join kind left right condition hl hr hc =>
    have hinputs : ∀ b ∈ [left, right], ReadsTyped config b.expr := by simp [hl, hr]
    refine joined_readsWell (some condition) rfl rfl hag hinputs
      (fun c hm => ht.under (mem_append_left _ hm)) ?_
    rintro c ⟨⟩
    exact hc (ht.under (mem_append_right _ mem_cons_self))
  | @crossJoin inputs hi =>
    exact joined_readsWell none rfl rfl hag hi (fun c hm => ht.under hm) nofun
  | @group input keys aggregates hi hk ha =>
    have hrows : input.expr.HasRows input.type := hag
    have hkr : ∀ k ∈ keys, ValueReads ((input.groupVar, input.type) :: (input.var, input.type) :: vars)
        (toOperand config k.2) := fun k hm =>
      (hk k hm).value ht (mem_cons_of_mem _ (mem_append_left _ (mem_map_of_mem hm)))
    have har : ∀ a ∈ aggregates, ValueReads ((input.groupVar, input.type) :: (input.var, input.type) :: vars)
        (toOperand config a.2.argument) := fun a hm =>
      (ha a hm).value ht (mem_cons_of_mem _ (mem_append_right _ (mem_map_of_mem hm)))
    refine .of_statement (group_reads (hi.rowsRead ht hrows) hrows.rowType.symm
      (forall_mem_map.2 fun k _ => (buildsSound k.2).value)
      (forall_mem_map.2 fun a _ => (buildsSound a.2.argument).value) (forall_mem_map.2 hkr)
      (forall_mem_map.2 har) ?_) rfl rfl
    change (namedTypes keys ++ _).map Prod.fst = _
    rw [namedTypes_eq_map]
    simp [Function.comp_def]
  | @sort input keys hi hk =>
    have hrows : input.expr.HasRows input.type := hag
    have hread : ∀ k ∈ keys, ValueReads (input.member :: vars) (toOperand config k.expr) := fun k hm =>
      (hk k hm).value ht (mem_cons_of_mem _ (mem_map_of_mem hm))
    exact .of_statement (sort_reads (hi.rowsRead ht hrows) hrows.rowType.symm
      (forall_mem_map.2 fun k _ => (buildsSound k.expr).value) (forall_mem_map.2 hread)) hrows.type
  | @skip input keys count hi hk hc =>
    have hrows : input.expr.HasRows input.type := hag
    have hread : ∀ k ∈ keys, ValueReads (input.member :: vars) (toOperand config k.expr) := fun k hm =>
      (hk k hm).value ht (mem_cons_of_mem _ (mem_cons_of_mem _ (mem_map_of_mem hm)))
    exact .of_statement (skip_reads (hi.rowsRead ht hrows) hrows.rowType.symm
      (forall_mem_map.2 fun k _ => (buildsSound k.expr).value) (forall_mem_map.2 hread)
      (buildsSound count).count) hrows.type
  | @limit input count withTies hi hc =>
    have hrows : input.HasRows input.rowType := hag
    exact .of_statement (limit_reads (hi.rowsRead ht hrows) (buildsSound count).count)
      hrows.type
  | @distinct input hi =>
    have hrows : input.HasRows input.rowType := hag
    exact .of_statement (distinct_reads (hi.rowsRead ht hrows)) hrows.type
  | @setOp op left right hl hr =>
    obtain ⟨hleft, hright⟩ : left.HasRows left.rowType ∧ right.HasRows right.rowType := hag
    exact .of_parts (setOperation_reads (hl.rowsRead ht hleft)
      (hr.rowsRead ht hright (mem_cons_of_mem _ mem_cons_self))) hleft.type
  | @element input hi =>
    have hrows : input.HasRows input.rowType := hag
    exact .of_member ((element_reads (hi.rowsRead ht hrows)).imp fun _ _ h => h.views _) rfl
  | @isEmpty input hi =>
    have hrows : input.HasRows input.rowType := hag
    exact .of_value (legibleKind.emptiness (statement_reads (hi.rowsRead ht hrows)) _)
  | @quantifier q input predicate hi hp =>
    have hrows : input.expr.HasRows input.type := hag
    have hread := hp.value ht (mem_cons_of_mem _ mem_cons_self)
    exact .of_value (quantified_reads (hi.rowsRead ht hrows) hrows.rowType.symm
      (buildsSound predicate).value hread)
  | @singleton elementType input hi =>
    have hty : elementType = input.rowType := hag
    have helement : Typed vars (Expr.element input) := ht.child mem_cons_self
    have hrows : input.HasRows input.rowType := helement.agrees
    exact .of_statement (singleton_reads (hi.rowsRead helement hrows)) (by rw [hty]; rfl) rfl
  | @collection elementType items hi _ =>
    have hread : ∀ item ∈ items, ValueReads vars (toOperand config item) := fun item hm =>
      (hi item hm).value ht (mem_map_of_mem hm)
    refine .of_parts ((collection_reads elementType (forall_mem_map.2 hread)).imp fun f σ hf => ?_) rfl rfl rfl
    obtain ⟨ps, hps, hl, hnone⟩ := hf
    exact ⟨ps, hps, hl, fun j hj => by rw [hnone] at hj; cases hj⟩
  | constant value => exact .of_worded (constant_reads value)
  | null type | parameter name type => exact .of_worded (text_reads _)
  | @member owner name ho =>
    obtain ⟨hretyped, hsome⟩ : owner.isRetyped = false ∧ (owner.type.member? name).isSome = true := hag
    obtain ⟨found, hfound⟩ := Option.isSome_iff_exists.1 hsome
    have hrow : owner.type.isRow = true := by
      cases hty : owner.type with
      | row ms => rfl
      | primitive k f | collection t => rw [hty] at hfound; cases hfound
    have howner : MemberReads vars owner.type (toOperand config owner) :=
      (ho (ht.child mem_cons_self)).member hrow hretyped
    have hty : (Expr.property owner name).type = found.2 := by
      change memberType owner.type name = _
      unfold memberType; rw [hfound]
    exact .of_member (by rw [hty]; exact member_reads howner hfound) rfl
  | var name type =>
    obtain ⟨found, hfound, hty⟩ : ∃ found, findMember? vars name = some found ∧ found.2 = type := hag
    have hread := rowVariable_reads hfound
    rw [hty] at hread
    exact .of_member hread rfl
  | @call function arguments ha =>
    have hread : ∀ a ∈ arguments, ValueReads vars (toOperand config a) := fun a hm =>
      (ha a hm).value ht (mem_map_of_mem hm)
    exact .of_worded (call_reads function (forall_mem_map.2 hread))
  | @case branches otherwise hb ho =>
    have hchild : ∀ c ∈ branches.flatMap (fun b => [b.1, b.2]) ++ otherwise.toList, Typed vars c := fun c hc =>
      ht.child (mem_map_of_mem hc)
    refine .of_worded (caseOf_reads (forall_mem_map.2 fun b hm => ?_) (optional_reads ho fun c hc => ?_))
    · have hbranch : ∀ c ∈ [b.1, b.2], Typed vars c := fun c hc =>
        hchild c (mem_append_left _ (mem_flatMap.2 ⟨b, hm, hc⟩))
      exact ⟨((hb b hm).1 (hbranch _ (by simp))).value, ((hb b hm).2 (hbranch _ (by simp))).value⟩
    · exact hchild c (mem_append_right _ (Option.mem_toList.2 hc))
  | cast ho => exact .of_value (ho.child ht) fun _ => rfl
  | @arith op left right hl hr =>
    exact .of_value (legibleKind.binary (by cases op <;> decide) (hl.child ht)
      (hr.child ht)) fun _ => rfl
  | negate ho => exact .of_worded (negate_reads (ho.child ht))
  | @compare op left right hl hr =>
    exact .of_value (legibleKind.binary (by cases op <;> decide) (hl.child ht)
      (hr.child ht))
  | and hl hr | or hl hr =>
    exact .of_value (legibleKind.binary (by decide) (hl.child ht)
      (hr.child ht))
  | membership hterms hk =>
    refine .of_value (legibleKind.membership
      (KeyedLists.forall_ofPairs (R := ValueReads vars) (S := ValueReads vars) fun p hm => ?_))
    rw [map_map] at hm
    obtain ⟨t, ht', rfl⟩ := mem_map.1 hm
    obtain ⟨hkey, hvalue⟩ := ht.of_terms? hterms t ht'
    exact ⟨((hk t ht').1 hkey).value, ((hk t ht').2 hvalue).value⟩
  | notNot ho =>
    have hinner := ht.child mem_cons_self
    exact .of_value (ho.child hinner)
  | @notEmpty input hi =>
    have hinner : Typed vars (Expr.isEmpty input) := ht.child mem_cons_self
    have hrows : input.HasRows input.rowType := hinner.agrees
    exact .of_value (legibleKind.emptiness (statement_reads (hi.rowsRead hinner hrows)) _)
  | notNull ho =>
    have hinner := ht.child mem_cons_self
    exact .of_value (legibleKind.nullTest true (ho.child hinner))
  | notEqual hl hr =>
    have hinner := ht.child mem_cons_self
    exact .of_value (legibleKind.binary (by decide) (hl.child hinner)
      (hr.child hinner))
  | not ho => exact .of_value (legibleKind.negation (ho.child ht))
  | isNull ho => exact .of_value (legibleKind.nullTest false (ho.child ht))
  | @like operand pattern escape ho hp he =>
    refine .of_value (legibleKind.like (ho.child ht)
      (hp.child ht) (optional_reads he fun c hc => ?_))
    exact ht.child (mem_cons_of_mem _ (mem_cons_of_mem _ (mem_map_of_mem (Option.mem_toList.2 hc))))
  | refused e error =>
    refine ⟨reads_throw, fun _ _ => reads_throw, fun _ => reads_throw, fun _ => ?_⟩
    intro σ outer frames b b' i f _ _ _ _ _ hr
    exact absurd hr runs_throw

theorem readsTyped (e : Expr) : ReadsTyped config e := by
  induction e using within_induction with
  | step e ih => exact fun _ ht => (build_construct ih).readsWell ht

end Expr

/-! ## Whole queries -/

/-- The types of the query agree, and if it returns a collection, then rows. -/
structure Expr.WellTyped (query : Expr) : Prop where
  typed : query.Typed []
  rows : query.type.isCollection = true → query.HasRows query.rowType

theorem Store.columnsOK_start : ColumnsOK ⟨#[], {}⟩ := by
  have hget : ∀ k, get ⟨#[], {}⟩ k = {} := fun k => get_of_size_le (Nat.zero_le k)
  have hsymbol : ∀ i, Symbols.get #[] i = default := fun i => Symbols.get_of_size_le (Nat.zero_le i)
  have hnil : Legible ⟨#[], {}⟩ [] := readsOnly_nil
  refine ⟨fun e key c h => absurd h.lt (Nat.not_lt_zero e), fun c hm => ?_, fun k c hc => ?_,
    fun k y join hy => ?_, fun y join hj => ?_, fun k ps hps => ?_⟩
  · change (Symbols.get #[] c).needsRenaming = true at hm
    rw [hsymbol] at hm; cases hm
  · rw [hget] at hc; cases hc
  · rw [hget] at hy; cases hy
  · change (Symbols.get #[] y).join = some join at hj
    rw [hsymbol] at hj; cases hj
  · rw [hget] at hps
    exact Statement.forall_mem_clauses.2 ⟨hnil, hnil, hnil, hnil, hnil, hnil, hnil⟩ ps hps

namespace Query

theorem ready_start : Ready [] {} := ⟨good_start, rfl, columnsOK_start, nofun⟩

/-- The statements and the text of a typed query read only columns that are there. -/
theorem plan_columns {config : Config} {query : Expr} {f : Fragment} {b : Build} (ht : query.WellTyped)
    (h : plan config query = .ok (f, b)) : b.store.ColumnsOK ∧ b.store.Legible [f.toPart] := by
  have hok := (plan_sound h).1
  obtain ⟨hrun, -⟩ := runs_of_plan h
  have hread : Expr.ReadsWell [] query (query.build config) := Expr.readsTyped query ht.typed
  simp only [root, runs_ite, runs_bind, runs_updateStatement, runs_pure] at hrun
  rcases hrun with ⟨hcollection, i, b1, has, -, b2, hb2, rfl, rfl⟩ | ⟨-, sql, b1, hsql, rfl, rfl⟩
  · have hv := (ht.rows hcollection).rowsRead hread
    obtain ⟨ho, -⟩ := asStatement_spec hv.sound good_start rfl has
    obtain ⟨-, hc, -⟩ := (columnPass_lawful hv.row).asStatement hv.feeds ready_start has
    obtain ⟨hc', -⟩ := update_columns ho.ok hok ho.lt hc hb2 rfl rfl rfl (hc.reads i)
    exact ⟨hc', readsOnly_statement.2 readsOnly_nil⟩
  · obtain ⟨-, hc, hlegible⟩ := hread.value ready_start allLegible_nil hsql
    exact ⟨hc, legible_group.2 (readsOnly_text.2 (hlegible _ (mem_singleton_self _)))⟩

end Query

end RelSql
