/-
Queries whose scalar rows agree with the types. A node takes an input for scalar rows if and only if the
input has such rows. In the statements of such a query each source in parentheses, whose alias has scalar
rows, shows them; the proof follows the cases of `Expr.build`.
-/
import RelSql.Proofs.Build.ScalarJoins

namespace RelSql

open Build List Store

variable {e : Expr} {loose : Prop} {b : Build}

namespace Expr

/-! ## Inputs with rows -/

/-- The inputs that a node reads rows from, each with the type that it takes them for. -/
def rowInputs : Expr → List (Expr × DataType)
  | filter input _ | project input _ | sort input _ | skip input _ _ | quantifier _ input _ => [(input.expr, input.type)]
  | groupBy input _ _ => [(input.expr, input.type)]
  | join _ left right _ => [(left.expr, left.type), (right.expr, right.type)]
  | crossJoin inputs => inputs.map fun b => (b.expr, b.type)
  | limit input _ _ | distinct input | element input | isEmpty input => [(input, input.rowType)]
  | setOp _ left right => [(left, left.rowType), (right, right.rowType)]
  | newCollection elementType [element input] => [(input, elementType)]
  | _ => []

/-- The type is that of scalar rows just if the rows of the expression are scalars, and then the expression
stands for rows. -/
structure ScalarsAgree (e : Expr) (ty : DataType) : Prop where
  primitive : ty.isPrimitive = e.rowType.isPrimitive
  relational : ty.isPrimitive = true → e.isRelational = true

theorem primitive_of_hasScalarRows (h : e.hasScalarRows = true) : e.rowType.isPrimitive = true :=
  (Bool.and_eq_true_iff.1 h).2

theorem ScalarsAgree.scalars {ty : DataType} (h : e.ScalarsAgree ty) (hp : ty.isPrimitive = true) :
    e.hasScalarRows = true := by
  unfold hasScalarRows
  rw [h.relational hp, ← h.primitive, hp]; rfl

/-- The types of scalar rows agree at the node. -/
def RowsAgree (e : Expr) : Prop := ∀ r ∈ e.rowInputs, r.1.ScalarsAgree r.2

/-- A projection on one value, which is a scalar. -/
def projectsScalar : Expr → Bool
  | project _ projection => projection.type.isPrimitive
  | _ => false

/-- The types of scalar rows agree at all nodes of a query, and where its rows are returned. -/
structure ScalarTyped (query : Expr) : Prop where
  nodes : query.All RowsAgree
  root : query.type.isCollection = true → query.ScalarsAgree query.rowType

/-! ## Every expression -/

section

variable (config : Config) (loose : Prop)

/-- The types of scalar rows agree at the node, and if it projects on a scalar, then that is let through. -/
def Admitted (e : Expr) : Prop := e.RowsAgree ∧ (e.projectsScalar = true → loose)

/-- What the constructs expect of the step that builds an operand. -/
structure BuildsScalars (e : Expr) : Prop where
  carries : Carries loose (e.build config) (YieldsScalars loose e)
  listed : (e.isJoin || e.isApply) = true → ∀ ⦃b b' : Build⦄ ⦃sub : StatementId⦄, Good b → b.inJoin = false →
    Runs (e.build config) b (.statement sub) b' → (b'.store.get sub).joinExtents ≠ none
  taken : (e.isJoin || e.isApply) = true → TakenScalars loose (toOperand config e)

end

variable {config : Config} {loose : Prop} {e : Expr} {ty : DataType}

theorem BuildsScalars.carried (h : BuildsScalars config loose e) : Carried loose (toOperand config e) :=
  ⟨(buildsSound e).value, h.carries⟩

theorem BuildsScalars.rows (h : BuildsScalars config loose e) (ht : e.ScalarsAgree ty) :
    CarriedRows loose (toOperand config e) ty :=
  ⟨h.carried, ht.scalars⟩

/-- The rows of the input that a variable is bound to. -/
theorem BuildsScalars.bound {input : Binding Expr} (h : BuildsScalars config loose input.expr)
    (ht : input.expr.ScalarsAgree input.type) : CarriedRows loose (input.with (toOperand config input.expr)).expr
      (input.with (toOperand config input.expr)).type :=
  h.rows ht

theorem BuildsScalars.joinInput {input : Binding Expr} (h : BuildsScalars config loose input.expr)
    (ht : input.expr.ScalarsAgree input.type) : CarriedInput loose (input.with (toOperand config input.expr)) :=
  ⟨h.rows ht, (buildsSound input.expr).input, h.listed, h.taken⟩

end Expr

/-- A step whose statement has rows that are no scalars. -/
theorem Build.Carries.rows {m : BuildM StatementId} (h : Carries loose m fun _ _ => True)
    (he : e.rowType.isPrimitive = false) : Carries loose (Build.asFragment m) (YieldsScalars loose e) := by
  have hrows : Carries loose m fun i σ => e.rowType.isPrimitive = true → σ.ScalarRows loose i := by
    refine h.imp fun i σ _ hp => ?_
    rw [he] at hp; cases hp
  exact hrows.asFragment Expr.primitive_of_hasScalarRows

theorem Build.scan_carries (set : EntitySet) :
    Carries loose (scan set) (YieldsScalars loose (.scan set)) := by
  intro exempt b b' f hb hj hc hr
  have hs := (scan_builds set hb hj (le_refl _) Store.sound_nil hr).1
  obtain ⟨rfl, -, hstore⟩ := scan_new hj hr
  refine ⟨hs, by rw [hstore]; exact hc.push rfl rfl, fun he => ?_⟩
  rw [hasScalarRows_scan rfl] at he; cases he

/-- A call of a function is no statement. -/
theorem Build.call_parts {function : Function} {arguments : List Operand} {b' : Build} {f : Fragment}
    (hr : Runs (call function arguments) b f b') : ∃ ps, f = .parts ps := by
  simp only [call, runs_ite, runs_bind, runs_pure, runs_throw, and_false, or_false] at hr
  rcases hr with ⟨-, -, rfl, -⟩ | ⟨-, sqls, b1, -, rfl, -⟩
  · exact ⟨_, rfl⟩
  · exact ⟨_, rfl⟩

namespace Expr

variable {m : BuildM Fragment}

variable {config : Config} {loose : Prop} {e : Expr}

theorem isPrimitive_of_isJoin (he : (e.isJoin || e.isApply) = true) : e.rowType.isPrimitive = false := by
  cases e with
  | join => rfl
  | crossJoin => rfl
  | apply => rfl
  | _ => cases he

/-- A join is built from its inputs and its condition, unless it is refused. -/
theorem Construct.of_isJoin {P : Expr → Prop} (h : Construct config P e m) (he : (e.isJoin || e.isApply) = true) :
    (∃ cause, m = throw (.unsupported cause)) ∨
      ∃ (keyword : String) (inputs : List (Binding Expr)) (condition : Option Expr),
        m = asFragment (joined keyword (inputs.map fun b => b.with (toOperand config b.expr))
          (condition.map (toOperand config))) ∧
        (∀ b ∈ inputs, P b.expr ∧ (b.expr, b.type) ∈ e.rowInputs) ∧ ∀ c ∈ condition, P c := by
  cases h with
  | @join kind left right condition hl hr hc =>
    refine Or.inr ⟨_, [left, right], some condition, rfl, ?_, by simpa using hc⟩
    simpa [rowInputs] using ⟨hl, hr⟩
  | @crossJoin inputs hi =>
    refine Or.inr ⟨_, inputs, none, rfl, fun b hm => ⟨hi b hm, ?_⟩, by simp⟩
    exact mem_map_of_mem (f := fun b : Binding Expr => (b.expr, b.type)) hm
  | refused e cause => exact Or.inl ⟨cause, rfl⟩
  | _ => cases he

theorem carriedInputs {inputs : List (Binding Expr)} (hs : e.RowsAgree)
    (h : ∀ b ∈ inputs, BuildsScalars config loose b.expr ∧ (b.expr, b.type) ∈ e.rowInputs) :
    ∀ input ∈ inputs.map fun b => b.with (toOperand config b.expr), CarriedInput loose input :=
  forall_mem_map.2 fun b hm => (h b hm).1.joinInput (hs _ (h b hm).2)

theorem carriedCondition {condition : Option Expr} (h : ∀ c ∈ condition, BuildsScalars config loose c) :
    ∀ operand ∈ condition.map (toOperand config), Carried loose operand := by
  intro operand hm
  obtain ⟨c, hc, rfl⟩ := Option.map_eq_some_iff.1 hm
  exact (h c hc).carried

theorem Construct.carries (h : Construct config (BuildsScalars config loose) e m) (hs : e.All (Admitted loose)) :
    Carries loose m (YieldsScalars loose e) := by
  have hvalue : e.isRowless = true → Carries loose m fun _ _ => True := fun hv =>
    (carriesKind loose).value h (fun _ hc => hc.carried.value) hv
  -- what stands for no rows yields nothing
  have hplain : e.isRelational = false → Carries loose m (fun _ _ => True) → Carries loose m (YieldsScalars loose e) :=
    fun hr hm => hm.imp fun f σ _ he => by rw [hasScalarRows, hr] at he; cases he
  have hagree : e.RowsAgree := hs.here.1
  have hscalar : e.hasScalarRows = true → e.rowType.isPrimitive = true := primitive_of_hasScalarRows
  by_cases hjoin : (e.isJoin || e.isApply) = true
  · obtain ⟨cause, rfl⟩ | ⟨keyword, inputs, condition, rfl, hi, hcond⟩ := h.of_isJoin hjoin
    · exact fun exempt b b' f hb hj hc hr => absurd hr runs_throw
    · exact (joined_carries (carriedInputs hagree hi) (carriedCondition hcond)).rows (isPrimitive_of_isJoin hjoin)
  cases h with
  | scan set => exact scan_carries set
  | @filter input predicate hi hp =>
    have ht : input.expr.ScalarsAgree input.type := hagree _ mem_cons_self
    exact (filter_carries (hi.bound ht) hp.carried).asFragment fun he => ht.primitive.trans (hscalar he)
  | @record input fields hi hf =>
    have ht : input.expr.ScalarsAgree input.type := hagree _ mem_cons_self
    have hfields : ∀ f ∈ fields.map fun f => (f.1, toOperand config f.2), Carried loose f.2 :=
      forall_mem_map.2 fun f hm => (hf f hm).carried
    exact (projectRecord_carries (hi.bound ht) hfields).rows rfl
  | @value input projection hi hp _ =>
    have ht : input.expr.ScalarsAgree input.type := hagree _ mem_cons_self
    have hcarries := projectValue_carries (hi.bound ht) hp.carried
    refine (hcarries.imp fun i σ hshows hprimitive => .shows (hshows (hs.here.2 hprimitive))).asFragment fun he => ?_
    exact hscalar he
  | join _ _ _ | crossJoin _ => exact absurd rfl hjoin
  | @group input keys aggregates hi hk ha =>
    have ht : input.expr.ScalarsAgree input.type := hagree _ mem_cons_self
    have hkeys : ∀ k ∈ keys.map fun k => (k.1, toOperand config k.2), Carried loose k.2 :=
      forall_mem_map.2 fun k hm => (hk k hm).carried
    have harguments : ∀ a ∈ aggregates.map fun a => (a.1, a.2.with (toOperand config a.2.argument)),
        Carried loose a.2.argument := forall_mem_map.2 fun a hm => (ha a hm).carried
    exact (group_carries hkeys harguments (hi.rows ht)).rows rfl
  | @sort input keys hi hk =>
    have ht : input.expr.ScalarsAgree input.type := hagree _ mem_cons_self
    have hkeys : ∀ k ∈ keys.map fun k => k.with (toOperand config k.expr), Carried loose k.expr :=
      forall_mem_map.2 fun k hm => (hk k hm).carried
    exact (sort_carries (hi.bound ht) hkeys).asFragment fun he => ht.primitive.trans (hscalar he)
  | @skip input keys count hi hk _ =>
    have ht : input.expr.ScalarsAgree input.type := hagree _ mem_cons_self
    have hkeys : ∀ k ∈ keys.map fun k => k.with (toOperand config k.expr), Carried loose k.expr :=
      forall_mem_map.2 fun k hm => (hk k hm).carried
    exact (skip_carries (hi.bound ht) hkeys (buildsSound _).count).asFragment fun he => ht.primitive.trans (hscalar he)
  | @limit input count withTies hi _ =>
    have ht : input.ScalarsAgree input.rowType := hagree _ mem_cons_self
    exact (carries_of_keeps fun _ =>
      scalarPass_lawful.limit (hi.rows ht).feeds (buildsSound _).count withTies).asFragment hscalar
  | @distinct input hi =>
    have ht : input.ScalarsAgree input.rowType := hagree _ mem_cons_self
    exact (carries_of_keeps fun _ => scalarPass_lawful.distinct (hi.rows ht).feeds).asFragment hscalar
  | @setOp op left right hl hr =>
    have hleft : left.ScalarsAgree left.rowType := hagree _ mem_cons_self
    have hright : right.ScalarsAgree right.rowType := hagree _ (mem_cons_of_mem _ mem_cons_self)
    refine (setOperation_carries (hl.rows hleft)
      (hr.rows hright)).imp ?_
    rintro f σ ⟨ps, rfl, hsource⟩ he _
    exact hsource (hscalar he)
  | @element input hi | @isEmpty input hi =>
    have ht : input.ScalarsAgree input.rowType := hagree _ mem_cons_self
    exact hplain rfl (statement_carries (hi.rows ht))
  | @quantifier q input predicate hi hp =>
    have ht : input.expr.ScalarsAgree input.type := hagree _ mem_cons_self
    exact hplain rfl (quantified_carries (hi.bound ht) hp.carried)
  | @singleton elementType input hi =>
    have ht : input.ScalarsAgree elementType := hagree _ mem_cons_self
    have hrows : input.ScalarsAgree input.rowType := ⟨rfl, fun hp => ht.relational (ht.primitive.trans hp)⟩
    exact (carries_of_keeps fun _ => scalarPass_lawful.singleton (hi.rows hrows).feeds).asFragment
      fun he => ht.primitive.symm.trans (hscalar he)
  | collection hi _ =>
    refine (collection_carries (forall_mem_map.2 fun item hm => (hi item hm).carried)).imp ?_
    rintro f σ ⟨ps, rfl, hsource⟩ he _
    exact hsource (hscalar he)
  | @notEmpty input hi =>
    have ht : input.ScalarsAgree input.rowType := (hs.child mem_cons_self).here.1 _ mem_cons_self
    exact hplain rfl (statement_carries (hi.rows ht))
  | call ha =>
    intro exempt b b' f hb hj hc hr
    obtain ⟨hstep, hc', -⟩ := hvalue rfl hb hj hc hr
    obtain ⟨ps, rfl⟩ := call_parts hr
    exact ⟨hstep, hc', fun _ hcall => nomatch hcall⟩
  | not ho => exact hplain rfl ((carriesKind loose).texts.negation ho.carried.value)
  | refused e cause => exact fun exempt b b' f hb hj hc hr => absurd hr runs_throw
  | _ => exact hplain rfl (hvalue rfl)

theorem Construct.listed {P : Expr → Prop} (h : Construct config P e m) (he : (e.isJoin || e.isApply) = true)
    {b' : Build} {sub : StatementId} (hb : Good b) (hj : b.inJoin = false) (hr : Runs m b (.statement sub) b') :
    (b'.store.get sub).joinExtents ≠ none := by
  obtain ⟨cause, rfl⟩ | ⟨keyword, inputs, condition, rfl, -, -⟩ := h.of_isJoin he
  · exact absurd hr runs_throw
  exact joined_listed (joinInputs_ok fun _ _ => buildsSound _) (optional_ok fun _ _ => buildsSound _) hb hj
    (runs_statement_asFragment.1 hr)

theorem Construct.taken (h : Construct config (BuildsScalars config loose) e (e.build config)) (hagree : e.RowsAgree)
    (he : (e.isJoin || e.isApply) = true) :
    TakenScalars loose (toOperand config e) := by
  intro exempt σ outer frames b b' i f hjoining hun hj hc hr
  change Runs (e.build config) b f b' at hr
  obtain ⟨cause, hm⟩ | ⟨keyword, inputs, condition, hm, hi, hcond⟩ := h.of_isJoin he
  · rw [hm] at hr
    exact absurd hr runs_throw
  rw [hm] at hr
  obtain ⟨j, rfl, hjoined⟩ := runs_asFragment.1 hr
  exact joined_takenScalars (carriedInputs hagree hi) (carriedCondition hcond) hjoining hun hj hc hjoined

/-- Every expression of a query that is admitted keeps sources of scalar rows in order. -/
theorem buildsScalars (e : Expr) (h : e.All (Admitted loose)) : BuildsScalars config loose e := by
  induction e using within_induction with
  | step e ih =>
    have hc : Construct config (BuildsScalars config loose) e (e.build config) :=
      build_construct fun c hc => ih c hc (h.within hc)
    exact ⟨hc.carries h, fun he b b' sub hb hj hr => hc.listed he hb hj hr, hc.taken h.here.1⟩

/-- Where the types of scalar rows agree, each projection on a scalar is admitted if the query has one. -/
theorem ScalarTyped.admitted {query : Expr} (h : query.ScalarTyped) :
    query.All (Admitted (¬ query.All fun e => e.projectsScalar = false)) := by
  by_cases hall : query.All fun e => e.projectsScalar = false
  · refine (h.nodes.and hall).imp fun e he => ⟨he.1, fun hp => ?_⟩
    rw [he.2] at hp; cases hp
  · exact h.nodes.imp fun e he => ⟨he, fun _ => hall⟩

end Expr

/-! ## Whole queries -/

theorem Store.scalarsOK_start : ScalarsOK loose [] ⟨#[], {}⟩ := by
  have hget : ∀ k, get ⟨#[], {}⟩ k = {} := fun k => get_of_size_le (Nat.zero_le k)
  refine ⟨fun i l key c _ hf => absurd hf.lt (Nat.not_lt_zero l), fun k p x _ hn _ => ?_⟩
  have hx := hn.alias
  rw [hget] at hx; cases hx

/-- The sources of scalar rows in the statements of a query are in order. A value without a name is among
them only if the query projects on a scalar. -/
theorem Query.plan_scalars {config : Config} {query : Expr} {f : Fragment} (ht : query.ScalarTyped)
    (h : plan config query = .ok (f, b)) : b.store.ScalarsOK (¬ query.All fun e => e.projectsScalar = false) [] := by
  have hok := (plan_sound h).1
  obtain ⟨hrun, -⟩ := runs_of_plan h
  have hbuilds : Expr.BuildsScalars config _ query := Expr.buildsScalars query ht.admitted
  simp only [root, runs_ite, runs_bind, runs_updateStatement, runs_pure] at hrun
  rcases hrun with ⟨hcollection, i, b1, has, -, b2, hb2, rfl, rfl⟩ | ⟨-, sql, b1, hsql, rfl, rfl⟩
  · have hv := hbuilds.rows (ht.root hcollection)
    obtain ⟨ho, -⟩ := asStatement_spec hv.sound good_start rfl has
    obtain ⟨-, hc, -⟩ := asStatement_carries hv good_start rfl scalarsOK_start has
    exact (update_scalars ho hok hc hb2 rfl rfl rfl rfl fun x hu => ⟨hu.selects, hu.clauses, hu.alone⟩).1
  · exact (hbuilds.carries good_start rfl scalarsOK_start hsql).2.1

end RelSql
