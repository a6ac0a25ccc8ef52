/-
Variables and their scopes. A step that builds text leaves the stacks as they are, but for variables
that it binds in the innermost scope, and a variable that is not the owner of a member stays pending
up to the end. So what is built without one pending has only owners of members for variables, and
each of them is one that is in scope. `Visits` says so of a step and is closed under composition.
-/
import RelSql.Proofs.Build.Offsets

namespace RelSql

open List

variable {more scope : List String}

/-! ## Scopes -/

namespace Scopes

variable {names : List String}

variable {α : Type} {s s' : Scopes α}

/-- Variables of the given names were bound, the last first. -/
inductive Binds (s : Scopes α) : List String → Scopes α → Prop
  | nil : Binds s [] s
  | cons {names : List String} {s' : Scopes α} (name : String) (value : α) :
    Binds s names s' → Binds s (name :: names) (s'.add name value)

theorem Binds.append {s1 s2 : Scopes α} (h : s.Binds names s1) (h' : s1.Binds more s2) :
    s.Binds (more ++ names) s2 := by
  induction h' with
  | nil => exact h
  | cons name value _ ih => exact .cons name value ih

theorem Binds.eq_of_nil (h : s.Binds [] s') : s' = s := by
  cases h
  rfl

/-- Bound variables are gone with their scope. -/
theorem Binds.leave (h : s.enter.Binds names s') : s'.leave = s := by
  induction h with
  | nil => rfl
  | cons name value _ ih => rw [leave_add]; exact ih

/-- Every name that stands for something is one of the given names. -/
def Covered (s : Scopes α) (scope : List String) : Prop :=
  ∀ name, (s.lookup? name).isSome = true → ∃ v ∈ scope, Ident.same name v = true

theorem Covered.enter (h : s.Covered scope) : s.enter.Covered scope := h

theorem Covered.binds (h : s.Covered scope) (hb : s.Binds names s') :
    s'.Covered (names ++ scope) := by
  induction hb with
  | nil => exact h
  | cons bound value _ ih =>
    intro name hl
    rw [lookup?_add] at hl
    split at hl
    · rename_i hkey
      exact ⟨bound, mem_cons_self, by simpa [Ident.same] using hkey⟩
    · obtain ⟨v, hv, hsame⟩ := ih name hl
      exact ⟨v, mem_cons_of_mem _ hv, hsame⟩

end Scopes

namespace Build

/-! ## Steps on statements and names -/

section

variable {α β : Type}

/-- The step changes statements and names only. -/
def Quiet (m : BuildM α) : Prop :=
  ∀ ⦃b a b'⦄, Runs m b a b' → b' = { b with statements := b'.statements, names := b'.names }

theorem Quiet.bind {m : BuildM α} {f : α → BuildM β} (hm : Quiet m) (hf : ∀ a, Quiet (f a)) : Quiet (m >>= f) := by
  intro b c b' hr
  obtain ⟨a, b1, h1, h2⟩ := runs_bind.1 hr
  rw [hf a h2, hm h1]

theorem Quiet.returns {m : BuildM α} {f : α → β} (hm : Quiet m) : Quiet (m >>= fun a => pure (f a)) :=
  hm.bind fun _ _ _ _ hr => by rw [(runs_pure.1 hr).2]

theorem quiet_throw (e : Error) : Quiet (throw e : BuildM α) := fun _ _ _ hr => absurd hr runs_throw

theorem quiet_lift (x : Except Error α) : Quiet (liftM x : BuildM α) := fun _ _ _ hr => by rw [(runs_lift.1 hr).2]

end

theorem quiet_updateStatement (i : StatementId) (f : Statement → Statement) : Quiet (updateStatement i f) :=
  fun _ _ _ hr => by rw [runs_updateStatement.1 hr]

theorem quiet_tryUpdateStatement (i : StatementId) (f : Statement → Except Error Statement) :
    Quiet (tryUpdateStatement i f) := fun _ _ _ hr => by
  obtain ⟨s, -, rfl⟩ := runs_tryUpdateStatement.1 hr; rfl

theorem quiet_current : Quiet current := fun _ _ _ hr => by
  obtain ⟨-, -, rfl⟩ := runs_current.1 hr; rfl

theorem quiet_newStatement (s : Statement) : Quiet (newStatement s) := fun _ _ _ hr => by
  rw [(runs_newStatement.1 hr).2]

theorem quietStatements : StatementKind fun _ m _ => Quiet m where
  still h _ b a b' hr := by rw [h b a b' hr]
  names h _ b a b' hr := by
    obtain ⟨_, rfl⟩ := h b a b' hr
    rfl
  update i _ _ _ _ _ _ _ := quiet_updateStatement i _
  chain {_ _ m f _ _ _} hm hf b c b' hr := by
    obtain ⟨a, b1, h1, h2⟩ := runs_bind.1 hr
    rw [hf a ⟨b, b1, h1⟩ h2, hm h1]
  frame _ h := h
  pure _ _ _ _ hr := by rw [(runs_pure.1 hr).2]
  throw _ := quiet_throw _
  newStatement _ _ _ := quiet_newStatement _

theorem quietKind : ExtentKind fun _ => Quiet := quietStatements.extents []

theorem quiet_expectStatement (f : Fragment) : Quiet (expectStatement f) := by
  cases f with
  | statement i => exact quietKind.pure i
  | _ => exact quiet_throw _

/-! ## Steps that refer to variables -/

/-- From `b` to `b'` the variables `names` were bound. If none is pending in the end, `p` holds of
all names that have the variables in scope among them. -/
structure Visited (names : List String) (p : List String → Prop) (b b' : Build) : Prop where
  building : b'.building = b.building
  joins : b'.joins = b.joins
  scopes : b.scopes.Binds names b'.scopes
  pending : b.pendingVariable = true → b'.pendingVariable = true
  checked : b'.pendingVariable = false → ∀ scope, b.scopes.Covered scope → p scope

section

variable {α β : Type} {names : List String} {p q : List String → Prop}

def Visits (names : List String) (m : BuildM α) (p : List String → Prop) : Prop :=
  ∀ ⦃b a b'⦄, Runs m b a b' → Visited names p b b'

theorem Visits.imp {m : BuildM α} (h : Visits names m p) (hpq : ∀ scope, p scope → q scope) : Visits names m q := by
  intro b a b' hr
  have hv := h hr
  exact { hv with checked := fun hf scope hs => hpq scope (hv.checked hf scope hs) }

theorem Visits.bind {m : BuildM α} {f : α → BuildM β} (hm : Visits names m p) (hf : ∀ a, Visits more (f a) q) :
    Visits (more ++ names) (m >>= f) fun scope => p scope ∧ q (names ++ scope) := by
  intro b c b' hr
  obtain ⟨a, b1, h1, h2⟩ := runs_bind.1 hr
  have v1 := hm h1
  have v2 := hf a h2
  refine ⟨v2.building.trans v1.building, v2.joins.trans v1.joins, v1.scopes.append v2.scopes,
    fun h => v2.pending (v1.pending h), fun hnone scope hs => ⟨v1.checked ?_ scope hs, v2.checked hnone _ (hs.binds v1.scopes)⟩⟩
  -- what is pending in between is pending in the end
  cases hb : b1.pendingVariable with
  | false => rfl
  | true => rw [v2.pending hb] at hnone; cases hnone

theorem Visits.seq {m : BuildM α} {f : α → BuildM β} (hm : Visits [] m p) (hf : ∀ a, Visits names (f a) q) :
    Visits names (m >>= f) fun scope => p scope ∧ q scope := by
  have h := hm.bind hf
  rwa [append_nil] at h

theorem Quiet.visits {m : BuildM α} (h : Quiet m) : Visits [] m fun _ => True := by
  intro b a b' hr
  rw [h hr]
  exact ⟨rfl, rfl, .nil, id, fun _ _ _ => trivial⟩

theorem Quiet.andThen {m : BuildM α} {f : α → BuildM β} (hm : Quiet m) (hf : ∀ a, Visits names (f a) p) :
    Visits names (m >>= f) p :=
  (hm.visits.seq hf).imp fun _ hp => hp.2

theorem Visits.andThen {m : BuildM α} {f : α → BuildM β} (hm : Visits names m p) (hf : ∀ a, Quiet (f a)) :
    Visits names (m >>= f) p :=
  (hm.bind fun a => (hf a).visits).imp fun _ hp => hp.1

theorem Visits.returns {m : BuildM α} {f : α → β} (hm : Visits names m p) : Visits names (m >>= fun a => pure (f a)) p :=
  hm.andThen fun _ => quietKind.pure _

theorem Visits.thenBinds {m : BuildM α} {f : α → BuildM β} (hm : Visits [] m p)
    (hf : ∀ a, Visits names (f a) fun _ => True) : Visits names (m >>= f) p :=
  (hm.seq hf).imp fun _ hp => hp.1

theorem visits_throw (e : Error) : Visits names (throw e : BuildM α) p := fun _ _ _ hr => absurd hr runs_throw

theorem visits_ite {c : Prop} [Decidable c] {m m' : BuildM α} (h : c → Visits names m p) (h' : ¬ c → Visits names m' p) :
    Visits names (if c then m else m') p := by
  split
  · exact h ‹_›
  · exact h' ‹_›

theorem visits_pure {a : α} (hp : ∀ scope, p scope) : Visits [] (pure a) p :=
  (quietKind.pure a).visits.imp fun scope _ => hp scope

theorem visits_mapM {f : α → BuildM β} {p : α → List String → Prop} :
    ∀ {xs : List α}, (∀ x ∈ xs, Visits [] (f x) (p x)) → Visits [] (xs.mapM f) fun scope => ∀ x ∈ xs, p x scope
  | [], _ => visits_pure fun _ => nofun
  | x :: rest, h => by
    rw [mapM_cons]
    have hrest := visits_mapM fun y hy => h y (mem_cons_of_mem _ hy)
    refine ((h x mem_cons_self).seq fun y => hrest.returns).imp fun scope hp => ?_
    exact forall_mem_cons.2 hp

theorem visits_within {m : BuildM α} (i : StatementId) (h : Visits names m p) : Visits names (within i m) p := by
  intro b a b' hr
  obtain ⟨b1, hm, rfl⟩ := runs_within.1 hr
  have hv := h hm
  exact { hv with building := by rw [hv.building]; rfl }

theorem visits_underJoin {m : BuildM α} (flag : Bool) (h : Visits names m p) : Visits names (underJoin flag m) p := by
  intro b a b' hr
  obtain ⟨b1, hm, rfl⟩ := runs_underJoin.1 hr
  have hv := h hm
  exact { hv with joins := by rw [hv.joins]; rfl }

/-- The variables bound in a scope of their own are bound no longer. -/
theorem visits_inScope {m : BuildM α} (names : List String) (h : Visits names m p) : Visits [] (inScope m) p := by
  intro b a b' hr
  obtain ⟨b1, hm, rfl⟩ := runs_inScope.1 hr
  have hv := h hm
  have hscopes : b1.scopes.leave = b.scopes := hv.scopes.leave
  refine { hv with scopes := ?_, checked := fun hf scope hs => hv.checked hf scope hs.enter }
  change b.scopes.Binds [] b1.scopes.leave
  rw [hscopes]
  exact .nil

theorem visits_bindVariable (name : String) (x : SymbolId) : Visits [name] (bindVariable name x) fun _ => True := by
  intro b a b' hr
  rw [runs_bindVariable.1 hr]
  exact ⟨rfl, rfl, .cons name x .nil, id, fun _ _ _ => trivial⟩

/-- What follows a variable sees it. -/
theorem visits_afterVariable {m : BuildM α} (name : String) (x : SymbolId) (h : Visits more m p) :
    Visits (more ++ [name]) (do bindVariable name x; m) fun scope => p (name :: scope) :=
  ((visits_bindVariable name x).bind fun _ => h).imp fun _ hp => hp.2

end

/-! ## Inputs and operators -/

section

variable {α : Type}

variable {bound : List String → Expr → Prop}

/-- What is to hold of an expression in its scope holds when it has been built. -/
def Checks (bound : List String → Expr → Prop) (operand : Operand) : Prop :=
  Visits [] operand.build fun scope => bound scope operand.expr

section

variable {operand : Operand} (h : Checks bound operand)

include h

theorem input_visits (name : String) (type : DataType) :
    Visits [] (input operand name type) fun scope => bound scope operand.expr := by
  rw [input_eq]
  refine Visits.andThen (Visits.andThen h fun f => ?_) (quietKind.variableExtent name type)
  split
  · exact quietKind.pure _
  · exact quiet_newStatement _

theorem inputFor_visits (op : Operator) (name : String) (type : DataType) :
    Visits [] (inputFor op operand name type) fun scope => bound scope operand.expr :=
  (input_visits h name type).andThen fun r => (quietKind.statement r.1).bind fun _ =>
    quietKind.ite (quietKind.pure _) (quietStatements.subselect _ _ _ _)

theorem asStatement_visits (complete : Bool) :
    Visits [] (asStatement operand complete) fun scope => bound scope operand.expr := by
  rw [asStatement_eq]
  refine Visits.andThen (visits_ite (fun _ => ?_) fun _ => ?_) (quietKind.completed complete)
  · exact Visits.andThen h quiet_expectStatement
  · refine visits_inScope [defaultVariable] ((input_visits h _ _).thenBinds fun r => ?_)
    exact (quietKind.declareExtent r.1 r.2).andThen fun _ => (visits_bindVariable _ r.2).returns

theorem element_visits : Visits [] (element operand) fun scope => bound scope operand.expr :=
  (asStatement_visits h true).returns

theorem emptiness_visits (negated : Bool) : Visits [] (emptiness negated operand) fun scope => bound scope operand.expr :=
  (asStatement_visits h true).returns

theorem distinct_visits : Visits [] (distinct operand) fun scope => bound scope operand.expr :=
  (asStatement_visits h true).andThen fun i => (quietStatements.wrapUnless .distinct _ _ i).bind fun _ =>
    (quiet_updateStatement _ _).returns

theorem singleton_visits : Visits [] (singleton operand) fun scope => bound scope operand.expr :=
  (asStatement_visits h true).andThen fun i => (quietStatements.wrapUnless .element _ _ i).bind fun j =>
    (quiet_tryUpdateStatement j _).returns

/-- A row count is a constant or built. -/
theorem rowCount_visits : Visits [] (rowCount operand) fun scope =>
    (∃ value, operand.expr = .constant value) ∨ bound scope operand.expr := by
  unfold rowCount
  split
  case h_5 => exact visits_throw _
  case h_6 => exact (Visits.returns h).imp fun _ => Or.inr
  case h_7 => exact visits_throw _
  all_goals
    rename_i hvalue
    exact visits_pure fun _ => Or.inl ⟨_, hvalue⟩

end

theorem limit_visits (withTies : Bool) {operand count : Operand} (h : Checks bound operand) (hc : Checks bound count) :
    Visits [] (limit withTies operand count) fun scope =>
      bound scope operand.expr ∧ ((∃ value, count.expr = .constant value) ∨ bound scope count.expr) := by
  have hrest : Visits [] (do
      let i ← asStatement operand false
      let i ← wrapUnless .limit "top" operand.expr.rowType i
      let n ← rowCount count
      tryUpdateStatement i (·.setTop n)
      return i) fun scope =>
        bound scope operand.expr ∧ ((∃ value, count.expr = .constant value) ∨ bound scope count.expr) :=
    (asStatement_visits h false).seq fun i => (quietStatements.wrapUnless .limit _ _ i).andThen fun j =>
      (rowCount_visits hc).andThen fun n => (quiet_tryUpdateStatement j _).returns
  exact visits_ite (fun _ => (quiet_throw _).andThen fun _ => hrest) fun _ => hrest

theorem setOperation_visits (op : SetOp) {left right : Operand} (hl : Checks bound left) (hr : Checks bound right) :
    Visits [] (setOperation op left right) fun scope => bound scope left.expr ∧ bound scope right.expr :=
  (asStatement_visits hl true).seq fun l => (asStatement_visits hr true).andThen fun r =>
    (quietKind.setSide l).bind fun _ => (quietKind.setSide r).returns

theorem collection_visits (elementType : DataType) {items : List Operand} (h : ∀ item ∈ items, Checks bound item) :
    Visits [] (collection elementType items) fun scope => ∀ item ∈ items, bound scope item.expr := by
  refine visits_ite (fun he => visits_pure fun scope => ?_) fun _ => ?_
  · rw [isEmpty_iff.1 he]
    exact nofun
  · exact (visits_mapM fun item hm => (h item hm).returns).returns

/-! ## Operators over the rows of an input -/

section

variable {input : Binding Operand} (hi : Checks bound input.expr)

include hi

theorem overRows_visits {body : BuildM α} {p : List String → Prop} (op : Operator) (hbody : Visits [] body p) :
    Visits [] (overRows op input body) fun scope => bound scope input.expr.expr ∧ p (input.var :: scope) := by
  refine (inputFor_visits hi op input.var input.type).seq fun r =>
    Visits.returns (visits_within r.1 (visits_inScope [input.var] ?_))
  exact (quietKind.declareExtent r.1 r.2).andThen fun _ => visits_afterVariable input.var r.2 hbody

theorem filter_visits (negated : Bool) {predicate : Operand} (hp : Checks bound predicate) :
    Visits [] (filter negated input predicate) fun scope =>
      bound scope input.expr.expr ∧ bound (input.var :: scope) predicate.expr :=
  (overRows_visits hi .filter hp).andThen fun _ => (quiet_updateStatement _ _).returns

theorem quantified_visits (q : Quantifier) {predicate : Operand} (hp : Checks bound predicate) :
    Visits [] (quantified q input predicate) fun scope =>
      bound scope input.expr.expr ∧ bound (input.var :: scope) predicate.expr :=
  (filter_visits hi _ hp).andThen fun i => (quietKind.selectAllIfNone i).returns

theorem projectRecord_visits {fields : List (String × Operand)} (hf : ∀ f ∈ fields, Checks bound f.2) :
    Visits [] (projectRecord input fields) fun scope =>
      bound scope input.expr.expr ∧ ∀ f ∈ fields, bound (input.var :: scope) f.2.expr := by
  refine (overRows_visits hi .project
    (visits_mapM (p := fun (f : String × Operand) scope => bound scope f.2.expr) fun f hm => ?_)).andThen fun r => ?_
  · exact visits_ite (fun _ => (quiet_throw _).andThen fun _ => (hf f hm).returns)
      fun _ => (hf f hm).returns
  · exact (quiet_updateStatement r.1 _).bind fun _ => (quiet_updateStatement r.1 _).returns

theorem projectValue_visits {value : Operand} (hv : Checks bound value) :
    Visits [] (projectValue input value) fun scope =>
      bound scope input.expr.expr ∧ bound (input.var :: scope) value.expr := by
  refine (overRows_visits hi .project hv).andThen fun r => (quiet_updateStatement r.1 _).bind fun _ => ?_
  split
  · exact (quiet_updateStatement r.1 _).returns
  · exact quietKind.pure _

theorem ordered_visits (op : Operator) {keys : List (SortKey Operand)} (hk : ∀ k ∈ keys, Checks bound k.expr) :
    Visits [] (ordered op input keys) fun scope =>
      bound scope input.expr.expr ∧ ∀ k ∈ keys, bound (input.var :: scope) k.expr.expr :=
  (overRows_visits hi op (visits_mapM fun k hm => (hk k hm).returns)).andThen fun r =>
    (quiet_updateStatement r.1 _).returns

theorem skip_visits {keys : List (SortKey Operand)} {count : Operand} (hk : ∀ k ∈ keys, Checks bound k.expr)
    (hc : Checks bound count) :
    Visits [] (skip input keys count) fun scope =>
      (bound scope input.expr.expr ∧ ∀ k ∈ keys, bound (input.var :: scope) k.expr.expr) ∧
        ((∃ value, count.expr = .constant value) ∨ bound scope count.expr) :=
  (ordered_visits hi .skip hk).seq fun i => (rowCount_visits hc).andThen fun _ =>
    (quiet_tryUpdateStatement i _).returns

end

/-- Keys and arguments of a grouping see its two variables. -/
theorem group_visits {input : GroupBinding Operand} {keys : List (String × Operand)}
    {aggregates : List (String × Aggregate Operand)} (hi : Checks bound input.expr)
    (hk : ∀ k ∈ keys, Checks bound k.2) (ha : ∀ a ∈ aggregates, Checks bound a.2.argument) :
    Visits [] (group input keys aggregates) fun scope =>
      bound scope input.expr.expr ∧ (∀ k ∈ keys, bound (input.groupVar :: input.var :: scope) k.2.expr) ∧
        ∀ a ∈ aggregates, bound (input.groupVar :: input.var :: scope) a.2.argument.expr := by
  have hkeys : Visits [] (keys.mapM buildKey) fun scope => ∀ k ∈ keys, bound scope k.2.expr :=
    visits_mapM fun k hm => (hk k hm).returns
  have harguments : Visits [] (aggregates.mapM buildArgument) fun scope => ∀ a ∈ aggregates, bound scope a.2.argument.expr :=
    visits_mapM fun a hm => (ha a hm).returns
  have hbody : ∀ i, Visits [] (if needsInner aggregates then groupOverInner i input.var input.type keys aggregates
      else groupInPlace i keys aggregates) fun scope =>
      (∀ k ∈ keys, bound scope k.2.expr) ∧ ∀ a ∈ aggregates, bound scope a.2.argument.expr := by
    intro i
    refine visits_ite (fun _ => ?_) fun _ => ?_
    · refine (quietStatements.subselect i _ _ false).andThen fun o => (quietKind.declareExtent o.1 o.2).andThen fun _ =>
        hkeys.seq fun _ => harguments.andThen fun _ => (quiet_updateStatement i _).bind fun _ => ?_
      exact (quiet_updateStatement o.1 _).bind fun _ => (quiet_updateStatement o.1 _).bind fun _ =>
        (quiet_updateStatement o.1 _).returns
    · exact hkeys.seq fun _ => harguments.andThen fun _ => (quiet_updateStatement i _).bind fun _ =>
        (quiet_updateStatement i _).bind fun _ => (quiet_updateStatement i _).returns
  refine (inputFor_visits hi .groupBy _ _).seq fun r =>
    visits_within r.1 (visits_inScope [input.groupVar, input.var] ?_)
  exact (quietKind.declareExtent r.1 r.2).andThen fun _ => visits_afterVariable input.var r.2
    (visits_afterVariable input.groupVar r.2 (hbody r.1))

/-! ## Joins -/

/-- Each input of a join with the variables of those before it. -/
def inTurn {α : Type} : List (Binding α) → List (List String × α)
  | [] => []
  | b :: rest => ([], b.expr) :: (inTurn rest).map fun c => (c.1 ++ [b.var], c.2)

theorem inTurn_map {β : Type} (f : α → β) (inputs : List (Binding α)) :
    inTurn (inputs.map fun b => b.with (f b.expr)) = (inTurn inputs).map fun c => (c.1, f c.2) := by
  induction inputs with
  | nil => rfl
  | cons b rest ih =>
    simp only [map_cons, inTurn, ih, map_map]
    rfl

theorem forall_inTurn_cons {p : List String → α → Prop} {input : Binding α} {rest : List (Binding α)}
    (h : p scope input.expr) (hrest : ∀ c ∈ inTurn rest, p (c.1 ++ ([input.var] ++ scope)) c.2) :
    ∀ c ∈ inTurn (input :: rest), p (c.1 ++ scope) c.2 := by
  refine forall_mem_cons.2 ⟨h, forall_mem_map.2 fun c hc => ?_⟩
  rw [append_assoc]
  exact hrest c hc

/-- The variables of the inputs of a join, the last first. -/
def joinVariables {α : Type} (inputs : List (Binding α)) : List String := (inputs.map Binding.var).reverse

theorem joinVariables_cons (input : Binding α) (rest : List (Binding α)) :
    joinVariables (input :: rest) = joinVariables rest ++ [input.var] := by
  simp [joinVariables]

theorem joinInput_visits (i : StatementId) (first : Bool) {input : Binding Operand} (h : Checks bound input.expr) :
    Visits [input.var] (joinInput i first input) fun scope => bound scope input.expr.expr := by
  have habsorb : ∀ before, Visits [input.var] (absorb i input before) fun _ => True := fun before =>
    (quietKind.statement i).andThen fun _ => (quietKind.newSymbol _).andThen fun x =>
      (quiet_updateStatement i _).andThen fun _ => visits_bindVariable _ x
  have hadjoin : ∀ f, Visits [input.var] (adjoin i input f) fun _ => True := fun f =>
    (quietStatements.writeSource i _ f).andThen fun join => (quietKind.newExtent _ _ join).andThen fun x =>
      (quietKind.declareExtent i x).andThen fun _ => (visits_bindVariable _ x).andThen fun _ => quiet_updateStatement i _
  refine (quietKind.statement i).andThen fun s =>
    (visits_underJoin _ h).thenBinds fun f => ?_
  cases f with
  | statement sub => exact visits_ite (fun _ => habsorb _) fun _ => hadjoin _
  | _ => exact hadjoin _

theorem joinRest_visits (i : StatementId) (keyword : String) : ∀ {inputs : List (Binding Operand)},
    (∀ input ∈ inputs, Checks bound input.expr) →
      Visits (joinVariables inputs) (joinRest i keyword inputs) fun scope =>
        ∀ c ∈ inTurn inputs, bound (c.1 ++ scope) c.2.expr
  | [], _ => visits_pure fun _ => nofun
  | input :: rest, h => by
    obtain ⟨hfirst, hrest⟩ := forall_mem_cons.1 h
    rw [joinVariables_cons]
    refine (quiet_updateStatement i _).andThen fun _ =>
      ((joinInput_visits i false hfirst).bind fun _ => joinRest_visits i keyword hrest).imp fun scope hp => ?_
    exact forall_inTurn_cons (p := fun scope (o : Operand) => bound scope o.expr) hp.1 hp.2

theorem joinInputs_visits (i : StatementId) (keyword : String) {inputs : List (Binding Operand)}
    (h : ∀ input ∈ inputs, Checks bound input.expr) :
    Visits (joinVariables inputs) (joinInputs i keyword inputs) fun scope =>
      ∀ c ∈ inTurn inputs, bound (c.1 ++ scope) c.2.expr := by
  cases inputs with
  | nil => exact visits_pure fun _ => nofun
  | cons first rest =>
    obtain ⟨hfirst, hrest⟩ := forall_mem_cons.1 h
    rw [joinVariables_cons]
    refine ((joinInput_visits i true hfirst).bind fun _ => joinRest_visits i keyword hrest).imp fun scope hp => ?_
    exact forall_inTurn_cons (p := fun scope (o : Operand) => bound scope o.expr) hp.1 hp.2

/-- The condition of a join sees the variables of all inputs. -/
theorem joined_visits (keyword : String) {inputs : List (Binding Operand)} {condition : Option Operand}
    (hi : ∀ input ∈ inputs, Checks bound input.expr) (hc : ∀ c ∈ condition, Checks bound c) :
    Visits [] (joined keyword inputs condition) fun scope =>
      (∀ c ∈ inTurn inputs, bound (c.1 ++ scope) c.2.expr) ∧
        ∀ c ∈ condition, bound (joinVariables inputs ++ scope) c.expr := by
  have hcondition : ∀ i, Visits [] (joinCondition i condition) fun scope => ∀ c ∈ condition, bound scope c.expr := by
    intro i
    cases condition with
    | none => exact visits_pure fun _ => nofun
    | some c =>
      refine ((visits_underJoin false (hc c rfl)).andThen fun _ => quiet_updateStatement i _).imp fun scope hp => ?_
      rintro _ ⟨⟩
      exact hp
  have hbody : ∀ i, Visits [] (inScope (joinBody i keyword inputs condition)) fun scope =>
      (∀ c ∈ inTurn inputs, bound (c.1 ++ scope) c.2.expr) ∧
        ∀ c ∈ condition, bound (joinVariables inputs ++ scope) c.expr := fun i =>
    visits_inScope (joinVariables inputs) ((joinInputs_visits i keyword hi).bind fun _ => hcondition i)
  refine quietKind.parentTakesIn.andThen fun flag => visits_ite (fun _ => ?_) fun _ => ?_
  · exact quiet_current.andThen fun i => (hbody i).returns
  · exact (quiet_newStatement _).andThen fun i => (visits_within i (hbody i)).returns

/-! ## Values -/

section

variable {operand : Operand} (h : Checks bound operand)

include h

theorem negate_visits : Visits [] (negate operand) fun scope => bound scope operand.expr :=
  Visits.returns h

theorem nullTest_visits (negated : Bool) : Visits [] (nullTest negated operand) fun scope => bound scope operand.expr :=
  Visits.returns h

theorem negation_visits : Visits [] (negation operand) fun scope => bound scope operand.expr :=
  Visits.returns h

theorem parenthesized_visits : Visits [] (parenthesized operand) fun scope => bound scope operand.expr :=
  Visits.andThen h fun _ => quietKind.ite (quietKind.pure _) (quietKind.pure _)

end

theorem binary_visits (op : String) {left right : Operand} (hl : Checks bound left) (hr : Checks bound right) :
    Visits [] (binary op left right) fun scope => bound scope left.expr ∧ bound scope right.expr :=
  (parenthesized_visits hl).seq fun _ => (parenthesized_visits hr).returns

/-- A niladic function has no arguments that could refer to anything. -/
theorem call_visits (f : Function) {arguments : List Operand} (h : ∀ a ∈ arguments, Checks bound a) :
    Visits [] (call f arguments) fun scope => ∀ a ∈ arguments, bound scope a.expr := by
  refine visits_ite (fun _ => visits_ite (fun he => visits_pure fun scope => ?_) fun _ => visits_throw _) fun _ => ?_
  · rw [isEmpty_iff.1 he]
    exact nofun
  · exact (visits_mapM h).returns

theorem optionalParts_visits (keyword : String) {operand : Option Operand} (h : ∀ o ∈ operand, Checks bound o) :
    Visits [] (optionalParts keyword operand) fun scope =>
      ∀ o ∈ operand, o.expr.isNullLiteral = true ∨ bound scope o.expr := by
  cases operand with
  | none => exact visits_pure fun _ => nofun
  | some o =>
    refine visits_ite (fun hnull => visits_pure fun scope => ?_) fun _ =>
      (Visits.returns (h o rfl)).imp fun scope hp => ?_
    · rintro _ ⟨⟩
      exact Or.inl hnull
    · rintro _ ⟨⟩
      exact Or.inr hp

theorem caseOf_visits {branches : List (Operand × Operand)} {otherwise : Option Operand}
    (hb : ∀ b ∈ branches, Checks bound b.1 ∧ Checks bound b.2) (ho : ∀ o ∈ otherwise, Checks bound o) :
    Visits [] (caseOf branches otherwise) fun scope =>
      (∀ b ∈ branches, bound scope b.1.expr ∧ bound scope b.2.expr) ∧
        ∀ o ∈ otherwise, o.expr.isNullLiteral = true ∨ bound scope o.expr := by
  have hbranch : ∀ b ∈ branches, Visits [] (caseBranch b) fun scope => bound scope b.1.expr ∧ bound scope b.2.expr :=
    fun b hm => (hb b hm).1.seq fun _ => (hb b hm).2.returns
  exact (visits_mapM hbranch).seq fun _ => (optionalParts_visits _ ho).returns

theorem like_visits {operand pattern : Operand} {escape : Option Operand} (ho : Checks bound operand)
    (hp : Checks bound pattern) (he : ∀ o ∈ escape, Checks bound o) :
    Visits [] (like operand pattern escape) fun scope =>
      bound scope operand.expr ∧ bound scope pattern.expr ∧
        ∀ o ∈ escape, o.expr.isNullLiteral = true ∨ bound scope o.expr :=
  ho.seq fun _ => hp.seq fun _ => (optionalParts_visits _ he).returns

/-- A key is built unless all that it is compared with are tests for null, and of those the first is. -/
theorem keyTest_visits {entry : Operand × List Operand} (hk : Checks bound entry.1)
    (hv : ∀ v ∈ entry.2, Checks bound v) :
    Visits [] (keyTest entry) fun scope =>
      (∀ v ∈ entry.2, v.expr.isNullTest = false → bound scope entry.1.expr ∧ bound scope v.expr) ∧
        ∀ test, entry.2.find? (·.expr.isNullTest) = some test → bound scope test.expr := by
  have htest : ∀ values : List Operand, (∀ v ∈ values, Checks bound v) →
      Visits [] (valueTest entry.1 values) fun scope => ∀ v ∈ values, bound scope entry.1.expr ∧ bound scope v.expr := by
    intro values hvalues
    match values with
    | [] => exact visits_pure fun _ => nofun
    | [value] =>
      have hv := parenthesized_visits (hvalues value mem_cons_self)
      exact ((parenthesized_visits hk).seq fun _ => hv.returns).imp fun scope hp => forall_mem_singleton.2 hp
    | value :: value' :: rest =>
      have hvs := visits_mapM fun v hm => parenthesized_visits (hvalues v hm)
      exact ((parenthesized_visits hk).seq fun _ => hvs.returns).imp fun scope hp v hm => ⟨hp.1, hp.2 v hm⟩
  have hvalues := htest (entry.2.filter (!·.expr.isNullTest)) fun v hm => hv v (mem_of_mem_filter hm)
  refine (hvalues.seq (q := fun scope => ∀ test, entry.2.find? (·.expr.isNullTest) = some test → bound scope test.expr)
    fun tested => ?_).imp fun scope hp => ⟨fun v hm hplain => hp.1 v ?_, hp.2⟩
  · cases hfind : entry.2.find? (·.expr.isNullTest) with
    | none => exact visits_pure fun _ => nofun
    | some test =>
      refine ((hv test (mem_of_find?_eq_some hfind)).returns).imp fun scope hp => ?_
      rintro _ ⟨⟩
      exact hp
  · exact mem_filter.2 ⟨hm, by simp [hplain]⟩

theorem membership_visits {groups : KeyedLists Operand Operand}
    (h : ∀ entry ∈ groups, Checks bound entry.1 ∧ ∀ v ∈ entry.2, Checks bound v) :
    Visits [] (membership groups) fun scope => ∀ entry ∈ groups,
      (∀ v ∈ entry.2, v.expr.isNullTest = false → bound scope entry.1.expr ∧ bound scope v.expr) ∧
        ∀ test, entry.2.find? (·.expr.isNullTest) = some test → bound scope test.expr :=
  (visits_mapM fun entry hm => keyTest_visits (h entry hm).1 (h entry hm).2).returns

/-! ## Members of variables -/

/-- A variable stands for an extent in scope, and only where none is pending. It is pending then. -/
theorem runs_rowVariable {name : String} {b b' : Build} {f : Fragment} (hr : Runs (rowVariable name) b f b') :
    b.pendingVariable = false ∧ b'.pendingVariable = true ∧ SameStacks b b' ∧ (b.scopes.lookup? name).isSome = true := by
  obtain ⟨hnone, x, hx, -, rfl⟩ := rowVariable_cases hr
  exact ⟨hnone, rfl, ⟨rfl, rfl, rfl⟩, by rw [hx]; rfl⟩

theorem member_visits {owner : Operand} (name : String) (h : Checks bound owner) (ho : owner.expr.isVariable = false) :
    Visits [] (member owner name) fun scope => bound scope owner.expr := by
  rw [member_eq, ho]
  exact Visits.andThen h fun sql => quietKind.memberOf name sql

/-- A variable that a member is read off is no longer pending, and it is in scope. -/
theorem variableMember_visits {owner : Operand} {name member : String} (ho : owner.expr.isVariable = true)
    (hbuild : owner.build = rowVariable name) :
    Visits [] (Build.member owner member) fun scope => ∃ v ∈ scope, Ident.same name v = true := by
  intro b f b' hr
  rw [member_eq, ho, hbuild] at hr
  simp only [if_true, runs_bind, runs_setPending] at hr
  obtain ⟨sql, b1, hvar, -, _, rfl, hr⟩ := hr
  obtain ⟨hnone, -, hsame, hbound⟩ := runs_rowVariable hvar
  rw [quietKind.memberOf member sql hr]
  refine ⟨hsame.building, hsame.joins, ?_, fun h => ?_, fun _ scope hs => hs name hbound⟩
  · change b.scopes.Binds [] b1.scopes
    rw [hsame.scopes]
    exact .nil
  · rw [hnone] at h; cases h

end

end Build

end RelSql
