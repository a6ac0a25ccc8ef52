/-
How the construction of a query can fail. `Fails m b e` says that the step `m` fails with the error `e`
from the state `b`. By some errors the construction reports that a rule of its own was broken: a step
without a statement being built, a clause set twice. It never does: every operand is built in a state
that is in order, and an operator is added only where its clause is free.
-/
import RelSql.Proofs.Build.Placing

namespace RelSql

open Statement List Build

namespace Build

variable {b b' : Build} {e : Error} {α β : Type} {i : StatementId} {keyed : Prop} {m : BuildM α} {f : α → BuildM β}

/-- A step behind one that succeeds fails by itself. -/
theorem fails_behind {a : α} {b1 : Build} (hr : Runs m b a b1) : Fails (m >>= f) b e ↔ Fails (f a) b1 e := by
  unfold Fails
  rw [StateT.run_bind, hr]; rfl

/-! ## Steps that never report a broken rule -/

def Clean (m : BuildM α) : Prop := ∀ b e, Fails m b e → ¬ e.Internal True

theorem cleanSteps : StatementKind fun _ m _ => Clean m where
  still _ he := he
  names _ he _ _ hf := absurd hf (he _ _)
  update _ _ _ _ _ _ _ _ _ _ hf := by cases hf
  chain hm hf b e h := by
    rcases fails_bind.1 h with h | ⟨a, b1, hr, h⟩
    · exact hm b e h
    · exact hf a ⟨b, b1, hr⟩ b1 e h
  frame _ h := h
  pure _ _ _ hf := by cases hf
  throw he _ _ hf := by cases hf; exact he
  newStatement _ _ _ _ _ hf := by cases hf

theorem cleanExtents : ExtentKind fun _ m => Clean m := cleanSteps.extents []

theorem clean_modify (f : Build → Build) : Clean (modify f) := fun _ _ hf => by cases hf

/-- A change of the state may stand before a step. -/
theorem clean_behind {g : Build → Build} (h : Clean m) : Clean (modify g >>= fun _ => m) :=
  cleanExtents.bind (clean_modify g) fun _ => h

/-- The last change of a statement before a step returns. -/
theorem clean_updated (i : StatementId) (f : Statement → Statement) (a : α) : Clean (updateStatement i f >>= fun _ => pure a) :=
  clean_behind (cleanExtents.pure _)

/-- What reports a broken rule is not a step behind which all is clean. -/
theorem fails_first (hf : ∀ a, Returns m a → Clean (f a)) (he : e.Internal keyed) (h : Fails (m >>= f) b e) : Fails m b e := by
  rcases fails_bind.1 h with h | ⟨a, b1, hr, h⟩
  · exact h
  · exact absurd he.always (hf a ⟨b, b1, hr⟩ b1 e h)

theorem fails_returned {f : α → β} (he : e.Internal keyed) (h : Fails (m >>= fun a => pure (f a)) b e) : Fails m b e :=
  fails_first (fun _ _ => cleanExtents.pure _) he h

theorem fails_next (hm : Clean m) (he : e.Internal keyed) (h : Fails (m >>= f) b e) :
    ∃ a b1, Runs m b a b1 ∧ Fails (f a) b1 e :=
  (fails_bind.1 h).resolve_left fun h => hm b e h he.always

/-- A step between two changes of the state fails by itself. -/
theorem fails_between {f g : Build → Build} (he : e.Internal keyed)
    (h : Fails (do modify f; let a ← m; modify g; return a) b e) : Fails m (f b) e :=
  fails_first (fun _ _ => clean_behind (cleanExtents.pure _)) he
    ((fails_behind (a := ⟨⟩) (runs_modify.2 rfl)).1 h)

/-! ## Steps from states in order -/

/-- An expression may be built: the state is in order, and no join takes the expression in. -/
structure Buildable (b : Build) : Prop where
  good : Good b
  apart : b.inJoin = false

/-- The step reports no broken rule where an expression may be built. -/
def Obeys (keyed : Prop) (m : BuildM α) : Prop := ∀ ⦃b e⦄, Buildable b → e.Internal keyed → ¬ Fails m b e

/-- Such a step, behind which expressions may be built again. -/
structure Heedful (keyed : Prop) (m : BuildM α) : Prop where
  step : ∀ ⦃b a b'⦄, Buildable b → Runs m b a b' → Step b b'
  obeys : Obeys keyed m

theorem Obeys.andThen (h : Obeys keyed m) (hf : ∀ a, Returns m a → Clean (f a)) : Obeys keyed (m >>= f) :=
  fun _ _ hb he hfail => h hb he (fails_first hf he hfail)

theorem Buildable.step (hb : Buildable b) (hs : Step b b') : Buildable b' := ⟨hb.good.step hs, hs.inJoin.trans hb.apart⟩

theorem Heedful.andThen (h : Heedful keyed m) (hf : ∀ a, Obeys keyed (f a)) : Obeys keyed (m >>= f) := by
  intro b e hb he hfail
  rcases fails_bind.1 hfail with hfail | ⟨a, b1, hr, hfail⟩
  · exact h.obeys hb he hfail
  · exact hf a (hb.step (h.step hb hr)) he hfail

theorem heedfulSteps : StepKind fun _ m => Heedful keyed m where
  still h he := by
    refine ⟨fun b a b' hb hr => ?_, fun b e _ hi hf => he b e hf hi.always⟩
    rw [h b a b' hr]
    exact .refl hb.good
  bind hm hf := by
    refine ⟨fun b c b' hb hr => ?_, hm.andThen fun a => (hf a).obeys⟩
    obtain ⟨a, b1, h1, h2⟩ := runs_bind.1 hr
    exact (hm.step hb h1).trans ((hf a).step (hb.step (hm.step hb h1)) h2)

theorem heedful_setPending (flag : Bool) : Heedful keyed (setPending flag) := by
  refine ⟨fun b a b' hb hr => ?_, fun _ _ _ _ hf => by cases hf⟩
  rw [runs_setPending.1 hr]
  exact ⟨hb.good.store, ⟨rfl, rfl, rfl⟩, .refl _ _⟩

/-- A variable in scope stands for an extent of a statement that is being built. -/
theorem heedful_rowVariable (name : String) : Heedful keyed (rowVariable name) := by
  refine ⟨fun b f b' hb hr => (rowVariable_builds name hb.good hb.apart (le_refl _) Store.sound_nil hr).1,
    fun b e hb he hfail => ?_⟩
  rw [rowVariable, fails_behind (runs_get.2 ⟨rfl, rfl⟩)] at hfail
  dsimp only at hfail
  split at hfail
  · cases hfail; exact he
  rw [fails_behind (a := ⟨⟩) (runs_setPending.2 rfl)] at hfail
  split at hfail
  · cases hfail; exact he
  · rename_i x hx
    obtain ⟨frame, hf, v, hv, rfl⟩ := Scopes.mem_of_lookup? hx
    obtain ⟨k, hk, -⟩ := hb.good.scopes frame hf v hv
    obtain ⟨i, rest, hrest⟩ := exists_cons_of_ne_nil (ne_nil_of_mem hk)
    have hcurrent : Runs current { b with pendingVariable := true } i _ := runs_current.2 ⟨rest, hrest, rfl⟩
    rw [fails_behind hcurrent] at hfail
    exact cleanExtents.bind (cleanExtents.markOuter _ _) (fun _ => cleanExtents.pure _) _ _ hfail he.always

/-! ## Operands -/

/-- What the constructs expect of an operand. -/
structure Heeds (keyed : Prop) (operand : Operand) : Prop where
  input : JoinInputOK operand
  places : keyed → Places ⟨False, False, True⟩ .apart [] operand.build Fragment.statements
  statement : declaresExtent operand.expr = true → ∀ f, Returns operand.build f → ∃ i, f = .statement i
  count : CountOK operand
  obeys : Obeys keyed operand.build
  clean : (∃ name type, operand.expr = .parameter name type) ∨ operand.expr.isScan = true → Clean operand.build
  taken : (operand.expr.isJoin || operand.expr.isApply) = true → ∀ ⦃σ outer frames b i e⦄, Joining σ outer frames b i →
    Unjoined frames b i → b.inJoin = true → e.Internal keyed → ¬ Fails operand.build b e

section

variable {operand count : Operand}

namespace Heeds

theorem heedful (h : Heeds keyed operand) : Heedful keyed operand.build :=
  ⟨fun _ _ _ hb hr => (h.input.value hb.good hb.apart (le_refl _) Store.sound_nil hr).1, h.obeys⟩

variable (h : Heeds keyed operand)

include h

theorem inputObeys (name : String) (type : DataType) : Obeys keyed (Build.input operand name type) := by
  rw [input_eq]
  refine Obeys.andThen (h.obeys.andThen fun f _ => ?_) fun i _ => cleanExtents.variableExtent name type i
  cases f with
  | statement i => exact cleanExtents.pure i
  | parts ps | symbol x | nested x y => exact cleanSteps.newStatement rfl rfl rfl

theorem asStatement (complete : Bool) : Heedful keyed (asStatement operand complete) := by
  refine ⟨fun b i b' hb hr => ?_, ?_⟩
  · obtain ⟨ho, hs⟩ := asStatement_spec h.input.value hb.good hb.apart hr
    exact ⟨ho.ok, hs, ho.grows⟩
  rw [asStatement_eq]
  refine Obeys.andThen ?_ fun i _ => cleanExtents.completed complete i
  unfold declaredStatement
  split
  · rename_i hd
    refine h.obeys.andThen fun f hf => ?_
    obtain ⟨i, rfl⟩ := h.statement hd f hf
    exact cleanExtents.pure i
  · intro b e hb he hfail
    have hb0 : Buildable { b with scopes := b.scopes.enter } := ⟨hb.good.enter, hb.apart⟩
    refine (h.inputObeys _ _).andThen (fun r _ => ?_) hb0 he (fails_between he hfail)
    exact cleanExtents.bind (cleanExtents.declareExtent r.1 r.2) fun _ =>
      clean_behind (cleanExtents.pure _)

theorem inputFor (op : Operator) (name : String) (type : DataType) : Obeys keyed (inputFor op operand name type) :=
  (h.inputObeys name type).andThen fun r _ => cleanExtents.bind (cleanExtents.statement r.1) fun _ =>
    cleanExtents.ite (cleanExtents.pure r) (cleanSteps.subselect r.1 name type true)

/-- What is built in the statement of an input, opened for an operator, is built where expressions may be. -/
theorem opened {op : Operator} {name : String} {type : DataType} {x : SymbolId} {b1 : Build} (hb : Buildable b)
    (he : e.Internal keyed) (hin : Runs (Build.inputFor op operand name type) b (i, x) b1)
    (hfail : Fails (within i (inScope (declareExtent i x >>= fun _ => m))) b1 e) :
    ∃ b2, Fails m b2 e ∧ b2.scopes = b.scopes.enter ∧ ∀ names : List String,
      Opened b { b2 with scopes := ⟨(names.map fun name => (Ident.key name, x)) :: b.scopes.frames⟩ } i ∧
      Buildable { b2 with scopes := ⟨(names.map fun name => (Ident.key name, x)) :: b.scopes.frames⟩ } := by
  obtain ⟨ho, hs, hx⟩ := inputFor_spec h.input.value hb.good hb.apart hin
  obtain ⟨_, b2, hdecl, hfail⟩ := fails_next (cleanExtents.declareExtent i x) he (fails_between he (fails_between he hfail))
  have hopen := fun names => (open_spec names hb.good ho hs hx hdecl).1
  exact ⟨b2, hfail, (open_spec [] hb.good ho hs hx hdecl).2, fun names => ⟨hopen names, (hopen names).good,
    (hopen names).inJoin.trans hb.apart⟩⟩

end Heeds

/-! ## Operators -/

theorem obeys_overRows {op : Operator} {input : Binding Operand} (hi : Heeds keyed input.expr) (hm : Obeys keyed m) :
    Obeys keyed (overRows op input m) := by
  intro b e hb he hfail
  rcases fails_bind.1 hfail with hfail | ⟨⟨i, x⟩, b1, hin, hfail⟩
  · exact hi.inputFor _ _ _ hb he hfail
  obtain ⟨b2, hfail, hscopes, hbuildable⟩ := hi.opened hb he hin (fails_returned he hfail)
  rw [fails_behind (a := ⟨⟩) (runs_bindVariable.2 rfl), hscopes] at hfail
  exact hm (hbuildable [input.var]).2 he hfail

theorem obeys_ordered {input : Binding Operand} {keys : List (SortKey Operand)} (hi : Heeds keyed input.expr) (op : Operator)
    (hs : ∀ k ∈ keys, Heeds keyed k.expr) : Obeys keyed (ordered op input keys) := by
  have hkeys := heedfulSteps.mapM fun k hm => heedfulSteps.texts.sortItem (hs k hm).heedful
  exact (obeys_overRows hi hkeys.obeys).andThen fun _ _ => clean_updated _ _ _

/-! ## Row counts and offsets -/

theorem accepts_wrapUnless {op : Operator} {name : String} {type : DataType} {k : StatementId}
    (hr : Runs (wrapUnless op name type i) b k b') : (b'.store.get k).accepts op = true := by
  rcases wrapUnless_cases hr with ⟨hacc, rfl, rfl⟩ | ⟨-, y, b1, _, hsub, hdecl⟩
  · exact hacc
  · obtain ⟨hlt, hget⟩ := get_subselect hsub
    rw [(declareExtent_clauses hdecl hlt).accepts, hget]
    exact accepts_overSubselect _ op

theorem fails_tryUpdateStatement {f : Statement → Except Error Statement} (he : e.Internal keyed)
    (h : Fails (tryUpdateStatement i f >>= fun _ => pure i) b e) : f (b.store.get i) = .error e := by
  replace h := fails_returned he h
  rw [tryUpdateStatement, fails_behind (runs_statement.2 ⟨rfl, rfl⟩)] at h
  replace h := fails_first (fun _ _ => clean_modify _) he h
  change f (b.statements.get i) = .error e
  unfold Fails at h
  cases hf : f (b.statements.get i) with
  | error e' => rw [hf] at h; cases h; rfl
  | ok s => rw [hf] at h; cases h

theorem clean_rowCount (h : Heeds keyed count) : Clean (rowCount count) := by
  unfold rowCount
  split
  case h_6 name type heq => exact cleanExtents.bind (h.clean (Or.inl ⟨name, type, heq⟩)) fun _ => cleanExtents.pure _
  all_goals first
    | exact cleanExtents.throw id
    | exact cleanExtents.pure _

/-- The row count of a statement that takes one is set once. -/
theorem clean_top {op : Operator} {name : String} {type : DataType} {m : BuildM (List Part)}
    (hop : ∀ s : Statement, s.accepts op = true → s.top = none) (hstill : ∀ b n b', Runs m b n b' → b' = b) (hm : Clean m) :
    Clean (do
      let k ← wrapUnless op name type i
      let n ← m
      tryUpdateStatement k (·.setTop n)
      return k) := by
  intro b e hfail he
  obtain ⟨k, b1, hr, hfail⟩ := fails_next (cleanSteps.wrapUnless op name type i) he hfail
  obtain ⟨n, b2, hn, hfail⟩ := fails_next hm he hfail
  rw [hstill _ _ _ hn] at hfail
  have hset := fails_tryUpdateStatement he hfail
  unfold setTop at hset
  rw [hop _ (accepts_wrapUnless hr)] at hset
  cases hset

section

variable {input : Binding Operand} {keys : List (SortKey Operand)} (hi : Heeds keyed input.expr)
  (hs : ∀ k ∈ keys, Heeds keyed k.expr)

include hi hs

/-- A statement that takes an offset has none yet, if offsets come with orders. -/
theorem skip_ordered (hkeyed : keyed) (hb : Buildable b) (hr : Runs (ordered .skip input keys) b i b') :
    (b'.store.get i).skip = none := by
  obtain ⟨items, _, hover, hb'⟩ := ordered_cases hr
  obtain ⟨x, b1, _, b2, b3, hin, ho, -, -, hdecl, hopen, hitems, rfl⟩ := overRows_cases hi.input.value hb.good hb.apart hover
  -- the statement of the input is new, so what the steps of the input leave in order holds of it
  have hnew : b.statements.get i = {} := Store.get_of_size_le ho.le
  have hallows := ((placesStatements id).inputFor (hi.places hkeyed) _ _ _ hin hb.apart).kept i
    (by rw [hnew]; exact ⟨False.elim, fun _ _ => rfl⟩)
  have hacc := accepts_inputFor hin
  simp only [accepts, Bool.and_eq_true, List.isEmpty_iff] at hacc
  have hgrows := ((builds_mapM fun k hm => sortItem_builds (hs k hm).input.value) hopen.good
    (hopen.inJoin.trans hb.apart) (le_refl _) Store.sound_nil hitems).1.grows
  rw [(get_update hb' (lt_of_lt_of_le hopen.owns.lt hgrows.size)).1]
  calc (b3.store.get i).skip = (b2.store.get i).skip := by rw [hgrows.text i hopen.owns.lt]; rfl
    _ = (b1.store.get i).skip := (declareExtent_clauses hdecl ho.lt).skip
    _ = none := hallows.2 trivial hacc.1.2

theorem obeys_skip (hc : Heeds keyed count) : Obeys keyed (skip input keys count) := by
  intro b e hb he hfail
  rcases fails_bind.1 hfail with h | ⟨k, b1, hr, hfail⟩
  · exact obeys_ordered hi _ hs hb he h
  obtain ⟨n, b2, hn, hfail⟩ := fails_next (clean_rowCount hc) he hfail
  rw [(rowCount_spec hc.count hn).1] at hfail
  have hset := fails_tryUpdateStatement he hfail
  unfold setSkip at hset
  split at hset
  · rename_i hskip
    cases hset
    rw [skip_ordered hi hs he hb hr] at hskip
    cases hskip
  · cases hset

end

/-! ## Groups -/

theorem obeys_group {input : GroupBinding Operand} {keys : List (String × Operand)}
    {aggregates : List (String × Aggregate Operand)} (hi : Heeds keyed input.expr) (hk : ∀ k ∈ keys, Heeds keyed k.2)
    (ha : ∀ a ∈ aggregates, Heeds keyed a.2.argument) : Obeys keyed (group input keys aggregates) := by
  have htexts : ∀ {rest : List (String × Part) → List (String × Aggregate Operand × Part) → BuildM StatementId},
      (∀ ks as, Clean (rest ks as)) →
      Obeys keyed (keys.mapM buildKey >>= fun ks => aggregates.mapM buildArgument >>= rest ks) := fun hrest =>
    (heedfulSteps.mapM fun k hm => heedfulSteps.texts.buildKey (hk k hm).heedful).andThen fun ks =>
      (heedfulSteps.mapM fun a hm => heedfulSteps.texts.buildArgument (ha a hm).heedful).obeys.andThen fun as _ => hrest ks as
  intro b e hb he hfail
  rcases fails_bind.1 hfail with hfail | ⟨⟨i, x⟩, b1, hin, hfail⟩
  · exact hi.inputFor _ _ _ hb he hfail
  obtain ⟨b2, hfail, hscopes, hbuildable⟩ := hi.opened hb he hin hfail
  obtain ⟨hopen, hbuildable⟩ := hbuildable [input.groupVar, input.var]
  rw [fails_behind (a := ⟨⟩) (runs_bindVariable.2 rfl), fails_behind (a := ⟨⟩) (runs_bindVariable.2 rfl), hscopes] at hfail
  split at hfail
  · obtain ⟨⟨outer, y⟩, b3, hsub, hfail⟩ := fails_next (cleanSteps.subselect _ _ _ _) he hfail
    obtain ⟨_, b4, hdecl, hfail⟩ := fails_next (cleanExtents.declareExtent _ _) he hfail
    refine htexts (fun ks as => ?_) (hbuildable.step (overInput_spec hopen.owns hsub hdecl).1) he hfail
    exact clean_behind (clean_behind (clean_behind (clean_updated _ _ _)))
  · refine htexts (fun ks as => ?_) hbuildable he hfail
    exact clean_behind (clean_behind (clean_updated _ _ _))

/-! ## Joins -/

section

variable {σ : Store} {outer : List StatementId} {frames : List (List (String × SymbolId))} {keyword : String}
  {inputs : List (Binding Operand)} {condition : Option Operand}

theorem clean_adjoin (input : Binding Operand) (f : Fragment) : Clean (adjoin i input f) :=
  cleanExtents.bind (cleanSteps.writeSource i _ f) fun join => cleanExtents.bind (cleanExtents.newExtent _ _ join) fun x =>
    cleanExtents.bind (cleanExtents.declareExtent i x) fun _ => clean_behind (clean_modify _)

theorem Joining.buildable (h : Joining σ outer frames b i) : Buildable { b with joins := false :: b.joins } :=
  ⟨(h.under _).good, rfl⟩

theorem obeys_joinInput {first : Bool} {input : Binding Operand} (hin : Heeds keyed input.expr)
    (h : Joining σ outer frames b i) (hfirst : first = true → Unjoined frames b i)
    (he : e.Internal keyed) (hfail : Fails (joinInput i first input) b e) : False := by
  rw [joinInput, fails_behind (runs_statement.2 ⟨rfl, rfl⟩)] at hfail
  have hf := fails_between he (fails_first (fun f _ => ?_) he hfail)
  -- a join takes in scans, and its first input if that is a join
  · rcases takesIn_cases first input.expr.expr with ht | ⟨-, rfl, hjoin, ht⟩ <;> rw [ht] at hf
    · cases hscan : input.expr.expr.isScan with
      | false => rw [hscan] at hf; exact hin.obeys h.buildable he hf
      | true => exact hin.clean (Or.inr hscan) _ _ hf he.always
    · exact hin.taken hjoin (h.under (true :: _)) ((hfirst rfl).under _) rfl he hf
  · cases f with
    | statement sub =>
      refine cleanExtents.ite (cleanExtents.bind (cleanExtents.statement i) fun _ => ?_) (clean_adjoin input _)
      exact cleanExtents.bind (cleanExtents.newSymbol _) fun x => clean_behind (clean_modify _)
    | parts ps | symbol x | nested x y => exact clean_adjoin input _

/-- An input and those behind it. -/
theorem obeys_joinFrom (he : e.Internal keyed) : ∀ {rest : List (Binding Operand)} {first : Bool}
    {input : Binding Operand} {b : Build}, (∀ k ∈ input :: rest, Heeds keyed k.expr) → Joining σ outer frames b i →
    SourceFollows (b.store.get i) → (first = true → Unjoined frames b i) →
    ¬ Fails (joinInput i first input >>= fun _ => joinRest i keyword rest) b e
  | [], first, input, b, hv, h, _, hfirst, hfail =>
    obeys_joinInput (hv input mem_cons_self) h hfirst he (fails_returned he hfail)
  | next :: rest, first, input, b, hv, h, hopen, hfirst, hfail => by
    obtain ⟨hinput, hrest⟩ := forall_mem_cons.1 hv
    rcases fails_bind.1 hfail with hfail | ⟨_, b1, hr, hfail⟩
    · exact obeys_joinInput hinput h hfirst he hfail
    obtain ⟨_, b2, hkeyword, hfail⟩ := fails_next (clean_modify _) he hfail
    obtain ⟨h2, hopen2⟩ := joinKeyword_spec (joinInput_spec h hopen hinput.input hfirst hr).1 (runs_updateStatement.1 hkeyword)
    exact obeys_joinFrom he hrest h2 hopen2 (by simp) hfail

variable (hv : ∀ input ∈ inputs, Heeds keyed input.expr) (hc : ∀ c ∈ condition, Heeds keyed c)

include hv hc

theorem obeys_joinBody (h : Joining σ outer frames b i) (hun : Unjoined frames b i) (he : e.Internal keyed)
    (hfail : Fails (joinBody i keyword inputs condition) b e) : False := by
  rcases fails_bind.1 hfail with hfail | ⟨_, b1, hr, hfail⟩
  · cases inputs with
    | nil => cases hfail
    | cons input rest => exact obeys_joinFrom he hv h (Or.inl (by rw [hun.get])) (fun _ => hun) hfail
  have hp : JoinKeeps σ outer frames i keyword inputs fun _ _ => True := ⟨by simp, by simp⟩
  have h1 := (joinInputs_keeps (fun input hm => (hv input hm).input) hp h hun trivial hr).1
  cases condition with
  | none => cases hfail
  | some c =>
    exact (hc c rfl).obeys h1.buildable he (fails_between he (fails_first (fun _ _ => clean_modify _) he hfail))

theorem obeys_joined : Obeys keyed (joined keyword inputs condition) := by
  intro b e hb he hfail
  rw [joined, fails_behind (runs_parentTakesIn.2 ⟨hb.apart.symm, rfl⟩)] at hfail
  have hnew : Runs (newStatement { joinExtents := some [] }) b b.statements.size _ := runs_newStatement.2 ⟨rfl, rfl⟩
  rw [if_neg Bool.false_ne_true, fails_behind hnew] at hfail
  obtain ⟨hjoining, hun⟩ := joining_start hb.good rfl
  exact obeys_joinBody hv hc hjoining hun he
    (fails_between he (fails_between he (fails_returned he hfail)))

theorem obeys_continued (h : Joining σ outer frames b i) (hun : Unjoined frames b i) (hj : b.inJoin = true)
    (he : e.Internal keyed) (hfail : Fails (joined keyword inputs condition) b e) : False := by
  rw [joined, fails_behind (runs_parentTakesIn.2 ⟨hj.symm, rfl⟩), if_pos rfl,
    fails_behind (runs_current.2 ⟨outer, h.building, rfl⟩)] at hfail
  obtain ⟨hjoining, hun⟩ := joining_continued h hun rfl
  exact obeys_joinBody hv hc hjoining hun he (fails_between he (fails_returned he hfail))

end

end

end Build

/-! ## Every expression -/

theorem Build.clean_scan (set : EntitySet) : Clean (scan set) :=
  cleanExtents.bind cleanExtents.parentTakesIn fun _ => cleanExtents.ite (cleanExtents.pure _)
    (cleanExtents.bind (cleanSteps.newStatement rfl rfl rfl) fun _ => cleanExtents.pure _)

namespace Expr

variable [Variables] {config : Config} {keyed : Prop} {e : Expr} {m : BuildM Fragment}

theorem Construct.obeys (h : Construct config (fun c => Heeds keyed (c.toOperand config)) e m)
    (hvar : ∀ name, Heedful keyed (Variables.visit name)) : Obeys keyed m := by
  by_cases hrows : e.isRowless = true
  · have hvalues : ValueKind fun _ m => Heedful keyed m := { heedfulSteps with
      setPending := heedful_setPending
      rowVariable := hvar }
    exact (hvalues.value h (fun _ hc => hc.heedful) hrows).obeys
  have hfragment : ∀ {step : BuildM StatementId}, Obeys keyed step → Obeys keyed (asFragment step) := fun h =>
    h.andThen fun _ _ => cleanExtents.pure _
  cases h with
  | scan set => exact fun _ _ _ he hfail => clean_scan set _ _ hfail he.always
  | filter hi hp => exact hfragment ((obeys_overRows hi hp.obeys).andThen fun _ _ => clean_updated _ _ _)
  | @record _ fields hi hf =>
    have hall : ∀ f ∈ fields.map fun f => (f.1, toOperand config f.2), Heeds keyed f.2 := forall_mem_map.2 hf
    have hfields := heedfulSteps.mapM fun f hm => heedfulSteps.texts.projectField (hall f hm).heedful
    exact hfragment ((obeys_overRows hi hfields.obeys).andThen fun _ _ => clean_behind (clean_updated _ _ _))
  | value hi hp _ =>
    refine hfragment ((obeys_overRows hi hp.obeys).andThen fun _ _ => clean_behind ?_)
    split
    · exact clean_updated _ _ _
    · exact cleanExtents.pure _
  | join hl hr hc => exact hfragment (obeys_joined (forall_mem_map.2 (by simpa using ⟨hl, hr⟩)) (by simpa using hc))
  | crossJoin hi => exact hfragment (obeys_joined (forall_mem_map.2 hi) (by simp))
  | group hi hk ha => exact hfragment (obeys_group hi (forall_mem_map.2 hk) (forall_mem_map.2 ha))
  | sort hi hk => exact hfragment (obeys_ordered hi _ (forall_mem_map.2 hk))
  | skip hi hk hc => exact hfragment (obeys_skip hi (forall_mem_map.2 hk) hc)
  | @limit _ _ withTies hi hc =>
    cases withTies with
    | true => rintro b e - he ⟨⟩; exact he
    | false =>
      exact hfragment ((hi.asStatement false).obeys.andThen fun i _ => clean_top (fun s hs => by simpa [accepts] using hs)
        (fun _ _ _ hr => (rowCount_spec hc.count hr).1) (clean_rowCount hc))
  | distinct hi =>
    exact hfragment ((hi.asStatement true).obeys.andThen fun i _ => cleanExtents.bind (cleanSteps.wrapUnless _ _ _ i) fun _ =>
      clean_updated _ _ _)
  | setOp hl hr => exact (heedfulSteps.texts.setOperation (hl.asStatement true) _ (hr.asStatement true)).obeys
  | element hi => exact (heedfulSteps.texts.element (hi.asStatement true)).obeys
  | isEmpty hi | notEmpty hi => exact (heedfulSteps.texts.emptiness (hi.asStatement true) _).obeys
  | quantifier hi hp =>
    refine ((obeys_overRows hi hp.obeys).andThen fun _ _ => clean_updated _ _ _).andThen fun i _ => ?_
    exact cleanExtents.bind (cleanExtents.selectAllIfNone i) fun _ => cleanExtents.pure _
  | singleton hi =>
    refine hfragment ((hi.asStatement true).obeys.andThen fun i _ => clean_top (m := pure [.text "1"]) (fun s hs => ?_)
      (fun _ _ _ hr => (runs_pure.1 hr).2) (cleanExtents.pure _))
    simpa [accepts] using hs
  | collection hi _ => exact (heedfulSteps.texts.collection _ (forall_mem_map.2 fun item hm => (hi item hm).heedful)).obeys
  | not ho => exact (heedfulSteps.texts.negation ho.heedful).obeys
  | refused e cause => rintro b e - he ⟨⟩; exact he
  | _ => exact absurd rfl hrows

theorem Construct.clean_scan {P : Expr → Prop} (h : Construct config P e m) (he : e.isScan = true) : Clean m := by
  cases h with
  | scan set => exact Build.clean_scan set
  | refused e cause => exact cleanExtents.throw id
  | _ => cases he

theorem Construct.obeys_taken (h : Construct config (fun c => Heeds keyed (c.toOperand config)) e m)
    (he : (e.isJoin || e.isApply) = true) {σ : Store} {outer : List StatementId}
    {frames : List (List (String × SymbolId))} {b : Build} {i : StatementId} {err : Error}
    (hjoining : Joining σ outer frames b i) (hun : Unjoined frames b i) (hj : b.inJoin = true)
    (hi : err.Internal keyed) : ¬ Fails m b err := by
  have hpure : ∀ {step : BuildM StatementId}, Fails (asFragment step) b err → Fails step b err :=
    fails_returned hi
  intro hfail
  cases h with
  | join hl hr hc =>
    exact obeys_continued (forall_mem_map.2 (by simpa using ⟨hl, hr⟩)) (by simpa using hc) hjoining hun hj hi (hpure hfail)
  | crossJoin hin => exact obeys_continued (forall_mem_map.2 hin) (by simp) hjoining hun hj hi (hpure hfail)
  | refused e cause => cases hfail; exact hi
  | _ => cases he

variable [Variables.Sound]

/-- Building an expression reports no broken rule if its variables do not, and its `Skip`s have keys where offsets come
with orders. -/
theorem heeds (hvar : ∀ name, Heedful keyed (Variables.visit name))
    (hplaces : keyed → ∀ c, All SkipsByKeys c → Places ⟨False, False, True⟩ .apart [] (c.build config) Fragment.statements)
    (hs : keyed → All SkipsByKeys e) : Heeds keyed (e.toOperand config) := by
  induction e using within_induction with
  | step e ih =>
    have hc : Construct config (fun c => Heeds keyed (c.toOperand config)) e (e.build config) :=
      build_construct fun c hc => ih c hc fun hk => (hs hk).within hc
    have hsound : BuildsSound config e := buildsSound e
    refine ⟨hsound.input, fun hk => hplaces hk e (hs hk), fun hd f => statement_of_declaresExtent hc hd, hsound.count,
      hc.obeys hvar, ?_, fun he _ _ _ _ _ _ h hun hj => hc.obeys_taken he h hun hj⟩
    rintro (⟨name, type, rfl⟩ | he)
    · exact cleanExtents.pure _
    · exact hc.clean_scan he

end Expr

end RelSql
