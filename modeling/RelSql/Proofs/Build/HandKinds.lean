/-
Kinds of steps with statements in hand. A step takes the statements that were handed to it, puts them into
clauses or hands them on, and may make new ones. A property of steps that says how they pass statements on, and
that goes from two steps to the one that runs them one behind the other, is followed through texts, clauses,
new statements and inputs once.
-/
import RelSql.Proofs.Build.StepKinds

namespace RelSql

open RelSql.Part Statement List

variable {i : StatementId}

namespace Fragment

/-- The statements that stand in the text of an expression. -/
def statements (f : Fragment) : List StatementId := Part.statements [f.toPart]

@[simp] theorem statements_parts {ps : List Part} : (Fragment.parts ps).statements = Part.statements ps := by
  simp [statements, toPart]

@[simp] theorem statements_statement : (Fragment.statement i).statements = [i] := by
  simp [statements, toPart]

@[simp] theorem statements_symbol {x : SymbolId} : (Fragment.symbol x).statements = [] := by
  simp [statements, toPart]

@[simp] theorem statements_nested {x y : SymbolId} : (Fragment.nested x y).statements = [] := by
  simp [statements, toPart]

@[simp] theorem statements_text {t : String} : (Fragment.text t).statements = [] := by
  simp [text]

/-- The text of an expression as a part of a longer one. -/
@[simp] theorem statements_toPart {f : Fragment} {ps : List Part} :
    Part.statements (f.toPart :: ps) = f.statements ++ Part.statements ps :=
  Part.statements_cons _

/-- The statements of a text, a certain statement by itself left out. -/
def besides (i : StatementId) : Fragment → List StatementId
  | .statement j => if j = i then [] else [j]
  | f => f.statements

theorem count_besides_le (i j : StatementId) (f : Fragment) : (f.besides i).count j ≤ f.statements.count j := by
  cases f with
  | statement k =>
    simp only [besides, statements_statement]
    split <;> simp
  | _ => exact le_refl _

end Fragment

theorem Part.count_statements_woven {pss : List (List Part)} {ps : List Part} (h : Woven pss ps) (j : StatementId) :
    (statements ps).count j ≤ (statements pss.flatten).count j := by
  induction h with
  | nil => exact le_refl _
  | skip ps _ ih =>
    rw [flatten_cons, statements_append, count_append]
    omega
  | text t _ ih => rwa [statements_text]
  | line _ ih => rwa [statements_line]
  | last ps => rw [flatten_singleton]
  | next ps p hp _ ih =>
    have hword : statements [p] = [] := by
      cases p with
      | text t => rfl
      | line => rfl
      | _ => cases hp
    rw [flatten_cons, statements_append, statements_append, statements_cons, hword, nil_append,
      count_append, count_append]
    omega
  | group _ ih => simpa using ih

theorem Scopes.leave_add {α : Type} (s : Scopes α) (name : String) (value : α) : (s.add name value).leave = s.leave := by
  obtain ⟨frames⟩ := s
  cases frames <;> rfl

namespace Build

/-! ## Statements in the lists of groups -/

theorem statements_selectItem (p : Part) (name : String) : Part.statements (selectItem p name) = Part.statements [p] := by
  unfold selectItem
  rw [Part.statements_line, Part.statements_cons]
  simp

theorem statements_aggregateParts (aggregate : Aggregate Operand) (p : Part) :
    Part.statements (aggregateParts aggregate p) = Part.statements [p] := by
  have hp : Part.statements [p, .text ")"] = Part.statements [p] := by rw [Part.statements_cons]; simp
  unfold aggregateParts
  split <;> simp only [Part.statements_append, Part.statements_text, Part.statements_nil, hp, nil_append]

theorem statements_innerColumn (x : SymbolId) (name : String) : Part.statements (innerColumn x name) = [] := by
  simp [innerColumn]

theorem flatMap_zip_innerNames {α β : Type} (f : α → List β) (stem : String) (xs : List α) :
    (xs.zip (innerNames stem xs.length)).flatMap (fun x => f x.1) = xs.flatMap f := by
  have hfst : (xs.zip (innerNames stem xs.length)).map Prod.fst = xs := map_fst_zip (by simp [innerNames])
  calc (xs.zip (innerNames stem xs.length)).flatMap (fun x => f x.1)
      = ((xs.zip (innerNames stem xs.length)).map Prod.fst).flatMap f := by rw [flatMap_map]
    _ = xs.flatMap f := by rw [hfst]

/-! ## Steps with statements in hand -/

/-- A change of a statement that brings no statement into its `GROUP BY` list, and leaves its offset, and an
order if it has one. -/
def Calm (f : Statement → Statement) : Prop :=
  ∀ s, (Part.statements s.grouping = [] → Part.statements (f s).grouping = []) ∧ (f s).skip = s.skip ∧
    ((f s).ordering = [] → s.ordering = [])

/-- A property of steps with the statements in hand before them and those in hand behind them. -/
abbrev HandStep : Type 1 := {α : Type} → List StatementId → BuildM α → (α → List StatementId) → Prop

/-- A kind of steps with statements in hand: it has a step with those that are in hand before it and those that
are behind it. -/
structure HandKind (kind : HandStep) : Prop where
  still : ∀ {α : Type} {m : BuildM α} {taken : List StatementId}, (∀ b a b', Runs m b a b' → b' = b) →
    (∀ b e, Fails m b e → ¬ e.Internal True) → kind taken m fun _ => taken
  names : ∀ {α : Type} {m : BuildM α} {taken : List StatementId},
    (∀ b a b', Runs m b a b' → ∃ names, b' = { b with names }) → (∀ b e, ¬ Fails m b e) → kind taken m fun _ => taken
  update : ∀ (i : StatementId) {f : Statement → Statement} {taken left : List StatementId} (added : List StatementId),
    (∀ s j, (f s).nested.count j ≤ s.nested.count j + added.count j) → Calm f → left ++ added = taken →
    kind taken (updateStatement i f) fun _ => left
  chain : ∀ {α β : Type} {m : BuildM α} {f : α → BuildM β} {taken : List StatementId} {mid : α → List StatementId}
    {left : β → List StatementId}, kind taken m mid → (∀ a, Returns m a → kind (mid a) (f a) left) →
    kind taken (m >>= f) left
  frame : ∀ {α : Type} {m : BuildM α} {left : α → List StatementId} (taken : List StatementId), kind [] m left →
    kind taken m fun a => taken ++ left a
  pure : ∀ {α : Type} {a : α} {taken : List StatementId} {left : α → List StatementId},
    (∀ j, (left a).count j ≤ taken.count j) → kind taken (pure a) left
  throw : ∀ {α : Type} {e : Error} {taken : List StatementId} {left : α → List StatementId}, ¬ e.Internal True →
    kind taken (throw e) left

namespace HandKind

variable {kind : HandStep} {α β : Type}
  {taken : List StatementId} {ps : List Part} {operand : Operand} (hk : HandKind kind)

theorem ite (_ : HandKind kind) {c : Prop} [Decidable c] {m m' : BuildM α} {left : α → List StatementId}
    (h : c → kind taken m left) (h' : ¬ c → kind taken m' left) : kind taken (if c then m else m') left := by
  split
  · exact h ‹_›
  · exact h' ‹_›

include hk

theorem bind {m : BuildM α} {f : α → BuildM β} {mid : α → List StatementId} {left : β → List StatementId}
    (hm : kind taken m mid) (hf : ∀ a, kind (mid a) (f a) left) : kind taken (m >>= f) left :=
  hk.chain hm fun a _ => hf a

theorem done {a : α} {left : α → List StatementId} (h : left a = taken) : kind taken (Pure.pure a) left :=
  hk.pure fun _ => by rw [h]

/-- Fewer statements may be left of what the step returns. -/
theorem leaving {m : BuildM α} {left left' : α → List StatementId} (h : kind taken m left)
    (hl : ∀ a, Returns m a → ∀ j, (left' a).count j ≤ (left a).count j) : kind taken m left' := by
  rw [← bind_pure m]
  exact hk.chain h fun a ha => hk.pure (hl a ha)

theorem extents (taken : List StatementId) : ExtentKind fun _ m => kind taken m fun _ => taken where
  still := hk.still
  bind := hk.bind
  names := hk.names
  mild i _ hf := hk.update i [] (fun s j => by rw [hf.nested]; exact Nat.le_refl _)
    (fun s => ⟨fun h => by rwa [hf.grouping], hf.skip s, fun h => by rwa [hf.ordering] at h⟩) (append_nil _)

/-- Texts put together have the statements of what they are made of. -/
theorem texts : TextKind
    (fun taken m left => kind (Part.statements taken.flatten) m fun a => Part.statements (left a).flatten)
    fun taken m => kind (Part.statements taken.flatten) m Fragment.statements where
  still := hk.still
  chain := hk.chain
  finish := hk.chain
  frame taken h := by simpa only [flatten_append, Part.statements_append] using hk.frame (Part.statements taken.flatten) h
  done hleft := hk.done (by rw [hleft])
  weave hleft hw := hk.pure fun j => by
    rw [hleft, flatten_singleton]
    exact Part.count_statements_woven hw j
  parts hw := hk.pure fun j => by
    rw [Fragment.statements_parts]
    exact Part.count_statements_woven hw j
  refuse := hk.throw
  operand h := h

theorem memberOf (name : String) (f : Fragment) : kind f.statements (memberOf name f) Fragment.statements := by
  cases f with
  | symbol x =>
    refine hk.bind ((hk.extents _).symbol x) fun s => ?_
    split
    · exact hk.pure fun j => by simp
    · exact hk.bind ((hk.extents _).joinInputNamed _ name) fun y => hk.pure fun j => by split <;> simp
  | nested x y =>
    refine hk.bind ((hk.extents _).symbol y) fun s => ?_
    split
    · exact hk.bind ((hk.extents _).joinInputNamed _ name) fun _ => hk.pure fun j => by simp
    · refine hk.pure fun j => ?_
      split <;> simp
  | parts ps | statement i => exact hk.pure fun j => by simp [Fragment.toPart]

theorem member (hpending : ∀ taken, kind taken (setPending false) fun _ => taken) (name : String)
    (h : kind [] operand.build Fragment.statements) : kind [] (member operand name) Fragment.statements := by
  rw [member_eq]
  exact hk.bind h fun sql => hk.ite (fun _ => hk.bind (hpending _) fun _ => hk.memberOf name sql) fun _ => hk.memberOf name sql

/-! ## Clauses -/

theorem appendSelect (i : StatementId) (left : List StatementId) (h : left ++ Part.statements ps = taken) :
    kind taken (appendSelect i ps) fun _ => left :=
  hk.update i (Part.statements ps) (fun s j => by simp [nested]; omega) (fun _ => ⟨id, rfl, id⟩) h

theorem appendFrom (i : StatementId) (left : List StatementId) (h : left ++ Part.statements ps = taken) :
    kind taken (appendFrom i ps) fun _ => left :=
  hk.update i (Part.statements ps) (fun s j => by simp [nested]; omega) (fun _ => ⟨id, rfl, id⟩) h

theorem appendCondition (i : StatementId) (left : List StatementId) (h : left ++ Part.statements ps = taken) :
    kind taken (appendCondition i ps) fun _ => left :=
  hk.update i (Part.statements ps) (fun s j => by simp [nested]; omega) (fun _ => ⟨id, rfl, id⟩) h

theorem appendOrdering (i : StatementId) (left : List StatementId) (h : left ++ Part.statements ps = taken) :
    kind taken (appendOrdering i ps) fun _ => left :=
  hk.update i (Part.statements ps) (fun s j => by simp [nested]; omega)
    (fun _ => ⟨id, rfl, fun h => (append_eq_nil_iff.1 h).1⟩) h

theorem appendGrouping (i : StatementId) (h : Part.statements ps = []) : kind taken (appendGrouping i ps) fun _ => taken :=
  hk.update i [] (fun _ _ => Nat.le_refl _) (fun _ => ⟨fun hs => by simp [hs, h], rfl, id⟩) (append_nil _)

theorem mark (i : StatementId) {f : Statement → Statement} (h : Mild f := by constructor <;> exact fun _ => rfl) :
    kind taken (updateStatement i f) fun _ => taken :=
  (hk.extents taken).mild i h

theorem addOutput (i : StatementId) (columns : List OutputColumn) : kind taken (addOutput i columns) fun _ => taken :=
  hk.mark i

theorem rowCount {count : Operand} (h : kind [] count.build Fragment.statements) :
    kind [] (rowCount count) Part.statements := by
  unfold Build.rowCount
  split
  case h_6 => exact hk.bind h fun sql => hk.pure fun j => by simp
  all_goals first
    | exact hk.throw id
    | exact hk.pure fun j => by simp

end HandKind

/-! ## New statements -/

/-- The kind has, besides, the steps that make a statement without groups and offset. -/
structure StatementKind (kind : HandStep) : Prop extends
    HandKind kind where
  newStatement : ∀ {s : Statement} {taken : List StatementId}, s.grouping = [] → s.skip = none → s.nested = taken →
    kind taken (newStatement s) fun i => [i]

namespace StatementKind

variable {kind : HandStep} {operand : Operand}
  (hk : StatementKind kind)

include hk

theorem subselect (i : StatementId) (name : String) (type : DataType) (complete : Bool) :
    kind [i] (subselect i name type complete) fun r => [r.1] := by
  have hrest : ∀ join, kind [i] (do
      let extent ← newExtent name type join
      let outer ← Build.newStatement { fromList := [.text "(", .statement i, .text ")"] }
      return (outer, extent)) fun r => [r.1] := fun join =>
    hk.bind ((hk.extents _).newExtent name type join) fun x =>
      hk.bind (hk.newStatement rfl rfl (by simp [nested])) fun outer => hk.done rfl
  refine hk.bind ((hk.extents _).statement i) fun s => hk.ite (fun _ => ?_) fun _ => hk.bind (hk.done rfl) hrest
  exact hk.bind ((hk.extents _).selectAll i) fun columns => hk.bind ((hk.extents _).nestedJoin? i columns) hrest

theorem wrapUnless (op : Operator) (name : String) (type : DataType) (i : StatementId) :
    kind [i] (wrapUnless op name type i) fun k => [k] :=
  hk.bind ((hk.extents _).statement i) fun _ => hk.ite (fun _ => hk.done rfl) fun _ =>
    hk.bind (hk.subselect i name type true) fun r => hk.bind ((hk.extents _).declareExtent r.1 r.2) fun _ => hk.done rfl

theorem writeSource (i : StatementId) (e : Expr) (f : Fragment) :
    kind f.statements (writeSource i e f) fun _ => [] := by
  have hplain : ∀ g : Fragment, kind g.statements (do
      Build.appendFrom i (if e.isScan then [g.toPart] else sourceParts e.isCall g)
      return (none : Option JoinInfo)) fun _ => [] := by
    intro g
    refine hk.bind (hk.appendFrom i [] ?_) fun _ => hk.done rfl
    unfold sourceParts
    split
    · simp
    · split <;> simp
  cases f with
  | statement sub =>
    exact hk.bind ((hk.extents _).subselectJoin? sub _) fun _ =>
      hk.bind (hk.appendFrom i [] (by simp)) fun _ => hk.done rfl
  | parts ps | symbol x | nested x y => exact hplain _

/-! ## Inputs -/

theorem sourceStatement (h : kind [] operand.build Fragment.statements) :
    kind [] (sourceStatement operand) fun k => [k] := by
  refine hk.bind h fun f => ?_
  have hnew : kind f.statements (Build.newStatement { fromList := sourceParts operand.expr.isCall f }) fun k => [k] := by
    refine hk.newStatement rfl rfl ?_
    unfold sourceParts
    split <;> simp [nested]
  cases f with
  | statement k => exact hk.pure fun j => by simp
  | parts ps => exact hnew
  | symbol x => exact hnew
  | nested x y => exact hnew

theorem input (h : kind [] operand.build Fragment.statements) (name : String) (type : DataType) :
    kind [] (input operand name type) fun r => [r.1] := by
  rw [input_eq]
  refine hk.bind (hk.sourceStatement h) fun i => hk.leaving ((hk.extents [i]).variableExtent name type i) ?_
  rintro ⟨j, x⟩ ⟨b, b', hr⟩ k
  rw [(variableExtent_cases hr).1]

theorem inputFor (h : kind [] operand.build Fragment.statements) (op : Operator) (name : String) (type : DataType) :
    kind [] (inputFor op operand name type) fun r => [r.1] :=
  hk.bind (hk.input h name type) fun r => hk.bind ((hk.extents _).statement r.1) fun _ =>
    hk.ite (fun _ => hk.done rfl) fun _ => hk.subselect r.1 name type true

end StatementKind

/-- Some nodes are always built as a statement. -/
theorem statement_of_declaresExtent [Variables] {config : Config} {P : Expr → Prop} {e : Expr} {m : BuildM Fragment} {f : Fragment}
    (h : Expr.Construct config P e m) (he : declaresExtent e = true) (hf : Returns m f) : ∃ i, f = .statement i := by
  obtain ⟨b, b', hr⟩ := hf
  have hfragment : ∀ {step : BuildM StatementId}, Runs (asFragment step) b f b' → ∃ i, f = .statement i := by
    intro step hr
    obtain ⟨i, hi, -⟩ := runs_asFragment.1 hr
    exact ⟨i, hi⟩
  cases h with
  | filter | record | value | group | sort => exact hfragment hr
  | refused e cause => exact absurd hr runs_throw
  | _ => cases he

end Build

end RelSql
