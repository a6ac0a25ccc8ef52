/-
Kinds of steps. A property of steps that goes from two steps to the one that runs them one behind the
other holds of all that is put together of steps that have it. So the steps on extents and statements,
and those of the constructs that stand for values, are followed once for all such properties. A step
may fail, but with none of the errors by which the construction reports a broken rule of its own.
-/
import RelSql.Proofs.Build.Expressions
import RelSql.Proofs.Build.TextKinds
import RelSql.Proofs.Statement.Nesting

namespace RelSql

open RelSql.Part List

namespace Build

/-! ## Kinds of steps -/

/-- A kind of steps: it has all steps that change nothing, and with two steps the one that runs them one
behind the other. -/
structure StepKind (kind : (α : Type) → BuildM α → Prop) : Prop where
  still : ∀ {α : Type} {m : BuildM α}, (∀ b a b', Runs m b a b' → b' = b) →
    (∀ b e, Fails m b e → ¬ e.Internal True) → kind α m
  bind : ∀ {α β : Type} {m : BuildM α} {f : α → BuildM β}, kind α m → (∀ a, kind β (f a)) →
    kind β (m >>= f)

namespace StepKind

variable {kind : (α : Type) → BuildM α → Prop} {α β : Type}

theorem ite (_ : StepKind kind) {c : Prop} [Decidable c] {m m' : BuildM α} (h : kind α m) (h' : kind α m') :
    kind α (if c then m else m') := by
  split
  · exact h
  · exact h'

variable (hk : StepKind kind)

include hk

theorem pure (a : α) : kind α (pure a) := hk.still (fun _ _ _ hr => (runs_pure.1 hr).2) fun _ _ h => by cases h

theorem throw {e : Error} (he : ¬ e.Internal True) : kind α (throw e) :=
  hk.still (fun _ _ _ hr => absurd hr runs_throw) fun _ _ h => by cases h; exact he

theorem mapM {f : α → BuildM β} : ∀ {xs : List α}, (∀ x ∈ xs, kind β (f x)) → kind (List β) (xs.mapM f)
  | [], _ => hk.pure _
  | x :: rest, h => by
    rw [mapM_cons]
    refine hk.bind (h x mem_cons_self) fun y => hk.bind ?_ fun ys => hk.pure _
    exact mapM fun z hz => h z (mem_cons_of_mem _ hz)

theorem get : kind Build get := hk.still (fun _ _ _ hr => (runs_get.1 hr).2) fun _ _ h => by cases h

theorem statement (i : StatementId) : kind Statement (statement i) :=
  hk.still (fun _ _ _ hr => (runs_statement.1 hr).2) fun _ _ h => by cases h

theorem symbol (x : SymbolId) : kind Symbol (symbol x) :=
  hk.still (fun _ _ _ hr => (runs_symbol.1 hr).2) fun _ _ h => by cases h

theorem parentTakesIn : kind Bool parentTakesIn :=
  hk.still (fun _ _ _ hr => (runs_parentTakesIn.1 hr).2) fun _ _ h => by cases h

theorem joinInputNamed (join : JoinInfo) (name : String) : kind SymbolId (joinInputNamed join name) := by
  refine hk.bind hk.get fun b => ?_
  split
  · exact hk.pure _
  · exact hk.throw id

theorem memberOf (name : String) (f : Fragment) : kind Fragment (memberOf name f) := by
  cases f with
  | symbol x =>
    refine hk.bind (hk.symbol x) fun s => ?_
    split
    · exact hk.pure _
    · exact hk.bind (hk.joinInputNamed _ name) fun _ => hk.pure _
  | nested x y =>
    refine hk.bind (hk.symbol y) fun s => ?_
    split
    · exact hk.bind (hk.joinInputNamed _ name) fun _ => hk.pure _
    · exact hk.pure _
  | parts ps | statement i => exact hk.pure _

theorem nestedJoin? (i : StatementId) (columns : List SymbolId) : kind (Option JoinInfo) (nestedJoin? i columns) := by
  refine hk.bind (hk.statement i) fun s => ?_
  split
  · exact hk.pure _
  · refine hk.bind (hk.symbol _) fun x => ?_
    split <;> exact hk.pure _

theorem setSide (i : StatementId) : kind (List Part) (setSide i) :=
  hk.bind (hk.statement i) fun _ => hk.ite (hk.pure _) (hk.pure _)

/-- What follows a step matters only for what the step returns. -/
theorem chain {m : BuildM α} {f : α → BuildM β} (h : kind α m) (hf : ∀ a, Returns m a → kind β (f a)) :
    kind β (m >>= f) := by
  classical
  rw [bind_eq_of_returns (g := fun a => if Returns m a then f a else throwThe Error (.badState .emptySelect))
    fun a ha => (if_pos ha).symm]
  refine hk.bind h fun a => ?_
  split
  · exact hf a ‹_›
  · exact hk.throw id

/-- Steps that put texts together are of the kind whatever the texts are. -/
theorem texts : TextKind (fun {α} _ m _ => kind α m) fun _ m => kind Fragment m where
  still := hk.still
  chain := hk.chain
  finish := hk.chain
  frame _ h := h
  done _ := hk.pure _
  weave _ _ := hk.pure _
  parts _ := hk.pure _
  refuse := hk.throw
  operand h := h

end StepKind

/-! ## Extents -/

/-- A change of a statement that brings no statement into its clauses, and leaves order and offset. -/
structure Mild (f : Statement → Statement) : Prop where
  nested : ∀ s, (f s).nested = s.nested
  grouping : ∀ s, (f s).grouping = s.grouping
  ordering : ∀ s, (f s).ordering = s.ordering
  skip : ∀ s, (f s).skip = s.skip

theorem statements_starParts (c : StarColumn) : Part.statements c.parts = [] := by
  unfold StarColumn.parts
  split <;> simp

/-- The kind has, besides, the steps that change names and those that change a statement mildly. -/
structure ExtentKind (kind : (α : Type) → BuildM α → Prop) : Prop extends StepKind kind where
  names : ∀ {α : Type} {m : BuildM α}, (∀ b a b', Runs m b a b' → ∃ names, b' = { b with names }) →
    (∀ b e, ¬ Fails m b e) → kind α m
  mild : ∀ (i : StatementId) {f : Statement → Statement}, Mild f → kind PUnit (updateStatement i f)

namespace ExtentKind

variable {kind : (α : Type) → BuildM α → Prop} (hk : ExtentKind kind)

include hk

theorem newSymbol (s : Symbol) : kind SymbolId (newSymbol s) :=
  hk.names (fun _ _ _ hr => ⟨_, (runs_newSymbol.1 hr).2⟩) fun _ _ h => by cases h

theorem newExtent (name : String) (type : DataType) (join : Option JoinInfo) :
    kind SymbolId (newExtent name type join) := by
  cases join <;> exact hk.newSymbol _

theorem declareExtent (i : StatementId) (x : SymbolId) : kind PUnit (declareExtent i x) := by
  refine hk.bind (hk.statement i) fun s => hk.ite ?_ (hk.pure _)
  refine hk.bind (hk.mild i ⟨fun s => ?_, fun _ => rfl, fun _ => rfl, fun _ => rfl⟩) fun _ => ?_
  · simp [Statement.nested]
  · refine hk.bind (hk.symbol x) fun s => hk.names (fun _ _ _ hr => ⟨_, runs_registerExtent.1 hr⟩) fun _ _ h => ?_
    cases h

theorem starColumns (x : SymbolId) : kind (List StarColumn) (starColumns x) := by
  refine hk.bind (hk.symbol x) fun s => ?_
  split
  · exact hk.pure _
  · refine hk.mapM fun member _ => hk.names (fun b star b' hr => ?_) fun _ _ h => by cases h
    simp only [starMember, runs_bind, runs_registerColumn, runs_columnOf, runs_pure] at hr
    obtain ⟨-, -, rfl, -, -, ⟨-, rfl⟩, -, rfl⟩ := hr
    exact ⟨_, rfl⟩

theorem selectAll (i : StatementId) : kind (List SymbolId) (selectAll i) := by
  refine hk.bind hk.get fun b => hk.bind (hk.statement i) fun s => ?_
  refine hk.bind (hk.mapM fun x _ => hk.starColumns x) fun stars => hk.ite (hk.throw id) ?_
  have hstars : Part.statements (Part.separated ", " (stars.flatten.map StarColumn.parts)) = [] := by
    rw [Part.separated, Part.statements_intercalate, flatMap_map, flatMap_eq_nil_iff]
    exact fun c _ => statements_starParts c
  refine hk.bind (hk.mild i ⟨fun s => ?_, fun _ => rfl, fun _ => rfl, fun _ => rfl⟩) fun _ => ?_
  · simp [Statement.nested, hstars, -map_flatten]
  refine hk.bind (hk.mild i ⟨fun _ => rfl, fun _ => rfl, fun _ => rfl, fun _ => rfl⟩) fun _ => ?_
  exact hk.bind (hk.names (fun _ _ _ hr => ⟨_, runs_modify.1 hr⟩) fun _ _ h => by cases h) fun _ => hk.pure _

theorem selectAllIfNone (i : StatementId) : kind PUnit (selectAllIfNone i) :=
  hk.bind (hk.statement i) fun _ => hk.ite (hk.bind (hk.selectAll i) fun _ => hk.pure _) (hk.pure _)

theorem completed (complete : Bool) (i : StatementId) : kind StatementId (completed complete i) :=
  hk.ite (hk.bind (hk.selectAllIfNone i) fun _ => hk.pure _) (hk.pure _)

theorem variableExtent (name : String) (type : DataType) (i : StatementId) :
    kind (StatementId × SymbolId) (variableExtent name type i) := by
  refine hk.bind (hk.statement i) fun s => ?_
  split
  · exact hk.bind (hk.newSymbol _) fun _ => hk.pure _
  · exact hk.pure _
  · refine hk.bind (hk.newSymbol _) fun x => hk.bind (hk.mild i ?_) fun _ => hk.pure _
    exact ⟨fun _ => rfl, fun _ => rfl, fun _ => rfl, fun _ => rfl⟩

theorem subselectJoin? (sub : StatementId) (e : Expr) : kind (Option JoinInfo) (subselectJoin? sub e) := by
  refine hk.bind (hk.statement sub) fun s => hk.ite ?_ (hk.pure _)
  refine hk.bind (hk.selectAll sub) fun columns => hk.ite ?_ (hk.nestedJoin? sub columns)
  exact hk.bind (hk.statement sub) fun _ => hk.pure _

theorem markOuter (x : SymbolId) : ∀ path : List StatementId, kind PUnit (markOuter x path)
  | [] => hk.pure _
  | i :: rest => by
    refine hk.bind (hk.statement i) fun s => hk.ite (hk.pure _) (hk.bind (hk.mild i ?_) fun _ => markOuter x rest)
    refine ⟨fun s => ?_, fun s => ?_, fun s => ?_, fun s => ?_⟩ <;> unfold Statement.addOuterExtent <;> split <;> rfl

end ExtentKind

/-! ## Values -/

/-- The kind has, besides, the steps of variables and members. -/
structure ValueKind [Variables] (kind : (α : Type) → BuildM α → Prop) : Prop extends StepKind kind where
  setPending : ∀ flag, kind PUnit (setPending flag)
  rowVariable : ∀ name, kind Fragment (Variables.visit name)

namespace ValueKind

variable [Variables] {kind : (α : Type) → BuildM α → Prop} (hk : ValueKind kind)

include hk

theorem member {operand : Operand} (name : String) (h : kind Fragment operand.build) :
    kind Fragment (member operand name) := by
  rw [member_eq]
  exact hk.bind h fun sql => hk.ite (hk.bind (hk.setPending false) fun _ => hk.memberOf name sql)
    (hk.memberOf name sql)

/-- The step of a value is of the kind if those of the expressions in it are. -/
theorem value {config : Config} {P : Expr → Prop} {e : Expr} {m : BuildM Fragment} (h : Expr.Construct config P e m)
    (hp : ∀ c, P c → kind Fragment (c.build config)) (hv : e.isRowless = true) : kind Fragment m :=
  hk.texts.value h hp hk.rowVariable hk.member hv

end ValueKind

end Build

end RelSql
