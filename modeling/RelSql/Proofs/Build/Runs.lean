/-
Successful runs of the steps that build a query. `Runs m b a b'` says that the step `m` leads from
the state `b` to the state `b'` and returns `a`; a run of a composed step is opened into the runs
of its parts, and each primitive step is described by the state that it leaves.
-/
import RelSql.Query.Visit
import Mathlib.Tactic

namespace RelSql.Build

open List

variable {u : PUnit}

/-- The step leads from `b` to `b'` and returns `a`. -/
def Runs {α : Type} (m : BuildM α) (b : Build) (a : α) (b' : Build) : Prop :=
  m.run b = .ok (a, b')

/-- The step returns the value from some state. -/
def Returns {α : Type} (m : BuildM α) (a : α) : Prop := ∃ b b', Runs m b a b'

/-! ## Composition -/

section

variable {α β : Type} {b b' : Build}

@[simp] theorem runs_pure {a a' : α} : Runs (pure a) b a' b' ↔ a' = a ∧ b' = b := by
  unfold Runs
  constructor
  · intro h; cases h; exact ⟨rfl, rfl⟩
  · rintro ⟨rfl, rfl⟩; rfl

@[simp] theorem runs_bind {m : BuildM α} {f : α → BuildM β} {c : β} :
    Runs (m >>= f) b c b' ↔ ∃ a b1, Runs m b a b1 ∧ Runs (f a) b1 c b' := by
  unfold Runs
  rw [StateT.run_bind]
  constructor
  · intro h
    cases hm : m.run b with
    | error e => rw [hm] at h; cases h
    | ok p => rw [hm] at h; exact ⟨p.1, p.2, rfl, h⟩
  · rintro ⟨a, b1, hm, hf⟩
    rw [hm]; exact hf

theorem bind_eq_of_returns {m : BuildM α} {f g : α → BuildM β} (h : ∀ a, Returns m a → f a = g a) :
    m >>= f = m >>= g := by
  funext b
  change (m.run b >>= fun r => (f r.1).run r.2) = m.run b >>= fun r => (g r.1).run r.2
  cases hm : m.run b with
  | error e => rfl
  | ok r => exact congrArg (·.run r.2) (h r.1 ⟨b, r.2, hm⟩)

@[simp] theorem runs_map {m : BuildM α} {f : α → β} {c : β} :
    Runs (f <$> m) b c b' ↔ ∃ a, Runs m b a b' ∧ c = f a := by
  rw [map_eq_pure_bind, runs_bind]
  constructor
  · rintro ⟨a, b1, hm, hf⟩
    obtain ⟨rfl, rfl⟩ := runs_pure.1 hf
    exact ⟨a, hm, rfl⟩
  · rintro ⟨a, hm, rfl⟩
    exact ⟨a, b', hm, runs_pure.2 ⟨rfl, rfl⟩⟩

@[simp] theorem runs_throw {e : Error} {a : α} : ¬ Runs (throw e) b a b' := by
  intro h; cases h

@[simp] theorem runs_get {s : Build} : Runs get b s b' ↔ s = b ∧ b' = b := by
  unfold Runs
  constructor
  · intro h; cases h; exact ⟨rfl, rfl⟩
  · rintro ⟨rfl, rfl⟩; rfl

@[simp] theorem runs_set {s : Build} : Runs (set s) b u b' ↔ b' = s := by
  unfold Runs
  constructor
  · intro h; cases h; rfl
  · rintro rfl; rfl

@[simp] theorem runs_modify {f : Build → Build} : Runs (modify f) b u b' ↔ b' = f b := by
  unfold Runs
  constructor
  · intro h; cases h; rfl
  · rintro rfl; rfl

@[simp] theorem runs_lift {x : Except Error α} {a : α} :
    Runs (liftM x : BuildM α) b a b' ↔ x = .ok a ∧ b' = b := by
  unfold Runs
  cases x with
  | error e => constructor <;> intro h <;> cases h; contradiction
  | ok y =>
    constructor
    · intro h; cases h; exact ⟨rfl, rfl⟩
    · rintro ⟨h, rfl⟩; cases h; rfl

theorem runs_ite {c : Prop} [Decidable c] {m n : BuildM α} {a : α} :
    Runs (if c then m else n) b a b' ↔ (c ∧ Runs m b a b') ∨ (¬ c ∧ Runs n b a b') := by
  by_cases h : c <;> simp [h]

/-- A run over a list runs over each of its items. -/
theorem forall₂_of_runs_mapM {f : α → BuildM β} {xs : List α} {ys : List β} (h : Runs (xs.mapM f) b ys b') :
    List.Forall₂ (fun x y => ∃ b1 b2, Runs (f x) b1 y b2) xs ys := by
  induction xs generalizing ys b b' with
  | nil =>
    rw [mapM_nil] at h
    obtain ⟨rfl, -⟩ := runs_pure.1 h
    exact .nil
  | cons x rest ih =>
    rw [mapM_cons] at h
    obtain ⟨y, b1, hy, h⟩ := runs_bind.1 h
    obtain ⟨more, b2, hmore, h⟩ := runs_bind.1 h
    obtain ⟨rfl, -⟩ := runs_pure.1 h
    exact .cons ⟨b, b1, hy⟩ (ih hmore)

theorem forall_of_runs_mapM {f : α → BuildM β} {P : β → Prop} (hf : ∀ x b1 y b2, Runs (f x) b1 y b2 → P y)
    {xs : List α} {ys : List β} (h : Runs (xs.mapM f) b ys b') : ∀ y ∈ ys, P y := by
  replace h := forall₂_of_runs_mapM h
  induction h with
  | nil => exact forall_mem_nil _
  | cons h _ ih =>
    obtain ⟨b1, b2, h⟩ := h
    exact forall_mem_cons.2 ⟨hf _ _ _ _ h, ih⟩

theorem map_of_runs_mapM {γ : Type} {f : α → BuildM β} {g : α → γ} {g' : β → γ}
    (hf : ∀ x b1 y b2, Runs (f x) b1 y b2 → g x = g' y) {xs : List α} {ys : List β} (h : Runs (xs.mapM f) b ys b') :
    xs.map g = ys.map g' := by
  rw [← forall₂_eq_eq_eq, forall₂_map_left_iff, forall₂_map_right_iff]
  exact (forall₂_of_runs_mapM h).imp fun x y ⟨b1, b2, hr⟩ => hf x b1 y b2 hr

end

/-! ## Primitive steps -/

section

variable {i : StatementId} {name : String} {flag : Bool}

variable {b b' : Build}

@[simp] theorem runs_newStatement {s : Statement} : Runs (newStatement s) b i b' ↔
    i = b.statements.size ∧ b' = { b with statements := b.statements.push s } := by
  simp [newStatement, and_comm]

@[simp] theorem runs_statement {s : Statement} : Runs (statement i) b s b' ↔
    s = b.statements.get i ∧ b' = b := by
  simp [statement, and_comm]

@[simp] theorem runs_updateStatement {f : Statement → Statement} :
    Runs (updateStatement i f) b u b' ↔ b' = { b with statements := b.statements.modify i f } := by
  simp [updateStatement]

theorem runs_tryUpdateStatement {f : Statement → Except Error Statement} :
    Runs (tryUpdateStatement i f) b u b' ↔ ∃ s, f (b.statements.get i) = .ok s ∧
      b' = { b with statements := b.statements.modify i fun _ => s } := by
  simp [tryUpdateStatement]

@[simp] theorem runs_newSymbol {s : Symbol} {i : SymbolId} : Runs (newSymbol s) b i b' ↔
    i = b.names.symbols.size ∧
      b' = { b with names := { b.names with symbols := b.names.symbols.push s } } := by
  simp [newSymbol, Symbols.add, and_comm]

@[simp] theorem runs_symbol {i : SymbolId} {s : Symbol} : Runs (symbol i) b s b' ↔
    s = b.names.symbols.get i ∧ b' = b := by
  simp [symbol, and_comm]

@[simp] theorem runs_registerExtent : Runs (registerExtent name) b u b' ↔
    b' = { b with names := { b.names with extents := b.names.extents.register name } } := by
  simp [registerExtent]

@[simp] theorem runs_registerColumn : Runs (registerColumn name) b u b' ↔
    b' = { b with names := { b.names with columns := b.names.columns.register name } } := by
  simp [registerColumn]

@[simp] theorem runs_columnOf {extent c : SymbolId} : Runs (columnOf extent name) b c b' ↔
    c = (b.names.symbols.columnOrInsert extent name).1 ∧
      b' = { b with
        names := { b.names with symbols := (b.names.symbols.columnOrInsert extent name).2 } } := by
  simp [columnOf, and_comm]

@[simp] theorem runs_bindVariable {extent : SymbolId} :
    Runs (bindVariable name extent) b u b' ↔ b' = { b with scopes := b.scopes.add name extent } := by
  simp [bindVariable]

@[simp] theorem runs_parentTakesIn : Runs parentTakesIn b flag b' ↔
    flag = b.joins.head?.getD false ∧ b' = b := by
  simp [parentTakesIn, and_comm]

@[simp] theorem runs_setPending : Runs (setPending flag) b u b' ↔
    b' = { b with pendingVariable := flag } := by
  simp [setPending]

theorem runs_current : Runs current b i b' ↔ ∃ rest, b.building = i :: rest ∧ b' = b := by
  obtain ⟨names, statements, building, joins, scopes, pending⟩ := b
  cases building <;> simp [current, and_comm, eq_comm]

variable {α : Type} {step : BuildM α} {a : α}

theorem runs_within : Runs (within i step) b a b' ↔
    ∃ b1, Runs step { b with building := i :: b.building } a b1 ∧
      b' = { b1 with building := b1.building.drop 1 } := by
  simp [within]

theorem runs_inScope : Runs (inScope step) b a b' ↔
    ∃ b1, Runs step { b with scopes := b.scopes.enter } a b1 ∧ b' = { b1 with scopes := b1.scopes.leave } := by
  simp [inScope]

theorem runs_underJoin : Runs (underJoin flag step) b a b' ↔
    ∃ b1, Runs step { b with joins := flag :: b.joins } a b1 ∧ b' = { b1 with joins := b1.joins.drop 1 } := by
  simp [underJoin]

end

end RelSql.Build
