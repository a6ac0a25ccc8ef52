/-
Templates of query text. A template is text under construction with holes in the place of the literals
of strings; a wording fills it with values for the labels of the holes. A step that is made for each
wording is uniform if it is one step on templates: filling before it and filling after it are the same,
so that its result does not look at the wording, and its error only to name a variable.
-/
import RelSql.Proofs.Build.Runs
import RelSql.Proofs.Query.Forms

namespace RelSql

open List

/-! ## Templates -/

/-- A part that may be a hole for the literal of a string. -/
inductive Part.Template where
  | text (text : String)
  | literal (label : String)
  | line
  | symbol (symbol : SymbolId)
  | group (parts : List Part.Template)
  | statement (statement : StatementId)

inductive Fragment.Template where
  | parts (parts : List Part.Template)
  | statement (statement : StatementId)
  | symbol (symbol : SymbolId)
  | nested (source input : SymbolId)

/-- A statement whose clauses have holes; the clauses of `base` do not count. -/
structure Statement.Template where
  base : Statement := {}
  selectList : List Part.Template := []
  fromList : List Part.Template := []
  condition : List Part.Template := []
  grouping : List Part.Template := []
  ordering : List Part.Template := []
  top : Option (List Part.Template) := none
  skip : Option (List Part.Template) := none

/-- A state whose statements have holes; the statements of `base` do not count. -/
structure Build.Template where
  base : Build
  statements : Array Statement.Template

section

variable (ρ : Wording)

mutual

def Part.Template.fill : Part.Template → Part
  | text s => .text s
  | literal label => .text (Quoted.quote (ρ.string label))
  | line => .line
  | symbol i => .symbol i
  | group ps => .group (Part.Template.fillAll ps)
  | statement i => .statement i

def Part.Template.fillAll : List Part.Template → List Part
  | [] => []
  | p :: rest => p.fill :: Part.Template.fillAll rest

end

attribute [simp] Part.Template.fill

@[simp] theorem Part.Template.fillAll_eq_map (ps : List Part.Template) : fillAll ρ ps = ps.map (fill ρ) := by
  induction ps with
  | nil => rfl
  | cons p rest ih => simp [fillAll, ih]

def Fragment.Template.fill : Fragment.Template → Fragment
  | parts ps => .parts (ps.map (Part.Template.fill ρ))
  | statement i => .statement i
  | symbol i => .symbol i
  | nested source input => .nested source input

def Statement.Template.fill (s : Statement.Template) : Statement :=
  { s.base with
    selectList := s.selectList.map (Part.Template.fill ρ)
    fromList := s.fromList.map (Part.Template.fill ρ)
    condition := s.condition.map (Part.Template.fill ρ)
    grouping := s.grouping.map (Part.Template.fill ρ)
    ordering := s.ordering.map (Part.Template.fill ρ)
    top := s.top.map (map (Part.Template.fill ρ))
    skip := s.skip.map (map (Part.Template.fill ρ)) }

def Build.Template.fill (c : Build.Template) : Build :=
  { c.base with statements := c.statements.map (Statement.Template.fill ρ) }

end

namespace Fragment.Template

def toPart : Fragment.Template → Part.Template
  | parts ps => .group ps
  | statement i => .statement i
  | symbol i => .symbol i
  | nested source _ => .symbol source

@[simp] theorem fill_parts (ρ : Wording) (ps : List Part.Template) :
    fill ρ (parts ps) = .parts (ps.map (Part.Template.fill ρ)) := rfl

@[simp] theorem toPart_fill (ρ : Wording) (t : Fragment.Template) : (t.fill ρ).toPart = t.toPart.fill ρ := by
  cases t <;> simp [fill, toPart, Fragment.toPart, Part.Template.fill]

end Fragment.Template

namespace Part

/-- The parts of a list, with a separator between the items. -/
def Template.separated (separator : String) (items : List (List Part.Template)) : List Part.Template :=
  [text separator].intercalate items

@[simp] theorem map_fill_separated (ρ : Wording) (separator : String) (items : List (List Part.Template)) :
    (Template.separated separator items).map (Template.fill ρ) =
      separated separator (items.map (map (Template.fill ρ))) :=
  Modification.map_intercalate _ _ _

mutual

/-- A part without holes. -/
def asTemplate : Part → Template
  | text s => .text s
  | line => .line
  | symbol i => .symbol i
  | group ps => .group (asTemplates ps)
  | statement i => .statement i

def asTemplates : List Part → List Template
  | [] => []
  | p :: rest => asTemplate p :: asTemplates rest

end

mutual

@[simp] theorem fill_asTemplate (ρ : Wording) (p : Part) : p.asTemplate.fill ρ = p := by
  cases p with
  | group ps => simp [asTemplate, map_fill_asTemplates ρ ps]
  | _ => rfl

@[simp] theorem map_fill_asTemplates (ρ : Wording) (ps : List Part) :
    (asTemplates ps).map (Template.fill ρ) = ps := by
  match ps with
  | [] => rfl
  | p :: rest => simp [asTemplates, fill_asTemplate ρ p, map_fill_asTemplates ρ rest]

end

end Part

/-! ## Uniform steps -/

/-- The error, with the name of an unbound variable as it is spelled. -/
def Error.reword (ρ : Wording) : Error → Error
  | badArgument (.unboundVariable name) => badArgument (.unboundVariable (ρ.name name))
  | e => e

theorem Error.reword_of_name {ρ : Wording} (h : ρ.name = id) (e : Error) : e.reword ρ = e := by
  cases e with
  | badArgument cause => cases cause <;> first | rfl | rw [reword, h]; rfl
  | _ => rfl

namespace Build

/-- The steps for all wordings are one step on templates, unless a watched visit stops it; `f` fills its result. -/
def Uniform {τ α : Type} (f : Wording → τ → α) (m : Wording → BuildM α) : Prop :=
  ∃ step : StateT Build.Template (Except Error) τ, ∀ ρ c,
    (m ρ).run (c.fill ρ) = (Prod.map (f ρ) (Build.Template.fill ρ) <$> step.run c).mapError (Error.reword ρ) ∨
      ρ.Stops ((m ρ).run (c.fill ρ))

/-- The result of a step that has no holes. -/
abbrev Fixed {α : Type} (m : Wording → BuildM α) : Prop := Uniform (fun _ (a : α) => a) m

abbrev UniformText (m : Wording → BuildM Fragment) : Prop := Uniform Fragment.Template.fill m

abbrev UniformParts (m : Wording → BuildM (List Part)) : Prop :=
  Uniform (fun ρ (ps : List Part.Template) => ps.map (Part.Template.fill ρ)) m

section

variable {τ υ α β : Type} {f : Wording → τ → α} {g : Wording → υ → β}

/-- A step that visits no variable. -/
theorem Uniform.of_eq {m : Wording → BuildM α} (step : StateT Build.Template (Except Error) τ) (h : ∀ ρ c,
    (m ρ).run (c.fill ρ) = (Prod.map (f ρ) (Build.Template.fill ρ) <$> step.run c).mapError (Error.reword ρ)) :
    Uniform f m :=
  ⟨step, fun ρ c => .inl (h ρ c)⟩

theorem uniform_pure {x : Wording → α} (a : τ) (h : ∀ ρ, x ρ = f ρ a) : Uniform f fun ρ => pure (x ρ) :=
  .of_eq (pure a) fun ρ c => congrArg (fun y => Except.ok (y, c.fill ρ)) (h ρ)

theorem uniform_throw (e : Error) (h : ∀ ρ, e.reword ρ = e) : Uniform f fun _ => throw e :=
  .of_eq (throw e) fun ρ _ => congrArg Except.error (h ρ).symm

theorem Uniform.bind {m : Wording → BuildM α} {k : Wording → α → BuildM β} (hm : Uniform f m)
    (hk : ∀ a, Uniform g fun ρ => k ρ (f ρ a)) : Uniform g fun ρ => m ρ >>= k ρ := by
  obtain ⟨step, hstep⟩ := hm
  choose next hnext using hk
  refine ⟨step >>= next, fun ρ c => ?_⟩
  rw [StateT.run_bind, StateT.run_bind]
  rcases hstep ρ c with h | ⟨hρ, h⟩ <;> rw [h]
  · cases step.run c with
    | error e => exact .inl rfl
    | ok p => exact hnext p.1 ρ p.2
  · exact .inr ⟨hρ, rfl⟩

theorem Uniform.ite {p : Prop} [Decidable p] {m n : Wording → BuildM α} (hm : Uniform f m)
    (hn : Uniform f n) : Uniform f fun ρ => if p then m ρ else n ρ := by
  split
  · exact hm
  · exact hn

theorem uniform_lift {x : Except Error α} (h : ∀ ρ e, x = .error e → e.reword ρ = e) :
    Fixed fun _ => (liftM x : BuildM α) := by
  refine .of_eq (liftM x) fun ρ _ => ?_
  cases x with
  | ok a => rfl
  | error e => exact congrArg Except.error (h ρ e rfl).symm

/-- A run over a list of things that are filled. -/
theorem uniform_mapM {σ σ' : Type} {o : Wording → σ → σ'} {k : σ' → BuildM α} {xs : List σ}
    (h : ∀ x ∈ xs, Uniform f fun ρ => k (o ρ x)) :
    Uniform (fun ρ (l : List τ) => l.map (f ρ)) fun ρ => (xs.map (o ρ)).mapM k := by
  simp only [mapM_map]
  induction xs with
  | nil => exact uniform_pure [] fun _ => rfl
  | cons x rest ih =>
    obtain ⟨hx, hrest⟩ := forall_mem_cons.1 h
    simp only [mapM_cons]
    exact hx.bind fun a => (ih hrest).bind fun l => uniform_pure (a :: l) fun _ => rfl

theorem fixed_mapM {σ : Type} {k : σ → BuildM α} (h : ∀ x, Fixed fun _ => k x) (xs : List σ) :
    Fixed fun _ => xs.mapM k := by
  simpa using uniform_mapM (o := fun _ x => x) fun x (_ : x ∈ xs) => h x

end

/-! ## Steps on the rest of the state -/

/-- A step that has nothing to do with statements or variables. -/
theorem fixed_of_frame {α : Type} {m : BuildM α} (h : ∀ ρ b statements, m.run { b with statements } =
    (Prod.map id (fun b' : Build => { b' with statements }) <$> m.run b).mapError (Error.reword ρ)) :
    Fixed fun _ => m := by
  refine .of_eq (fun c => Prod.map id (fun b => { c with base := b }) <$> m.run c.base) fun ρ c => ?_
  refine (h ρ c.base _).trans ?_
  change _ = Except.mapError _ (Prod.map id _ <$> Prod.map id _ <$> m.run c.base)
  cases m.run c.base <;> rfl

theorem fixed_newSymbol (s : Symbol) : Fixed fun _ => newSymbol s := fixed_of_frame fun _ _ _ => rfl

theorem fixed_symbol (i : SymbolId) : Fixed fun _ => symbol i := fixed_of_frame fun _ _ _ => rfl

theorem fixed_registerExtent (name : String) : Fixed fun _ => registerExtent name := fixed_of_frame fun _ _ _ => rfl

theorem fixed_registerColumn (name : String) : Fixed fun _ => registerColumn name := fixed_of_frame fun _ _ _ => rfl

theorem fixed_columnOf (extent : SymbolId) (name : String) : Fixed fun _ => columnOf extent name :=
  fixed_of_frame fun _ _ _ => rfl

theorem fixed_bindVariable (name : String) (extent : SymbolId) : Fixed fun _ => bindVariable name extent :=
  fixed_of_frame fun _ _ _ => rfl

theorem fixed_parentTakesIn : Fixed fun _ => parentTakesIn := fixed_of_frame fun _ _ _ => rfl

theorem fixed_setPending (flag : Bool) : Fixed fun _ => setPending flag := fixed_of_frame fun _ _ _ => rfl

theorem fixed_current : Fixed fun _ => current := fixed_of_frame fun _ b _ => by
  obtain ⟨names, statements, building, joins, scopes, pending⟩ := b
  cases building <;> rfl

section

variable {τ α : Type} {f : Wording → τ → α} {m : Wording → BuildM α}

theorem Uniform.within {i : StatementId} (hm : Uniform f m) : Uniform f fun ρ => within i (m ρ) :=
  (fixed_of_frame fun _ _ _ => rfl).bind fun _ => hm.bind fun a => (fixed_of_frame fun _ _ _ => rfl).bind fun _ =>
    uniform_pure a fun _ => rfl

theorem Uniform.inScope (hm : Uniform f m) : Uniform f fun ρ => inScope (m ρ) :=
  (fixed_of_frame fun _ _ _ => rfl).bind fun _ => hm.bind fun a => (fixed_of_frame fun _ _ _ => rfl).bind fun _ =>
    uniform_pure a fun _ => rfl

theorem Uniform.underJoin {takesIn : Bool} (hm : Uniform f m) : Uniform f fun ρ => underJoin takesIn (m ρ) :=
  (fixed_of_frame fun _ _ _ => rfl).bind fun _ => hm.bind fun a => (fixed_of_frame fun _ _ _ => rfl).bind fun _ =>
    uniform_pure a fun _ => rfl

end

/-! ## Steps on statements -/

theorem uniform_get : Uniform Build.Template.fill fun _ => get := .of_eq get fun _ _ => rfl

section

variable {i : StatementId}

theorem get_map_fill (ρ : Wording) (statements : Array Statement.Template) :
    Statements.get (statements.map (Statement.Template.fill ρ)) i = (statements.getD i {}).fill ρ := by
  simp only [Statements.get, Array.getD_eq_getD_getElem?, Array.getElem?_map]
  cases statements[i]? <;> rfl

theorem uniform_statement : Uniform Statement.Template.fill fun _ => statement i :=
  .of_eq (do return (← get).statements.getD i {}) fun ρ c =>
    congrArg (fun s => Except.ok (s, c.fill ρ)) (get_map_fill ρ _)

theorem fixed_newStatement (t : Statement.Template) : Fixed fun ρ => newStatement (t.fill ρ) := by
  refine .of_eq (do
    let c ← get
    set { c with statements := c.statements.push t }
    return c.statements.size) fun ρ c => ?_
  exact congrArg₂ (fun n statements => Except.ok (n, { c.base with statements })) Array.size_map Array.map_push.symm

theorem fixed_updateStatement {change : Wording → Statement → Statement}
    (φ : Statement.Template → Statement.Template) (h : ∀ ρ s, change ρ (s.fill ρ) = (φ s).fill ρ) :
    Fixed fun ρ => updateStatement i (change ρ) := by
  refine .of_eq (modify fun c => { c with statements := c.statements.modify i φ }) fun ρ c => ?_
  have hmodify : (c.statements.map (Statement.Template.fill ρ)).modify i (change ρ) =
      (c.statements.modify i φ).map (Statement.Template.fill ρ) := by
    refine Array.ext (by simp) fun k hk hk' => ?_
    simp only [Array.getElem_modify, Array.getElem_map]
    split
    · exact h ρ _
    · rfl
  exact congrArg (fun statements => Except.ok (PUnit.unit, { c.base with statements })) hmodify

theorem fixed_tryUpdateStatement {change : Wording → Statement → Except Error Statement}
    (φ : Statement.Template → Except Error Statement.Template)
    (h : ∀ ρ s, change ρ (s.fill ρ) = (Statement.Template.fill ρ <$> φ s).mapError (Error.reword ρ)) :
    Fixed fun ρ => tryUpdateStatement i (change ρ) := by
  refine uniform_statement.bind fun s => ?_
  cases hs : φ s with
  | error e =>
    simp only [h, hs]
    exact .of_eq (throw e) fun _ _ => rfl
  | ok t =>
    simp only [h, hs]
    exact fixed_updateStatement (fun _ => t) fun _ _ => rfl

/-! ## Clauses -/

section

variable {ps : Wording → List Part} (t : List Part.Template) (h : ∀ ρ, ps ρ = t.map (Part.Template.fill ρ))

include h

theorem fixed_appendSelect : Fixed fun ρ => appendSelect i (ps ρ) :=
  fixed_updateStatement (fun s => { s with selectList := s.selectList ++ t }) fun ρ s => by
    simp [Statement.Template.fill, h]

theorem fixed_appendFrom : Fixed fun ρ => appendFrom i (ps ρ) :=
  fixed_updateStatement (fun s => { s with fromList := s.fromList ++ t }) fun ρ s => by
    simp [Statement.Template.fill, h]

theorem fixed_appendCondition : Fixed fun ρ => appendCondition i (ps ρ) :=
  fixed_updateStatement (fun s => { s with condition := s.condition ++ t }) fun ρ s => by
    simp [Statement.Template.fill, h]

theorem fixed_appendGrouping : Fixed fun ρ => appendGrouping i (ps ρ) :=
  fixed_updateStatement (fun s => { s with grouping := s.grouping ++ t }) fun ρ s => by
    simp [Statement.Template.fill, h]

theorem fixed_appendOrdering : Fixed fun ρ => appendOrdering i (ps ρ) :=
  fixed_updateStatement (fun s => { s with ordering := s.ordering ++ t }) fun ρ s => by
    simp [Statement.Template.fill, h]

end

/-- A step that changes no clause of a statement. -/
theorem fixed_updateBase {change : Statement → Statement} (h : ∀ ρ (s : Statement.Template),
    change (s.fill ρ) = { s with base := change s.base }.fill ρ) : Fixed fun _ => updateStatement i change :=
  fixed_updateStatement (fun s => { s with base := change s.base }) h

end

end Build

end RelSql
