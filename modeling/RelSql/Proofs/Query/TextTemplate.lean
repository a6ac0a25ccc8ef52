/-
The text of a query as a template. The values of its string constants stand in it as literals and decide
nothing else: neither what the other text is, nor where blanks and lines are, nor names, nor errors. So
what is left of a query without these values compiles to text with numbered holes, and the query to that
text with the literals of its strings in the holes.
-/
import RelSql.Proofs.Query.UniformBuild
import RelSql.Proofs.Statement.Failures
import RelSql.Proofs.Statement.UniformText
import RelSql.Query.Compile

namespace RelSql

open Build Query

/-! ## Labels -/

namespace Expr

open List

/-- A label for each number: the text of that length. -/
def label (n : Nat) : String := String.ofList (replicate n ' ')

/-- The expression with a label in the place of each string, numbered from left to right. -/
def labelFrom (n : Nat) : Expr → Expr
  | constant (.string _) => constant (.string (label n))
  | e => e.rebuild fun i =>
    if _ : i < e.children.length then labelFrom (n + ((e.children.take i).flatMap strings).length) e.children[i] else e
termination_by e => sizeOf e
decreasing_by exact sizeOf_lt_of_mem_children (getElem_mem _)

theorem children_mapStrings (g : String → String) (e : Expr) :
    (e.mapStrings g).children = e.children.map (mapStrings g) := by
  rw [← reword_values, children_reword]
  exact map_congr_left fun c _ => reword_values g c

/-- The strings of a sub-expression stand after those of the sub-expressions before it. -/
theorem strings_child_start {values : List String} {n i : Nat} {e : Expr} (hconst : ∀ value, e ≠ constant value)
    (h : e.strings <+: values.drop n) (hi : i < e.children.length) :
    e.children[i].strings <+: values.drop (n + ((e.children.take i).flatMap strings).length) := by
  obtain ⟨rest, hrest⟩ := h
  rw [strings_eq_flatMap fun s => hconst (.string s), ← take_append_drop i e.children, drop_eq_getElem_cons hi,
    flatMap_append, flatMap_cons, append_assoc, append_assoc] at hrest
  rw [← drop_drop, ← hrest, drop_left]
  exact prefix_append _ _

/-- The values are put in the place of the labels that are numbered from where they stand. -/
theorem mapStrings_labelFrom {values : List String} {n : Nat} {e : Expr} (h : e.strings <+: values.drop n) :
    (e.withoutStrings.labelFrom n).mapStrings (fun l => values.getD l.length "") = e := by
  induction e using within_induction generalizing n with
  | step e ih =>
    by_cases hconst : ∃ value, e = constant value
    · obtain ⟨value, rfl⟩ := hconst
      cases value with
      | string s =>
        obtain ⟨rest, hrest⟩ := h
        have hs : (values.drop n)[0]? = some s := by simp [← hrest, strings]
        rw [getElem?_drop, Nat.add_zero] at hs
        simp [withoutStrings, mapConstants, Constant.mapString, labelFrom, label, hs]
      | _ => simp [withoutStrings, mapConstants, Constant.mapString, labelFrom, rebuild]
    · push Not at hconst
      have hrest : ∀ value, e.withoutStrings ≠ constant value := by
        intro value hvalue
        cases e with
        | constant value => exact hconst value rfl
        | _ => cases hvalue
      rw [labelFrom.eq_2 _ _ fun s => hrest (.string s), mapStrings, (mapConstants_rebuild _ hrest _).2,
        (mapConstants_rebuild _ hconst _).1]
      refine rebuild_of_children fun i a ha => ?_
      obtain ⟨hi, rfl⟩ := List.getElem?_eq_some_iff.1 ha
      have hlength : ((e.withoutStrings.children.take i).flatMap strings).length =
          ((e.children.take i).flatMap strings).length := by
        rw [children_mapStrings, ← map_take, flatMap_map]
        simp only [strings_mapStrings, ← map_flatMap, length_map]
      have hcount : i < e.withoutStrings.children.length := by simpa [children_mapStrings] using hi
      rw [dif_pos hcount, hlength]
      simp only [children_mapStrings, getElem_map]
      exact ih _ (.single (getElem_mem hi)) (strings_child_start hconst h hi)

/-- The expression with the label of its number in the place of each string. -/
def labelled (e : Expr) : Expr := labelFrom 0 e

/-- An expression is what is left without its values, labelled, with the values in the place of the labels. -/
theorem mapStrings_labelled (e : Expr) :
    e.withoutStrings.labelled.mapStrings (fun l => e.strings.getD l.length "") = e :=
  mapStrings_labelFrom (prefix_refl _)

end Expr

/-! ## Compiling with labels -/

theorem Query.uniform_root (config : Config) (e : Expr) : UniformText fun ρ => @root ρ.watch config (e.reword ρ) := by
  unfold root
  simp only [Expr.type_reword]
  split
  · refine (fixed_asStatement e.templated true).bind fun i => ?_
    refine Uniform.bind (f := fun _ a => a) ?_ fun _ => uniform_pure (.statement i) fun _ => rfl
    exact fixed_updateBase fun _ _ => rfl
  · exact e.templated.bind fun t => uniform_pure (.parts [.text "SELECT ", t.toPart]) (by simp)

theorem Query.exists_plan_eq_fill (config : Config) (e : Expr) :
    ∃ r : Except Error (Fragment.Template × Build.Template), ∀ ρ : Wording,
      @plan ρ.watch config (e.reword ρ) =
        (Prod.map (Fragment.Template.fill ρ) (Build.Template.fill ρ) <$> r).mapError (Error.reword ρ) ∨
      ρ.Stops (@plan ρ.watch config (e.reword ρ)) := by
  obtain ⟨step, hstep⟩ := uniform_root config e
  refine ⟨do
    let (t, c) ← step.run ⟨{}, #[]⟩
    if c.base.pendingVariable then throw (.unsupported .wholeRow)
    return (t, c), fun ρ => ?_⟩
  have hstart : Build.Template.fill ρ ⟨{}, #[]⟩ = {} := by simp [Build.Template.fill]
  have hrun := hstep ρ ⟨{}, #[]⟩
  rw [hstart] at hrun
  unfold plan
  rcases hrun with hrun | ⟨hρ, hrun⟩ <;> rw [hrun]
  · left
    cases step.run ⟨{}, #[]⟩ with
    | error e => rfl
    | ok p =>
      obtain ⟨t, c⟩ := p
      change (if c.base.pendingVariable then _ else _) =
        Except.mapError _ (_ <$> (if c.base.pendingVariable then _ else _))
      split <;> rfl
  · exact .inr ⟨hρ, rfl⟩

/-- The columns of a planned query have nothing to do with holes. -/
theorem Query.exists_columns_eq (statements : Array Statement.Template) (symbols : Symbols) (t : Fragment.Template) :
    ∃ names, ∀ ρ, columns (statements.map (Statement.Template.fill ρ)) symbols (t.fill ρ) = names := by
  cases t with
  | statement i =>
    refine ⟨(statements.getD i {}).base.outputNames symbols, fun ρ => ?_⟩
    rw [Fragment.Template.fill, columns, get_map_fill]
    rfl
  | parts _ | symbol _ | nested _ _ => exact ⟨[], fun _ => rfl⟩

theorem Render.run_map {α β : Type} (f : α → β) (m : Render α) (names : Names) :
    (f <$> m).run names = (f <$> (m.run names).1, (m.run names).2) := by
  rw [ExceptT.run_map]
  change (Except.map f (m.run names).1, (m.run names).2) = _
  rfl

theorem exists_renderParts_eq_fill (statements : Array Statement.Template) (names : Names) (p : Part.Template) :
    ∃ r : Except Error (List Piece.Template) × Names, ∀ ρ,
      renderParts (statements.map (Statement.Template.fill ρ)) names [p.fill ρ] =
        ((List.map (Piece.Template.fill ρ)) <$> r.1, r.2) := by
  obtain ⟨step, hstep⟩ := Render.writes_parts (Render.writes_statement statements statements.size) [p]
  refine ⟨step.run names, fun ρ => ?_⟩
  rw [← Render.run_map, ← hstep ρ, renderParts, Render.all, Array.size_map]
  rfl

theorem Error.OfWriting.reword {e : Error} (h : e.OfWriting) (ρ : Wording) : e.reword ρ = e := by
  cases e with
  | badState _ => rfl
  | _ => exact h.elim

/-- The query of a labelled expression is text with labelled holes, or fails in every wording, unless a watched
visit stops it. -/
theorem Query.exists_compile_reword (config : Config) (e : Expr) :
    ∃ r : Except Error (List (TextPiece String) × List String), ∀ ρ : Wording, @compile ρ.watch config (e.reword ρ) =
      ((fun t => ⟨TextPiece.fillAll ρ.string t.1, t.2⟩) <$> r).mapError (Error.reword ρ) ∨
        ρ.Stops (@compile ρ.watch config (e.reword ρ)) := by
  obtain ⟨planned, hplan⟩ := exists_plan_eq_fill config e
  have hstops : ∀ ρ : Wording, ρ.Stops (@plan ρ.watch config (e.reword ρ)) →
      ρ.Stops (@compile ρ.watch config (e.reword ρ)) := by
    intro ρ h
    refine ⟨h.1, ?_⟩
    unfold compile
    rw [h.2]; rfl
  cases planned with
  | error e =>
    refine ⟨.error e, fun ρ => (hplan ρ).imp (fun h => ?_) (hstops ρ)⟩
    unfold compile
    rw [h]; rfl
  | ok p =>
    obtain ⟨t, c⟩ := p
    obtain ⟨⟨pieces, names⟩, hrender⟩ := exists_renderParts_eq_fill c.statements c.base.names t.toPart
    obtain ⟨reported, hcolumns⟩ := exists_columns_eq c.statements names.symbols t
    have hcompile : ∀ ρ : Wording, @plan ρ.watch config (e.reword ρ) = .ok (t.fill ρ, c.fill ρ) →
        @compile ρ.watch config (e.reword ρ) = do
          let ps ← List.map (Piece.Template.fill ρ) <$> pieces
          return ⟨Layout.render config.pretty ps, reported⟩ := by
      intro ρ hplan
      have h := hrender ρ
      rw [← Fragment.Template.toPart_fill] at h
      unfold compile
      rw [← hcolumns ρ, hplan]
      dsimp only [Functor.map, Except.map, Except.mapError, Prod.map, Build.Template.fill, bind, Except.bind]
      rw [h]
      rfl
    cases pieces with
    | error e =>
      have hwriting : e.OfWriting := ofWriting_renderParts (hrender .plain)
      refine ⟨.error e, fun ρ => (hplan ρ).imp (fun h => (hcompile ρ h).trans ?_) (hstops ρ)⟩
      exact congrArg Except.error (hwriting.reword ρ).symm
    | ok ps =>
      obtain ⟨text, htext⟩ := Layout.exists_render_eq_fillAll config.pretty ps
      refine ⟨.ok (text, reported), fun ρ => (hplan ρ).imp (fun h => (hcompile ρ h).trans ?_) (hstops ρ)⟩
      exact congrArg (fun text => Except.ok (CompiledQuery.mk text reported)) (htext ρ)

theorem Query.exists_compile_eq_fill (config : Config) (e : Expr) :
    ∃ r : Except Error (List (TextPiece String) × List String), ∀ g,
      compile config (e.mapStrings g) = (fun t => ⟨TextPiece.fillAll g t.1, t.2⟩) <$> r := by
  obtain ⟨r, hr⟩ := exists_compile_reword config e
  refine ⟨r, fun g => ?_⟩
  rw [← Expr.reword_values]
  refine ((hr (.values g)).resolve_right fun h => h.1 rfl).trans ?_
  cases r with
  | ok _ => rfl
  | error e => exact congrArg Except.error (e.reword_of_name rfl)

/-- A query whose strings keep their values is compiled in another wording as in its own, unless a watched visit
stops it. -/
theorem Query.compile_reword {ρ : Wording} (hs : ρ.string = id) (config : Config) (query : Expr) :
    @compile ρ.watch config (query.reword ρ) = (compile config query).mapError (Error.reword ρ) ∨
      ρ.Stops (@compile ρ.watch config (query.reword ρ)) := by
  obtain ⟨r, hr⟩ := exists_compile_reword config query
  have hplain := (hr .plain).resolve_right fun h => h.1 rfl
  rw [Wording.plain, Expr.reword_values, Expr.mapStrings_id] at hplain
  refine (hr ρ).imp_left fun h => Eq.trans h (Eq.trans ?_ (congrArg _ hplain.symm))
  rw [hs]
  cases r with
  | ok t => rfl
  | error e => exact congrArg (fun e => Except.error (Error.reword ρ e)) (e.reword_of_name rfl).symm

/-- A query is compiled with watched visits as with the plain ones, unless one of them fails. -/
theorem Query.compile_watched {visit : String → BuildM Fragment} (hvisit : ∀ name b,
    visit name b = rowVariable name b ∨ visit name b = .error (.badState .noStatement)) (config : Config) (query : Expr) :
    @compile ⟨visit⟩ config query = compile config query ∨
      @compile ⟨visit⟩ config query = .error (.badState .noStatement) := by
  let w : Wording := ⟨id, id, fun _ => rfl, ⟨visit⟩, hvisit⟩
  have h := compile_reword (ρ := w) rfl config query
  rw [(Expr.reword_of_name rfl query).trans (Expr.mapStrings_id query)] at h
  refine h.imp (fun h => Eq.trans h ?_) And.right
  cases compile config query with
  | ok _ => rfl
  | error e => exact congrArg Except.error (e.reword_of_name rfl)

/-! ## Numbered holes -/

/-- The text of a query with numbered holes, and the columns that it returns. -/
structure QueryTemplate where
  pieces : List (TextPiece Nat)
  columns : List String

/-- The query with the literal of the string number `n` in each hole with that number. -/
def QueryTemplate.fill (t : QueryTemplate) (values : List String) : CompiledQuery :=
  { text := TextPiece.fillAll (fun n => values.getD n "") t.pieces, columns := t.columns }

/-- A piece with the number of its label; a label beyond `count` has no value. -/
def TextPiece.number (count : Nat) : TextPiece String → TextPiece Nat
  | text s => text s
  | hole label => if label.length < count then hole label.length else text (Quoted.quote "")

theorem TextPiece.fill_number (values : List String) (p : TextPiece String) :
    (p.number values.length).fill (fun n => values.getD n "") = p.fill fun label => values.getD label.length "" := by
  cases p with
  | text s => rfl
  | hole label =>
    by_cases h : label.length < values.length <;> simp [number, h]

theorem TextPiece.lt_of_number {count n : Nat} {p : TextPiece String} (h : p.number count = hole n) : n < count := by
  cases p with
  | text s => cases h
  | hole label =>
    by_cases hlt : label.length < count
    · simp only [number, hlt, if_true, hole.injEq] at h
      exact h ▸ hlt
    · simp [number, hlt] at h

/-- For each query there is a template that depends on the query without the values of its string constants only: the
query compiles to the template with the literals of these values in its holes, or fails as the template does. -/
theorem compile_eq_fill (config : Config) : ∃ template : Expr → Except Error QueryTemplate, ∀ query : Expr,
    Query.compile config query = (template query.withoutStrings).map (·.fill query.strings) ∧
      ∀ t ∈ (template query.withoutStrings).toOption, ∀ n, .hole n ∈ t.pieces → n < query.strings.length := by
  choose compiled hcompiled using fun e : Expr => exists_compile_eq_fill config e.labelled
  refine ⟨fun e => (compiled e).map fun t => ⟨t.1.map (TextPiece.number e.strings.length), t.2⟩, fun query => ?_⟩
  have hlength : query.withoutStrings.strings.length = query.strings.length := by
    rw [Expr.strings_mapStrings, List.length_map]
  have hquery := hcompiled query.withoutStrings fun label => query.strings.getD label.length ""
  rw [Expr.mapStrings_labelled] at hquery
  rw [hquery]
  dsimp only
  rw [hlength]
  cases compiled query.withoutStrings with
  | error e => exact ⟨rfl, by simp [Except.map, Except.toOption]⟩
  | ok t =>
    refine ⟨congrArg (fun text => Except.ok (CompiledQuery.mk text t.2)) ?_, ?_⟩
    · simp only [TextPiece.fillAll, List.map_map, Function.comp_def, TextPiece.fill_number]
    · simp only [Except.map, Except.toOption, Option.mem_def, Option.some.injEq, forall_eq']
      intro n hn
      obtain ⟨p, -, hp⟩ := List.mem_map.1 hn
      exact TextPiece.lt_of_number hp

end RelSql
