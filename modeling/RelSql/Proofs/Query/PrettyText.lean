/-
Pretty and compact text of a query. Both are laid out from the same pieces, for what is built and how
names are settled does not depend on the layout. The layouts put white space in different places only, and
where pretty text starts a line, compact text has a blank or an opening parenthesis before what comes next.
-/
import RelSql.Proofs.Query.Scoping
import RelSql.Text.Blank

namespace RelSql

open List

/-- The text without its white space. -/
def Blank.removed (text : String) : String := String.ofList (text.toList.filter (!isBlank ·))

/-- What a piece adds to the text, apart from the white space of breaks. -/
def Piece.written : Piece → String
  | text s | name _ s => s
  | line | enter _ | leave => ""

/-- The text is empty, or ends in a blank or an opening parenthesis. -/
def Layout.EndsOpen (text : String) : Prop := text = "" ∨ ∃ init, text = init ++ " " ∨ text = init ++ "("

/-! ## Layouts in step -/

namespace Layout

variable {l l' : Layout} {p : Piece}

/-- The characters so far that are no white space, the last one first. -/
def solid (l : Layout) : List Char := l.reversed.filter (!Blank.isBlank ·)

theorem solid_write (l : Layout) (s : String) :
    (l.write s).solid = s.toList.reverse.filter (!Blank.isBlank ·) ++ l.solid := by
  have htabs : ∀ n, (replicate n '\t').filter (!Blank.isBlank ·) = [] := fun n => by
    rw [filter_replicate, if_neg (by decide)]
  unfold write
  split
  · rename_i hs
    rw [String.isEmpty_iff.1 hs]
    rfl
  · dsimp only [solid]
    rw [filter_append, filter_append]
    split
    · rw [htabs, nil_append]
    · rfl

theorem solid_line (l : Layout) : l.line.solid = l.solid := by
  unfold line
  split
  · rfl
  · split <;> rfl

theorem solid_put (l : Layout) (p : Piece) :
    (l.put p).solid = p.written.toList.reverse.filter (!Blank.isBlank ·) ++ l.solid := by
  cases p with
  | text s | name i s => exact solid_write l s
  | line => exact solid_line l
  | enter i => rfl
  | leave => rfl

/-- Two layouts that agree but for white space go on to do so. -/
theorem solid_foldl (pieces : List Piece) (h : l.solid = l'.solid) :
    (pieces.foldl put l).solid = (pieces.foldl put l').solid := by
  induction pieces generalizing l l' with
  | nil => exact h
  | cons p rest ih => exact ih (by rw [solid_put, solid_put, h])

theorem removed_text (l : Layout) : Blank.removed l.text = String.ofList l.solid.reverse := by
  simp [Blank.removed, text, solid]

theorem removed_render (pieces : List Piece) :
    Blank.removed (render true pieces) = Blank.removed (render false pieces) := by
  have hsolid : (pieces.foldl put (start true)).solid = (pieces.foldl put (start false)).solid := solid_foldl pieces rfl
  unfold render
  rw [removed_text, removed_text, hsolid]

/-! ## Breaks in compact text -/

theorem pretty_put (l : Layout) (p : Piece) : (l.put p).pretty = l.pretty := by
  have hwrite : ∀ s, (l.write s).pretty = l.pretty := fun s => by unfold write; split <;> rfl
  cases p with
  | text s | name i s => exact hwrite s
  | line =>
    change l.line.pretty = l.pretty
    unfold line
    split
    · rfl
    · split <;> rfl
  | enter i => rfl
  | leave => rfl

theorem pretty_foldl (pieces : List Piece) (l : Layout) : (pieces.foldl put l).pretty = l.pretty := by
  induction pieces generalizing l with
  | nil => rfl
  | cons p rest ih => rw [foldl_cons, ih, pretty_put]

theorem isOpen_line (h : l.pretty = false) : isOpen l.line.reversed = true := by
  unfold line
  rw [h]
  by_cases hopen : isOpen l.reversed = true
  · simp [hopen]
  · rw [if_neg (by decide), if_neg hopen]
    rfl

/-- A piece that writes nothing leaves an open end open. -/
theorem isOpen_put (hl : l.pretty = false) (hp : p.written = "") (h : isOpen l.reversed = true) :
    isOpen (l.put p).reversed = true := by
  have hwrite : l.write "" = l := rfl
  cases p with
  | text s | name i s =>
    obtain rfl : s = "" := hp
    change isOpen (l.write "").reversed = true
    rw [hwrite]; exact h
  | line => exact isOpen_line hl
  | enter i => exact h
  | leave => exact h

theorem isOpen_foldl {pieces : List Piece} (hp : ∀ p ∈ pieces, p.written = "") (hl : l.pretty = false)
    (h : isOpen l.reversed = true) : isOpen (pieces.foldl put l).reversed = true := by
  induction pieces generalizing l with
  | nil => exact h
  | cons p rest ih =>
    obtain ⟨hhead, hrest⟩ := forall_mem_cons.1 hp
    exact ih hrest ((pretty_put l p).trans hl) (isOpen_put hl hhead h)

theorem endsOpen_of_isOpen (h : isOpen l.reversed = true) : EndsOpen l.text := by
  unfold text
  cases hr : l.reversed with
  | nil => exact Or.inl rfl
  | cons c rest =>
    rw [hr] at h
    have hend : String.ofList (c :: rest).reverse = String.ofList rest.reverse ++ String.singleton c := by
      rw [reverse_cons, String.ofList_append, String.singleton_eq_ofList]
    refine Or.inr ⟨String.ofList rest.reverse, ?_⟩
    rw [hend]
    simp only [isOpen, Bool.or_eq_true, beq_iff_eq] at h
    rcases h with rfl | rfl
    · exact Or.inl rfl
    · exact Or.inr rfl

/-- Behind a break compact text stays open until something is written. -/
theorem endsOpen_break (before : List Piece) {between : List Piece} (h : ∀ p ∈ between, p.written = "") :
    EndsOpen (render false (before ++ .line :: between)) := by
  have hcompact : (before.foldl put (start false)).pretty = false := pretty_foldl before _
  unfold render
  rw [foldl_append, foldl_cons]
  exact endsOpen_of_isOpen (isOpen_foldl h ((pretty_put _ .line).trans hcompact) (isOpen_line hcompact))

end Layout

/-! ## What is built does not depend on the layout -/

/-- Of the settings only the marks of parameters go into the text of an expression. -/
theorem Expr.build_congr (config' config : Config)
    (h : ∀ name, config'.parameterName name = config.parameterName name) (e : Expr) :
    build config' e = build config e := by
  apply build.induct (fun e => build config' e = build config e)
    (fun e => termOperands config' e = termOperands config e)
    (fun e => optionalOperand config' e = optionalOperand config e)
    (fun branches => branchOperands config' branches = branchOperands config branches)
    (fun es => operands config' es = operands config es)
    (fun keys => keyOperands config' keys = keyOperands config keys)
    (fun aggregates => aggregateOperands config' aggregates = aggregateOperands config aggregates)
    (fun inputs => bindingOperands config' inputs = bindingOperands config inputs)
    (fun fields => namedOperands config' fields = namedOperands config fields)
  -- each node hands its operands on, and these are the same by induction
  all_goals intros
  all_goals simp_all [build, termOperands, optionalOperand, branchOperands, operands, keyOperands, aggregateOperands,
    bindingOperands, namedOperands]

namespace Query

theorem plan_pretty (config : Config) (pretty : Bool) (query : Expr) :
    plan { config with pretty := pretty } query = plan config query := by
  have hbuild : query.build { config with pretty := pretty } = query.build config :=
    Expr.build_congr { config with pretty := pretty } config (fun _ => rfl) query
  have hroot : root { config with pretty := pretty } query = root config query := by
    unfold root Expr.toOperand
    rw [hbuild]
  unfold plan
  rw [hroot]

/-- A query is laid out as the settings say, from pieces that do not depend on them. -/
theorem compile_pretty (config : Config) (pretty : Bool) (query : Expr) :
    compile { config with pretty := pretty } query = do
      let (f, b) ← plan config query
      let (pieces, names) := renderParts b.statements b.names [f.toPart]
      return ⟨Layout.render pretty (← pieces), columns b.statements names.symbols f⟩ := by
  unfold compile
  rw [plan_pretty]

end Query

/-- Pretty and compact text are one query: it fails with one error in both, or returns the same columns, the
texts differ in white space only, and behind each break the compact text is empty or ends in a blank or an
opening parenthesis when something is written next. -/
theorem compile_pretty_compact (config : Config) (query : Expr) :
    (∃ e, Query.compile { config with pretty := true } query = .error e ∧
      Query.compile { config with pretty := false } query = .error e) ∨
    ∃ pretty compact, Query.compile { config with pretty := true } query = .ok pretty ∧
      Query.compile { config with pretty := false } query = .ok compact ∧
      pretty.columns = compact.columns ∧ Blank.removed pretty.text = Blank.removed compact.text ∧
      ∃ f b pieces names, Query.plan config query = .ok (f, b) ∧
        renderParts b.statements b.names [f.toPart] = (.ok pieces, names) ∧
        pretty.text = Layout.render true pieces ∧ compact.text = Layout.render false pieces ∧
        ∀ before between after, pieces = before ++ .line :: between ++ after → (∀ p ∈ between, p.written = "") →
          Layout.EndsOpen (Layout.render false (before ++ .line :: between)) := by
  rw [Query.compile_pretty, Query.compile_pretty]
  cases hp : Query.plan config query with
  | error e => exact Or.inl ⟨e, rfl, rfl⟩
  | ok r =>
    obtain ⟨f, b⟩ := r
    dsimp only [bind, Except.bind]
    cases hr : renderParts b.statements b.names [f.toPart] with
    | mk written names =>
      cases written with
      | error e => exact Or.inl ⟨e, rfl, rfl⟩
      | ok pieces =>
        exact Or.inr ⟨⟨Layout.render true pieces, Query.columns b.statements names.symbols f⟩,
          ⟨Layout.render false pieces, Query.columns b.statements names.symbols f⟩, rfl, rfl, rfl,
          Layout.removed_render pieces, f, b, pieces, names, rfl, hr, rfl, rfl,
          fun before between after _ hb => Layout.endsOpen_break before hb⟩

end RelSql
