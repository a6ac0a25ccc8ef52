/-
Writing text with holes. Names are settled and text is laid out in the same way whatever is put into
the holes: the statements and symbols that decide it have none, and of the text itself a layout looks
at the last character only, which a literal always has the same.
-/
import RelSql.Proofs.Build.Templates
import RelSql.Statement.Render

namespace RelSql

/-- A piece that may be a hole for the literal of a string. -/
inductive Piece.Template where
  | text (text : String)
  | literal (label : String)
  | name (symbol : SymbolId) (text : String)
  | line
  | enter (statement : StatementId)
  | leave

def Piece.Template.fill (ρ : Wording) : Piece.Template → Piece
  | text s => .text s
  | literal label => .text (Quoted.quote (ρ.string label))
  | name i s => .name i s
  | line => .line
  | enter i => .enter i
  | leave => .leave

/-- A piece without holes. -/
def Piece.asTemplate : Piece → Piece.Template
  | text s => .text s
  | name i s => .name i s
  | line => .line
  | enter i => .enter i
  | leave => .leave

theorem Piece.fill_asTemplate (ρ : Wording) (p : Piece) : p.asTemplate.fill ρ = p := by cases p <;> rfl

/-! ## Settling names -/

namespace Render

/-- The steps for all values are one step that gives a template; `f` fills it. -/
def Uniform {τ α : Type} (f : Wording → τ → α) (m : Wording → Render α) : Prop :=
  ∃ step : Render τ, ∀ ρ, m ρ = f ρ <$> step

/-- The steps write pieces. -/
abbrev Writes (m : Wording → Render (List Piece)) : Prop :=
  Uniform (fun ρ (ps : List Piece.Template) => ps.map (Piece.Template.fill ρ)) m

section

variable {τ υ α β : Type} {f : Wording → τ → α} {g : Wording → υ → β}

theorem uniform_pure {x : Wording → α} (a : τ) (h : ∀ ρ, x ρ = f ρ a) : Uniform f fun ρ => pure (x ρ) :=
  ⟨pure a, fun ρ => (congrArg pure (h ρ)).trans (map_pure (f ρ) a).symm⟩

theorem uniform_throw (e : Error) : Uniform f fun _ => throw e := ⟨throw e, fun _ => rfl⟩

theorem uniform_same (m : Render α) : Uniform (fun _ a => a) fun _ => m := ⟨m, fun _ => (id_map m).symm⟩

theorem Uniform.bind {m : Wording → Render α} {k : Wording → α → Render β} (hm : Uniform f m)
    (hk : ∀ a, Uniform g fun ρ => k ρ (f ρ a)) : Uniform g fun ρ => m ρ >>= k ρ := by
  obtain ⟨step, hstep⟩ := hm
  choose next hnext using hk
  refine ⟨step >>= next, fun ρ => ?_⟩
  dsimp only
  rw [hstep, bind_map_left, map_bind]
  exact congrArg _ (funext fun a => hnext a ρ)

end

/-- A step that has nothing to do with holes. -/
theorem writes_same (m : Render (List Piece)) : Writes fun _ => m := by
  refine ⟨List.map Piece.asTemplate <$> m, fun ρ => ?_⟩
  have hid : (List.map (Piece.Template.fill ρ) ∘ List.map Piece.asTemplate) = id := by
    funext ps
    simp [Function.comp_def, Piece.fill_asTemplate]
  rw [← comp_map, hid, id_map]

section

variable {nested : Wording → StatementId → Render (List Piece)}

mutual

theorem writes_part (h : ∀ i, Writes fun ρ => nested ρ i) (p : Part.Template) :
    Writes fun ρ => part (nested ρ) (p.fill ρ) := by
  cases p with
  | text s => exact uniform_pure [.text s] fun _ => rfl
  | literal label => exact uniform_pure [.literal label] fun _ => rfl
  | line => exact uniform_pure [.line] fun _ => rfl
  | symbol i => exact writes_same (Render.symbol i)
  | group ps => simpa [part] using writes_parts h ps
  | statement i => exact h i

theorem writes_parts (h : ∀ i, Writes fun ρ => nested ρ i) (ps : List Part.Template) :
    Writes fun ρ => parts (nested ρ) (ps.map (Part.Template.fill ρ)) := by
  match ps with
  | [] => exact uniform_pure [] fun _ => rfl
  | p :: rest =>
    exact (writes_part h p).bind fun first => (writes_parts h rest).bind fun more =>
      uniform_pure (first ++ more) (by simp)

end

variable (h : ∀ i, Writes fun ρ => nested ρ i)

include h

theorem writes_clause (keyword : String) (ps : List Part.Template) :
    Writes fun ρ => clause (nested ρ) keyword (ps.map (Part.Template.fill ρ)) := by
  unfold clause
  simp only [List.isEmpty_map]
  split
  · exact uniform_pure [] fun _ => rfl
  · exact (writes_parts h ps).bind fun body => uniform_pure (.line :: .text keyword :: body) fun _ => rfl

theorem writes_count (keyword : String) (o : Option (List Part.Template)) :
    Writes fun ρ => count (nested ρ) keyword (o.map (List.map (Part.Template.fill ρ))) := by
  cases o with
  | none => exact uniform_pure [] fun _ => rfl
  | some ps => exact (writes_parts h ps).bind fun body => uniform_pure (.text keyword :: body) fun _ => rfl

theorem writes_clauses (s : Statement.Template) : Writes fun ρ => clauses (nested ρ) (s.fill ρ) := by
  have hordering : ∀ ρ, (if ((s.fill ρ).topMost || (s.fill ρ).top.isSome || (s.fill ρ).skip.isSome) = true
      then (s.fill ρ).ordering else []) =
        (if (s.base.topMost || s.top.isSome || s.skip.isSome) = true then s.ordering else []).map (Part.Template.fill ρ) := by
    intro ρ
    simp only [Statement.Template.fill, Option.isSome_map]
    split <;> rfl
  let head : List Piece := .text "SELECT " :: if s.base.distinct then [.text "DISTINCT "] else []
  have hhead : ∀ ρ, (Piece.text "SELECT " :: if (s.fill ρ).distinct = true then [.text "DISTINCT "] else []) = head :=
    fun _ => rfl
  unfold clauses
  simp only [hordering, hhead]
  simp only [Statement.Template.fill, List.isEmpty_map]
  split
  · exact uniform_throw _
  refine (writes_parts h s.selectList).bind fun selectList => (writes_clause h _ s.fromList).bind fun fromList => ?_
  refine (writes_clause h _ s.condition).bind fun condition => (writes_clause h _ s.grouping).bind fun grouping => ?_
  refine (writes_clause h _ _).bind fun ordering => (writes_count h _ s.top).bind fun top => ?_
  refine (writes_count h _ s.skip).bind fun skip => ?_
  refine uniform_pure (head.map Piece.asTemplate ++ selectList ++ fromList ++ condition ++ grouping ++ ordering ++ top ++
    skip) fun ρ => ?_
  simp [Function.comp_def, Piece.fill_asTemplate]

end

theorem writes_statement (statements : Array Statement.Template) (depth : Nat) (i : StatementId) :
    Writes fun ρ => statement (statements.map (Statement.Template.fill ρ)) depth i := by
  induction depth generalizing i with
  | zero => exact uniform_throw _
  | succ depth ih =>
    unfold statement
    simp only [Build.get_map_fill]
    refine (uniform_same (resolveAliases (statements.getD i {}).base)).bind fun _ => ?_
    refine (writes_clauses ih _).bind fun body => ?_
    exact uniform_pure (.enter i :: body ++ [.leave]) fun ρ => by simp [Piece.Template.fill]

end Render

/-! ## Laying out -/

/-- Text, or a hole for the literal of the string that `hole` tells. -/
inductive TextPiece (ι : Type) where
  | text (text : String)
  | hole (hole : ι)

namespace TextPiece

variable {ι : Type}

def fill (values : ι → String) : TextPiece ι → String
  | text s => s
  | hole i => Quoted.quote (values i)

@[simp] theorem fill_text (values : ι → String) (s : String) : (text s).fill values = s := rfl

@[simp] theorem fill_hole (values : ι → String) (i : ι) : (hole i).fill values = Quoted.quote (values i) := rfl

/-- The pieces with a literal in each hole. -/
def fillAll (values : ι → String) (ps : List (TextPiece ι)) : String := String.join (ps.map (fill values))

end TextPiece

namespace Layout

/-- The layouts for all values are in one place: at the same margin, with text that has holes for the values, and its
last character open for all or for none. -/
structure Uniform (l : Wording → Layout) : Prop where
  template : ∃ (base : Layout) (ps : List (TextPiece String)), ∀ ρ,
    l ρ = { base with reversed := (TextPiece.fillAll ρ.string ps).toList.reverse }
  isOpen : ∃ flag, ∀ ρ, isOpen (l ρ).reversed = flag

variable {l : Wording → Layout}

theorem uniform_start (pretty : Bool) : Uniform fun _ => start pretty :=
  ⟨⟨start pretty, [], fun _ => rfl⟩, true, fun _ => rfl⟩

/-- Text that is not empty and ends in the same way for all values. -/
theorem Uniform.append (h : Uniform l) (p : TextPiece String) (hne : ∀ ρ : Wording, (p.fill ρ.string).isEmpty = false)
    (hlast : ∃ flag, ∀ (ρ : Wording) rest, Layout.isOpen ((p.fill ρ.string).toList.reverse ++ rest) = flag) :
    Uniform fun ρ => (l ρ).write (p.fill ρ.string) := by
  obtain ⟨⟨base, ps, ht⟩, -⟩ := h
  obtain ⟨flag, hflag⟩ := hlast
  let margin := if base.atLineStart then List.replicate base.indent.toNat '\t' else []
  have hwrite : ∀ ρ, (l ρ).write (p.fill ρ.string) = { base with
      reversed := (TextPiece.fillAll ρ.string (ps ++ [.text (String.ofList margin.reverse), p])).toList.reverse
      atLineStart := false } := by
    intro ρ
    rw [Layout.write, hne, if_neg Bool.false_ne_true, ht]
    simp [TextPiece.fillAll, margin]
  refine ⟨⟨{ base with atLineStart := false }, _, hwrite⟩, flag, fun ρ => ?_⟩
  rw [hwrite]
  simp [TextPiece.fillAll, hflag]

theorem Uniform.writeText (h : Uniform l) (s : String) : Uniform fun ρ => (l ρ).write s := by
  cases hs : s.isEmpty with
  | true => simpa [Layout.write, hs] using h
  | false =>
    refine h.append (.text s) (fun _ => hs) ⟨Layout.isOpen s.toList.reverse, fun ρ rest => ?_⟩
    have hne : s.toList.reverse ≠ [] := by simpa using hs
    obtain ⟨c, cs, hc⟩ := List.exists_cons_of_ne_nil hne
    simp [hc, Layout.isOpen]

/-- A literal ends in a quote. -/
theorem Uniform.writeLiteral (h : Uniform l) (label : String) :
    Uniform fun ρ => (l ρ).write (Quoted.quote (ρ.string label)) := by
  refine h.append (.hole label) (fun ρ => ?_) ⟨false, fun ρ rest => ?_⟩
  · simp [Quoted.quote]
  · simp [Quoted.quote, Layout.isOpen]

theorem Uniform.line (h : Uniform l) : Uniform fun ρ => (l ρ).line := by
  obtain ⟨⟨base, ps, ht⟩, flag, hflag⟩ := h
  have hpretty : ∀ ρ, (l ρ).pretty = base.pretty := fun ρ => by rw [ht]
  unfold Layout.line
  simp only [hpretty, hflag]
  split
  · refine ⟨⟨{ base with atLineStart := true }, ps ++ [.text "\n"], fun ρ => ?_⟩, false, fun ρ => rfl⟩
    rw [ht]
    simp [TextPiece.fillAll]
  · split
    · exact ⟨⟨base, ps, ht⟩, flag, hflag⟩
    · refine ⟨⟨base, ps ++ [.text " "], fun ρ => ?_⟩, true, fun ρ => rfl⟩
      rw [ht]
      simp [TextPiece.fillAll]

/-- A change of the margin. -/
theorem Uniform.indent (h : Uniform l) (change : Int → Int) :
    Uniform fun ρ => { l ρ with indent := change (l ρ).indent } := by
  obtain ⟨⟨base, ps, ht⟩, flag, hflag⟩ := h
  exact ⟨⟨{ base with indent := change base.indent }, ps, fun ρ => by rw [ht]⟩, flag, hflag⟩

theorem Uniform.put (h : Uniform l) (p : Piece.Template) : Uniform fun ρ => (l ρ).put (p.fill ρ) := by
  cases p with
  | text s | name i s => exact h.writeText s
  | literal label => exact h.writeLiteral label
  | line => exact h.line
  | enter i => exact h.indent (· + 1)
  | leave => exact h.indent (· - 1)

theorem Uniform.foldl (h : Uniform l) (ps : List Piece.Template) :
    Uniform fun ρ => (ps.map (Piece.Template.fill ρ)).foldl Layout.put (l ρ) := by
  induction ps generalizing l with
  | nil => exact h
  | cons p rest ih => exact ih (h.put p)

/-- Pieces with holes are laid out as text with holes. -/
theorem exists_render_eq_fillAll (pretty : Bool) (ps : List Piece.Template) : ∃ t : List (TextPiece String), ∀ ρ,
    render pretty (ps.map (Piece.Template.fill ρ)) = TextPiece.fillAll ρ.string t := by
  obtain ⟨base, t, ht⟩ := ((uniform_start pretty).foldl ps).template
  refine ⟨t, fun ρ => ?_⟩
  simp [render, Layout.text, ht]

end Layout

end RelSql
