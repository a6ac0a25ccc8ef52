/-
The constants of a modification never stand in its text. Changing constants commutes with compiling:
the text and the names of the parameters stay, and the parameters hold the constants in the order in
which they are written.
-/
import RelSql.Modification.Compile
import RelSql.Proofs.Outcomes
import RelSql.Query.Visit
import Mathlib.Tactic

namespace RelSql

open List hiding set

variable {n n' : Numbered}

/-! ## Changing constants -/

namespace Expr

section

variable (f : Constant → Constant)

mutual

/-- The expression with every constant changed, whatever its place. -/
def mapConstants : Expr → Expr
  | scan set => scan set
  | filter input predicate =>
    filter (input.with (mapConstants input.expr)) (mapConstants predicate)
  | project input projection =>
    project (input.with (mapConstants input.expr)) (mapConstants projection)
  | join kind left right condition =>
    join kind (left.with (mapConstants left.expr)) (right.with (mapConstants right.expr))
      (mapConstants condition)
  | crossJoin inputs => crossJoin (mapBindings inputs)
  | apply kind input applied =>
    apply kind (input.with (mapConstants input.expr))
      (applied.with (mapConstants applied.expr))
  | groupBy input keys aggregates =>
    groupBy (input.with (mapConstants input.expr)) (mapFields keys)
      (mapAggregates aggregates)
  | sort input keys => sort (input.with (mapConstants input.expr)) (mapKeys keys)
  | skip input keys count =>
    skip (input.with (mapConstants input.expr)) (mapKeys keys) (mapConstants count)
  | limit input count withTies => limit (mapConstants input) (mapConstants count) withTies
  | distinct input => distinct (mapConstants input)
  | setOp op left right => setOp op (mapConstants left) (mapConstants right)
  | element input => element (mapConstants input)
  | isEmpty input => isEmpty (mapConstants input)
  | quantifier q input predicate =>
    quantifier q (input.with (mapConstants input.expr)) (mapConstants predicate)
  | newCollection elementType items => newCollection elementType (mapItems items)
  | constant value => constant (f value)
  | null type => null type
  | property owner name => property (mapConstants owner) name
  | var name type => var name type
  | parameter name type => parameter name type
  | call function arguments => call function (mapItems arguments)
  | case branches otherwise => case (mapBranches branches) (mapOptional otherwise)
  | cast operand type => cast (mapConstants operand) type
  | arith op left right => arith op (mapConstants left) (mapConstants right)
  | negate operand => negate (mapConstants operand)
  | compare op left right => compare op (mapConstants left) (mapConstants right)
  | and left right => and (mapConstants left) (mapConstants right)
  | or left right => or (mapConstants left) (mapConstants right)
  | not operand => not (mapConstants operand)
  | isNull operand => isNull (mapConstants operand)
  | like operand pattern escape =>
    like (mapConstants operand) (mapConstants pattern) (mapOptional escape)
  | newRecord fields => newRecord (mapFields fields)
  | navigate source relationship => navigate (mapConstants source) relationship
  | typeTest test operand type => typeTest test (mapConstants operand) type
  | reference op operand => reference op (mapConstants operand)
  | lambda body => lambda (mapConstants body)

def mapItems : List Expr → List Expr
  | [] => []
  | e :: rest => mapConstants e :: mapItems rest

def mapOptional : Option Expr → Option Expr
  | none => none
  | some e => some (mapConstants e)

def mapFields : List (String × Expr) → List (String × Expr)
  | [] => []
  | (name, e) :: rest => (name, mapConstants e) :: mapFields rest

def mapBindings : List (Binding Expr) → List (Binding Expr)
  | [] => []
  | b :: rest => b.with (mapConstants b.expr) :: mapBindings rest

def mapKeys : List (SortKey Expr) → List (SortKey Expr)
  | [] => []
  | k :: rest => k.with (mapConstants k.expr) :: mapKeys rest

def mapAggregates : List (String × Aggregate Expr) → List (String × Aggregate Expr)
  | [] => []
  | (name, a) :: rest => (name, a.with (mapConstants a.argument)) :: mapAggregates rest

def mapBranches : List (Expr × Expr) → List (Expr × Expr)
  | [] => []
  | (condition, value) :: rest => (mapConstants condition, mapConstants value) :: mapBranches rest

end

end

mutual

/-- The constants that are written for an expression in a modification, from left to right. The owner
of a member is not written. -/
def written : Expr → List Constant
  | and left right => written left ++ written right
  | or left right => written left ++ written right
  | compare _ left right => written left ++ written right
  | isNull operand => written operand
  | not operand => written operand
  | constant value => [value]
  | newRecord fields => writtenFields fields
  | _ => []

def writtenFields : List (String × Expr) → List Constant
  | [] => []
  | (_, e) :: rest => written e ++ writtenFields rest

end

end Expr

namespace Word

def mapConstant (f : Constant → Constant) : Word → Word
  | text s => text s
  | value c => value (f c)
  | binds member => binds member

/-- The word without its constant. -/
def blank : Word → Word := mapConstant fun _ => .boolean false

@[simp] theorem blank_comp_mapConstant (f : Constant → Constant) : blank ∘ mapConstant f = blank := by
  funext w
  cases w <;> rfl

def constant? : Word → Option Constant
  | value c => some c
  | _ => none

/-- The constants among words. -/
def constants (ws : List Word) : List Constant := ws.filterMap constant?

section

variable (ws ws' : List Word)

@[simp] theorem constants_nil : constants [] = [] := rfl

@[simp] theorem constants_text (s : String) : constants (text s :: ws) = constants ws := rfl

@[simp] theorem constants_value (c : Constant) : constants (value c :: ws) = c :: constants ws := rfl

@[simp] theorem constants_binds (member : String) : constants (binds member :: ws) = constants ws := rfl

@[simp] theorem constants_append : constants (ws ++ ws') = constants ws ++ constants ws' := filterMap_append

theorem constants_intercalate (separator : String) (items : List (List Word)) :
    constants ([text separator].intercalate items) = items.flatMap constants := by
  induction items with
  | nil => rfl
  | cons item items ih =>
    cases items with
    | nil => simp [intercalate]
    | cons next items => rw [intercalate_cons_cons]; simp [ih]

end

/-- The text of words whose values are written by their numbers, counted from a number on. -/
def spell (name : Nat → String) : Nat → List Word → String
  | _, [] => ""
  | n, text s :: rest => s ++ spell name n rest
  | n, value _ :: rest => name n ++ spell name (n + 1) rest
  | n, binds _ :: rest => spell name n rest

/-- The text of words whose first value is number `n`. -/
abbrev textFrom (config : Config) : Nat → List Word → String :=
  spell fun n => config.parameterName ("p" ++ Digits.ofNat n)

end Word

namespace Modification

variable {α β : Type} {ws : List Word}

/-- The modification with every constant changed. -/
def mapConstants (f : Constant → Constant) : Modification → Modification
  | insert target assignments returning =>
    insert (target.with (target.expr.mapConstants f))
      (assignments.map fun a => ⟨a.property, a.value.mapConstants f⟩) returning
  | update target assignments predicate returning =>
    update (target.with (target.expr.mapConstants f))
      (assignments.map fun a => ⟨a.property, a.value.mapConstants f⟩) (predicate.mapConstants f) returning
  | delete target predicate returning =>
    delete (target.with (target.expr.mapConstants f)) (predicate.mapConstants f) returning

/-- The constants that are written for a modification, from left to right. An update that sets nothing
writes a zero. -/
def written : Modification → List Constant
  | insert _ assignments _ => assignments.flatMap fun a => a.value.written
  | update _ assignments predicate _ =>
    (if assignments.isEmpty then [.int32 0] else assignments.flatMap fun a => a.value.written) ++ predicate.written
  | delete _ predicate _ => predicate.written

/-- The modifications are the same but for the constants in them. -/
def SameShape (m m' : Modification) : Prop :=
  m.mapConstants (fun _ => .boolean false) = m'.mapConstants fun _ => .boolean false

/-! ## Words -/

section

variable (f : Constant → Constant)

theorem bindsIfConstant_mapConstants (member : String) (e : Expr) :
    bindsIfConstant member (e.mapConstants f) = (bindsIfConstant member e).map (Word.mapConstant f) := by
  cases e <;> rfl

theorem bindsIfMember_mapConstants (op : CompareOp) (left right : Expr) :
    bindsIfMember op (left.mapConstants f) (right.mapConstants f) =
      (bindsIfMember op left right).map (Word.mapConstant f) := by
  cases op <;> cases left <;> first | rfl | exact bindsIfConstant_mapConstants f _ right

theorem enclosed_mapConstant (op : String) (left right : List Word) :
    enclosed op (left.map (Word.mapConstant f)) (right.map (Word.mapConstant f)) =
      (enclosed op left right).map (Word.mapConstant f) := by
  simp [enclosed, Word.mapConstant]

theorem map_intercalate (g : α → β) (separator : List α) (items : List (List α)) :
    (separator.intercalate items).map g = (separator.map g).intercalate (items.map (map g)) := by
  induction items with
  | nil => rfl
  | cons item items ih =>
    cases items with
    | nil => simp [intercalate]
    | cons next items =>
      rw [map_cons, map_cons, intercalate_cons_cons, intercalate_cons_cons, map_append,
        map_append, ih, map_cons]

mutual

/-- Changed constants are changed words, and nothing else. -/
theorem words_mapConstants (e : Expr) :
    words (e.mapConstants f) = map (Word.mapConstant f) <$> words e := by
  cases e with
  | and left right | or left right =>
    simp [Expr.mapConstants, words, words_mapConstants left, words_mapConstants right, enclosed_mapConstant]
  | compare op left right =>
    simp [Expr.mapConstants, words, words_mapConstants left, words_mapConstants right, enclosed_mapConstant,
      bindsIfMember_mapConstants]
  | isNull operand | not operand => simp [Expr.mapConstants, words, words_mapConstants operand, Word.mapConstant]
  | scan set => simp [Expr.mapConstants, words, Word.mapConstant]
  | newRecord fields =>
    simp [Expr.mapConstants, words, fieldWords_mapConstants fields, map_intercalate, Word.mapConstant]
  | _ => rfl

theorem fieldWords_mapConstants (fields : List (String × Expr)) :
    fieldWords (Expr.mapFields f fields) = map (map (Word.mapConstant f)) <$> fieldWords fields := by
  match fields with
  | [] => rfl
  | (name, e) :: rest =>
    simp [Expr.mapFields, fieldWords, words_mapConstants e, fieldWords_mapConstants rest]

end

theorem assignmentWords_mapConstants (a : Assignment) : assignmentWords ⟨a.property, a.value.mapConstants f⟩ =
    map (Word.mapConstant f) <$> assignmentWords a := by
  simp [assignmentWords, words_mapConstants, bindsIfConstant_mapConstants]

theorem insertWords_mapConstants (assignments : List Assignment) :
    insertWords (assignments.map fun a => ⟨a.property, a.value.mapConstants f⟩) =
      map (Word.mapConstant f) <$> insertWords assignments := by
  unfold insertWords
  rw [isEmpty_map]
  split
  · rfl
  · simp [mapM_map_comm (assignmentWords_mapConstants f), map_intercalate, Word.mapConstant, Function.comp_def]

theorem setWords_mapConstants {assignments : List Assignment} (h : assignments ≠ []) :
    setWords (assignments.map fun a => ⟨a.property, a.value.mapConstants f⟩) =
      map (Word.mapConstant f) <$> setWords assignments := by
  have hitems : ∀ a : Assignment, (do
      let ws ← assignmentWords ⟨a.property, a.value.mapConstants f⟩
      return Word.text (a.property ++ " = ") :: ws) = map (Word.mapConstant f) <$> (do
      let ws ← assignmentWords a
      return Word.text (a.property ++ " = ") :: ws) := by
    intro a
    simp [assignmentWords_mapConstants, Word.mapConstant]
  have hmap := mapM_map_comm hitems assignments
  unfold setWords
  rw [isEmpty_map, if_neg (by simpa using h), if_neg (by simpa using h), mapM_map]
  simp only [Function.comp_def, hmap]
  simp [map_intercalate, Word.mapConstant]

theorem whereWords_mapConstants (predicate : Expr) : whereWords (predicate.mapConstants f) =
    map (Word.mapConstant f) <$> whereWords predicate := by
  simp [whereWords, words_mapConstants, Word.mapConstant]

theorem statementWords_mapConstants (name : String) (m : Modification) :
    map Word.blank <$> statementWords name (m.mapConstants f) =
      map Word.blank <$> statementWords name m := by
  cases m with
  | insert target assignments returning =>
    simp [mapConstants, statementWords, insertWords_mapConstants]
  | update target assignments predicate returning =>
    cases assignments with
    | nil =>
      -- the zero that is set stays as it is
      simp [mapConstants, statementWords, setWords, whereWords_mapConstants]
    | cons a rest =>
      rw [mapConstants, statementWords, statementWords, setWords_mapConstants f (cons_ne_nil a rest),
        whereWords_mapConstants]
      simp
  | delete target predicate returning =>
    simp [mapConstants, statementWords, whereWords_mapConstants]

end

/-! ## The constants that are written -/

theorem constants_bindsIfConstant (member : String) (e : Expr) : Word.constants (bindsIfConstant member e) = [] := by
  cases e <;> rfl

theorem constants_bindsIfMember (op : CompareOp) (left right : Expr) :
    Word.constants (bindsIfMember op left right) = [] := by
  cases op <;> cases left <;> first | rfl | exact constants_bindsIfConstant _ right

theorem constants_enclosed (op : String) (left right : List Word) :
    Word.constants (enclosed op left right) = Word.constants left ++ Word.constants right := by
  simp [enclosed]

mutual

theorem constants_of_words {e : Expr} {ws : List Word} (h : words e = .ok ws) : Word.constants ws = e.written := by
  cases e with
  | and left right | or left right =>
    simp only [words, bind_eq_ok] at h
    obtain ⟨ls, hl, rs, hr, h⟩ := h
    cases h
    rw [constants_enclosed, constants_of_words hl, constants_of_words hr, Expr.written]
  | compare op left right =>
    simp only [words, bind_eq_ok] at h
    obtain ⟨ls, hl, rs, hr, h⟩ := h
    cases h
    rw [Word.constants_append, constants_enclosed, constants_bindsIfMember, append_nil, constants_of_words hl,
      constants_of_words hr, Expr.written]
  | isNull operand | not operand =>
    simp only [words, bind_eq_ok] at h
    obtain ⟨ws, hw, h⟩ := h
    cases h
    simp [constants_of_words hw, Expr.written]
  | scan set =>
    simp only [words, bind_eq_ok] at h
    obtain ⟨name, -, h⟩ := h
    cases h
    rfl
  | newRecord fields =>
    simp only [words, bind_eq_ok] at h
    obtain ⟨items, hi, h⟩ := h
    cases h
    rw [Word.constants_intercalate, constants_of_fieldWords hi, Expr.written]
  | _ => cases h <;> rfl

theorem constants_of_fieldWords {fields : List (String × Expr)} {items : List (List Word)}
    (h : fieldWords fields = .ok items) : items.flatMap Word.constants = Expr.writtenFields fields := by
  match fields with
  | [] => cases h; rfl
  | (name, e) :: rest =>
    simp only [fieldWords, bind_eq_ok] at h
    obtain ⟨ws, hw, more, hm, h⟩ := h
    cases h
    rw [flatMap_cons, constants_of_words hw, constants_of_fieldWords hm, Expr.writtenFields]

end

/-! ## Parameters -/

/-- The parameter for the constant that is written as number `i`. -/
def parameterAt (config : Config) (i : Nat) (c : Constant) : ParameterRecord where
  name := config.parameterName ("p" ++ Digits.ofNat i)
  value := some c
  kind := c.kind

namespace Numbered

/-- What is left of a text when the values of its parameters are left out. -/
def template (n : Numbered) : String × List String × List (String × Nat) :=
  (n.text, n.parameters.map ParameterRecord.name, n.bound)

theorem template_eq_iff : n.template = n'.template ↔ n.text = n'.text ∧
    n.parameters.map ParameterRecord.name = n'.parameters.map ParameterRecord.name ∧ n.bound = n'.bound := by
  simp [template]

/-- A value adds a parameter whose name depends on the number of parameters alone. -/
theorem template_put (config : Config) (h : n.template = n'.template) (w : Word) :
    (n.put config w).template = (n'.put config w.blank).template := by
  obtain ⟨htext, hnames, hbound⟩ := template_eq_iff.1 h
  have hlength : n.parameters.length = n'.parameters.length := by
    simpa using congrArg length hnames
  cases w with
  | text s => simp [put, template, Word.blank, Word.mapConstant, htext, hnames, hbound]
  | value c => simp [put, template, Word.blank, Word.mapConstant, nextRecord, htext, hnames, hbound, hlength]
  | binds member => simp [put, template, Word.blank, Word.mapConstant, htext, hnames, hbound, hlength]

theorem template_ofWords (config : Config) (ws : List Word) :
    (ofWords config ws).template = (ofWords config (ws.map Word.blank)).template := by
  have hfold : ∀ (ws : List Word) (n n' : Numbered), n.template = n'.template →
      (ws.foldl (put config) n).template = ((ws.map Word.blank).foldl (put config) n').template := by
    intro ws
    induction ws with
    | nil => exact fun n n' h => h
    | cons w ws ih => exact fun n n' h => ih _ _ (template_put config h w)
  exact hfold ws {} {} rfl

/-- Putting words one by one spells them, and adds a parameter for each value. -/
theorem foldl_put (config : Config) (ws : List Word) (n : Numbered) :
    (ws.foldl (put config) n).text =
        n.text ++ Word.textFrom config n.parameters.length ws ∧
      (ws.foldl (put config) n).parameters =
        n.parameters ++ (Word.constants ws).mapIdx fun i => parameterAt config (n.parameters.length + i) := by
  induction ws generalizing n with
  | nil => simp [Word.spell]
  | cons w ws ih =>
    obtain ⟨htext, hparameters⟩ := ih (n.put config w)
    rw [foldl_cons, htext, hparameters]
    cases w with
    | text s => simp [put, Word.spell, String.append_assoc]
    | value c =>
      simp only [put, Word.spell, nextRecord, Word.constants_value, mapIdx_cons, length_append,
        length_singleton, String.append_assoc, append_assoc, singleton_append, true_and]
      simp [parameterAt, Nat.add_comm, Nat.add_left_comm]
    | binds member => simp [put, Word.spell]

theorem ofWords_spec (config : Config) (ws : List Word) :
    (ofWords config ws).text = Word.textFrom config 0 ws ∧
      (ofWords config ws).parameters = (Word.constants ws).mapIdx (parameterAt config) := by
  simpa [ofWords] using foldl_put config ws {}

/-- The parameters hold the constants in the order in which they come. -/
theorem values_ofWords (config : Config) (ws : List Word) :
    (ofWords config ws).parameters.map (fun p => (p.value, p.kind)) =
      (Word.constants ws).map fun c => (some c, c.kind) := by
  rw [(ofWords_spec config ws).2]
  exact ext_getElem? fun i => by simp [parameterAt, Function.comp_def]

theorem boundName?_of_template (h : n.template = n'.template) : n.boundName? = n'.boundName? := by
  obtain ⟨-, hnames, hbound⟩ := template_eq_iff.1 h
  funext member
  have hname : ∀ i : Nat, (n.parameters[i]?).map ParameterRecord.name = (n'.parameters[i]?).map ParameterRecord.name := by
    intro i
    rw [← getElem?_map, ← getElem?_map, hnames]
  unfold boundName?
  rw [hbound]
  cases n'.bound.lookup (Ident.key member) with
  | none => rfl
  | some i => simpa [Option.map_eq_bind, Function.comp_def] using hname i

end Numbered

/-! ## Compiling -/

theorem constants_of_mapM {g : α → Except Error (List Word)} {written : α → List Constant}
    (hg : ∀ a ws, g a = .ok ws → Word.constants ws = written a) {as : List α} {items : List (List Word)}
    (h : as.mapM g = .ok items) : items.flatMap Word.constants = as.flatMap written := by
  rw [flatMap_def, map_of_mapM hg h, flatMap_def]

theorem constants_of_assignmentWords {a : Assignment} (h : assignmentWords a = .ok ws) :
    Word.constants ws = a.value.written := by
  simp only [assignmentWords, bind_eq_ok] at h
  obtain ⟨ws, hw, h⟩ := h
  cases h
  rw [Word.constants_append, constants_of_words hw, constants_bindsIfConstant, append_nil]

theorem constants_of_whereWords {predicate : Expr} (h : whereWords predicate = .ok ws) :
    Word.constants ws = predicate.written := by
  simp only [whereWords, bind_eq_ok] at h
  obtain ⟨ws, hw, h⟩ := h
  cases h
  simp [constants_of_words hw]

theorem constants_of_setWords {assignments : List Assignment} (h : setWords assignments = .ok ws) :
    Word.constants ws =
      if assignments.isEmpty then [.int32 0] else assignments.flatMap fun a => a.value.written := by
  unfold setWords at h
  split
  · rename_i he
    rw [if_pos he] at h
    cases h; rfl
  · rename_i he
    rw [if_neg he] at h
    simp only [bind_eq_ok] at h
    obtain ⟨items, hi, h⟩ := h
    cases h
    rw [Word.constants_intercalate]
    refine constants_of_mapM (fun a ws ha => ?_) hi
    obtain ⟨ws', hw, ha⟩ := bind_eq_ok.1 ha
    cases ha
    rw [Word.constants_text, constants_of_assignmentWords hw]

/-- The words of a modification have its constants. -/
theorem constants_of_statementWords {name : String} {m : Modification} (h : statementWords name m = .ok ws) :
    Word.constants ws = m.written := by
  cases m with
  | insert target assignments returning =>
    simp only [statementWords, bind_eq_ok] at h
    obtain ⟨ws, hw, h⟩ := h
    cases h
    unfold insertWords at hw
    split at hw
    · rename_i he
      cases hw
      rw [isEmpty_iff.1 he]; rfl
    · simp only [bind_eq_ok] at hw
      obtain ⟨items, hi, hw⟩ := hw
      cases hw
      simp [Word.constants_intercalate, constants_of_mapM (fun _ _ => constants_of_assignmentWords) hi, written]
  | update target assignments predicate returning =>
    simp only [statementWords, bind_eq_ok] at h
    obtain ⟨sets, hs, condition, hc, h⟩ := h
    cases h
    simp [constants_of_setWords hs, constants_of_whereWords hc, written]
  | delete target predicate returning =>
    simp only [statementWords, bind_eq_ok] at h
    obtain ⟨condition, hc, h⟩ := h
    cases h
    simp [constants_of_whereWords hc, written]

/-- The target of a modification is a set, whose name has no constants. -/
theorem targetSet_mapConstants (f : Constant → Constant) (target : Binding Expr) :
    targetSet (target.with (target.expr.mapConstants f)) = targetSet target := by
  obtain ⟨e, var, type⟩ := target
  cases e <;> rfl

end Modification

/-- The text and the names of the parameters, without their values. -/
def CompiledModification.template (r : CompiledModification) : String × List String :=
  (r.text, r.parameters.map ParameterRecord.name)

namespace Modification

theorem readBack_mapConstants (f : Constant → Constant) (config : Config) (set : EntitySet) (m : Modification)
    (h : n.template = n'.template) :
    readBack config set (m.mapConstants f) n = readBack config set m n' := by
  unfold readBack
  rw [Numbered.boundName?_of_template h]
  cases m <;> rfl

/-- Changing constants changes neither the text nor the names of the parameters, nor an error. -/
theorem compile_mapConstants (f : Constant → Constant) (config : Config) (m : Modification) :
    CompiledModification.template <$> compile config (m.mapConstants f) =
      CompiledModification.template <$> compile config m := by
  have htarget : targetSet (m.mapConstants f).target = targetSet m.target := by
    cases m <;> exact targetSet_mapConstants f _
  unfold compile
  rw [htarget]
  cases targetSet m.target with
  | error e => rfl
  | ok set =>
    dsimp only [bind, Except.bind]
    cases targetName set with
    | error e => rfl
    | ok name =>
      dsimp only
      have hwords := statementWords_mapConstants f name m
      cases hws' : statementWords name (m.mapConstants f) with
      | error e' =>
        cases hws : statementWords name m with
        | error e => rw [hws', hws] at hwords; cases hwords; rfl
        | ok ws => rw [hws', hws] at hwords; cases hwords
      | ok ws' =>
        cases hws : statementWords name m with
        | error e => rw [hws', hws] at hwords; cases hwords
        | ok ws =>
          rw [hws', hws] at hwords
          have htemplate : (Numbered.ofWords config ws').template = (Numbered.ofWords config ws).template := by
            rw [Numbered.template_ofWords, Except.ok.inj hwords, ← Numbered.template_ofWords]
          dsimp only
          rw [readBack_mapConstants f config set m htemplate]
          cases readBack config set m (Numbered.ofWords config ws) with
          | error e => rfl
          | ok rest =>
            obtain ⟨htext, hnames, -⟩ := Numbered.template_eq_iff.1 htemplate
            exact congrArg Except.ok (Prod.ext (congrArg (· ++ rest) htext) hnames)

/-- The values of the parameters are the constants that are written. -/
theorem values_of_compile {config : Config} {m : Modification} {r : CompiledModification}
    (h : compile config m = .ok r) :
    r.parameters.map (fun p => (p.value, p.kind)) = m.written.map fun c => (some c, c.kind) := by
  simp only [compile, bind_eq_ok] at h
  obtain ⟨set, -, name, -, ws, hws, rest, -, h⟩ := h
  cases h
  rw [Numbered.values_ofWords, constants_of_statementWords hws]

/-- Modifications that differ only in their constants fail alike, or compile to one text with the same
names of parameters. The values of the parameters are the constants of each, one by one in the order
in which they are written. -/
theorem compile_of_sameShape (config : Config) {m m' : Modification} (h : m.SameShape m') :
    (∃ e, compile config m = .error e ∧ compile config m' = .error e) ∨
      ∃ r r', compile config m = .ok r ∧ compile config m' = .ok r' ∧ r.text = r'.text ∧
        r.parameters.map ParameterRecord.name = r'.parameters.map ParameterRecord.name ∧
        r.parameters.map (fun p => (p.value, p.kind)) = m.written.map (fun c => (some c, c.kind)) ∧
        r'.parameters.map (fun p => (p.value, p.kind)) = m'.written.map fun c => (some c, c.kind) := by
  have htemplate : CompiledModification.template <$> compile config m =
      CompiledModification.template <$> compile config m' := by
    rw [← compile_mapConstants (fun _ => .boolean false), h, compile_mapConstants]
  cases hm : compile config m with
  | error e =>
    rw [hm] at htemplate
    cases hm' : compile config m' with
    | error e' => rw [hm'] at htemplate; cases htemplate; exact Or.inl ⟨e, rfl, rfl⟩
    | ok r' => rw [hm'] at htemplate; cases htemplate
  | ok r =>
    rw [hm] at htemplate
    cases hm' : compile config m' with
    | error e' => rw [hm'] at htemplate; cases htemplate
    | ok r' =>
      rw [hm'] at htemplate
      obtain ⟨htext, hnames⟩ := Prod.mk.inj (Except.ok.inj htemplate)
      exact Or.inr ⟨r, r', rfl, rfl, htext, hnames, values_of_compile hm, values_of_compile hm'⟩

/-- An update of the name of one process, which reads the name back. -/
def renameProcess (name key : Constant) : Modification :=
  let processes : EntitySet :=
    { name := "process", members := [("id", .scalar .int64), ("name", .scalar .string)], keys := ["id"] }
  .update ((Expr.scan processes).bind "p") [⟨"name", .constant name⟩]
    (.compare .eq (.property (.var "p" processes.elementType) "id") (.constant key)) ["name"]

/-- A name that looks like text of a statement, and a key of another kind, are values all the same. -/
theorem renameProcess_same_text :
    (renameProcess (.string "svc") (.int64 4)).SameShape (renameProcess (.string "x'; DELETE FROM process; --") (.int32 7)) ∧
    ∃ r r', compile {} (renameProcess (.string "svc") (.int64 4)) = .ok r ∧
      compile {} (renameProcess (.string "x'; DELETE FROM process; --") (.int32 7)) = .ok r' ∧
      r.text = "UPDATE process\nSET name = @p0\nWHERE (id = @p1);\n" ++
        "SELECT name\nFROM process\nWHERE changes() > 0 AND id = @p1;\n" ∧ r.text = r'.text ∧
      r'.parameters.map ParameterRecord.value = [some (.string "x'; DELETE FROM process; --"), some (.int32 7)] := by
  refine ⟨rfl, ?_⟩
  rcases compile_of_sameShape {} (show (renameProcess (.string "svc") (.int64 4)).SameShape
    (renameProcess (.string "x'; DELETE FROM process; --") (.int32 7)) from rfl) with
    ⟨e, h, -⟩ | ⟨r, r', h, h', htext, -, -, hvalues⟩
  · have hok : (compile {} (renameProcess (.string "svc") (.int64 4))).isOk = true := by decide +kernel
    rw [h] at hok; cases hok
  · have hr : (compile {} (renameProcess (.string "svc") (.int64 4))).toOption.map CompiledModification.text =
        some ("UPDATE process\nSET name = @p0\nWHERE (id = @p1);\n" ++
          "SELECT name\nFROM process\nWHERE changes() > 0 AND id = @p1;\n") := by decide +kernel
    rw [h] at hr
    refine ⟨r, r', h, h', Option.some.inj hr, htext, ?_⟩
    have := congrArg (List.map Prod.fst) hvalues
    rwa [List.map_map] at this

end Modification

end RelSql
