/-
Scalar expressions in the text of a query. An operand of a binary operator stands in parentheses unless
it binds tight anyway, but the operands of `IS NULL` and `LIKE` never do. So the text of an expression
is read as the expression if these bind tight enough, and if no key is compared with a test for null in
a disjunction that is written by keys. Where they do not, it is read as something else.
-/
import RelSql.Proofs.Query.ScalarValue
import RelSql.Proofs.Statement.FlatText

namespace RelSql

open RelSql.Part Digits Build KeyedLists List Condition

variable {name s v : String} {e : Expr} {asTruth : Bool}

/-! ## Steps that change no names -/

namespace Build

/-- The step gives `a` whatever the statements are, and changes nothing but statements. -/
def Yields {α : Type} (b : Build) (m : BuildM α) (a : α) : Prop :=
  ∀ statements, ∃ statements', Runs m { b with statements } a { b with statements := statements' }

section

variable {α β : Type} {b : Build}

theorem Yields.pure (a : α) : Yields b (pure a) a := fun statements => ⟨statements, runs_pure.2 ⟨rfl, rfl⟩⟩

theorem Yields.bind {m : BuildM α} {f : α → BuildM β} {a : α} {c : β} (hm : Yields b m a) (hf : Yields b (f a) c) :
    Yields b (m >>= f) c := by
  intro statements
  obtain ⟨statements1, hm⟩ := hm statements
  obtain ⟨statements2, hf⟩ := hf statements1
  exact ⟨statements2, runs_bind.2 ⟨a, _, hm, hf⟩⟩

theorem yields_lift {x : Except Error α} {a : α} (h : x = .ok a) : Yields b (liftM x : BuildM α) a :=
  fun statements => ⟨statements, runs_lift.2 ⟨h, rfl⟩⟩

end

/-- The alias of a variable that stands for a plain extent, as it is written with the names `ν`. -/
def aliasOf (b : Build) (ν : Names) (v : String) : Option String :=
  (b.scopes.lookup? v).bind fun x =>
    if (b.names.symbols.get x).isJoin then none else flat? ν (.symbol x)

theorem aliasOf_same {b : Build} {ν : Names} {w : String} (h : Ident.same v w = true) :
    b.aliasOf ν v = b.aliasOf ν w := by
  unfold aliasOf Scopes.lookup?
  rw [Ident.same_iff.1 h]

/-- A member of a variable is written behind the extent of the variable. -/
theorem yields_member {config : Config} {b : Build} (hpending : b.pendingVariable = false)
    (hbuilding : b.building ≠ []) {x : SymbolId} (type : DataType) (hx : b.scopes.lookup? v = some x)
    (hplain : (b.names.symbols.get x).join = none) :
    Yields b ((Expr.property (.var v type) name).build config) (.parts [.symbol x, .text ".", .text name]) := by
  obtain ⟨names, initial, building, joins, scopes, pending⟩ := b
  obtain ⟨i, rest, rfl⟩ := exists_cons_of_ne_nil hbuilding
  cases hpending
  intro statements
  refine ⟨markedOuter x (i :: rest) statements, ?_⟩
  have hrow : Runs (rowVariable v) ⟨names, statements, i :: rest, joins, scopes, false⟩ (.symbol x)
      ⟨names, markedOuter x (i :: rest) statements, i :: rest, joins, scopes, true⟩ := by
    simp [rowVariable, runs_current, hx, runs_markOuter]
  change Runs (member ⟨.var v type, rowVariable v⟩ name) _ _ _
  simp only [member, runs_bind]
  refine ⟨_, _, hrow, ?_⟩
  simp [Expr.isVariable, memberOfSymbol, hplain]

end Build

/-! ## How tight texts bind -/

namespace Expr

/-- How tight the text of an expression binds in a query. -/
def textLevel : Expr → Nat
  | constant c => if c.integer?.any (· < 0) then 7 else 8
  | arith op _ _ => (BinaryOp.arith op).level
  | negate _ => 7
  | and .. => 2
  | or left right =>
    if (gathered? (or left right)).isSome then (if gatheredParenthesized (or left right) then 8 else 4) else 1
  | not (not operand) => textLevel operand
  | compare .. | isNull _ | like .. | not (isNull _) | not (compare .eq _ _) => 4
  | not _ => 3
  | _ => 8

theorem one_le_textLevel (e : Expr) : 1 ≤ e.textLevel := by
  fun_induction textLevel e with
  | case3 op => exact (BinaryOp.arith op).level_bounds.1
  | case9 operand ih => exact ih
  | _ => decide

/-- What stands without parentheses binds tighter than every binary operator. -/
theorem seven_le_textLevel (h : e.needsParentheses = false) : 7 ≤ e.textLevel := by
  cases e with
  | constant c => unfold textLevel; split <;> decide
  | parameter name type | property owner name => show 7 ≤ 8; decide
  | or left right =>
    have hgathered : gatheredParenthesized (or left right) = true := by simpa [needsParentheses] using h
    have hsome : (gathered? (or left right)).isSome = true := by
      unfold gatheredParenthesized at hgathered
      cases hg : gathered? (or left right) with
      | none => rw [hg] at hgathered; cases hgathered
      | some groups => rfl
    rw [textLevel, if_pos hsome, if_pos hgathered]
    decide
  | _ => cases h

/-- What is tested for null or matched binds tight enough to stand there without parentheses, and what
is written by keys compares none with a test for null. -/
def textTight : Expr → Bool
  | isNull operand => decide (4 ≤ operand.textLevel) && textTight operand
  | like operand pattern none =>
    decide (4 ≤ operand.textLevel) && decide (5 ≤ pattern.textLevel) && (textTight operand && textTight pattern)
  | like operand pattern (some escape) =>
    decide (4 ≤ operand.textLevel) && decide (5 ≤ pattern.textLevel) && decide (5 ≤ escape.textLevel) &&
      (textTight operand && (textTight pattern && textTight escape))
  | or left right =>
    !((gathered? (or left right)).isSome && comparesNullTest (or left right)) && (textTight left && textTight right)
  | arith _ left right | compare _ left right | and left right => textTight left && textTight right
  | negate operand | not operand => textTight operand
  | _ => true
termination_by structural e => e

end Expr

/-! ## Written conditions -/

section

variable {ν : Names}

/-- The parts are on one line, and their text has this tree at this level. -/
def Written (ν : Names) (ps : List Part) (k : Nat) (t : Tree) : Prop :=
  ∃ text ts, flats? ν ps = some text ∧ Lexes text ts ∧ Derives k ts t

namespace Written

variable {ps qs : List Part} {j k : Nat} {t u : Tree}

theorem mono (h : Written ν ps k t) (hjk : j ≤ k) : Written ν ps j t := by
  obtain ⟨text, ts, htext, hl, hd⟩ := h
  exact ⟨text, ts, htext, hl, hd.mono hjk⟩

theorem group (h : Written ν ps k t) : Written ν [.group ps] k t := by
  rwa [Written, flats?_group]

/-- Parts of one text, which is an atom. -/
theorem atom {a : Atom} (h : Lexes s [.atom a]) : Written ν [.text s] 8 (.atom a) :=
  ⟨s, _, flats?_text s, h, .atom a⟩

theorem enclosed {tokens : List Token} (hs : Ends s (tokens ++ [.lparen])) (h : Written ν ps 1 t) :
    ∃ text ts, flats? ν ([.text s] ++ ps ++ [.text ")"]) = some text ∧ Lexes text (tokens ++ ts) ∧ Derives 8 ts t := by
  obtain ⟨text, ts, htext, hl, hd⟩ := h
  refine ⟨_, .lparen :: (ts ++ [.rparen]), flats?_append (flats?_append (flats?_text s) htext)
    (flats?_text ")"), ?_, hd.group⟩
  have hlexes := ((hs.append_lexes hl).append_ends (by decide) ends_rparen).lexes
  simpa using hlexes

theorem parens (h : Written ν ps 1 t) : Written ν ([.text "("] ++ ps ++ [.text ")"]) 8 t := by
  have hparen : Ends "(" ([] ++ [.lparen]) := ends_lparen
  exact h.enclosed hparen

/-- A sign or a negation before parentheses. -/
theorem unary (op : UnaryOp) (hs : Ends s [op.token, .lparen]) (h : Written ν ps 1 t) :
    Written ν ([.text s] ++ ps ++ [.text ")"]) op.level (.unary op t) := by
  have hs : Ends s ([op.token] ++ [.lparen]) := hs
  obtain ⟨text, ts, htext, hl, hd⟩ := h.enclosed hs
  have hlevel : op.level ≤ 8 := by cases op <;> decide
  exact ⟨text, _, htext, hl, (hd.mono hlevel).unary op⟩

theorem binary (op : BinaryOp) (hs : Ends s [.operator op]) (hapart : startsApart s = true) (hl : Written ν ps j t)
    (hr : Written ν qs k u) (hj : op.level ≤ j) (hk : op.level + 1 ≤ k) :
    Written ν (ps ++ [.text s] ++ qs) op.level (.binary op t u) := by
  obtain ⟨left, ls, hleft, hll, hdl⟩ := hl
  obtain ⟨right, rs, hright, hlr, hdr⟩ := hr
  refine ⟨_, _, flats?_append (flats?_append hleft (flats?_text s)) hright,
    (hll.append_ends hapart hs).append_lexes hlr, ?_⟩
  have hd := (hdl.mono hj).binary op (hdr.mono hk)
  simpa using hd

theorem isNull (negated : Bool) (h : Written ν ps 4 t) :
    Written ν (ps ++ [.text (if negated then " IS NOT NULL" else " IS NULL")]) 4 (.isNull negated t) := by
  obtain ⟨text, ts, htext, hl, hd⟩ := h
  refine ⟨_, _, flats?_append htext (flats?_text _), ?_, hd.isNull negated⟩
  cases negated with
  | false => exact hl.append (by decide) lexes_isNull
  | true => exact hl.append (by decide) lexes_isNotNull

theorem like (h : Written ν ps 4 t) (hp : Written ν qs 5 u) : Written ν (ps ++ [.text " LIKE "] ++ qs) 4 (.like t u) := by
  obtain ⟨text, ts, htext, hl, hd⟩ := h
  obtain ⟨pattern, us, hpattern, hlp, hdp⟩ := hp
  refine ⟨_, _, flats?_append (flats?_append htext (flats?_text _)) hpattern,
    (hl.append_ends (by decide) ends_like).append_lexes hlp, ?_⟩
  simpa using hd.like hdp

theorem likeEscape {es : List Part} {e : Tree} (h : Written ν ps 4 t) (hp : Written ν qs 5 u) (he : Written ν es 5 e) :
    Written ν (ps ++ [.text " LIKE "] ++ qs ++ [.text " ESCAPE "] ++ es) 4 (.likeEscape t u e) := by
  obtain ⟨text, ts, htext, hl, hd⟩ := h
  obtain ⟨pattern, us, hpattern, hlp, hdp⟩ := hp
  obtain ⟨escape, vs, hescape, hle, hde⟩ := he
  refine ⟨_, _, flats?_append (flats?_append (flats?_append (flats?_append htext
    (flats?_text _)) hpattern) (flats?_text _)) hescape,
    ((((hl.append_ends (by decide) ends_like).append_lexes hlp).append_ends (by decide) ends_escape).append_lexes hle), ?_⟩
  simpa using hd.likeEscape hdp hde

/-- Items with commas between them. -/
theorem items {l : List (Part × Tree)} (hne : l ≠ []) (h : ∀ i ∈ l, Written ν [i.1] 1 i.2) :
    ∃ (text : String) (items : List (List Token × Tree)), flats? ν ([.text ","].intercalate (l.map fun i => [i.1])) = some text ∧
      Lexes text ([.comma].intercalate (items.map Prod.fst)) ∧ items.map Prod.snd = l.map Prod.snd ∧
      ∀ i ∈ items, Derives 1 i.1 i.2 := by
  induction l with
  | nil => exact absurd rfl hne
  | cons i rest ih =>
    obtain ⟨⟨first, ts, hfirst, hl, hd⟩, hrest⟩ := forall_mem_cons.1 h
    cases rest with
    | nil => exact ⟨first, [(ts, i.2)], by simpa using hfirst, by simpa using hl, rfl, forall_mem_singleton.2 hd⟩
    | cons j rest =>
      obtain ⟨text, items, htext, hlexes, hitems, hall⟩ := ih (cons_ne_nil _ _) hrest
      refine ⟨first ++ "," ++ text, (ts, i.2) :: items, ?_, ?_, by simp [hitems], forall_mem_cons.2 ⟨hd, hall⟩⟩
      · rw [map_cons, map_cons, intercalate_cons_cons]
        exact flats?_append (flats?_append hfirst (flats?_text ",")) htext
      · cases items with
        | nil => cases hitems
        | cons next items =>
          rw [map_cons, map_cons, intercalate_cons_cons]
          exact (hl.append_ends (by decide) ends_comma).append_lexes hlexes

theorem among {l : List (Part × Tree)} (ht : Written ν ps 4 t) (hne : l ≠ []) (h : ∀ i ∈ l, Written ν [i.1] 1 i.2) :
    Written ν (ps ++ [.text " IN ("] ++ [.text ","].intercalate (l.map fun i => [i.1]) ++ [.text ")"]) 4
      (.among t (l.map Prod.snd)) := by
  obtain ⟨text, ts, htext, hl, hd⟩ := ht
  obtain ⟨list, items, hlist, hlexes, hitems, hall⟩ := items hne h
  refine ⟨_, _, flats?_append (flats?_append (flats?_append htext (flats?_text _)) hlist)
    (flats?_text _), (((hl.append_ends (by decide) ends_inParen).append_lexes hlexes).append_ends (by decide)
    ends_rparen).lexes, ?_⟩
  have hitemsne : items ≠ [] := by
    rintro rfl
    exact hne (map_eq_nil_iff.1 hitems.symm)
  rw [← hitems]
  simpa using hd.among hitemsne hall

/-- Conditions with `OR` between them; one alone stands as it is. -/
theorem disjunction {l : List (List Part × Tree)} (hne : l ≠ []) (h : ∀ i ∈ l, Written ν i.1 4 i.2) :
    ∃ t, Written ν ([.text " OR "].intercalate (l.map Prod.fst)) (if l.length > 1 then 1 else 4) t ∧
      ∀ {V : Type} (ι : Interpretation V) (truths : List (Option Bool)),
        l.map (fun i => ι.ofTree i.2) = truths.map (Option.map ι.ofBool) → ι.ofTree t = (anyOf truths).map ι.ofBool := by
  induction l using reverseRecOn with
  | nil => exact absurd rfl hne
  | append_singleton rest i ih =>
    obtain ⟨hrest, hi⟩ := forall_mem_append.1 h
    have hi := hi i mem_cons_self
    by_cases hnil : rest = []
    · subst hnil
      refine ⟨i.2, by simpa using hi, fun ι truths htruths => ?_⟩
      obtain ⟨x, rfl⟩ : ∃ x, truths = [x] := by
        have hlength := congrArg length htruths
        simpa [length_eq_one_iff] using hlength.symm
      rw [anyOf_singleton]
      simpa using htruths
    · obtain ⟨t, ht, hvalue⟩ := ih hnil hrest
      refine ⟨.binary .or t i.2, ?_, fun ι truths htruths => ?_⟩
      · have hlevel : 1 ≤ if rest.length > 1 then 1 else 4 := by split <;> decide
        have hlength : (rest ++ [i]).length > 1 := by
          have := length_pos_iff.2 hnil
          simp
          omega
        rw [map_append, KeyTest.intercalate_append (by simpa using hnil) (by simp), if_pos hlength]
        exact ht.binary .or ends_or (by decide) (by simpa using hi) hlevel (by decide)
      · rw [map_append] at htruths
        obtain ⟨before, last, rfl, hbefore, hlast⟩ := map_eq_append_iff.1 htruths.symm
        obtain ⟨x, rfl⟩ : ∃ x, last = [x] := by
          have hlength := congrArg length hlast
          simpa [length_eq_one_iff] using hlength
        have hx : ι.ofTree i.2 = x.map ι.ofBool := by simpa using hlast.symm
        change ι.binary .or (ι.ofTree t) (ι.ofTree i.2) = _
        rw [hvalue ι before hbefore.symm, hx, anyOf_append, anyOf_singleton]
        exact congrArg (Option.map ι.ofBool) (congrArg₂ either (ι.truth_ofBool _) (ι.truth_ofBool _))

end Written

end

/-! ## Expressions that read as written -/

section

variable {left right : Expr} {values : List Expr} {groups : KeyedLists Expr Expr}

variable {config : Config} {b : Build} {ν : Names}

/-- The expression is built, and its text has a tree with the value of the expression, or at least its
truth if only that counts. -/
def Reads (config : Config) (b : Build) (ν : Names) (asTruth : Bool) (e : Expr) : Prop :=
  ∃ f t, b.Yields (e.build config) f ∧ Written ν [f.toPart] e.textLevel t ∧
    ∀ {V : Type} (ι : Interpretation V), ι.Agrees asTruth (ι.ofTree t) (ι.ofExpr config (b.aliasOf ν) e)

/-- The same for an operand in the parentheses that it needs. -/
def OperandReads (config : Config) (b : Build) (ν : Names) (asTruth : Bool) (e : Expr) : Prop :=
  ∃ p t, b.Yields (parenthesized (e.toOperand config)) p ∧ Written ν [p] 7 t ∧
    ∀ {V : Type} (ι : Interpretation V), ι.Agrees asTruth (ι.ofTree t) (ι.ofExpr config (b.aliasOf ν) e)

theorem Reads.operand (h : Reads config b ν asTruth e) : OperandReads config b ν asTruth e := by
  obtain ⟨f, t, hbuild, hwritten, hvalue⟩ := h
  cases hneeds : e.needsParentheses with
  | true =>
    refine ⟨.group [.text "(", f.toPart, .text ")"], t, hbuild.bind ?_, ?_, hvalue⟩
    · simp only [Expr.toOperand, hneeds, if_true]
      exact .pure _
    · exact ((hwritten.mono e.one_le_textLevel).parens.mono (by decide)).group
  | false =>
    refine ⟨.group [f.toPart], t, hbuild.bind ?_, (hwritten.mono (Expr.seven_le_textLevel hneeds)).group, hvalue⟩
    simp only [Expr.toOperand, hneeds]
    exact .pure _

theorem reads_of_value (h : ∃ f t, b.Yields (e.build config) f ∧ Written ν [f.toPart] e.textLevel t ∧
    ∀ {V : Type} (ι : Interpretation V), ι.ofTree t = ι.ofExpr config (b.aliasOf ν) e) : Reads config b ν asTruth e := by
  obtain ⟨f, t, hbuild, hwritten, hvalue⟩ := h
  exact ⟨f, t, hbuild, hwritten, fun ι => .of_eq ι (hvalue ι)⟩

/-- Operands with an operator between them. -/
theorem reads_binary (op : BinaryOp) (hs : Ends s [.operator op]) (hapart : startsApart s = true)
    (hl : Reads config b ν op.isConnective left) (hr : Reads config b ν op.isConnective right) :
    ∃ f t, b.Yields (binary s (left.toOperand config) (right.toOperand config)) f ∧ Written ν [f.toPart] op.level t ∧
      ∀ {V : Type} (ι : Interpretation V), ι.ofTree t =
        ι.binary op (ι.ofExpr config (b.aliasOf ν) left) (ι.ofExpr config (b.aliasOf ν) right) := by
  obtain ⟨p, t, hp, hwp, hvp⟩ := hl.operand
  obtain ⟨q, u, hq, hwq, hvq⟩ := hr.operand
  have hlevel := op.level_bounds
  have hwritten := hwp.binary op hs hapart hwq (by omega) (by omega)
  exact ⟨.parts [p, .text s, q], _, hp.bind (hq.bind (.pure _)), hwritten.group, fun ι => ι.binary_congr (hvp ι) (hvq ι)⟩

theorem reads_nullTest {operand : Expr} (negated : Bool) (htight : 4 ≤ operand.textLevel)
    (h : Reads config b ν true operand) :
    ∃ f t, b.Yields (nullTest negated (operand.toOperand config)) f ∧ Written ν [f.toPart] 4 t ∧
      ∀ {V : Type} (ι : Interpretation V), ι.ofTree t =
        ι.toOperations.isNull negated (ι.ofExpr config (b.aliasOf ν) operand) := by
  obtain ⟨f, t, hbuild, hwritten, hvalue⟩ := h
  exact ⟨_, _, hbuild.bind (.pure _), ((hwritten.mono htight).isNull negated).group,
    fun ι => ι.isNull_congr negated (hvalue ι)⟩

theorem reads_integer {c : Constant} {i : Int} (h : c.integer? = some i) :
    Reads config b ν asTruth (.constant c) := by
  have hlevel : (Expr.constant c).textLevel = if i < 0 then 7 else 8 := by simp [Expr.textLevel, h]
  have hbuild : b.Yields ((Expr.constant c).build config) (.text (ofInt i)) :=
    (yields_lift (Constant.literal_of_integer? h)).bind (.pure _)
  by_cases hneg : i < 0
  · -- a negative integer is read as a sign and a number
    have htext : ofInt i = String.ofList ('-' :: decimal i.natAbs) := by rw [ofInt, if_pos hneg]
    have habs : -(i.natAbs : Int) = i := by omega
    refine ⟨_, .unary .minus (.atom (.number i.natAbs)), hbuild, ?_, fun ι => .of_eq ι ?_⟩
    · rw [hlevel, if_pos hneg, htext]
      refine Written.group ⟨_, _, flats?_text _, lexes_minus i.natAbs, ?_⟩
      exact ((Derives.atom (.number i.natAbs)).mono (by decide)).unary .minus
    · change ι.minus (ι.integer i.natAbs) = ι.constant c
      rw [ι.minus_integer, habs, ι.constant_of_integer? h]
  · have htext : ofInt i = ofNat i.natAbs := by rw [ofInt, if_neg hneg]; rfl
    have habs : (i.natAbs : Int) = i := by omega
    refine ⟨_, .atom (.number i.natAbs), hbuild, ?_, fun ι => .of_eq ι ?_⟩
    · rw [hlevel, if_neg hneg, htext]
      exact (Written.atom (lexes_number i.natAbs)).group
    · change some (ι.integer i.natAbs) = ι.constant c
      rw [habs, ι.constant_of_integer? h]

theorem reads_constant {c : Constant} (h : (Expr.constant c).isScalar config (b.aliasOf ν) = true) :
    Reads config b ν asTruth (.constant c) := by
  cases c with
  | string s =>
    refine ⟨.text (Quoted.quote s), .atom (.quoted s), (yields_lift rfl).bind (.pure _), ?_, fun ι => .of_eq ι rfl⟩
    exact (Written.atom (lexes_quote s)).group
  | _ =>
    obtain ⟨i, hi⟩ := Option.isSome_iff_exists.1 h
    exact reads_integer hi

theorem reads_parameter {type : DataType} (h : isParameter (config.parameterName name).toList = true) :
    Reads config b ν asTruth (.parameter name type) :=
  ⟨.text (config.parameterName name), _, .pure _, (Written.atom (lexes_parameter h)).group, fun ι => .of_eq ι rfl⟩

theorem reads_member (hpending : b.pendingVariable = false) (hbuilding : b.building ≠ []) {type : DataType}
    (h : (Expr.property (.var v type) name).isScalar config (b.aliasOf ν) = true) :
    Reads config b ν asTruth (.property (.var v type) name) := by
  obtain ⟨halias, hname⟩ := Bool.and_eq_true_iff.1 h
  obtain ⟨a, ha, hisName⟩ := (Option.any_eq_true _ _).1 halias
  obtain ⟨x, hx, hflat⟩ := Option.bind_eq_some_iff.1 ha
  split at hflat
  · cases hflat
  · rename_i hjoin
    have hplain : (b.names.symbols.get x).join = none := by simpa [Symbol.isJoin] using hjoin
    refine ⟨_, .atom (.member a name), yields_member hpending hbuilding type hx hplain, ?_, fun ι => .of_eq ι ?_⟩
    · refine Written.group ⟨a ++ "." ++ name, _, ?_, lexes_member hisName hname, .atom _⟩
      exact flats?_append (flats?_append (flats?_singleton hflat) (flats?_text ".")) (flats?_text name)
    · rw [Interpretation.ofExpr, ha]
      rfl

theorem reads_arith (op : ArithOp) (hl : Reads config b ν false left) (hr : Reads config b ν false right) :
    Reads config b ν asTruth (.arith op left right) := by
  have hapart : startsApart (" " ++ op.text ++ " ") = true := by cases op <;> decide
  exact reads_of_value (reads_binary (.arith op) (lexes_arith op).spaced hapart hl hr)

theorem reads_compare (op : CompareOp) (hl : Reads config b ν false left) (hr : Reads config b ν false right) :
    Reads config b ν asTruth (.compare op left right) := by
  have hapart : startsApart (" " ++ op.text ++ " ") = true := by cases op <;> decide
  exact reads_of_value (reads_binary (.compare op) (lexes_compare op).spaced hapart hl hr)

theorem reads_and (hl : Reads config b ν true left) (hr : Reads config b ν true right) :
    Reads config b ν asTruth (.and left right) :=
  reads_of_value (reads_binary .and ends_and (by decide) hl hr)

/-- A disjunction whose keys are not gathered. -/
theorem reads_or (hplain : Expr.gathered? (.or left right) = none) (hl : Reads config b ν true left)
    (hr : Reads config b ν true right) : Reads config b ν asTruth (.or left right) := by
  obtain ⟨f, t, hbuild, hwritten, hvalue⟩ := reads_binary .or ends_or (by decide) hl hr
  refine ⟨f, t, ?_, ?_, fun ι => .of_eq ι (hvalue ι)⟩
  · rw [Expr.build, hplain]
    exact hbuild
  · rw [Expr.textLevel, hplain]
    exact hwritten

theorem reads_negate {operand : Expr} (h : Reads config b ν false operand) :
    Reads config b ν asTruth (.negate operand) := by
  obtain ⟨f, t, hbuild, hwritten, hvalue⟩ := h
  refine ⟨_, _, hbuild.bind (.pure _), ((hwritten.mono operand.one_le_textLevel).unary .minus ends_minusParen).group,
    fun ι => .of_eq ι ?_⟩
  exact congrArg (ι.unary .minus) ((hvalue ι).2 rfl)

theorem reads_isNull {operand : Expr} (htight : 4 ≤ operand.textLevel) (h : Reads config b ν true operand) :
    Reads config b ν asTruth (.isNull operand) :=
  reads_of_value (reads_nullTest false htight h)

theorem reads_like {operand pattern : Expr} (htight : 4 ≤ operand.textLevel) (hpattern : 5 ≤ pattern.textLevel)
    (h : Reads config b ν false operand) (hp : Reads config b ν false pattern) :
    Reads config b ν asTruth (.like operand pattern none) := by
  obtain ⟨f, t, hf, hwf, hvf⟩ := h
  obtain ⟨g, u, hg, hwg, hvg⟩ := hp
  refine ⟨_, _, hf.bind (hg.bind ((Build.Yields.pure []).bind (.pure _))),
    ((hwf.mono htight).like (hwg.mono hpattern)).group, fun ι => .of_eq ι ?_⟩
  exact congrArg₂ ι.matched ((hvf ι).2 rfl) ((hvg ι).2 rfl)

theorem reads_likeEscape {operand pattern escape : Expr} (htight : 4 ≤ operand.textLevel)
    (hpattern : 5 ≤ pattern.textLevel) (hescape : 5 ≤ escape.textLevel) (hnull : escape.isNullLiteral = false)
    (h : Reads config b ν false operand) (hp : Reads config b ν false pattern) (he : Reads config b ν false escape) :
    Reads config b ν asTruth (.like operand pattern (some escape)) := by
  obtain ⟨f, t, hf, hwf, hvf⟩ := h
  obtain ⟨g, u, hg, hwg, hvg⟩ := hp
  obtain ⟨i, v, hi, hwi, hvi⟩ := he
  have hrest : b.Yields (optionalParts " ESCAPE " (some (escape.toOperand config))) [.text " ESCAPE ", i.toPart] := by
    rw [optionalParts, if_neg (by simpa [Expr.toOperand] using hnull)]
    exact hi.bind (.pure _)
  refine ⟨_, _, hf.bind (hg.bind (hrest.bind (.pure _))),
    ((hwf.mono htight).likeEscape (hwg.mono hpattern) (hwi.mono hescape)).group, fun ι => .of_eq ι ?_⟩
  change ι.matchedEscape (ι.ofTree t) (ι.ofTree u) (ι.ofTree v) = _
  rw [(hvf ι).2 rfl, (hvg ι).2 rfl, (hvi ι).2 rfl]
  rfl

/-! ### Negations -/

/-- Of an equality that is negated the operator says so. -/
theorem reads_not_equal (hl : Reads config b ν false left) (hr : Reads config b ν false right) :
    Reads config b ν asTruth (.not (.compare .eq left right)) := by
  obtain ⟨f, t, hbuild, hwritten, hvalue⟩ := reads_binary (.compare .ne) (lexes_compare .ne).spaced (by decide) hl hr
  exact ⟨f, t, hbuild, hwritten, fun ι => .of_eq ι ((hvalue ι).trans (ι.ofExpr_not_equal left right).symm)⟩

theorem reads_not_isNull {operand : Expr} (htight : 4 ≤ operand.textLevel) (h : Reads config b ν true operand) :
    Reads config b ν asTruth (.not (.isNull operand)) := by
  obtain ⟨f, t, hbuild, hwritten, hvalue⟩ := reads_nullTest true htight h
  exact ⟨f, t, hbuild, hwritten, fun ι => .of_eq ι ((hvalue ι).trans (ι.ofExpr_not_isNull operand).symm)⟩

/-- A double negation is left out. -/
theorem reads_not_not {operand : Expr} (hfolds : (asTruth || operand.isCondition) = true)
    (h : Reads config b ν asTruth operand) : Reads config b ν asTruth (.not (.not operand)) := by
  obtain ⟨f, t, hbuild, hwritten, hvalue⟩ := h
  refine ⟨f, t, hbuild, hwritten, fun ι => ?_⟩
  rw [ι.ofExpr_not_not]
  obtain ⟨htruth, heq⟩ := hvalue ι
  refine ⟨by rw [ι.truth_ofBool, htruth], fun hvalue => ?_⟩
  rw [hvalue, Bool.false_or] at hfolds
  rw [heq hvalue, ι.ofExpr_of_isCondition hfolds]

/-- Every other negation has its operand in parentheses. -/
theorem reads_not {operand : Expr}
    (hbuild : (Expr.not operand).build config = negation (operand.toOperand config))
    (hlevel : (Expr.not operand).textLevel = 3) (h : Reads config b ν true operand) :
    Reads config b ν asTruth (.not operand) := by
  obtain ⟨f, t, hf, hwritten, hvalue⟩ := h
  have hnot := (hwritten.mono operand.one_le_textLevel).unary .not ends_notParen
  refine ⟨.parts [.text "NOT (", f.toPart, .text ")"], .unary .not t, ?_, ?_, fun ι => .of_eq ι ?_⟩
  · rw [hbuild]
    exact hf.bind (.pure _)
  · rw [hlevel]
    exact hnot.group
  · change ι.unary .not (ι.ofTree t) = ι.unary .not _
    rw [ι.unary_not, (hvalue ι).1, ← ι.unary_not]

/-! ### Disjunctions written by keys -/

/-- The tests are written as the conditions of the list, each with its value. -/
structure TestsWritten (config : Config) (b : Build) (ν : Names) (tests : List KeyTest) (l : List (List Part × Tree)) :
    Prop where
  length : l.length = tests.length
  written : ∀ i ∈ l, Written ν i.1 4 i.2
  value : ∀ {V : Type} (ι : Interpretation V), l.map (fun i => ι.ofTree i.2) =
    (tests.map (KeyTest.truth (ι.valuation config (aliasOf_same (b := b) (ν := ν))))).map (Option.map ι.ofBool)

theorem TestsWritten.append {tests tests' : List KeyTest} {l l' : List (List Part × Tree)}
    (h : TestsWritten config b ν tests l) (h' : TestsWritten config b ν tests' l') :
    TestsWritten config b ν (tests ++ tests') (l ++ l') := by
  refine ⟨by rw [length_append, length_append, h.length, h'.length],
    forall_mem_append.2 ⟨h.written, h'.written⟩, fun ι => ?_⟩
  rw [map_append, map_append, map_append, h.value, h'.value]

theorem TestsWritten.singleton {test : KeyTest} {ps : List Part} {t : Tree} (h : Written ν ps 4 t)
    (hvalue : ∀ {V : Type} (ι : Interpretation V), ι.ofTree t =
      (test.truth (ι.valuation config (aliasOf_same (b := b) (ν := ν)))).map ι.ofBool) :
    TestsWritten config b ν [test] [(ps, t)] :=
  ⟨rfl, forall_mem_singleton.2 h, fun ι => congrArg (fun x => [x]) (hvalue ι)⟩

/-- The values of a key, each in the parentheses that it needs. -/
theorem reads_values (h : ∀ v ∈ values, Reads config b ν false v) :
    ∃ l : List (Part × Tree), b.Yields ((values.map (Expr.toOperand config)).mapM parenthesized) (l.map Prod.fst) ∧
      l.length = values.length ∧ (∀ i ∈ l, Written ν [i.1] 7 i.2) ∧ ∀ {V : Type} (ι : Interpretation V),
        l.map (fun i => ι.ofTree i.2) = values.map (ι.ofExpr config (b.aliasOf ν)) := by
  induction values with
  | nil => exact ⟨[], by rw [map_nil, mapM_nil]; exact .pure _, rfl, forall_mem_nil _, fun ι => rfl⟩
  | cons v values ih =>
    obtain ⟨hv, hvalues⟩ := forall_mem_cons.1 h
    obtain ⟨p, t, hp, hwp, hvp⟩ := hv.operand
    obtain ⟨l, hl, hlength, hwl, hvl⟩ := ih hvalues
    refine ⟨(p, t) :: l, ?_, congrArg Nat.succ hlength, forall_mem_cons.2 ⟨hwp, hwl⟩, fun ι => ?_⟩
    · rw [map_cons, mapM_cons]
      exact hp.bind (hl.bind (.pure _))
    · rw [map_cons, map_cons, hvl, (hvp ι).2 rfl]

/-- The test for the values of a key. -/
theorem reads_valueTest {key : Expr} (hkey : Reads config b ν false key) (h : ∀ v ∈ values, Reads config b ν false v) :
    ∃ ps l, b.Yields (valueTest (key.toOperand config) (values.map (Expr.toOperand config))) ps ∧
      TestsWritten config b ν (KeyTest.ofValues key values) l ∧ ps.isEmpty = l.isEmpty ∧
      ps = [.text " OR "].intercalate (l.map Prod.fst) := by
  obtain ⟨k, t, hk, hwk, hvk⟩ := hkey.operand
  match values with
  | [] => exact ⟨[], [], .pure _, ⟨rfl, forall_mem_nil _, fun ι => rfl⟩, rfl, rfl⟩
  | [value] =>
    obtain ⟨p, u, hp, hwp, hvp⟩ := (h value mem_cons_self).operand
    have hwritten := hwk.binary (.compare .eq) (lexes_compare .eq).spaced (by decide) hwp (by decide) (by decide)
    refine ⟨_, [(_, _)], hk.bind (hp.bind (.pure _)), .singleton hwritten fun ι => ?_, rfl, intercalate_singleton.symm⟩
    change Option.map ι.ofBool (ι.compared .eq (ι.ofTree t) (ι.ofTree u)) = _
    rw [KeyTest.truth, ι.equals_valuation, (hvk ι).2 rfl, (hvp ι).2 rfl]
  | value :: value' :: rest =>
    obtain ⟨l, hl, hlength, hwl, hvl⟩ := reads_values h
    have hne : l ≠ [] := ne_nil_of_length_pos (hlength ▸ Nat.succ_pos _)
    have hwritten := (hwk.mono (show 4 ≤ 7 by decide)).among hne fun i hi => (hwl i hi).mono (by decide)
    refine ⟨_, [(_, _)], hk.bind (hl.bind (.pure _)), .singleton hwritten fun ι => ?_, rfl, ?_⟩
    · have hitems : (l.map Prod.snd).map ι.ofTree = (value :: value' :: rest).map (ι.ofExpr config (b.aliasOf ν)) := by
        rw [map_map]
        exact hvl ι
      rw [ι.ofTree_among, hitems, (hvk ι).2 rfl, map_map, KeyTest.truth]
      exact congrArg _ (congrArg anyOf (map_congr_left fun v _ => (ι.equals_valuation config _ key v).symm))
    · rw [map_map]
      exact intercalate_singleton.symm

/-- The tests for a key. -/
theorem reads_keyTest {key : Expr} (hkey : Reads config b ν false key) (h : ∀ v ∈ values, Reads config b ν false v) :
    ∃ ps l, b.Yields (keyTest (key.toOperand config, values.map (Expr.toOperand config))) ps ∧
      TestsWritten config b ν (KeyTest.ofEntry (key, values)) l ∧ ps = [.text " OR "].intercalate (l.map Prod.fst) := by
  have hplain : ∀ v ∈ values.filter (!·.isNullTest), Reads config b ν false v := fun v hv => h v (mem_of_mem_filter hv)
  obtain ⟨ps, l, hps, hl, hempty, htext⟩ := reads_valueTest hkey hplain
  have hfilter : (values.map (Expr.toOperand config)).filter (fun o => !o.expr.isNullTest) =
      (values.filter (!·.isNullTest)).map (Expr.toOperand config) := by
    rw [filter_map]; rfl
  have hfind : (values.map (Expr.toOperand config)).find? (fun o => o.expr.isNullTest) =
      (values.find? (·.isNullTest)).map (Expr.toOperand config) := by
    rw [find?_map]; rfl
  dsimp only [keyTest, KeyTest.ofEntry]
  rw [hfilter, hfind]
  cases hnull : values.find? (·.isNullTest) with
  | none => exact ⟨ps, l, hps.bind (.pure _), by simpa using hl, htext⟩
  | some test =>
    have htest : test.isNullTest = true := find?_some hnull
    have hreads := h test (mem_of_find?_eq_some hnull)
    cases test with
    | isNull operand =>
      obtain ⟨f, t, hf, hwf, hvf⟩ := hreads
      have hsingle : TestsWritten config b ν [.isNull operand] [([f.toPart], t)] := .singleton hwf fun ι => by
        rw [(hvf ι).2 rfl, Interpretation.ofExpr, Operations.isNull, Bool.bne_false]
        rfl
      refine ⟨_, l ++ [([f.toPart], t)], hps.bind (hf.bind (.pure _)), hl.append hsingle, ?_⟩
      rw [hempty]
      cases l with
      | nil => exact intercalate_singleton.symm
      | cons i l =>
        rw [map_append, KeyTest.intercalate_append (by simp) (by simp), ← htext]
        simp
    | _ => cases htest

/-- The tests for all keys. -/
theorem reads_keyTests (hne : ∀ entry ∈ groups, entry.2 ≠ [])
    (h : ∀ entry ∈ groups, Reads config b ν false entry.1 ∧ ∀ v ∈ entry.2, Reads config b ν false v) :
    ∃ pss l, b.Yields ((mapEntries (Expr.toOperand config) (Expr.toOperand config) groups).mapM keyTest) pss ∧
      pss.length = groups.length ∧ TestsWritten config b ν (groups.flatMap KeyTest.ofEntry) l ∧
      [.text " OR "].intercalate pss = [.text " OR "].intercalate (l.map Prod.fst) := by
  induction groups with
  | nil => exact ⟨[], [], .pure _, rfl, ⟨rfl, forall_mem_nil _, fun ι => rfl⟩, rfl⟩
  | cons entry groups ih =>
    obtain ⟨key, values⟩ := entry
    obtain ⟨hentry, hne⟩ := forall_mem_cons.1 hne
    obtain ⟨⟨hkey, hvalues⟩, hrest⟩ := forall_mem_cons.1 h
    obtain ⟨ps, l, hps, hl, htext⟩ := reads_keyTest hkey hvalues
    obtain ⟨pss, more, hpss, hlength, hmore, htexts⟩ := ih hne hrest
    refine ⟨ps :: pss, l ++ more, ?_, congrArg Nat.succ hlength, hl.append hmore, ?_⟩
    · change b.Yields (((key.toOperand config, values.map (Expr.toOperand config)) ::
        mapEntries (Expr.toOperand config) (Expr.toOperand config) groups).mapM keyTest) _
      rw [mapM_cons]
      exact hps.bind (hpss.bind (.pure _))
    · have hlne : l.map Prod.fst ≠ [] := by
        rw [ne_eq, map_eq_nil_iff, ← length_eq_zero_iff, hl.length, length_eq_zero_iff]
        exact KeyTest.ofEntry_ne_nil hentry
      cases groups with
      | nil =>
        cases length_eq_zero_iff.1 hlength
        cases length_eq_zero_iff.1 hmore.length
        rw [append_nil, intercalate_singleton, htext]
      | cons entry' groups =>
        have hpssne : pss ≠ [] := ne_nil_of_length_pos (hlength ▸ Nat.succ_pos _)
        have hmorene : more.map Prod.fst ≠ [] := by
          rw [ne_eq, map_eq_nil_iff, ← length_eq_zero_iff, hmore.length, length_eq_zero_iff, flatMap_cons]
          exact append_ne_nil_of_left_ne_nil (KeyTest.ofEntry_ne_nil (hne _ mem_cons_self)) _
        rw [map_append, KeyTest.intercalate_append hlne hmorene, ← htexts, ← htext,
          intercalate_cons_of_ne_nil hpssne]

/-- A disjunction that is written by keys. -/
theorem reads_gathered {terms : List (Expr.Term Expr)} (hgroups : Expr.gathered? (.or left right) = some groups)
    (hterms : Expr.terms? (.or left right) = some terms) (hgather : Expr.gather id terms = groups)
    (hplain : (Expr.or left right).comparesNullTest = false)
    (h : ∀ t ∈ terms, Reads config b ν false t.key ∧ Reads config b ν false t.value) :
    Reads config b ν asTruth (.or left right) := by
  subst hgather
  have hreads : ∀ entry ∈ Expr.gather id terms, Reads config b ν false entry.1 ∧
      ∀ v ∈ entry.2, Reads config b ν false v := by
    refine forall_ofPairs fun p hp => ?_
    obtain ⟨t, ht, rfl⟩ := mem_map.1 hp
    exact h t ht
  obtain ⟨pss, l, hpss, -, hl, htexts⟩ := reads_keyTests (fun entry he => ne_nil_of_mem_ofPairs he) hreads
  have hcount : Expr.disjunctCount id (Expr.gather id terms) = l.length := by
    rw [Expr.disjunctCount_eq_length]
    exact hl.length.symm
  have hne : l ≠ [] := by
    rintro rfl
    have hmany : (Expr.gather id terms).any (fun g => g.2.length > 1) = true := by
      simpa [Expr.gathered?, hterms] using hgroups
    obtain ⟨entry, he, -⟩ := any_eq_true.1 hmany
    have hnil := flatMap_eq_nil_iff.1 (length_eq_zero_iff.1 hl.length.symm) entry he
    exact KeyTest.ofEntry_ne_nil (ne_nil_of_mem_ofPairs he) hnil
  obtain ⟨t, ht, hvalue⟩ := Written.disjunction hne hl.written
  have hoperands := Expr.termOperands_of_terms? config hterms
  rw [Expr.termOperands] at hoperands
  have hbuild : b.Yields ((Expr.or left right).build config) (.parts (if l.length > 1 then
      [.text "("] ++ [.text " OR "].intercalate (l.map Prod.fst) ++ [.text ")"]
      else [.text " OR "].intercalate (l.map Prod.fst))) := by
    rw [Expr.build, if_pos (by rw [hgroups]; rfl), hoperands, Expr.gather_operands, membership,
      Expr.disjunctCount_operands, hcount, ← htexts]
    exact hpss.bind (.pure _)
  have hlevel : (Expr.or left right).textLevel = if l.length > 1 then 8 else 4 := by
    rw [Expr.textLevel, if_pos (by rw [hgroups]; rfl), Expr.gatheredParenthesized, hgroups]
    simp [hcount]
  refine ⟨_, t, hbuild, ?_, fun ι => .of_eq ι ?_⟩
  · rw [hlevel]
    by_cases hmany : l.length > 1
    · rw [if_pos hmany] at ht
      rw [if_pos hmany, if_pos hmany]
      exact ht.parens.group
    · rw [if_neg hmany] at ht
      rw [if_neg hmany, if_neg hmany]
      exact ht.group
  · rw [hvalue ι _ (hl.value ι)]
    have htruth := Expr.anyOf_tests (ι.valuation config (aliasOf_same (b := b) (ν := ν))) hterms hplain
    rw [ι.truth_valuation] at htruth
    exact (congrArg (Option.map ι.ofBool) htruth).trans (ι.ofExpr_of_isCondition rfl)

end

/-! ## All scalar expressions -/

/-- A scalar expression whose text is read as the expression. -/
structure Expr.Readable (config : Config) (aliasOf : String → Option String) (asTruth : Bool) (e : Expr) : Prop where
  scalar : e.isScalar config aliasOf = true
  tight : e.textTight = true
  folds : e.foldsNegations asTruth = true

namespace Expr.Readable

variable {config : Config} {aliasOf : String → Option String} {asTruth : Bool}

theorem key (hkey : e.isKey = true) (h : Readable config aliasOf asTruth e) : Readable config aliasOf false e := by
  refine ⟨h.scalar, h.tight, ?_⟩
  cases e <;> first | rfl | cases hkey

theorem pair {left right : Expr} (hs : (left.isScalar config aliasOf && right.isScalar config aliasOf) = true)
    (ht : (left.textTight && right.textTight) = true)
    (hf : (left.foldsNegations asTruth && right.foldsNegations asTruth) = true) :
    Readable config aliasOf asTruth left ∧ Readable config aliasOf asTruth right := by
  obtain ⟨hsl, hsr⟩ := Bool.and_eq_true_iff.1 hs
  obtain ⟨htl, htr⟩ := Bool.and_eq_true_iff.1 ht
  obtain ⟨hfl, hfr⟩ := Bool.and_eq_true_iff.1 hf
  exact ⟨⟨hsl, htl, hfl⟩, hsr, htr, hfr⟩

/-- The leaves of a disjunction are written for their values. -/
theorem terms {e : Expr} {terms : List (Term Expr)} (hterms : terms? e = some terms)
    (h : Readable config aliasOf asTruth e) :
    ∀ t ∈ terms, Readable config aliasOf false t.key ∧ Readable config aliasOf false t.value := by
  replace hterms := splits_of_terms? hterms
  induction hterms generalizing asTruth with
  | left => exact forall_mem_singleton.2 (pair h.scalar h.tight h.folds)
  | right => exact forall_mem_singleton.2 (pair h.scalar h.tight h.folds).symm
  | @null operand ho =>
    have hoperand : Readable config aliasOf true operand := ⟨h.scalar, (Bool.and_eq_true_iff.1 h.tight).2, h.folds⟩
    exact forall_mem_singleton.2 ⟨hoperand.key ho, h.scalar, h.tight, h.folds⟩
  | or _ _ ihl ihr =>
    obtain ⟨hl, hr⟩ := pair h.scalar (Bool.and_eq_true_iff.1 h.tight).2 h.folds
    exact forall_mem_append.2 ⟨ihl hl, ihr hr⟩

end Expr.Readable

section

variable {config : Config} {b : Build} {ν : Names} (hpending : b.pendingVariable = false) (hbuilding : b.building ≠ [])

include hpending hbuilding

/-- Every expression that can be read is. -/
theorem Expr.Readable.reads (h : e.Readable config (b.aliasOf ν) asTruth) :
    Reads config b ν asTruth e := by
  induction hsize : sizeOf e using Nat.strong_induction_on generalizing e asTruth with
  | _ n step =>
  subst hsize
  have ih : ∀ {e' : Expr} {asTruth : Bool} (_ : e'.Readable config (b.aliasOf ν) asTruth)
      (_ : sizeOf e' < sizeOf e := by decreasing_tactic), Reads config b ν asTruth e' := fun h hlt => step _ hlt h rfl
  clear step
  obtain ⟨hs, ht, hf⟩ := h
  cases e with
  | constant c => exact reads_constant hs
  | parameter name type => exact reads_parameter hs
  | property owner name =>
    cases owner with
    | var v type => exact reads_member hpending hbuilding hs
    | _ => cases hs
  | arith op left right =>
    obtain ⟨hl, hr⟩ := pair hs ht hf
    exact reads_arith op (ih hl) (ih hr)
  | compare op left right =>
    obtain ⟨hl, hr⟩ := pair hs ht hf
    exact reads_compare op (ih hl) (ih hr)
  | and left right =>
    obtain ⟨hl, hr⟩ := pair hs ht hf
    exact reads_and (ih hl) (ih hr)
  | or left right =>
    obtain ⟨hkeys, htlr⟩ := Bool.and_eq_true_iff.1 ht
    obtain ⟨hl, hr⟩ := pair hs htlr hf
    cases hgroups : Expr.gathered? (.or left right) with
    | none => exact reads_or hgroups (ih hl) (ih hr)
    | some groups =>
      obtain ⟨terms, hterms, hgather⟩ := Expr.terms_of_gathered? hgroups
      have hplain : (Expr.or left right).comparesNullTest = false := by simpa [hgroups] using hkeys
      refine reads_gathered hgroups hterms hgather hplain fun t hmem => ?_
      obtain ⟨hkey, hvalue⟩ := Readable.terms hterms ⟨hs, ht, hf⟩ t hmem
      obtain ⟨hk, hv⟩ := within_of_terms? hterms t hmem
      exact ⟨ih hkey hk.sizeOf_lt, ih hvalue hv.sizeOf_lt⟩
  | negate operand => exact reads_negate (ih ⟨hs, ht, hf⟩)
  | isNull operand =>
    obtain ⟨hlevel, ht⟩ := Bool.and_eq_true_iff.1 ht
    exact reads_isNull (of_decide_eq_true hlevel) (ih ⟨hs, ht, hf⟩)
  | like operand pattern escape =>
    cases escape with
    | none =>
      simp only [textTight, Bool.and_eq_true, decide_eq_true_eq] at ht
      obtain ⟨⟨hlo, hlp⟩, htop⟩ := ht
      obtain ⟨ho, hp⟩ := pair hs (Bool.and_eq_true_iff.2 htop) hf
      exact reads_like hlo hlp (ih ho) (ih hp)
    | some escape =>
      obtain ⟨hso, hspe⟩ := Bool.and_eq_true_iff.1 hs
      obtain ⟨hsp, hse⟩ := Bool.and_eq_true_iff.1 hspe
      obtain ⟨hfo, hfpe⟩ := Bool.and_eq_true_iff.1 hf
      obtain ⟨hfp, hfe⟩ := Bool.and_eq_true_iff.1 hfpe
      simp only [textTight, Bool.and_eq_true, decide_eq_true_eq] at ht
      obtain ⟨⟨⟨hlo, hlp⟩, hle⟩, hto, htp, hte⟩ := ht
      have hnull : escape.isNullLiteral = false := by
        cases escape <;> first | rfl | cases hse
      exact reads_likeEscape hlo hlp hle hnull (ih ⟨hso, hto, hfo⟩) (ih ⟨hsp, htp, hfp⟩) (ih ⟨hse, hte, hfe⟩)
  | not operand =>
    cases operand with
    | not operand =>
      obtain ⟨hcondition, hf⟩ := Bool.and_eq_true_iff.1 hf
      exact reads_not_not hcondition (ih ⟨hs, ht, hf⟩)
    | isNull operand =>
      obtain ⟨hlevel, ht⟩ := Bool.and_eq_true_iff.1 ht
      exact reads_not_isNull (of_decide_eq_true hlevel) (ih ⟨hs, ht, hf⟩)
    | compare op left right =>
      cases op with
      | eq =>
        obtain ⟨hl, hr⟩ := pair hs ht hf
        exact reads_not_equal (ih hl) (ih hr)
      | _ => exact reads_not rfl rfl (ih ⟨hs, ht, hf⟩)
    | _ => first | cases hs | exact reads_not rfl rfl (ih ⟨hs, ht, hf⟩)
  | _ => cases hs

/-- A scalar expression is built wherever its variables have aliases. Its text stands on one line, is the
same in every place, and is read as a condition with the value of the expression, whatever the atoms and
the operators mean, if what is tested for null or matched in it is tight enough and what is written by
keys compares none with a test for null. Where double negations are left out of values that are no
conditions, this holds at least of the truth of the value. -/
theorem scalar_reads_as_written {asTruth : Bool} {e : Expr} (hscalar : e.isScalar config (b.aliasOf ν) = true)
    (htight : e.textTight = true) (hfolds : e.foldsNegations asTruth = true) :
    ∃ f b' pieces text tree, Build.Runs (e.build config) b f b' ∧
      renderParts b'.statements ν [f.toPart] = (.ok pieces, ν) ∧
      (∀ l : Layout, l.atLineStart = false → (pieces.foldl Layout.put l).text = l.text ++ text) ∧
      read? text = some tree ∧ ∀ {V : Type} (ι : Interpretation V),
        ι.truth (ι.ofTree tree) = ι.truth (ι.ofExpr config (b.aliasOf ν) e) ∧
        (asTruth = false → ι.ofTree tree = ι.ofExpr config (b.aliasOf ν) e) := by
  obtain ⟨f, t, hbuild, ⟨text, ts, htext, hlexes, hderives⟩, hvalue⟩ :=
    Expr.Readable.reads hpending hbuilding ⟨hscalar, htight, hfolds⟩
  obtain ⟨statements, hrun⟩ := hbuild b.statements
  obtain ⟨pieces, hpieces, hflat⟩ : ∃ pieces, Render.Runs (Render.all statements [f.toPart]) ν pieces ν ∧
      Layout.Flat pieces text := Render.parts_flat htext
  refine ⟨f, _, pieces, text, t, hrun, hpieces, fun l hl => ?_, ?_, hvalue⟩
  · rw [hflat l hl, Layout.text_behind]
  · exact read?_of_derives hlexes (hderives.mono e.one_le_textLevel)

end

/-! ## A disjunction in a conjunction and a conjunction tested for null -/

/-- Where the rows of a table stand for a variable `q`. -/
def besideRows : Build where
  names := { symbols := #[.extent "q" (pairsTable.bind "q").type] }
  building := [0]
  scopes := ({} : Scopes SymbolId).add "q" 0

/-- `k` is one, minus two or null, and `a` is not greater than that. -/
def boundedByKey : Expr :=
  .and (.or (isNumber (columnOf "q" "k") 1) (.or (isNumber (columnOf "q" "k") (-2)) (.isNull (columnOf "q" "k"))))
    (.not (.compare .gt (columnOf "q" "a") (columnOf "q" "k")))

/-- What has parentheses of its own gets no others, and what has none gets them. -/
theorem boundedByKey_reads_as_written :
    ∃ f b' pieces tree, Build.Runs (boundedByKey.build {}) besideRows f b' ∧
      renderParts b'.statements besideRows.names [f.toPart] = (.ok pieces, besideRows.names) ∧
      Layout.render false pieces = "(q.k IN (1,-2) OR q.k IS NULL) AND (NOT (q.a > q.k))" ∧
      read? "(q.k IN (1,-2) OR q.k IS NULL) AND (NOT (q.a > q.k))" = some tree ∧
      ∀ {V : Type} (ι : Interpretation V),
        ι.ofTree tree = ι.ofExpr {} (besideRows.aliasOf besideRows.names) boundedByKey := by
  have hscalar : boundedByKey.isScalar {} (besideRows.aliasOf besideRows.names) = true := by decide +kernel
  have htight : boundedByKey.textTight = true := by decide +kernel
  have hfolds : boundedByKey.foldsNegations false = true := by decide +kernel
  have hrendered : ((boundedByKey.build {}).run besideRows).toOption.bind (fun r =>
      (renderParts r.2.statements besideRows.names [r.1.toPart]).1.toOption.map (Layout.render false)) =
      some "(q.k IN (1,-2) OR q.k IS NULL) AND (NOT (q.a > q.k))" := by decide +kernel
  obtain ⟨f, b', pieces, text, tree, hrun, hrender, hlayout, hread, hvalue⟩ :=
    scalar_reads_as_written rfl (List.cons_ne_nil 0 []) hscalar htight hfolds
  have hrun' : (boundedByKey.build {}).run besideRows = .ok (f, b') := hrun
  rw [hrun'] at hrendered
  change (renderParts b'.statements besideRows.names [f.toPart]).1.toOption.map (Layout.render false) = _ at hrendered
  rw [hrender] at hrendered
  have hpieces := Option.some.inj hrendered
  have htext : text = "(q.k IN (1,-2) OR q.k IS NULL) AND (NOT (q.a > q.k))" := by
    rw [← hpieces]
    simpa [Layout.render, Layout.start, Layout.text] using (hlayout (Layout.start false) rfl).symm
  exact ⟨f, b', pieces, tree, hrun, hrender, hpieces, htext ▸ hread, fun ι => (hvalue ι).2 rfl⟩

/-- It is unknown whether `k` is one and `a` is two. -/
def unknownPair : Expr := .isNull (.and (isNumber (columnOf "q" "k") 1) (isNumber (columnOf "q" "a") 2))

theorem Condition.isTrue_ofBool (b : Bool) : ((if b then 1 else 0 : Int) != 0) = b := by cases b <;> rfl

/-- Conditions are zero or one. -/
def Condition.Interpretation.integers (column : String → String → Option Int) : Interpretation Int where
  ofBool b := if b then 1 else 0
  isTrue x := x != 0
  compare
    | .eq, x, y => x == y
    | .ne, x, y => x != y
    | .lt, x, y => decide (x < y)
    | .le, x, y => decide (x ≤ y)
    | .gt, x, y => decide (y < x)
    | .ge, x, y => decide (y ≤ x)
  arith _ _ _ := none
  minus x := some (-x)
  like _ _ := false
  likeEscape _ _ _ := false
  isTrue_ofBool := Condition.isTrue_ofBool
  compare_eq_comm x y := by rw [Bool.eq_iff_iff, beq_iff_eq, beq_iff_eq, eq_comm]
  compare_ne x y := rfl
  integer := id
  minus_integer i := rfl
  string _ := 0
  parameter _ := none
  column := column

/-- The text tests only the second equality for null, so it is false where `k` is null and `a` is two. -/
theorem unknownPair_misread :
    (Query.compile {} (.filter (pairsTable.bind "q") unknownPair)).toOption =
      some ⟨"SELECT q.k AS k, q.a AS a FROM t AS q WHERE (q.k = 1) AND (q.a = 2) IS NULL", ["k", "a"]⟩ ∧
    (read? "(q.k = 1) AND (q.a = 2) IS NULL").map
      (Interpretation.integers fun _ name => if name = "a" then some 2 else none).ofTree = some (some 0) ∧
    (Interpretation.integers fun _ name => if name = "a" then some 2 else none).ofExpr {} some unknownPair = some 1 :=
  ⟨by decide +kernel, by decide +kernel, by decide +kernel⟩

end RelSql
