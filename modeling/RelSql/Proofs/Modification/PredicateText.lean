/-
The predicate of a modification in its text. Conjunctions, disjunctions and comparisons stand in
parentheses, but a negation has them only behind its `NOT`, and a test for null has none. So the text
reads as the predicate, if no negation is compared or tested for null and no test for null stands on
the right of a comparison. Where one does, the text is read as something else.
-/
import RelSql.Proofs.Condition.Value
import RelSql.Proofs.Modification.ReadBack

namespace RelSql

open Digits Word List Condition

variable {config : Config}

/-- Parameters stand behind a mark that no name has. -/
def Config.marksParameters (config : Config) : Bool := isParameter config.parameterPrefix.toList

/-- A parameter of a modification can be told from a name. -/
theorem Config.isParameter_parameterName (h : config.marksParameters = true) (n : Nat) :
    isParameter (config.parameterName ("p" ++ ofNat n)).toList = true := by
  unfold marksParameters at h
  cases hmark : config.parameterPrefix.toList with
  | nil => rw [hmark] at h; cases h
  | cons c rest =>
    rw [hmark] at h
    obtain ⟨hc, hrest⟩ := Bool.and_eq_true_iff.1 h
    have hp : (c :: rest).isPrefixOf ("p" ++ ofNat n).toList = false := by
      have hne : c ≠ 'p' := by
        rintro rfl
        exact absurd hc (by decide)
      simp [isPrefixOf, hne]
    have hdigits : ∀ d ∈ decimal n, (isNameChar d || isMark d) = true := by
      intro d hd
      simp [isNameChar, Nat.isDigit_of_mem_toDigits (b := 10) (by decide) (by decide) hd]
    rw [parameterName, hmark, hp]
    simp only [Bool.false_eq_true, if_false, String.toList_append, hmark, ofNat, String.toList_ofList,
      cons_append, isParameter, hc, Bool.true_and, all_append, hrest, all_eq_true.2 hdigits, Bool.and_true]
    decide

namespace Expr

/-- Conditions on members and constants. The members have names, and these are not keywords. -/
def isPredicate : Expr → Bool
  | and left right | or left right | compare _ left right => left.isPredicate && right.isPredicate
  | not operand | isNull operand => operand.isPredicate
  | property _ name => isName name.toList
  | constant _ | null _ => true
  | _ => false

/-- How tight the text of an expression in a modification binds. -/
def wordLevel : Expr → Nat
  | not _ => 3
  | isNull _ => 4
  | _ => 8

theorem three_le_wordLevel (e : Expr) : 3 ≤ e.wordLevel := by
  fun_cases wordLevel <;> decide

/-- What is compared or tested for null binds tight enough to stand there without parentheses. -/
def operandsTight : Expr → Bool
  | and left right | or left right => left.operandsTight && right.operandsTight
  | compare _ left right =>
    decide (4 ≤ left.wordLevel) && decide (5 ≤ right.wordLevel) && (left.operandsTight && right.operandsTight)
  | isNull operand => decide (4 ≤ operand.wordLevel) && operand.operandsTight
  | not operand => operand.operandsTight
  | _ => true

/-- The tree of a condition, with parameters from number `n` on for its constants. -/
def conditionTree (config : Config) : Nat → Expr → Tree
  | n, and left right => .binary .and (conditionTree config n left) (conditionTree config (n + left.written.length) right)
  | n, or left right => .binary .or (conditionTree config n left) (conditionTree config (n + left.written.length) right)
  | n, compare op left right =>
    .binary (.compare op) (conditionTree config n left) (conditionTree config (n + left.written.length) right)
  | n, not operand => .unary .not (conditionTree config n operand)
  | n, isNull operand => .isNull false (conditionTree config n operand)
  | n, constant _ => .atom (.name (config.parameterName ("p" ++ ofNat n)))
  | _, property _ name => .atom (.name name)
  | _, _ => .null

end Expr

/-! ## The text of words -/

namespace Word

theorem textFrom_text (config : Config) (n : Nat) (s : String) : textFrom config n [text s] = s := by
  simp [spell]

theorem textFrom_value (config : Config) (n : Nat) (c : Constant) :
    textFrom config n [value c] = config.parameterName ("p" ++ ofNat n) := by
  simp [spell]

theorem textFrom_append (config : Config) (n : Nat) (ws ws' : List Word) :
    textFrom config n (ws ++ ws') = textFrom config n ws ++ textFrom config (n + (constants ws).length) ws' := by
  unfold textFrom
  induction ws generalizing n with
  | nil => simp [spell]
  | cons w ws ih =>
    cases w with
    | text s => rw [cons_append, spell, ih, spell, constants_text, String.append_assoc]
    | value c =>
      rw [cons_append, spell, ih, spell, constants_value, String.append_assoc, length_cons]
      rw [Nat.add_assoc, Nat.add_comm 1]
    | binds member => rw [cons_append, spell, ih, spell, constants_binds]

end Word

namespace Modification

variable {parameters : List ParameterRecord} {n : Nat}

theorem textFrom_enclosed (config : Config) (n : Nat) (op : String) (ls rs : List Word) :
    textFrom config n (enclosed op ls rs) =
      "(" ++ textFrom config n ls ++ op ++ textFrom config (n + (constants ls).length) rs ++ ")" := by
  simp [enclosed, textFrom_append, spell, String.append_assoc]

theorem textFrom_bindsIfMember (config : Config) (n : Nat) (op : CompareOp) (left right : Expr) :
    textFrom config n (bindsIfMember op left right) = "" := by
  have hconstant : ∀ (member : String) (e : Expr), textFrom config n (bindsIfConstant member e) = "" := by
    intro member e
    cases e <;> rfl
  cases op <;> cases left <;> first | rfl | exact hconstant _ right

/-! ## The text of a condition -/

section

variable {config : Config}

/-- The words are cut into tokens that have the tree of the expression, whatever the numbers. -/
def HasTree (config : Config) (ws : List Word) (e : Expr) : Prop :=
  ∀ n, ∃ ts, Lexes (textFrom config n ws) ts ∧ Derives e.wordLevel ts (e.conditionTree config n)

/-- Two operands in parentheses, with an operator that they are tight enough for. -/
theorem derives_enclosed {op : String} {token : BinaryOp} {left right : Expr} {ls rs : List Word}
    (hop : Ends op [.operator token]) (hapart : startsApart op = true) (hl : words left = .ok ls)
    (hleft : HasTree config ls left) (hright : HasTree config rs right) (hm : token.level ≤ left.wordLevel)
    (hn : token.level + 1 ≤ right.wordLevel) (n : Nat) :
    ∃ ts, Lexes (textFrom config n (enclosed op ls rs)) ts ∧ Derives 8 ts
      (.binary token (left.conditionTree config n) (right.conditionTree config (n + left.written.length))) := by
  rw [textFrom_enclosed, ← constants_of_words hl]
  obtain ⟨us, hul, hdl⟩ := hleft n
  obtain ⟨vs, hvr, hdr⟩ := hright (n + (constants ls).length)
  refine ⟨_, ((((ends_lparen.append_lexes hul).append_ends hapart hop).append_lexes hvr).append_ends (by decide)
    ends_rparen).lexes, ?_⟩
  have hd := Derives.binary token (hdl.mono hm) (hdr.mono hn)
  simpa using (hd.mono token.level_bounds.1).group

/-- A condition has its tree, if what is compared or tested for null is tight enough. -/
theorem hasTree_words (hmarks : config.marksParameters = true) {e : Expr} {ws : List Word} (hws : words e = .ok ws)
    (hpredicate : e.isPredicate = true) (htight : e.operandsTight = true) : HasTree config ws e := by
  intro n
  cases e with
  | and left right =>
    simp only [words, bind_eq_ok] at hws
    obtain ⟨ls, hl, rs, hr, hws⟩ := hws
    cases hws
    obtain ⟨hpl, hpr⟩ := Bool.and_eq_true_iff.1 hpredicate
    obtain ⟨htl, htr⟩ := Bool.and_eq_true_iff.1 htight
    exact derives_enclosed ends_and (by decide) hl (hasTree_words hmarks hl hpl htl) (hasTree_words hmarks hr hpr htr)
      (Nat.le_of_succ_le left.three_le_wordLevel) right.three_le_wordLevel n
  | or left right =>
    simp only [words, bind_eq_ok] at hws
    obtain ⟨ls, hl, rs, hr, hws⟩ := hws
    cases hws
    obtain ⟨hpl, hpr⟩ := Bool.and_eq_true_iff.1 hpredicate
    obtain ⟨htl, htr⟩ := Bool.and_eq_true_iff.1 htight
    exact derives_enclosed ends_or (by decide) hl (hasTree_words hmarks hl hpl htl) (hasTree_words hmarks hr hpr htr)
      (le_trans (by decide) left.three_le_wordLevel) (le_trans (by decide) right.three_le_wordLevel) n
  | compare op left right =>
    simp only [words, bind_eq_ok] at hws
    obtain ⟨ls, hl, rs, hr, hws⟩ := hws
    cases hws
    obtain ⟨hpl, hpr⟩ := Bool.and_eq_true_iff.1 hpredicate
    simp only [Expr.operandsTight, Bool.and_eq_true, decide_eq_true_eq] at htight
    obtain ⟨⟨hleft, hright⟩, htl, htr⟩ := htight
    have hapart : startsApart (" " ++ op.text ++ " ") = true := by cases op <;> decide
    rw [textFrom_append, textFrom_bindsIfMember, String.append_empty]
    exact derives_enclosed (lexes_compare op).spaced hapart hl (hasTree_words hmarks hl hpl htl)
      (hasTree_words hmarks hr hpr htr) hleft hright n
  | isNull operand =>
    simp only [words, bind_eq_ok] at hws
    obtain ⟨ws, hw, hws⟩ := hws
    cases hws
    obtain ⟨hlevel, htight⟩ := Bool.and_eq_true_iff.1 htight
    obtain ⟨us, hu, hd⟩ := hasTree_words hmarks hw hpredicate htight n
    rw [textFrom_append, textFrom_text]
    exact ⟨_, hu.append (by decide) lexes_isNull, (hd.mono (of_decide_eq_true hlevel)).isNull false⟩
  | not operand =>
    simp only [words, bind_eq_ok] at hws
    obtain ⟨ws, hw, hws⟩ := hws
    cases hws
    obtain ⟨us, hu, hd⟩ := hasTree_words hmarks hw hpredicate htight n
    rw [textFrom_append, textFrom_append, textFrom_text, textFrom_text]
    refine ⟨_, ((ends_notParen.append_lexes hu).append_ends (by decide) ends_rparen).lexes, ?_⟩
    have hgroup := (hd.mono (le_trans (by decide) operand.three_le_wordLevel)).group
    exact (hgroup.mono (show 3 ≤ 8 by decide)).unary .not
  | constant c =>
    cases hws
    rw [textFrom_value]
    exact ⟨_, lexes_parameter (config.isParameter_parameterName hmarks n), .atom _⟩
  | null type =>
    cases hws
    rw [textFrom_text]
    exact ⟨_, lexes_null, .null⟩
  | property owner name =>
    cases hws
    rw [textFrom_text]
    exact ⟨_, lexes_name hpredicate, .atom _⟩
  | _ => cases hpredicate

end

/-! ## What the tree means -/

namespace Meaning

variable {V : Type} (μ : Meaning V)

/-- The operators of conditions on a row; there are no others. -/
def operations : Operations V where
  ofBool := μ.ofBool
  isTrue := μ.isTrue
  compare := μ.compare
  arith _ _ _ := none
  minus _ := none
  like _ _ := false
  likeEscape _ _ _ := false

/-- A name is a parameter, which stands for its constant, or else a member of the row. -/
def atom (parameters : List ParameterRecord) (row : String → Option V) : Atom → Option V
  | .name name =>
    match parameterValue? parameters name with
    | some c => some (μ.constant c)
    | none => row (Ident.key name)
  | _ => none

end Meaning

/-- The parameters from number `n` on hold the constants, and no parameter has a plain name. -/
structure Holds (config : Config) (parameters : List ParameterRecord) (n : Nat) (constants : List Constant) : Prop where
  value : ∀ i c, constants[i]? = some c →
    parameterValue? parameters (config.parameterName ("p" ++ ofNat (n + i))) = some c
  plain : ∀ name, isName name.toList = true → parameterValue? parameters name = none

theorem Holds.left {cs ds : List Constant} (h : Holds config parameters n (cs ++ ds)) :
    Holds config parameters n cs := by
  refine ⟨fun i c hi => h.value i c ?_, h.plain⟩
  rw [List.getElem?_append_left (List.getElem?_eq_some_iff.1 hi).1]
  exact hi

theorem Holds.right {cs ds : List Constant} (h : Holds config parameters n (cs ++ ds)) :
    Holds config parameters (n + cs.length) ds := by
  refine ⟨fun i c hi => ?_, h.plain⟩
  have hvalue := h.value (cs.length + i) c
  rw [getElem?_append_right (Nat.le_add_right _ _), Nat.add_sub_cancel_left] at hvalue
  rw [Nat.add_assoc]
  exact hvalue hi

/-- The tree of a condition has the value of the condition on every row. -/
theorem value_conditionTree {V : Type} (μ : Meaning V) (row : String → Option V) {e : Expr}
    (hpredicate : e.isPredicate = true) (h : Holds config parameters n e.written) :
    (e.conditionTree config n).value μ.operations (μ.atom parameters row) = μ.value row e := by
  fun_induction Expr.conditionTree config n e with
  | case1 n left right ihl ihr | case2 n left right ihl ihr =>
    obtain ⟨hl, hr⟩ := Bool.and_eq_true_iff.1 hpredicate
    rw [Tree.value, ihl hl h.left, ihr hr h.right]
    rfl
  | case3 n op left right ihl ihr =>
    obtain ⟨hl, hr⟩ := Bool.and_eq_true_iff.1 hpredicate
    rw [Tree.value, ihl hl h.left, ihr hr h.right, Operations.binary, Operations.compared, Meaning.value]
    cases μ.value row left with
    | none => rfl
    | some x => cases μ.value row right <;> rfl
  | case4 n operand ih =>
    rw [Tree.value, ih hpredicate h, Operations.unary, Meaning.value, Option.map_map]
    rfl
  | case5 n operand ih =>
    rw [Tree.value, ih hpredicate h, Operations.isNull, Bool.bne_false]
    rfl
  | case6 n c => rw [Tree.value, Meaning.atom, ← Nat.add_zero n, h.value 0 c rfl]; rfl
  | case7 n owner name => rw [Tree.value, Meaning.atom, h.plain name hpredicate]; rfl
  | case8 e n =>
    cases e with
    | null type => rfl
    | _ => simp_all [Expr.isPredicate]

/-! ## The predicate of a modification -/

/-- The condition on the rows that are changed. -/
def predicate? : Modification → Option Expr
  | insert .. => none
  | update _ _ predicate _ => some predicate
  | delete _ predicate _ => some predicate

/-- The parameters of numbered words hold their constants. -/
theorem holds_ofWords (hmarks : config.marksParameters = true) {ws : List Word} {bs : List (String × Constant)}
    (h : Binds ws bs) :
    Holds config (Numbered.ofWords config ws).parameters 0 (constants ws) := by
  have hfiled := filed_ofWords config h
  refine ⟨fun i c hc => ?_, fun name hname => ?_⟩
  · have hvalues := congrArg (·[i]?) (Numbered.values_ofWords config ws)
    simp only [getElem?_map, hc, Option.map_some] at hvalues
    obtain ⟨record, hrecord, hvalue⟩ := Option.map_eq_some_iff.1 hvalues
    rw [Nat.zero_add, ← hfiled.named i record hrecord, hfiled.value_parameter hrecord]
    exact (Prod.mk.inj hvalue).1
  · rw [parameterValue?, find?_eq_none.2, Option.bind_none]
    intro record hrecord heq
    obtain ⟨i, hi⟩ := getElem?_of_mem hrecord
    have hparameter := config.isParameter_parameterName hmarks i
    rw [← hfiled.named i record hi, beq_iff_eq.1 heq] at hparameter
    exact absurd hparameter (by simp [isParameter_of_isName hname])

/-- Every condition can be written. -/
theorem words_of_isPredicate {e : Expr} (h : e.isPredicate = true) : ∃ ws, words e = .ok ws := by
  cases e with
  | and left right | or left right | compare op left right =>
    obtain ⟨hl, hr⟩ := Bool.and_eq_true_iff.1 h
    obtain ⟨ls, hls⟩ := words_of_isPredicate hl
    obtain ⟨rs, hrs⟩ := words_of_isPredicate hr
    simp [words, bind_eq_ok, hls, hrs]
  | not operand | isNull operand =>
    obtain ⟨ws, hws⟩ := words_of_isPredicate (e := operand) h
    simp [words, hws]
  | constant | null | property => exact ⟨_, rfl⟩
  | _ => cases h

/-- The words of a modification with a predicate end with the words of the predicate. -/
theorem statementWords_of_predicate? {name : String} {m : Modification} {e : Expr} {ws all : List Word}
    (hm : m.predicate? = some e) (hws : words e = .ok ws) (h : statementWords name m = .ok all) :
    ∃ head, all = head ++ ([.text "\nWHERE "] ++ ws ++ [.text ";\n"]) := by
  cases m with
  | insert => cases hm
  | update target assignments predicate returning =>
    cases hm
    simp only [statementWords, whereWords, bind_eq_ok, hws] at h
    obtain ⟨sets, -, condition, ⟨ws', hws', hcondition⟩, h⟩ := h
    cases hws'
    cases hcondition
    cases h
    exact ⟨_, rfl⟩
  | delete target predicate returning =>
    cases hm
    simp only [statementWords, whereWords, bind_eq_ok, hws] at h
    obtain ⟨condition, ⟨ws', hws', hcondition⟩, h⟩ := h
    cases hws'
    cases hcondition
    cases h
    exact ⟨[_], rfl⟩

/-- A condition is written, and wherever it is the predicate of a modification its text stands behind
`WHERE`. If what is compared or tested for null in it is tight enough, that text is read as a condition
that has, with the constants in place of the parameters, the value of the predicate on every row. -/
theorem predicate_reads_as_written {config : Config} (hmarks : config.marksParameters = true) {e : Expr}
    (hpredicate : e.isPredicate = true) (htight : e.operandsTight = true) :
    ∃ ws, words e = .ok ws ∧ ∀ (m : Modification) (r : CompiledModification), m.predicate? = some e →
      compile config m = .ok r → ∃ set name head rest tree,
        targetSet m.target = .ok set ∧ targetName set = .ok name ∧
        statementWords name m = .ok (head ++ ([.text "\nWHERE "] ++ ws ++ [.text ";\n"])) ∧
        r.text = (Numbered.ofWords config head).text ++ "\nWHERE " ++
          Word.textFrom config (Word.constants head).length ws ++ ";\n" ++ rest ∧
        read? (Word.textFrom config (Word.constants head).length ws) = some tree ∧
        ∀ {V : Type} (μ : Meaning V) (row : String → Option V),
          tree.value μ.operations (μ.atom r.parameters row) = μ.value row e := by
  obtain ⟨ws, hws⟩ := words_of_isPredicate hpredicate
  refine ⟨ws, hws, fun m r hm h => ?_⟩
  simp only [compile, bind_eq_ok] at h
  obtain ⟨set, hset, name, hname, all, hall, rest, -, h⟩ := h
  cases h
  obtain ⟨head, rfl⟩ := statementWords_of_predicate? hm hws hall
  obtain ⟨ts, hlexes, hderives⟩ := hasTree_words hmarks hws hpredicate htight (Word.constants head).length
  have hread := read?_of_derives hlexes (hderives.mono (le_trans (by decide) e.three_le_wordLevel))
  refine ⟨set, name, head, rest, _, hset, hname, hall, ?_, hread, fun μ row => value_conditionTree μ row hpredicate ?_⟩
  · rw [(Numbered.ofWords_spec config _).1, (Numbered.ofWords_spec config _).1, Word.textFrom_append,
      Word.textFrom_append, Word.textFrom_append]
    simp [Word.textFrom_text, String.append_assoc]
  · have hholds := holds_ofWords hmarks (binds_statementWords hall)
    simp only [Word.constants_append, Word.constants_text, Word.constants_nil, List.nil_append, List.append_nil,
      constants_of_words hws] at hholds
    simpa using hholds.right

/-! ## A negation in a conjunction and a negation tested for null -/

/-- The unnamed processes other than process 4. -/
def isUnnamedOther : Expr :=
  .and (.not (isMember processes "id" (.int64 4))) (.isNull (.property (.var "p" processes.elementType) "name"))

/-- The negation has its parentheses behind it and the null test none, which is enough in a conjunction. -/
theorem deleteUnnamedOther_reads_as_written :
    ∃ r tree, compile {} (.delete ((Expr.scan processes).bind "p") isUnnamedOther []) = .ok r ∧
      r.text = "DELETE FROM process\nWHERE (NOT ((id = @p0)) AND name IS NULL);\n" ∧
      read? "(NOT ((id = @p0)) AND name IS NULL)" = some tree ∧
      ∀ {V : Type} (μ : Meaning V) (row : String → Option V),
        tree.value μ.operations (μ.atom r.parameters row) = μ.value row isUnnamedOther := by
  have hmarks : ({} : Config).marksParameters = true := by decide
  have hpredicate : isUnnamedOther.isPredicate = true := by decide +kernel
  have htight : isUnnamedOther.operandsTight = true := by decide +kernel
  have htexts : (compile {} (.delete ((Expr.scan processes).bind "p") isUnnamedOther [])).toOption.map
      CompiledModification.text = some "DELETE FROM process\nWHERE (NOT ((id = @p0)) AND name IS NULL);\n" := by
    decide +kernel
  have hcondition : (words isUnnamedOther).toOption.map (Word.textFrom {} 0) =
      some "(NOT ((id = @p0)) AND name IS NULL)" := by decide +kernel
  cases hr : compile {} (.delete ((Expr.scan processes).bind "p") isUnnamedOther []) with
  | error e => rw [hr] at htexts; cases htexts
  | ok r =>
    rw [hr] at htexts
    obtain ⟨ws, hws, hall⟩ := predicate_reads_as_written hmarks hpredicate htight
    obtain ⟨set, name, head, rest, tree, hset, hname, hwords, -, hread, hvalue⟩ := hall _ r rfl hr
    cases hset
    have hprocess : targetName processes = .ok "process" := rfl
    cases hprocess.symm.trans hname
    simp only [statementWords, whereWords, hws] at hwords
    have hhead : [Word.text ("DELETE FROM " ++ "process")] = head := List.append_cancel_right (Except.ok.inj hwords)
    subst hhead
    rw [hws] at hcondition
    exact ⟨r, tree, rfl, Option.some.inj htexts, Option.some.inj hcondition ▸ hread, hvalue⟩

/-- Deletes the processes of which it is unknown if they are other than process 4. -/
def deleteUnknown : Modification :=
  .delete ((Expr.scan processes).bind "p") (.isNull (.not (isMember processes "id" (.int64 4)))) []

/-- The text negates the null test, so a process without a number stays, of which the predicate is true. -/
theorem deleteUnknown_misread :
    ∃ r tree, compile {} deleteUnknown = .ok r ∧
      r.text = "DELETE FROM process\nWHERE NOT ((id = @p0)) IS NULL;\n" ∧
      read? "NOT ((id = @p0)) IS NULL" = some tree ∧
      tree.value Meaning.integers.operations (Meaning.integers.atom r.parameters fun _ => none) = some 0 ∧
      deleteUnknown.predicate?.map (Meaning.integers.value fun _ => none) = some (some 1) := by
  have h : (compile {} deleteUnknown).toOption.bind (fun r => (read? "NOT ((id = @p0)) IS NULL").map fun tree =>
      (r.text, tree.value Meaning.integers.operations (Meaning.integers.atom r.parameters fun _ => none))) =
      some ("DELETE FROM process\nWHERE NOT ((id = @p0)) IS NULL;\n", some 0) := by decide +kernel
  cases hr : compile {} deleteUnknown with
  | error e => rw [hr] at h; cases h
  | ok r =>
    rw [hr] at h
    obtain ⟨tree, hread, h⟩ := Option.map_eq_some_iff.1 h
    obtain ⟨htext, hvalue⟩ := Prod.mk.inj h
    exact ⟨r, tree, rfl, htext, hread, hvalue, by decide +kernel⟩

end Modification

end RelSql
