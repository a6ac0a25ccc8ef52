/-
Other wordings of an expression. Its strings may have other values and its variables other spellings of
their names: what this does not change is the form of the expression, its type, the leaves of a
disjunction and how they are gathered by key.
-/
import RelSql.Proofs.Query.MembershipTruth
import RelSql.Proofs.Query.Strings

namespace RelSql

open List hiding set

/-- Values for strings, and spellings for the names of variables. The variables may be watched: a visit may
fail where the plain one does not. -/
structure Wording where
  string : String → String
  name : String → String
  key_name : ∀ n, Ident.key (name n) = Ident.key n
  watch : Variables
  visit_eq : ∀ n b, watch.visit n b = Build.rowVariable n b ∨ watch.visit n b = .error (.badState .noStatement)

namespace Wording

/-- Other values only. -/
def values (g : String → String) : Wording := ⟨g, id, fun _ => rfl, ⟨Build.rowVariable⟩, fun _ _ => .inl rfl⟩

/-- The wording that an expression has. -/
def plain : Wording := values id

/-- A watched visit fails where the plain one does not. -/
def Stops {α : Type} (w : Wording) (x : Except Error α) : Prop :=
  w.watch.visit ≠ Build.rowVariable ∧ x = .error (.badState .noStatement)

end Wording

namespace Expr

section

variable (w : Wording)

mutual

/-- The expression in another wording. The names of bindings stay. -/
def reword : Expr → Expr
  | scan set => scan set
  | filter input predicate => filter (input.with (reword input.expr)) (reword predicate)
  | project input projection => project (input.with (reword input.expr)) (reword projection)
  | join kind left right condition =>
    join kind (left.with (reword left.expr)) (right.with (reword right.expr)) (reword condition)
  | crossJoin inputs => crossJoin (rewordBindings inputs)
  | apply kind input applied =>
    apply kind (input.with (reword input.expr)) (applied.with (reword applied.expr))
  | groupBy input keys aggregates =>
    groupBy (input.with (reword input.expr)) (rewordFields keys) (rewordAggregates aggregates)
  | sort input keys => sort (input.with (reword input.expr)) (rewordKeys keys)
  | skip input keys count => skip (input.with (reword input.expr)) (rewordKeys keys) (reword count)
  | limit input count withTies => limit (reword input) (reword count) withTies
  | distinct input => distinct (reword input)
  | setOp op left right => setOp op (reword left) (reword right)
  | element input => element (reword input)
  | isEmpty input => isEmpty (reword input)
  | quantifier q input predicate => quantifier q (input.with (reword input.expr)) (reword predicate)
  | newCollection elementType items => newCollection elementType (rewordItems items)
  | constant value => constant (value.mapString w.string)
  | null type => null type
  | property owner name => property (reword owner) name
  | var name type => var (w.name name) type
  | parameter name type => parameter name type
  | call function arguments => call function (rewordItems arguments)
  | case branches otherwise => case (rewordBranches branches) (rewordOptional otherwise)
  | cast operand type => cast (reword operand) type
  | arith op left right => arith op (reword left) (reword right)
  | negate operand => negate (reword operand)
  | compare op left right => compare op (reword left) (reword right)
  | and left right => and (reword left) (reword right)
  | or left right => or (reword left) (reword right)
  | not operand => not (reword operand)
  | isNull operand => isNull (reword operand)
  | like operand pattern escape => like (reword operand) (reword pattern) (rewordOptional escape)
  | newRecord fields => newRecord (rewordFields fields)
  | navigate source relationship => navigate (reword source) relationship
  | typeTest test operand type => typeTest test (reword operand) type
  | reference op operand => reference op (reword operand)
  | lambda body => lambda (reword body)

def rewordItems : List Expr → List Expr
  | [] => []
  | e :: rest => reword e :: rewordItems rest

def rewordOptional : Option Expr → Option Expr
  | none => none
  | some e => some (reword e)

def rewordFields : List (String × Expr) → List (String × Expr)
  | [] => []
  | (name, e) :: rest => (name, reword e) :: rewordFields rest

def rewordBindings : List (Binding Expr) → List (Binding Expr)
  | [] => []
  | b :: rest => b.with (reword b.expr) :: rewordBindings rest

def rewordKeys : List (SortKey Expr) → List (SortKey Expr)
  | [] => []
  | k :: rest => k.with (reword k.expr) :: rewordKeys rest

def rewordAggregates : List (String × Aggregate Expr) → List (String × Aggregate Expr)
  | [] => []
  | (name, a) :: rest => (name, a.with (reword a.argument)) :: rewordAggregates rest

def rewordBranches : List (Expr × Expr) → List (Expr × Expr)
  | [] => []
  | (condition, value) :: rest => (reword condition, reword value) :: rewordBranches rest

end

/-! ## Lists of expressions -/

theorem rewordItems_eq_map (es : List Expr) : rewordItems w es = es.map (reword w) := by
  induction es with
  | nil => rfl
  | cons e rest ih => simp [rewordItems, ih]

theorem rewordOptional_eq_map (o : Option Expr) : rewordOptional w o = o.map (reword w) := by
  cases o <;> rfl

theorem rewordFields_eq_map (fields : List (String × Expr)) :
    rewordFields w fields = fields.map fun x => (x.1, x.2.reword w) := by
  induction fields with
  | nil => rfl
  | cons x rest ih => simp [rewordFields, ih]

theorem rewordBindings_eq_map (inputs : List (Binding Expr)) :
    rewordBindings w inputs = inputs.map fun b => b.with (b.expr.reword w) := by
  induction inputs with
  | nil => rfl
  | cons b rest ih => simp [rewordBindings, ih]

theorem rewordKeys_eq_map (keys : List (SortKey Expr)) :
    rewordKeys w keys = keys.map fun k => k.with (k.expr.reword w) := by
  induction keys with
  | nil => rfl
  | cons k rest ih => simp [rewordKeys, ih]

theorem rewordAggregates_eq_map (aggregates : List (String × Aggregate Expr)) :
    rewordAggregates w aggregates = aggregates.map fun a => (a.1, a.2.with (a.2.argument.reword w)) := by
  induction aggregates with
  | nil => rfl
  | cons a rest ih => simp [rewordAggregates, ih]

theorem rewordBranches_eq_map (branches : List (Expr × Expr)) :
    rewordBranches w branches = branches.map fun b => (b.1.reword w, b.2.reword w) := by
  induction branches with
  | nil => rfl
  | cons b rest ih => simp [rewordBranches, ih]

theorem children_reword (e : Expr) : (e.reword w).children = e.children.map (reword w) := by
  cases e <;> simp [children, reword, rewordItems_eq_map, rewordOptional_eq_map, rewordFields_eq_map, rewordBindings_eq_map,
    rewordKeys_eq_map, rewordAggregates_eq_map, rewordBranches_eq_map, Binding.with, GroupBinding.with, SortKey.with,
    Aggregate.with, List.map_flatMap, List.flatMap_map, Option.toList_map, Function.comp_def]

theorem reword_rebuild {e : Expr} (hv : ∀ name type, e ≠ var name type) (h : ∀ value, e ≠ constant value)
    (c : Nat → Expr) : (e.rebuild c).reword w = e.rebuild fun i => (c i).reword w := by
  cases e with
  | constant value => exact (h value rfl).elim
  | var name type => exact (hv name type rfl).elim
  | _ =>
    simp [rebuild, reword, rewordItems_eq_map, rewordOptional_eq_map, rewordFields_eq_map, rewordBindings_eq_map,
      rewordKeys_eq_map, rewordAggregates_eq_map, rewordBranches_eq_map, map_mapIdx, Binding.with, SortKey.with,
      GroupBinding.with, Aggregate.with, Function.comp_def]

/-! ## Forms -/

section

variable (e : Expr)

@[simp] theorem isScan_reword : (e.reword w).isScan = e.isScan := by cases e <;> rfl

@[simp] theorem isJoin_reword : (e.reword w).isJoin = e.isJoin := by cases e <;> rfl

@[simp] theorem isApply_reword : (e.reword w).isApply = e.isApply := by cases e <;> rfl

@[simp] theorem isCall_reword : (e.reword w).isCall = e.isCall := by cases e <;> rfl

@[simp] theorem isNullLiteral_reword : (e.reword w).isNullLiteral = e.isNullLiteral := by cases e <;> rfl

@[simp] theorem isVariable_reword : (e.reword w).isVariable = e.isVariable := by cases e <;> rfl

@[simp] theorem isNullTest_reword : (e.reword w).isNullTest = e.isNullTest := by cases e <;> rfl

@[simp] theorem declaresExtent_reword : Build.declaresExtent (e.reword w) = Build.declaresExtent e := by
  cases e <;> rfl

@[simp] theorem isPlainColumn_reword : (e.reword w).isPlainColumn = e.isPlainColumn := by
  cases e with
  | property owner name => cases owner <;> rfl
  | _ => rfl

end

@[simp] theorem isKey_reword (e : Expr) : (e.reword w).isKey = e.isKey := by
  cases e with
  | property owner name => exact isKey_reword owner
  | _ => rfl

theorem sameKey_reword (a b : Expr) : sameKey (a.reword w) (b.reword w) = sameKey a b := by
  cases a with
  | property a n =>
    cases b with
    | property b m => simp [reword, sameKey, sameKey_reword a b]
    | _ => rfl
  | var n _ =>
    cases b with
    | var m _ => simp [reword, sameKey, Ident.same, w.key_name]
    | _ => rfl
  | parameter n _ => cases b <;> rfl
  | _ => rfl

/-! ## Disjunctions -/

/-- The leaves of a disjunction have their places in every wording. -/
theorem terms?_reword (e : Expr) : terms? (e.reword w) =
    (terms? e).map (List.map fun t => ⟨t.key.reword w, t.value.reword w⟩) := by
  fun_induction terms? e with
  | case1 left right hl => simp [reword, terms?, hl]
  | case2 left right hl hr | case3 left right hl hr => simp [reword, terms?, hl, hr]
  | case4 operand ho | case5 operand ho => simp [reword, terms?, ho]
  | case6 left right ihl ihr =>
    simp only [reword, terms?, ihl, ihr]
    cases terms? left <;> cases terms? right <;> simp
  | case7 e heq hnull hor =>
    cases e with
    | compare op left right => cases op <;> first | rfl | exact (heq left right rfl).elim
    | isNull operand => exact (hnull operand rfl).elim
    | or left right => exact (hor left right rfl).elim
    | _ => rfl

theorem gather_reword (terms : List (Term Expr)) :
    gather id (terms.map fun t => ⟨t.key.reword w, t.value.reword w⟩) =
      KeyedLists.mapEntries (reword w) (reword w) (gather id terms) := by
  simp only [gather, id]
  rw [← KeyedLists.mapEntries_ofPairs (reword w) (sameKey_reword w), List.map_map, List.map_map]
  rfl

theorem gathered?_reword (e : Expr) : gathered? (e.reword w) =
    (gathered? e).map (KeyedLists.mapEntries (reword w) (reword w)) := by
  unfold gathered?
  rw [terms?_reword]
  cases terms? e with
  | none => rfl
  | some terms =>
    have hlong : (KeyedLists.mapEntries (reword w) (reword w) (gather id terms)).any (fun g => g.2.length > 1) =
        (gather id terms).any fun g => g.2.length > 1 := by
      simp [KeyedLists.mapEntries, List.any_map, Function.comp_def]
    simp only [Option.map_some, Option.bind_eq_bind, Option.bind_some, gather_reword, hlong]
    split <;> rfl

theorem disjunctCount_reword (groups : KeyedLists Expr Expr) :
    disjunctCount id (KeyedLists.mapEntries (reword w) (reword w) groups) = disjunctCount id groups := by
  simp [disjunctCount, KeyedLists.mapEntries, List.foldr_map, disjunctsOf]

@[simp] theorem needsParentheses_reword (e : Expr) :
    (e.reword w).needsParentheses = e.needsParentheses := by
  cases e with
  | or left right =>
    have h := gathered?_reword w (or left right)
    simp only [reword] at h
    simp only [reword, needsParentheses, gatheredParenthesized, h]
    cases gathered? (or left right) with
    | none => rfl
    | some groups => simp [disjunctCount_reword]
  | _ => rfl

/-! ## Strings and types -/

theorem strings_reword (e : Expr) : (e.reword w).strings = e.strings.map w.string := by
  induction e using within_induction with
  | step e ih =>
    by_cases h : ∃ s, e = constant (.string s)
    · obtain ⟨s, rfl⟩ := h
      simp [strings, reword, Constant.mapString]
    · have hworded : ∀ s, e.reword w ≠ constant (.string s) := by
        intro s he
        cases e with
        | constant value =>
          cases value with
          | string s => exact h ⟨s, rfl⟩
          | _ => cases he
        | _ => cases he
      rw [strings_eq_flatMap hworded, strings_eq_flatMap fun s he => h ⟨s, he⟩, children_reword, List.flatMap_map,
        List.map_flatMap]
      exact List.flatMap_congr fun c hc => ih c (.single hc)

mutual

/-- The type of an expression tells the kinds of its constants at most. -/
@[simp] theorem type_reword (e : Expr) : (e.reword w).type = e.type := by
  cases e with
  | constant value => cases value <;> rfl
  | filter input _ | sort input _ | skip input _ _ => exact type_reword input.expr
  | limit e _ _ | distinct e | setOp _ e _ | arith _ e _ | negate e => exact type_reword e
  | project _ e => exact congrArg DataType.collection (type_reword e)
  | element e => exact congrArg DataType.element (type_reword e)
  | property e name => exact congrArg (memberType · name) (type_reword e)
  | crossJoin inputs => simp [reword, type, rewordBindings_eq_map, joinedRow, Binding.with, Function.comp_def]
  | groupBy input keys aggregates =>
    simp [reword, type, namedTypes_reword keys, rewordAggregates_eq_map, Aggregate.with, Function.comp_def]
  | case branches otherwise =>
    match branches, otherwise with
    | (_, value) :: _, _ => exact type_reword value
    | [], some otherwise => exact type_reword otherwise
    | [], none => rfl
  | newRecord fields => exact congrArg DataType.row (namedTypes_reword fields)
  | _ => rfl

theorem namedTypes_reword (fields : List (String × Expr)) : namedTypes (rewordFields w fields) = namedTypes fields := by
  match fields with
  | [] => rfl
  | (name, e) :: rest => simp [rewordFields, namedTypes, type_reword e, namedTypes_reword rest]

end

@[simp] theorem rowType_reword (e : Expr) : (e.reword w).rowType = e.rowType :=
  congrArg DataType.element (type_reword w e)

end

/-! ## Other values only -/

section

variable (g : String → String)

theorem reword_of_name {w : Wording} (hw : w.name = id) (e : Expr) : e.reword w = e.mapStrings w.string := by
  induction e using within_induction with
  | step e ih =>
    have hchild : ∀ i, (e.child i).reword w = (e.child i).mapStrings w.string := by
      intro i
      cases ha : e.children[i]? with
      | none => rw [child, getD, ha]; rfl
      | some a => rw [child, getD, ha]; exact ih a (.single (mem_of_getElem? ha))
    by_cases hvar : ∃ name type, e = var name type
    · obtain ⟨name, type, rfl⟩ := hvar
      rw [reword, hw]; rfl
    by_cases hconst : ∃ value, e = constant value
    · obtain ⟨value, rfl⟩ := hconst
      rfl
    push Not at hvar hconst
    rw [mapStrings, mapConstants_eq_rebuild _ hconst, ← funext hchild, ← reword_rebuild _ hvar hconst, rebuild_child]

theorem reword_values (e : Expr) : e.reword (.values g) = e.mapStrings g := reword_of_name rfl e

theorem strings_mapStrings (e : Expr) : (e.mapStrings g).strings = e.strings.map g := by
  rw [← reword_values, strings_reword]; rfl

end

end Expr

end RelSql
