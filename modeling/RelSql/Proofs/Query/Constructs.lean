/-
The constructs that expressions are built by. Each case of `Expr.build` is a construct applied to the steps of
expressions that lie below.
-/
import RelSql.Proofs.Query.Subexpressions

namespace RelSql

open Build List

variable {e : Expr}

/-! ## Gathered leaves -/

namespace KeyedLists

variable {κ ν : Type} {same : κ → κ → Bool} {R : κ → Prop} {S : ν → Prop}

theorem forall_add {key : κ} {value : ν} (hk : R key) (hv : S value) : ∀ {entries : KeyedLists κ ν},
    (∀ entry ∈ entries, R entry.1 ∧ ∀ v ∈ entry.2, S v) →
      ∀ entry ∈ add same key value entries, R entry.1 ∧ ∀ v ∈ entry.2, S v
  | [], _ => by simp [add, hk, hv]
  | (k, values) :: rest, h => by
    obtain ⟨hhead, hrest⟩ := forall_mem_cons.1 h
    unfold add
    split
    · refine forall_mem_cons.2 ⟨⟨hhead.1, fun v hmem => ?_⟩, hrest⟩
      rcases mem_append.1 hmem with hmem | hmem
      · exact hhead.2 v hmem
      · rw [mem_singleton.1 hmem]; exact hv
    · exact forall_mem_cons.2 ⟨hhead, forall_add hk hv hrest⟩

theorem forall_ofPairs {pairs : List (κ × ν)} (h : ∀ p ∈ pairs, R p.1 ∧ S p.2) :
    ∀ entry ∈ ofPairs same pairs, R entry.1 ∧ ∀ v ∈ entry.2, S v := by
  induction pairs using reverseRecOn with
  | nil => exact fun _ he => absurd he not_mem_nil
  | append_singleton pairs p ih =>
    obtain ⟨hpairs, hp⟩ := forall_mem_append.1 h
    obtain ⟨hkey, hvalue⟩ := hp p mem_cons_self
    rw [ofPairs_concat]
    exact forall_add hkey hvalue (ih hpairs)

end KeyedLists

/-! ## The construct that an expression is -/

namespace Expr

section

variable [Variables] (config : Config) (P : Expr → Prop)

/-- The step that builds an expression is one of the constructs, applied to the steps of smaller
expressions, of which `P` holds. -/
inductive Construct : Expr → BuildM Fragment → Prop
  | scan (set : EntitySet) : Construct (scan set) (Build.scan set)
  | filter {input : Binding Expr} {predicate : Expr} : P input.expr → P predicate →
    Construct (filter input predicate)
      (asFragment (Build.filter false (input.with (toOperand config input.expr)) (toOperand config predicate)))
  | record {input : Binding Expr} {fields : List (String × Expr)} : P input.expr → (∀ f ∈ fields, P f.2) →
    Construct (project input (newRecord fields))
      (asFragment (Build.projectRecord (input.with (toOperand config input.expr))
        (fields.map fun f => (f.1, toOperand config f.2))))
  | value {input : Binding Expr} {projection : Expr} : P input.expr → P projection →
    (∀ fields, projection ≠ newRecord fields) →
    Construct (project input projection)
      (asFragment (Build.projectValue (input.with (toOperand config input.expr)) (toOperand config projection)))
  | join {kind : JoinKind} {left right : Binding Expr} {condition : Expr} : P left.expr → P right.expr → P condition →
    Construct (join kind left right condition)
      (asFragment (Build.joined kind.keyword
        ([left, right].map fun b => b.with (toOperand config b.expr)) (some (toOperand config condition))))
  | crossJoin {inputs : List (Binding Expr)} : (∀ b ∈ inputs, P b.expr) →
    Construct (crossJoin inputs)
      (asFragment (Build.joined "CROSS JOIN" (inputs.map fun b => b.with (toOperand config b.expr)) none))
  | group {input : GroupBinding Expr} {keys : List (String × Expr)} {aggregates : List (String × Aggregate Expr)} :
    P input.expr → (∀ k ∈ keys, P k.2) → (∀ a ∈ aggregates, P a.2.argument) →
    Construct (groupBy input keys aggregates)
      (asFragment (Build.group (input.with (toOperand config input.expr))
        (keys.map fun k => (k.1, toOperand config k.2))
        (aggregates.map fun a => (a.1, a.2.with (toOperand config a.2.argument)))))
  | sort {input : Binding Expr} {keys : List (SortKey Expr)} : P input.expr → (∀ k ∈ keys, P k.expr) →
    Construct (sort input keys)
      (asFragment (Build.sort (input.with (toOperand config input.expr))
        (keys.map fun k => k.with (toOperand config k.expr))))
  | skip {input : Binding Expr} {keys : List (SortKey Expr)} {count : Expr} : P input.expr →
    (∀ k ∈ keys, P k.expr) → P count →
    Construct (skip input keys count)
      (asFragment (Build.skip (input.with (toOperand config input.expr))
        (keys.map fun k => k.with (toOperand config k.expr)) (toOperand config count)))
  | limit {input count : Expr} {withTies : Bool} : P input → P count →
    Construct (limit input count withTies)
      (asFragment (Build.limit withTies (toOperand config input) (toOperand config count)))
  | distinct {input : Expr} : P input →
    Construct (distinct input) (asFragment (Build.distinct (toOperand config input)))
  | setOp {op : SetOp} {left right : Expr} : P left → P right →
    Construct (setOp op left right) (Build.setOperation op (toOperand config left) (toOperand config right))
  | element {input : Expr} : P input → Construct (element input) (Build.element (toOperand config input))
  | isEmpty {input : Expr} : P input → Construct (isEmpty input) (Build.emptiness false (toOperand config input))
  | quantifier {q : Quantifier} {input : Binding Expr} {predicate : Expr} : P input.expr → P predicate →
    Construct (quantifier q input predicate)
      (Build.quantified q (input.with (toOperand config input.expr)) (toOperand config predicate))
  | singleton {elementType : DataType} {input : Expr} : P input →
    Construct (newCollection elementType [element input]) (asFragment (Build.singleton (toOperand config input)))
  | collection {elementType : DataType} {items : List Expr} : (∀ item ∈ items, P item) →
    (∀ input, items ≠ [element input]) →
    Construct (newCollection elementType items) (Build.collection elementType (items.map (toOperand config)))
  | constant (value : Constant) : Construct (constant value) (Build.constant value)
  | null (type : DataType) : Construct (null type) (pure (.text "NULL"))
  | member {owner : Expr} {name : String} : P owner →
    Construct (property owner name) (Build.member (toOperand config owner) name)
  | var (name : String) (type : DataType) : Construct (var name type) (Variables.visit name)
  | parameter (name : String) (type : DataType) :
    Construct (parameter name type) (pure (.text (config.parameterName name)))
  | call {function : Function} {arguments : List Expr} : (∀ a ∈ arguments, P a) →
    Construct (call function arguments) (Build.call function (arguments.map (toOperand config)))
  | case {branches : List (Expr × Expr)} {otherwise : Option Expr} : (∀ b ∈ branches, P b.1 ∧ P b.2) →
    (∀ o ∈ otherwise, P o) →
    Construct (case branches otherwise)
      (Build.caseOf (branches.map fun b => (toOperand config b.1, toOperand config b.2))
        (otherwise.map (toOperand config)))
  | cast {operand : Expr} {type : DataType} : P operand → Construct (cast operand type) (build config operand)
  | arith {op : ArithOp} {left right : Expr} : P left → P right →
    Construct (arith op left right)
      (Build.binary (" " ++ op.text ++ " ") (toOperand config left) (toOperand config right))
  | negate {operand : Expr} : P operand → Construct (negate operand) (Build.negate (toOperand config operand))
  | compare {op : CompareOp} {left right : Expr} : P left → P right →
    Construct (compare op left right)
      (Build.binary (" " ++ op.text ++ " ") (toOperand config left) (toOperand config right))
  | and {left right : Expr} : P left → P right →
    Construct (and left right) (Build.binary " AND " (toOperand config left) (toOperand config right))
  | membership {left right : Expr} {terms : List (Term Expr)} : terms? (or left right) = some terms →
    (∀ t ∈ terms, P t.key ∧ P t.value) →
    Construct (or left right) (Build.membership (gather Operand.expr
      (terms.map fun t => ⟨toOperand config t.key, toOperand config t.value⟩)))
  | or {left right : Expr} : P left → P right →
    Construct (or left right) (Build.binary " OR " (toOperand config left) (toOperand config right))
  | notNot {operand : Expr} : P operand → Construct (not (not operand)) (build config operand)
  | notEmpty {input : Expr} : P input →
    Construct (not (isEmpty input)) (Build.emptiness true (toOperand config input))
  | notNull {operand : Expr} : P operand →
    Construct (not (isNull operand)) (Build.nullTest true (toOperand config operand))
  | notEqual {left right : Expr} : P left → P right →
    Construct (not (compare .eq left right)) (Build.binary " <> " (toOperand config left) (toOperand config right))
  | not {operand : Expr} : P operand → Construct (not operand) (Build.negation (toOperand config operand))
  | isNull {operand : Expr} : P operand →
    Construct (isNull operand) (Build.nullTest false (toOperand config operand))
  | like {operand pattern : Expr} {escape : Option Expr} : P operand → P pattern → (∀ o ∈ escape, P o) →
    Construct (like operand pattern escape)
      (Build.like (toOperand config operand) (toOperand config pattern) (escape.map (toOperand config)))
  | refused (e : Expr) (cause : Unsupported) : Construct e (throw (.unsupported cause))

variable {config P}

/-- Every expression is one of the constructs over expressions that lie below it. -/
theorem build_construct (h : ∀ c, Within c e → P c) : Construct config P e (build config e) := by
  have hone : ∀ {c : Expr} (_ : c ∈ e.children := by simp [children]), P c := fun hc => h _ (.single hc)
  have hdeep : ∀ (d : Expr) {c : Expr} (_ : d ∈ e.children := by simp [children])
      (_ : c ∈ d.children := by simp [children]), P c := fun d c hd hc => h c (.head hc (.single hd))
  fun_cases build config e with
  | case1 set => exact .scan set
  | case2 input predicate => exact .filter hone hone
  | case3 input fields =>
    rw [namedOperands_eq_map]
    exact .record hone fun f hf => hdeep (newRecord fields) (by simp [children]) (mem_map_of_mem hf)
  | case4 input projection hne => exact .value hone hone hne
  | case5 kind left right condition => exact .join hone hone hone
  | case6 inputs =>
    rw [bindingOperands_eq_map]
    exact .crossJoin fun b hb => hone (mem_map_of_mem hb)
  | case8 input keys aggregates =>
    rw [namedOperands_eq_map, aggregateOperands_eq_map]
    refine .group hone (fun k hk => hone ?_) fun a ha => hone ?_
    · exact mem_cons_of_mem _ (mem_append_left _ (mem_map_of_mem hk))
    · exact mem_cons_of_mem _ (mem_append_right _ (mem_map_of_mem (f := fun a => a.2.argument) ha))
  | case9 input keys =>
    rw [keyOperands_eq_map]
    exact .sort hone fun k hk => hone (mem_cons_of_mem _ (mem_map_of_mem hk))
  | case10 input keys count =>
    rw [keyOperands_eq_map]
    exact .skip hone (fun k hk => hone (mem_cons_of_mem _ (mem_cons_of_mem _ (mem_map_of_mem hk)))) hone
  | case11 input count withTies => exact .limit hone hone
  | case12 input => exact .distinct hone
  | case13 op left right => exact .setOp hone hone
  | case14 input => exact .element hone
  | case15 input => exact .isEmpty hone
  | case16 q input predicate => exact .quantifier hone hone
  | case17 elementType input => exact .singleton (hdeep (element input))
  | case18 elementType items hne =>
    rw [operands_eq_map]
    exact .collection (fun _ hc => hone hc) hne
  | case19 value => exact .constant value
  | case20 type => exact .null type
  | case21 owner name => exact .member hone
  | case22 name type => exact .var name type
  | case23 name type => exact .parameter name type
  | case24 function arguments =>
    rw [operands_eq_map]
    exact .call fun _ hc => hone hc
  | case25 branches otherwise =>
    rw [branchOperands_eq_map, optionalOperand_eq_map]
    refine .case (fun b hb => ?_) fun o ho => hone (mem_append_right _ (Option.mem_toList.2 ho))
    have hmem : ∀ c ∈ [b.1, b.2], P c := fun c hc => hone (mem_append_left _ (mem_flatMap.2 ⟨b, hb, hc⟩))
    exact ⟨hmem _ (by simp), hmem _ (by simp)⟩
  | case26 operand type => exact .cast hone
  | case27 op left right => exact .arith hone hone
  | case28 operand => exact .negate hone
  | case29 op left right => exact .compare hone hone
  | case30 left right => exact .and hone hone
  | case31 left right hg =>
    obtain ⟨terms, ht⟩ : ∃ terms, terms? (or left right) = some terms := by
      cases ht : terms? (or left right) with
      | none => simp [gathered?, ht] at hg
      | some terms => exact ⟨terms, rfl⟩
    have heq : termOperands config left ++ termOperands config right =
        terms.map fun t => ⟨toOperand config t.key, toOperand config t.value⟩ := by
      rw [← termOperands_of_terms? config ht, termOperands]
    rw [heq]
    exact .membership ht fun t hm => ⟨h _ (within_of_terms? ht t hm).1, h _ (within_of_terms? ht t hm).2⟩
  | case32 left right => exact .or hone hone
  | case33 operand => exact .notNot (hdeep (not operand))
  | case34 input => exact .notEmpty (hdeep (isEmpty input))
  | case35 operand => exact .notNull (hdeep (isNull operand))
  | case36 left right => exact .notEqual (hdeep (compare .eq left right)) (hdeep (compare .eq left right))
  | case37 operand => exact .not hone
  | case38 operand => exact .isNull hone
  | case39 operand pattern escape =>
    rw [optionalOperand_eq_map]
    exact .like hone hone fun o ho => hone (mem_cons_of_mem _ (mem_cons_of_mem _ (Option.mem_toList.2 ho)))
  | case7 | case40 | case41 | case42 | case43 | case44 => exact .refused _ _

end

end Expr

end RelSql
