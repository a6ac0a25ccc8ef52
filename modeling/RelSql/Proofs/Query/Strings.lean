/-
The string constants of an expression, and an expression as its form with sub-expressions in their places:
changing constants leaves the form and changes what stands in the places.
-/
import RelSql.Proofs.Build.Offsets
import RelSql.Proofs.Modification.Constants

namespace RelSql

open List hiding set

/-- Changes the value of a string and of nothing else. -/
def Constant.mapString (g : String → String) : Constant → Constant
  | string s => string (g s)
  | c => c

namespace Expr

/-! ## Values -/

/-- The values of the string constants, from left to right. -/
def strings : Expr → List String
  | constant (.string s) => [s]
  | e => e.children.attach.flatMap fun c => strings c.1
termination_by e => sizeOf e
decreasing_by exact sizeOf_lt_of_mem_children c.2

/-- The expression with the values of its string constants changed. -/
abbrev mapStrings (g : String → String) (e : Expr) : Expr := e.mapConstants (Constant.mapString g)

/-- The expression with the values of its string constants erased. -/
abbrev withoutStrings (e : Expr) : Expr := e.mapStrings fun _ => ""

theorem strings_eq_flatMap {e : Expr} (h : ∀ s, e ≠ constant (.string s)) : e.strings = e.children.flatMap strings := by
  rw [strings]
  · simp
  · exact fun s he => h s he

/-! ## Sub-expressions in their places -/

/-- The expression with others in the places of its direct sub-expressions. -/
def rebuild (e : Expr) (c : Nat → Expr) : Expr :=
  match e with
  | scan _ | constant _ | null _ | var .. | parameter .. => e
  | filter input _ => filter (input.with (c 0)) (c 1)
  | project input _ => project (input.with (c 0)) (c 1)
  | join kind left right _ => join kind (left.with (c 0)) (right.with (c 1)) (c 2)
  | crossJoin inputs => crossJoin (inputs.mapIdx fun i b => b.with (c i))
  | apply kind input applied => apply kind (input.with (c 0)) (applied.with (c 1))
  | groupBy input keys aggregates =>
    groupBy (input.with (c 0)) (keys.mapIdx fun i k => (k.1, c (i + 1)))
      (aggregates.mapIdx fun i a => (a.1, a.2.with (c (keys.length + i + 1))))
  | sort input keys => sort (input.with (c 0)) (keys.mapIdx fun i k => k.with (c (i + 1)))
  | skip input keys _ => skip (input.with (c 0)) (keys.mapIdx fun i k => k.with (c (i + 2))) (c 1)
  | limit _ _ withTies => limit (c 0) (c 1) withTies
  | distinct _ => distinct (c 0)
  | setOp op _ _ => setOp op (c 0) (c 1)
  | element _ => element (c 0)
  | isEmpty _ => isEmpty (c 0)
  | quantifier q input _ => quantifier q (input.with (c 0)) (c 1)
  | newCollection type items => newCollection type (items.mapIdx fun i _ => c i)
  | property _ name => property (c 0) name
  | call function arguments => call function (arguments.mapIdx fun i _ => c i)
  | case branches otherwise =>
    case (branches.mapIdx fun i _ => (c (2 * i), c (2 * i + 1))) (otherwise.map fun _ => c (2 * branches.length))
  | cast _ type => cast (c 0) type
  | arith op _ _ => arith op (c 0) (c 1)
  | negate _ => negate (c 0)
  | compare op _ _ => compare op (c 0) (c 1)
  | and _ _ => and (c 0) (c 1)
  | or _ _ => or (c 0) (c 1)
  | not _ => not (c 0)
  | isNull _ => isNull (c 0)
  | like _ _ escape => like (c 0) (c 1) (escape.map fun _ => c 2)
  | newRecord fields => newRecord (fields.mapIdx fun i f => (f.1, c i))
  | navigate _ relationship => navigate (c 0) relationship
  | typeTest test _ type => typeTest test (c 0) type
  | reference op _ => reference op (c 0)
  | lambda _ => lambda (c 0)

theorem mapIdx_map {α β γ : Type} (l : List α) (g : α → β) (f : Nat → β → γ) :
    (l.map g).mapIdx f = l.mapIdx fun i a => f i (g a) :=
  ext_getElem (by simp) (by simp)

theorem map_mapIdx {α β γ : Type} (l : List α) (f : Nat → α → β) (g : β → γ) :
    (l.mapIdx f).map g = l.mapIdx fun i a => g (f i a) :=
  ext_getElem (by simp) (by simp)

theorem mapIdx_eq_self {α : Type} {l : List α} {f : Nat → α → α} (h : ∀ i a, l[i]? = some a → f i a = a) :
    l.mapIdx f = l :=
  ext_getElem (by simp) fun i hi _ => by
    rw [getElem_mapIdx]
    exact h i _ (getElem?_eq_getElem _)

theorem getElem?_branches (branches : List (Expr × Expr)) (rest : List Expr) {i : Nat} {b : Expr × Expr}
    (h : branches[i]? = some b) : (branches.flatMap (fun b => [b.1, b.2]) ++ rest)[2 * i]? = some b.1 ∧
      (branches.flatMap (fun b => [b.1, b.2]) ++ rest)[2 * i + 1]? = some b.2 := by
  induction branches generalizing i with
  | nil => cases h
  | cons a branches ih =>
    cases i with
    | zero => cases h; simp
    | succ i => simpa [Nat.mul_succ] using ih h

theorem rebuild_of_children {e : Expr} {c : Nat → Expr} (h : ∀ i a, e.children[i]? = some a → c i = a) :
    e.rebuild c = e := by
  cases e with
  | scan _ | constant _ | null _ | var _ _ | parameter _ _ => rfl
  | distinct _ | element _ | isEmpty _ | property _ _ | cast _ _ | negate _ | not _ | isNull _ | navigate _ _
  | typeTest _ _ _ | reference _ _ | lambda _ => rw [rebuild, h 0 _ rfl]
  | limit _ _ _ | setOp _ _ _ | arith _ _ _ | compare _ _ _ | and _ _ | or _ _ | filter _ _ | project _ _ | apply _ _ _
  | quantifier _ _ _ => simp only [rebuild, h 0 _ rfl, h 1 _ rfl, Binding.with]
  | join _ _ _ _ => rw [rebuild, h 0 _ rfl, h 1 _ rfl, h 2 _ rfl]; rfl
  | crossJoin inputs | newCollection _ inputs | call _ inputs | newRecord inputs =>
    rw [rebuild, mapIdx_eq_self fun i b hb => by rw [h i _ (by simp [children, hb]; rfl)]; first | done | rfl]
  | groupBy input keys aggregates =>
    rw [rebuild, h 0 _ rfl, mapIdx_eq_self, mapIdx_eq_self]
    · rfl
    · intro i a ha
      rw [h (keys.length + i + 1) a.2.argument (by simp [children, ha, getElem?_append])]; rfl
    · intro i k hk
      obtain ⟨hi, rfl⟩ := List.getElem?_eq_some_iff.1 hk
      rw [h (i + 1) keys[i].2 (by simp [children, getElem?_append, hi])]
  | sort input keys =>
    rw [rebuild, h 0 _ rfl, mapIdx_eq_self fun i k hk => by rw [h (i + 1) k.expr (by simp [children, hk])]; rfl]
    rfl
  | skip input keys count =>
    rw [rebuild, h 0 _ rfl, h 1 _ rfl, mapIdx_eq_self fun i k hk => by rw [h (i + 2) k.expr (by simp [children, hk])]; rfl]
    rfl
  | case branches otherwise =>
    rw [rebuild, mapIdx_eq_self fun i b hb => by
      have := getElem?_branches branches otherwise.toList hb
      rw [h _ _ this.1, h _ _ this.2]]
    cases otherwise with
    | none => rfl
    | some e => rw [Option.map_some, h _ e (by simp [children, Nat.mul_comm])]
  | like l r escape =>
    rw [rebuild, h 0 _ rfl, h 1 _ rfl]
    cases escape with
    | none => rfl
    | some e => rw [Option.map_some, h 2 e rfl]

/-- The sub-expression in a place. -/
def child (e : Expr) (i : Nat) : Expr := e.children.getD i (constant (.boolean false))

theorem rebuild_child (e : Expr) : e.rebuild e.child = e :=
  rebuild_of_children fun i a ha => by simp [child, ha]

section

variable (f : Constant → Constant)

theorem mapItems_eq_map (es : List Expr) : mapItems f es = es.map (mapConstants f) := by
  induction es with
  | nil => rfl
  | cons e rest ih => simp [mapItems, ih]

theorem mapOptional_eq_map (o : Option Expr) : mapOptional f o = o.map (mapConstants f) := by
  cases o <;> rfl

theorem mapFields_eq_map (fields : List (String × Expr)) :
    mapFields f fields = fields.map fun x => (x.1, x.2.mapConstants f) := by
  induction fields with
  | nil => rfl
  | cons x rest ih => simp [mapFields, ih]

theorem mapBindings_eq_map (inputs : List (Binding Expr)) :
    mapBindings f inputs = inputs.map fun b => b.with (b.expr.mapConstants f) := by
  induction inputs with
  | nil => rfl
  | cons b rest ih => simp [mapBindings, ih]

theorem mapKeys_eq_map (keys : List (SortKey Expr)) :
    mapKeys f keys = keys.map fun k => k.with (k.expr.mapConstants f) := by
  induction keys with
  | nil => rfl
  | cons k rest ih => simp [mapKeys, ih]

theorem mapAggregates_eq_map (aggregates : List (String × Aggregate Expr)) :
    mapAggregates f aggregates = aggregates.map fun a => (a.1, a.2.with (a.2.argument.mapConstants f)) := by
  induction aggregates with
  | nil => rfl
  | cons a rest ih => simp [mapAggregates, ih]

theorem mapBranches_eq_map (branches : List (Expr × Expr)) :
    mapBranches f branches = branches.map fun b => (b.1.mapConstants f, b.2.mapConstants f) := by
  induction branches with
  | nil => rfl
  | cons b rest ih => simp [mapBranches, ih]

/-- Changing constants keeps the form, and changes what stands in the places. -/
theorem mapConstants_rebuild {e : Expr} (h : ∀ value, e ≠ constant value) (c : Nat → Expr) :
    (e.mapConstants f).rebuild c = e.rebuild c ∧
      (e.rebuild c).mapConstants f = e.rebuild fun i => (c i).mapConstants f := by
  cases e with
  | constant value => exact (h value rfl).elim
  | _ =>
    constructor <;> simp [rebuild, mapConstants, mapItems_eq_map, mapOptional_eq_map, mapFields_eq_map,
      mapBindings_eq_map, mapKeys_eq_map, mapAggregates_eq_map, mapBranches_eq_map, mapIdx_map, map_mapIdx, Binding.with,
      GroupBinding.with, SortKey.with, Aggregate.with, Function.comp_def]

theorem mapConstants_eq_rebuild {e : Expr} (h : ∀ value, e ≠ constant value) :
    e.mapConstants f = e.rebuild fun i => (e.child i).mapConstants f := by
  rw [← (mapConstants_rebuild f h _).2, rebuild_child]

end

theorem mapStrings_id (e : Expr) : e.mapStrings id = e := by
  induction e using within_induction with
  | step e ih =>
    by_cases h : ∃ value, e = constant value
    · obtain ⟨value, rfl⟩ := h
      cases value <;> rfl
    · rw [mapStrings, mapConstants_eq_rebuild _ fun value hv => h ⟨value, hv⟩]
      exact rebuild_of_children fun i a ha => by simpa [child, ha] using ih a (.single (mem_of_getElem? ha))

end Expr

end RelSql
