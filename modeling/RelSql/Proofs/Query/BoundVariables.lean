/-
The variables of a compiled query. A query compiles only if each of its variables is the owner of a
member and stands for an input that is in scope, whatever the case of its name. That the text has no
whole rows is known from one mark in the state of the construction, which a variable sets and a
member clears. Equal keys of a membership test are built once, so the proof needs that a key is
scoped if one that denotes the same is.
-/
import RelSql.Proofs.Build.Variables
import RelSql.Proofs.Query.MembershipTruth
import RelSql.Proofs.Query.Scoping

namespace RelSql

open KeyedLists Ident List Build

namespace Expr

variable {e : Expr} {terms : List (Term Expr)}

/-! ## Scopes of sub-expressions -/

/-- The direct sub-expressions, each with the variables that the expression binds for it. -/
def scopedChildren : Expr → List (List String × Expr)
  | filter input predicate => [([], input.expr), ([input.var], predicate)]
  | project input projection => [([], input.expr), ([input.var], projection)]
  | join _ left right condition => inTurn [left, right] ++ [([right.var, left.var], condition)]
  | crossJoin inputs => inTurn inputs
  | apply _ input applied => [([], input.expr), ([input.var], applied.expr)]
  | groupBy input keys aggregates =>
    ([], input.expr) :: keys.map (fun k => ([input.groupVar, input.var], k.2)) ++
      aggregates.map fun a => ([input.groupVar, input.var], a.2.argument)
  | sort input keys => ([], input.expr) :: keys.map fun k => ([input.var], k.expr)
  | skip input keys count => ([], input.expr) :: ([], count) :: keys.map fun k => ([input.var], k.expr)
  | quantifier _ input predicate => [([], input.expr), ([input.var], predicate)]
  | e => e.children.map fun c => ([], c)

theorem map_snd_inTurn (inputs : List (Binding Expr)) : (inTurn inputs).map Prod.snd = inputs.map Binding.expr := by
  induction inputs with
  | nil => rfl
  | cons b rest ih => simp [inTurn, ← ih]

/-- No sub-expression is left out. -/
theorem map_snd_scopedChildren (e : Expr) : e.scopedChildren.map Prod.snd = e.children := by
  unfold scopedChildren
  split
  case h_4 => exact map_snd_inTurn _
  all_goals simp [children, inTurn, Function.comp_def]

theorem mem_children {c : List String × Expr} (h : c ∈ e.scopedChildren) : c.2 ∈ e.children := by
  rw [← map_snd_scopedChildren]
  exact mem_map_of_mem h

/-- Every variable in the expression is the owner of a member, and is one of those in scope where it
stands. -/
inductive WellScoped : List String → Expr → Prop
  | member {scope : List String} {name member : String} {type : DataType} :
    (∃ v ∈ scope, same name v = true) → WellScoped scope (property (var name type) member)
  | node {scope : List String} {e : Expr} : e.isVariable = false → e.isPlainColumn = false →
    (∀ c ∈ e.scopedChildren, WellScoped (c.1 ++ scope) c.2) → WellScoped scope e

/-! ## Keys and tests for null -/

/-- Some leaf of the disjunction is an equality with a test for null. -/
def equatesNullTest : Expr → Bool
  | compare .eq left right => left.isNullTest || right.isNullTest
  | or left right => equatesNullTest left || equatesNullTest right
  | _ => false

/-- A disjunction has no leaf that is an equality with a test for null. -/
def PlainDisjunction : Expr → Prop
  | or left right => (or left right).equatesNullTest = false
  | _ => True

theorem comparesNullTest_of_terms? (h : terms? e = some terms) :
    e.comparesNullTest = e.equatesNullTest := by
  replace h := splits_of_terms? h
  induction h with
  | left | right | null => rfl
  | or _ _ ihl ihr => rw [comparesNullTest, equatesNullTest, ihl, ihr]

section

variable {name : String}

variable {scope : List String}

theorem wellScoped_isNull_iff {operand : Expr} : (isNull operand).WellScoped scope ↔ operand.WellScoped scope := by
  constructor
  · rintro (_ | ⟨-, -, h⟩)
    exact h ([], operand) (by simp [scopedChildren, children])
  · intro h
    exact .node rfl rfl (by simpa [scopedChildren, children] using h)

theorem wellScoped_property {owner : Expr} (ho : owner.isVariable = false) :
    (property owner name).WellScoped scope ↔ owner.WellScoped scope := by
  have hplain : (property owner name).isPlainColumn = false := by
    cases owner <;> first | rfl | cases ho
  constructor
  · intro h
    cases h with
    | member => cases ho
    | node _ _ h => exact h ([], owner) (by simp [scopedChildren, children])
  · intro h
    exact .node rfl hplain (by simpa [scopedChildren, children] using h)

theorem wellScoped_variableMember {member : String} {type : DataType} :
    (property (var name type) member).WellScoped scope ↔ ∃ v ∈ scope, same name v = true := by
  constructor
  · intro h
    cases h with
    | member h => exact h
    | node _ h _ => cases h
  · exact .member

theorem not_wellScoped_var {type : DataType} : ¬ (var name type).WellScoped scope := by
  intro h
  cases h with
  | node h _ _ => cases h

/-- Keys that denote the same are two variables of one name, or none of them is a variable. -/
theorem variables_of_sameKey {a b : Expr} (h : sameKey a b = true) :
    (∃ x s y t, a = var x s ∧ b = var y t ∧ same x y = true) ∨ a.isVariable = false ∧ b.isVariable = false := by
  unfold sameKey at h
  split at h
  · exact Or.inr ⟨rfl, rfl⟩
  · exact Or.inl ⟨_, _, _, _, rfl, rfl, h⟩
  · exact Or.inr ⟨rfl, rfl⟩
  · cases h

/-- Keys that denote the same are scoped alike. -/
theorem wellScoped_of_sameKey {a b : Expr} (h : sameKey a b = true) : a.WellScoped scope ↔ b.WellScoped scope := by
  fun_induction sameKey a b with
  | case1 a n b m ih =>
    obtain ⟨-, hkey⟩ := Bool.and_eq_true_iff.1 h
    rcases variables_of_sameKey hkey with ⟨x, s, y, t, rfl, rfl, hsame⟩ | ⟨ha, hb⟩
    · rw [wellScoped_variableMember, wellScoped_variableMember]
      constructor
      · rintro ⟨v, hv, hx⟩
        exact ⟨v, hv, same_trans (same_symm hsame) hx⟩
      · rintro ⟨v, hv, hy⟩
        exact ⟨v, hv, same_trans hsame hy⟩
    · rw [wellScoped_property ha, wellScoped_property hb]
      exact ih hkey
  | case2 => exact iff_of_false not_wellScoped_var not_wellScoped_var
  | case3 => exact iff_of_true (.node rfl rfl nofun) (.node rfl rfl nofun)
  | case4 => cases h

/-- A disjunction is scoped if its leaves are. -/
theorem wellScoped_of_terms? (h : terms? e = some terms)
    (ht : ∀ t ∈ terms, t.key.WellScoped scope ∧ t.value.WellScoped scope) : e.WellScoped scope := by
  replace h := splits_of_terms? h
  induction h with
  | left =>
    obtain ⟨hl, hr⟩ := ht _ mem_cons_self
    exact .node rfl rfl (by simpa [scopedChildren, children] using ⟨hl, hr⟩)
  | right =>
    obtain ⟨hr, hl⟩ := ht _ mem_cons_self
    exact .node rfl rfl (by simpa [scopedChildren, children] using ⟨hl, hr⟩)
  | null => exact (ht _ mem_cons_self).2
  | or _ _ ihl ihr =>
    obtain ⟨hl, hr⟩ := forall_mem_append.1 ht
    exact .node rfl rfl (by simpa [scopedChildren, children] using ⟨ihl hl, ihr hr⟩)

/-! ## Every expression -/

/-- What is to hold of an expression that is built where no variable is pending. -/
def BoundIn (scope : List String) (e : Expr) : Prop := e.All PlainDisjunction → e.WellScoped scope

theorem boundIn_node (h : ∀ c ∈ e.scopedChildren, BoundIn (c.1 ++ scope) c.2) (hv : e.isVariable = false := by rfl)
    (hc : e.isPlainColumn = false := by rfl) : BoundIn scope e :=
  fun hall => .node hv hc fun c hm => h c hm (hall.child (mem_children hm))

theorem boundIn_one {c : Expr} (h : BoundIn scope c) (he : e.scopedChildren = [([], c)] := by rfl)
    (hv : e.isVariable = false := by rfl) (hc : e.isPlainColumn = false := by rfl) : BoundIn scope e := by
  refine boundIn_node ?_ hv hc
  rw [he]
  exact forall_mem_singleton.2 h

theorem boundIn_two {left right : Expr} {names : List String} (h : BoundIn scope left ∧ BoundIn (names ++ scope) right)
    (he : e.scopedChildren = [([], left), (names, right)] := by rfl) (hv : e.isVariable = false := by rfl)
    (hc : e.isPlainColumn = false := by rfl) : BoundIn scope e := by
  refine boundIn_node ?_ hv hc
  rw [he]
  exact forall_mem_cons.2 ⟨h.1, forall_mem_singleton.2 h.2⟩

theorem boundIn_constant (h : (∃ value, e = constant value) ∨ BoundIn scope e) : BoundIn scope e := by
  rcases h with ⟨value, rfl⟩ | h
  · exact boundIn_node nofun
  · exact h

theorem boundIn_null (h : e.isNullLiteral = true ∨ BoundIn scope e) : BoundIn scope e := by
  rcases h with h | h
  · cases e with
    | null type => exact boundIn_node nofun
    | _ => cases h
  · exact h

end

variable {config : Config}

/-- If the key of an entry or one of its tests for null is built, all is scoped that is filed there. -/
theorem wellScoped_entry {scope : List String} {entry : Operand × List Operand}
    (hnull : ∀ v ∈ entry.2, ∀ operand, v.expr = isNull operand →
      operand.WellScoped scope = entry.1.expr.WellScoped scope)
    (hvalues : ∀ v ∈ entry.2, v.expr.isNullTest = false →
      entry.1.expr.WellScoped scope ∧ v.expr.WellScoped scope)
    (htest : ∀ test, entry.2.find? (·.expr.isNullTest) = some test → test.expr.WellScoped scope) :
    ∀ v ∈ entry.2, entry.1.expr.WellScoped scope ∧ v.expr.WellScoped scope := by
  have hkey : ∀ v ∈ entry.2, v.expr.isNullTest = true →
      (v.expr.WellScoped scope ↔ entry.1.expr.WellScoped scope) := by
    intro v hv ht
    obtain ⟨operand, ho⟩ : ∃ operand, v.expr = isNull operand := by
      cases he : v.expr with
      | isNull operand => exact ⟨operand, rfl⟩
      | _ => rw [he] at ht; cases ht
    rw [ho, wellScoped_isNull_iff, hnull v hv operand ho]
  intro v hv
  cases ht : v.expr.isNullTest with
  | false => exact hvalues v hv ht
  | true =>
    obtain ⟨test, hfind⟩ := Option.isSome_iff_exists.1
      (find?_isSome (p := fun o : Operand => o.expr.isNullTest).2 ⟨v, hv, ht⟩)
    have hentry := (hkey test (mem_of_find?_eq_some hfind) (by simpa using find?_some hfind)).1 (htest test hfind)
    exact ⟨hentry, (hkey v hv ht).2 hentry⟩

/-- Of the keys that denote the same one is built, or the first of their tests for null. -/
theorem boundIn_membership {left right : Expr} {scope : List String} (ht : terms? (or left right) = some terms)
    (h : ∀ entry ∈ gather Operand.expr (terms.map fun t => ⟨toOperand config t.key, toOperand config t.value⟩),
      (∀ v ∈ entry.2, v.expr.isNullTest = false → BoundIn scope entry.1.expr ∧ BoundIn scope v.expr) ∧
        ∀ test, entry.2.find? (·.expr.isNullTest) = some test → BoundIn scope test.expr) :
    BoundIn scope (or left right) := by
  intro hall
  have hplain : (or left right).comparesNullTest = false := (comparesNullTest_of_terms? ht).trans hall.here
  have hsame : ∀ k key : Operand, sameKey k.expr key.expr = true →
      k.expr.WellScoped scope = key.expr.WellScoped scope := fun k key hs => propext (wellScoped_of_sameKey hs)
  rw [gather, map_map] at h
  generalize hpairs : terms.map _ = pairs at h
  have hpart : ∀ entry ∈ ofPairs (fun a b : Operand => sameKey a.expr b.expr) pairs,
      entry.1.expr.All PlainDisjunction ∧ ∀ v ∈ entry.2, v.expr.All PlainDisjunction := by
    refine forall_ofPairs (R := fun o : Operand => o.expr.All PlainDisjunction)
      (S := fun o : Operand => o.expr.All PlainDisjunction) ?_
    rw [← hpairs]
    exact forall_mem_map.2 fun t htm =>
      ⟨hall.within (within_of_terms? ht t htm).1, hall.within (within_of_terms? ht t htm).2⟩
  have hentry : ∀ entry ∈ ofPairs (fun a b : Operand => sameKey a.expr b.expr) pairs,
      ∀ v ∈ entry.2, entry.1.expr.WellScoped scope ∧ v.expr.WellScoped scope := by
    intro entry he
    obtain ⟨hk, hv⟩ := hpart entry he
    refine wellScoped_entry (fun v hm => ?_) (fun v hm hn => ?_) fun test htest => ?_
    · refine rel_of_mem_ofPairs (r := fun (key value : Operand) => ∀ operand, value.expr = isNull operand →
        operand.WellScoped scope = key.expr.WellScoped scope) (fun k key value hs => ?_) (fun p hp => ?_) he hm
      · rw [hsame k key hs]
      · rw [← hpairs] at hp
        obtain ⟨t, htm, rfl⟩ := mem_map.1 hp
        exact fun operand ho => by rw [nullTest_of_terms? ht hplain t htm operand ho]; rfl
    · exact ⟨((h entry he).1 v hm hn).1 hk, ((h entry he).1 v hm hn).2 (hv v hm)⟩
    · exact (h entry he).2 test htest (hv test (mem_of_find?_eq_some htest))
  refine wellScoped_of_terms? ht fun t htm => ?_
  -- each leaf is filed, under a key that is scoped as its own
  obtain ⟨entry, he, hv⟩ := mem_flatMap.1 <| (perm_flatMap_ofPairs
    (f := fun (k v : Operand) => (k.expr.WellScoped scope, v)) (fun k key v hs => by rw [hsame k key hs]) _).mem_iff.2
    (mem_map_of_mem (hpairs ▸ mem_map_of_mem htm))
  obtain ⟨v, hm, heq⟩ := mem_map.1 hv
  obtain ⟨hkey, rfl⟩ := Prod.mk.inj heq
  obtain ⟨hk, hvalue⟩ := hentry entry he _ hm
  exact ⟨hkey.mp hk, hvalue⟩

theorem Construct.visits {m : BuildM Fragment}
    (h : Construct config (fun c => Checks BoundIn (toOperand config c)) e m) : Visits [] m (BoundIn · e) := by
  have hasFragment : ∀ {step : BuildM StatementId} {p : List String → Prop}, Visits [] step p →
      Visits [] (asFragment step) p := fun h => h.returns
  have hoptional : ∀ {o : Option Expr} {scope : List String},
      (∀ operand ∈ o.map (toOperand config), operand.expr.isNullLiteral = true ∨ BoundIn scope operand.expr) →
      ∀ c ∈ o, BoundIn scope c := fun h c hc => boundIn_null (h _ (Option.mem_map_of_mem _ hc))
  cases h with
  | scan set =>
    refine quietKind.parentTakesIn.andThen fun _ => visits_ite (fun _ => visits_pure fun _ => ?_) fun _ =>
      (quiet_newStatement _).andThen fun _ => visits_pure fun _ => ?_
    all_goals exact boundIn_node nofun
  | filter hi hp =>
    exact Visits.imp (hasFragment (filter_visits hi false hp)) fun scope hb => boundIn_two hb
  | @record input fields hi hf =>
    refine Visits.imp (hasFragment (projectRecord_visits hi (forall_mem_map.2 hf))) fun scope hb => ?_
    refine boundIn_two ⟨hb.1, ?_⟩
    exact boundIn_node (forall_mem_map.2 (forall_mem_map.2 (forall_mem_map.1 hb.2)))
  | value hi hp _ =>
    exact Visits.imp (hasFragment (projectValue_visits hi hp)) fun scope hb => boundIn_two hb
  | @join kind left right condition hl hr hc =>
    have hinputs : ∀ input ∈ [left, right].map fun b => b.with (toOperand config b.expr), Checks BoundIn input.expr := by
      simpa using ⟨hl, hr⟩
    refine Visits.imp (hasFragment (joined_visits _ hinputs (by rintro c ⟨⟩; exact hc))) fun scope hb => boundIn_node ?_
    rw [inTurn_map] at hb
    exact forall_mem_append.2 ⟨fun c hc => hb.1 _ (mem_map_of_mem hc),
      forall_mem_singleton.2 (hb.2 _ rfl)⟩
  | crossJoin hi =>
    refine Visits.imp (hasFragment (joined_visits _ (forall_mem_map.2 hi) (by simp))) fun scope hb => boundIn_node ?_
    rw [inTurn_map] at hb
    exact fun c hc => hb.1 _ (mem_map_of_mem hc)
  | group hi hk ha =>
    refine Visits.imp (hasFragment (group_visits hi (forall_mem_map.2 hk) (forall_mem_map.2 ha)))
      fun scope hb => boundIn_node ?_
    obtain ⟨hinput, hkeys, haggregates⟩ := hb
    refine forall_mem_cons.2 ⟨hinput, forall_mem_append.2 ⟨?_, ?_⟩⟩
    · exact forall_mem_map.2 (forall_mem_map.1 hkeys)
    · exact forall_mem_map.2 (forall_mem_map.1 haggregates)
  | sort hi hk =>
    refine Visits.imp (hasFragment (ordered_visits hi _ (forall_mem_map.2 hk))) fun scope hb => boundIn_node ?_
    exact forall_mem_cons.2 ⟨hb.1, forall_mem_map.2 (forall_mem_map.1 hb.2)⟩
  | skip hi hk hc =>
    refine Visits.imp (hasFragment (skip_visits hi (forall_mem_map.2 hk) hc)) fun scope hb => boundIn_node ?_
    obtain ⟨⟨hinput, hkeys⟩, hcount⟩ := hb
    exact forall_mem_cons.2 ⟨hinput, forall_mem_cons.2 ⟨boundIn_constant hcount,
      forall_mem_map.2 (forall_mem_map.1 hkeys)⟩⟩
  | limit hi hc =>
    exact Visits.imp (hasFragment (limit_visits _ hi hc)) fun scope hb =>
      boundIn_two ⟨hb.1, boundIn_constant hb.2⟩
  | distinct hi =>
    exact Visits.imp (hasFragment (distinct_visits hi)) fun scope hb => boundIn_one hb
  | setOp hl hr =>
    exact Visits.imp (setOperation_visits _ hl hr) fun scope hb => boundIn_two hb
  | element hi =>
    exact Visits.imp (element_visits hi) fun scope hb => boundIn_one hb
  | isEmpty hi =>
    exact Visits.imp (emptiness_visits hi _) fun scope hb => boundIn_one hb
  | quantifier hi hp =>
    exact Visits.imp (quantified_visits hi _ hp) fun scope hb => boundIn_two hb
  | singleton hi =>
    refine Visits.imp (hasFragment (singleton_visits hi)) fun scope hb => boundIn_one ?_
    exact boundIn_one hb
  | collection hi _ =>
    refine Visits.imp (collection_visits _ (forall_mem_map.2 hi)) fun scope hb => boundIn_node ?_
    exact forall_mem_map.2 (forall_mem_map.1 hb)
  | constant value =>
    exact (quiet_lift _).andThen fun _ => visits_pure fun _ => boundIn_node nofun
  | null type | parameter name type => exact visits_pure fun _ => boundIn_node nofun
  | @member owner name ho =>
    cases hv : owner.isVariable with
    | false =>
      refine Visits.imp (member_visits name ho hv) fun scope hb hall => ?_
      exact (wellScoped_property hv).2 (hb (hall.child mem_cons_self))
    | true =>
      cases owner with
      | var _ type => exact Visits.imp (variableMember_visits rfl rfl) fun scope hb _ => .member hb
      | _ => cases hv
  | var name type =>
    intro b f b' hr
    obtain ⟨-, hpending, hsame, -⟩ := runs_rowVariable hr
    refine ⟨hsame.building, hsame.joins, ?_, fun _ => hpending, fun h => ?_⟩
    · rw [hsame.scopes]; exact .nil
    · rw [hpending] at h; cases h
  | call ha =>
    refine Visits.imp (call_visits _ (forall_mem_map.2 ha)) fun scope hb => boundIn_node ?_
    exact forall_mem_map.2 (forall_mem_map.1 hb)
  | @case branches otherwise hb ho =>
    refine Visits.imp (caseOf_visits (forall_mem_map.2 hb) ?_) fun scope hbound => boundIn_node ?_
    · intro o hm
      obtain ⟨c, hc, rfl⟩ := Option.map_eq_some_iff.1 hm
      exact ho c hc
    · obtain ⟨hbranches, hrest⟩ := hbound
      refine forall_mem_map.2 (forall_mem_append.2 ⟨fun c hc => ?_, fun c hc => ?_⟩)
      · obtain ⟨b, hm, hc⟩ := mem_flatMap.1 hc
        obtain ⟨hcondition, hvalue⟩ := forall_mem_map.1 hbranches b hm
        rcases mem_cons.1 hc with rfl | hc
        · exact hcondition
        · rw [mem_singleton.1 hc]; exact hvalue
      · exact hoptional hrest c (Option.mem_toList.1 hc)
  | cast ho => exact Visits.imp ho fun scope hb => boundIn_one hb
  | arith hl hr | compare hl hr | and hl hr | or hl hr =>
    exact Visits.imp (binary_visits _ hl hr) fun scope hb => boundIn_two hb
  | negate ho =>
    exact Visits.imp (negate_visits ho) fun scope hb => boundIn_one hb
  | membership hterms ht =>
    refine Visits.imp (membership_visits (forall_ofPairs (R := Checks BoundIn) (S := Checks BoundIn) ?_))
      fun scope hb => boundIn_membership hterms hb
    rw [map_map]
    exact forall_mem_map.2 ht
  | notNot ho =>
    refine Visits.imp ho fun scope hb => boundIn_one ?_
    exact boundIn_one hb
  | notEmpty hi =>
    refine Visits.imp (emptiness_visits hi _) fun scope hb => boundIn_one ?_
    exact boundIn_one hb
  | notNull ho =>
    refine Visits.imp (nullTest_visits ho _) fun scope hb => boundIn_one ?_
    exact boundIn_one hb
  | notEqual hl hr =>
    refine Visits.imp (binary_visits _ hl hr) fun scope hb => boundIn_one ?_
    exact boundIn_two hb
  | not ho =>
    exact Visits.imp (negation_visits ho) fun scope hb => boundIn_one hb
  | isNull ho =>
    exact Visits.imp (nullTest_visits ho _) fun scope hb => boundIn_one hb
  | like ho hp he =>
    refine Visits.imp (like_visits ho hp ?_) fun scope hb => boundIn_node ?_
    · intro o hm
      obtain ⟨c, hc, rfl⟩ := Option.map_eq_some_iff.1 hm
      exact he c hc
    · obtain ⟨hoperand, hpattern, hescape⟩ := hb
      refine forall_mem_cons.2 ⟨hoperand, forall_mem_cons.2 ⟨hpattern, forall_mem_map.2 fun c hc => ?_⟩⟩
      exact hoptional hescape c (Option.mem_toList.1 hc)
  | refused e cause => exact visits_throw _

theorem build_visits (e : Expr) : Checks BoundIn (toOperand config e) := by
  induction e using within_induction with
  | step e ih => exact (build_construct ih).visits

end Expr

/-! ## Whole queries -/

namespace Query

theorem root_visits (config : Config) (query : Expr) : Visits [] (root config query) (Expr.BoundIn · query) := by
  have hquery : Checks Expr.BoundIn (query.toOperand config) := Expr.build_visits query
  refine visits_ite (fun _ => ?_) fun _ => ?_
  · exact Visits.andThen (asStatement_visits hquery true) fun i => (quiet_updateStatement i _).returns
  · exact Visits.returns hquery

end Query

/-- In a query that compiles, every variable is the owner of a member and one of the variables in
scope where it stands. -/
theorem compile_wellScoped {config : Config} {query : Expr} {compiled : CompiledQuery}
    (hplain : query.All Expr.PlainDisjunction) (h : Query.compile config query = .ok compiled) : query.WellScoped [] := by
  obtain ⟨f, b, -, -, hplan, -⟩ := exists_of_compile h
  obtain ⟨hrun, hnone⟩ := Query.runs_of_plan hplan
  exact (Query.root_visits config query hrun).checked hnone [] nofun hplain

/-- The key of a row of the table `t`. -/
def rowKey : Expr := .property (.var "a" (keyed "t").rowType) "k"

/-- The rows of a table whose key is one of two values or missing. -/
def oneTwoOrNone : Expr :=
  .filter ((keyed "t").bind "a") <|
    .or (.or (.compare .eq rowKey (.constant (.int32 1))) (.isNull rowKey)) (.compare .eq rowKey (.constant (.int32 2)))

/-- The key of a membership test is built once and stands for all its places. -/
theorem oneTwoOrNone_wellScoped :
    oneTwoOrNone.All Expr.PlainDisjunction ∧
      (Query.compile {} oneTwoOrNone).toOption =
        some ⟨"SELECT a.k AS k FROM t AS a WHERE (a.k IN (1,2) OR a.k IS NULL)", ["k"]⟩ ∧
      oneTwoOrNone.WellScoped [] := by
  have hkey : rowKey.All Expr.PlainDisjunction :=
    .intro trivial (List.forall_mem_singleton.2 (.intro trivial nofun))
  have hvalue : ∀ value, (Expr.compare .eq rowKey (.constant value)).All Expr.PlainDisjunction := fun value =>
    .intro trivial (List.forall_mem_cons.2 ⟨hkey, List.forall_mem_singleton.2 (.intro trivial nofun)⟩)
  have hnull : (Expr.isNull rowKey).All Expr.PlainDisjunction := .intro trivial (List.forall_mem_singleton.2 hkey)
  have hleft : (Expr.or (.compare .eq rowKey (.constant (.int32 1))) (.isNull rowKey)).All Expr.PlainDisjunction :=
    .intro rfl (List.forall_mem_cons.2 ⟨hvalue _, List.forall_mem_singleton.2 hnull⟩)
  have hplain : oneTwoOrNone.All Expr.PlainDisjunction := by
    refine .intro trivial (List.forall_mem_cons.2 ⟨.intro trivial nofun, List.forall_mem_singleton.2 ?_⟩)
    exact .intro rfl (List.forall_mem_cons.2 ⟨hleft, List.forall_mem_singleton.2 (hvalue _)⟩)
  have h : (Query.compile {} oneTwoOrNone).toOption =
      some ⟨"SELECT a.k AS k FROM t AS a WHERE (a.k IN (1,2) OR a.k IS NULL)", ["k"]⟩ := by decide +kernel
  exact ⟨hplain, h, compile_wellScoped hplain (ok_of_toOption h)⟩

/-! ## The stacks -/

/-- Building an expression leaves the scopes, with all that is bound in them, the statements being built and the stack of joins
as they were. -/
theorem build_keeps_stacks {config : Config} {e : Expr} {b b' : Build} {f : Fragment} (h : Runs (e.build config) b f b') :
    b'.scopes = b.scopes ∧ b'.building = b.building ∧ b'.joins = b.joins := by
  have hv := Expr.build_visits e h
  exact ⟨hv.scopes.eq_of_nil, hv.building, hv.joins⟩

/-- A state inside of a statement, two scopes and two joins. -/
def deepInside : Build := { building := [2], joins := [false, true], scopes := ⟨[[("j", 5), ("a", 4)], []]⟩ }

/-- The join of a join and a table pushes onto all three stacks. -/
theorem joinedPairs_keep_stacks : ∃ f b', Runs (joinedPairs.build {}) deepInside f b' ∧
    b'.scopes = ⟨[[("j", 5), ("a", 4)], []]⟩ ∧ b'.building = [2] ∧ b'.joins = [false, true] := by
  have hsome : ((joinedPairs.build {}).run deepInside).toOption.isSome = true := by decide +kernel
  obtain ⟨⟨f, b'⟩, hrun⟩ := Option.isSome_iff_exists.1 hsome
  exact ⟨f, b', ok_of_toOption hrun, build_keeps_stacks (ok_of_toOption hrun)⟩

end RelSql
