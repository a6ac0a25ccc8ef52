/-
The text of every expression is a template: by induction on its size, with one case for each construct.
-/
import RelSql.Proofs.Build.UniformStatements

namespace RelSql

open Build List

variable {config : Config}

theorem Build.Uniform.asFragment {m : Wording → BuildM StatementId} (h : Fixed m) :
    UniformText fun ρ => asFragment (m ρ) :=
  h.bind fun i => uniform_pure (.statement i) fun _ => rfl

theorem Build.uniform_scan (set : EntitySet) : UniformText fun _ => scan set := by
  refine fixed_parentTakesIn.bind fun takesIn => ?_
  split
  · exact uniform_pure (.parts [.text set.source]) fun _ => rfl
  · refine (fixed_newStatement { fromList := [.text set.source] }).bind fun i => ?_
    exact uniform_pure (.statement i) fun _ => rfl

namespace Expr

/-- A disjunction that is written by keys. -/
theorem templated_membership {left right : Expr} {terms : List (Term Expr)} (ht : terms? (or left right) = some terms)
    (h : ∀ t ∈ terms, t.key.Templated config ∧ t.value.Templated config) :
    UniformText fun ρ => membership (gather Operand.expr
      (@termOperands ρ.watch config (left.reword ρ) ++ @termOperands ρ.watch config (right.reword ρ))) := by
  have hgroups : ∀ (_ : Variables) ρ, gather Operand.expr
      (termOperands config (left.reword ρ) ++ termOperands config (right.reword ρ)) = (gather id terms).map fun g =>
        ((g.1.reword ρ).toOperand config, g.2.map fun v => (v.reword ρ).toOperand config) := by
    intro _ ρ
    have hterms := terms?_reword ρ (or left right)
    rw [ht] at hterms
    have hoperands := termOperands_of_terms? config hterms
    rw [reword, termOperands] at hoperands
    rw [hoperands, gather_operands, gather_reword]
    simp [KeyedLists.mapEntries, Function.comp_def]
  simp only [hgroups]
  refine uniform_membership (KeyedLists.forall_ofPairs ?_)
  simpa using h

theorem isSome_gathered? (ρ : Wording) (left right : Expr) :
    (gathered? (or (left.reword ρ) (right.reword ρ))).isSome = (gathered? (or left right)).isSome := by
  have h := gathered?_reword ρ (or left right)
  rw [reword] at h
  rw [h, Option.isSome_map]

theorem templated (e : Expr) : e.Templated config := by
  induction e using within_induction with
  | step e ih =>
    have hchild : ∀ {c : Expr} (_ : c ∈ e.children := by simp [children]), c.Templated config := fun hc => ih _ (.single hc)
    have hdeep : ∀ (d : Expr) {c : Expr} (_ : d ∈ e.children := by simp [children])
        (_ : c ∈ d.children := by simp [children]), c.Templated config := fun d c hd hc => ih c (.tail (.single hc) hd)
    unfold Templated
    fun_cases build config e with
    | case1 set => exact uniform_scan set
    | case2 input predicate => exact .asFragment (fixed_filter false hchild hchild)
    | case3 input fields =>
      simp only [reword, build, rewordFields_eq_map, namedOperands_eq_map, map_map]
      exact .asFragment (fixed_projectRecord hchild fun x hm =>
        hdeep (newRecord fields) (by simp [children]) (mem_map_of_mem hm))
    | case4 input projection hne =>
      have hbuild : ∀ ρ, @build ρ.watch config ((project input projection).reword ρ) = asFragment (projectValue
          (input.with (input.expr.filled config ρ)) (projection.filled config ρ)) := by
        intro ρ
        cases projection with
        | newRecord fields => exact (hne fields rfl).elim
        | _ => rfl
      simp only [hbuild]
      exact .asFragment (fixed_projectValue hchild hchild)
    | case5 kind left right condition =>
      refine .asFragment (@fixed_joined config [left, right] (some condition) kind.keyword (fun b hm => ?_) fun c hm => ?_)
      · exact hchild (mem_append_left [condition] (mem_map_of_mem hm))
      · exact hchild (by simpa [children] using .inr (.inr (Option.mem_some.1 hm).symm))
    | case6 inputs =>
      simp only [reword, build, rewordBindings_eq_map, bindingOperands_eq_map, map_map]
      refine .asFragment (@fixed_joined config inputs none "CROSS JOIN" (fun b hm => ?_) (by simp))
      exact hchild (mem_map_of_mem hm)
    | case8 input keys aggregates =>
      simp only [reword, build, rewordFields_eq_map, rewordAggregates_eq_map, namedOperands_eq_map,
        aggregateOperands_eq_map, map_map]
      refine .asFragment (fixed_group hchild (fun k hm => ?_) fun a hm => ?_)
      · exact hchild (mem_cons_of_mem _ (mem_append_left _ (mem_map_of_mem hm)))
      · exact hchild (mem_cons_of_mem _ (mem_append_right _ (mem_map_of_mem hm)))
    | case9 input keys =>
      simp only [reword, build, rewordKeys_eq_map, keyOperands_eq_map, map_map]
      refine .asFragment (fixed_ordered .sort hchild fun k hm => ?_)
      exact hchild (mem_cons_of_mem _ (mem_map_of_mem hm))
    | case10 input keys count =>
      simp only [reword, build, rewordKeys_eq_map, keyOperands_eq_map, map_map]
      refine .asFragment (fixed_skip hchild (fun k hm => ?_) hchild)
      exact hchild (mem_cons_of_mem _ (mem_cons_of_mem _ (mem_map_of_mem hm)))
    | case11 input count withTies => exact .asFragment (fixed_limit withTies hchild hchild)
    | case12 input => exact .asFragment (fixed_distinct hchild)
    | case13 op left right => exact uniform_setOperation op hchild hchild
    | case14 input => exact uniform_element hchild
    | case15 input => exact uniform_emptiness false hchild
    | case16 q input predicate => exact uniform_quantified q hchild hchild
    | case17 elementType input =>
      exact .asFragment (fixed_singleton (hdeep (element input)))
    | case18 elementType items hne =>
      have hbuild : ∀ (_ : Variables) ρ, build config ((newCollection elementType items).reword ρ) =
          collection elementType (items.map fun a => (a.reword ρ).toOperand config) := by
        intro _ ρ
        rw [reword, build, operands_eq_map, rewordItems_eq_map, map_map]
        · rfl
        · intro input he
          rcases items with _ | ⟨item, _ | ⟨_, _⟩⟩
          · cases he
          · cases item with
            | element input => exact hne input rfl
            | _ => cases he
          · simp [rewordItems] at he
      simp only [hbuild]
      exact uniform_collection elementType fun _ hc => hchild hc
    | case19 value => exact uniform_constant value
    | case20 type => exact uniform_pure (.parts [.text "NULL"]) fun _ => rfl
    | case21 owner name => exact uniform_member hchild name
    | case22 name type => exact uniform_visit name
    | case23 name type => exact uniform_pure (.parts [.text (config.parameterName name)]) fun _ => rfl
    | case24 function arguments =>
      simp only [reword, build, rewordItems_eq_map, operands_eq_map, map_map]
      exact uniform_call function fun _ hc => hchild hc
    | case25 branches otherwise =>
      simp only [reword, build, rewordBranches_eq_map, rewordOptional_eq_map, branchOperands_eq_map,
        optionalOperand_eq_map, map_map, Option.map_map]
      refine uniform_caseOf (fun b hm => ?_) fun o ho => hchild (mem_append_right _ (Option.mem_toList.2 ho))
      have hb : ∀ c ∈ [b.1, b.2], c.Templated config := fun c hc =>
        hchild (mem_append_left _ (mem_flatMap.2 ⟨b, hm, hc⟩))
      exact ⟨hb _ (by simp), hb _ (by simp)⟩
    | case26 operand type => exact @hchild operand (by simp [children])
    | case27 op left right | case29 op left right | case30 left right => exact uniform_binary _ hchild hchild
    | case28 operand => exact uniform_negate hchild
    | case31 left right hg =>
      obtain ⟨terms, ht⟩ : ∃ terms, terms? (or left right) = some terms := by
        cases ht : terms? (or left right) with
        | none => simp [gathered?, ht] at hg
        | some terms => exact ⟨terms, rfl⟩
      simp only [reword, build, isSome_gathered?, hg, if_true]
      refine templated_membership ht fun t hm => ?_
      exact ⟨ih _ (within_of_terms? ht t hm).1, ih _ (within_of_terms? ht t hm).2⟩
    | case32 left right hg =>
      simp only [reword, build, isSome_gathered?, hg]
      exact uniform_binary _ hchild hchild
    | case33 operand => exact @hdeep (not operand) operand (by simp [children]) (by simp [children])
    | case34 input =>
      exact uniform_emptiness true (hdeep (isEmpty input))
    | case35 operand =>
      exact uniform_nullTest true (hdeep (isNull operand))
    | case36 left right =>
      exact uniform_binary _ (hdeep (compare .eq left right))
        (hdeep (compare .eq left right))
    | case37 operand hn he hi hc =>
      have hbuild : ∀ ρ, @build ρ.watch config ((not operand).reword ρ) = negation (operand.filled config ρ) := by
        intro ρ
        cases operand with
        | not e => exact (hn e rfl).elim
        | isEmpty e => exact (he e rfl).elim
        | isNull e => exact (hi e rfl).elim
        | compare op left right => cases op <;> first | rfl | exact (hc left right rfl).elim
        | _ => rfl
      simp only [hbuild]
      exact uniform_negation hchild
    | case38 operand => exact uniform_nullTest false hchild
    | case39 operand pattern escape =>
      simp only [reword, build, rewordOptional_eq_map, optionalOperand_eq_map, Option.map_map]
      exact uniform_like hchild hchild fun o ho =>
        hchild (mem_cons_of_mem _ (mem_cons_of_mem _ (Option.mem_toList.2 ho)))
    | case7 | case40 | case41 | case42 | case43 | case44 => exact uniform_throw _ fun _ => rfl

end Expr

end RelSql
