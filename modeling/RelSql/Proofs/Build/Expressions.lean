/-
Every expression is built as the constructs expect of their operands: what it makes is sound where
it was asked for. The proof is by induction on what lies below the expression and follows the cases of
`Expr.build`. It gives the invariant of the statements of a whole query.
-/
import RelSql.Proofs.Build.Grouping
import RelSql.Proofs.Build.Joins
import RelSql.Proofs.Query.Constructs
import RelSql.Query.Compile

namespace RelSql

open Store List Build

variable {e : Expr} {b : Build} {f : Fragment}

/-! ## Every expression makes sound text -/

namespace Build

/-- A scan outside of a join is a new statement. -/
theorem scan_new {set : EntitySet} {b' : Build} (hj : b.inJoin = false) (hr : Runs (scan set) b f b') :
    f = .statement b.statements.size ∧ SameStacks b b' ∧ b'.store = b.store.push { fromList := [.text set.source] } := by
  simp only [scan, runs_bind, runs_parentTakesIn, runs_ite, runs_newStatement, runs_pure, and_assoc,
    exists_and_left, exists_eq_left] at hr
  unfold inJoin at hj
  rw [hj] at hr
  obtain ⟨-, hf, rfl⟩ := hr.resolve_left fun h => by simp at h
  exact ⟨hf, ⟨rfl, rfl, rfl⟩, rfl⟩

theorem scan_builds (set : EntitySet) : Builds (Made []) (scan set) MadeFragment := by
  intro n b b' f hb hj hn _ hr
  obtain ⟨rfl, hsame, hstore⟩ := scan_new hj hr
  have ho : Owns b.store (around b.building) b'.store b.statements.size := by
    rw [hstore]
    refine .of_new hb.store (.refl _ _) (statementOK_of_source rfl (by simp) (by simp)) rfl ⟨rfl, rfl⟩ fun v => ?_
    cases v <;> exact sound_nil
  exact ⟨⟨ho.ok, hsame, ho.grows⟩, ho.sound.mono hn⟩

end Build

/-- A variable is visited for sound text. -/
class Variables.Sound [Variables] : Prop where
  builds : ∀ name, Builds (Made []) (visit name) MadeFragment

instance : Variables.Sound := ⟨rowVariable_builds⟩

namespace Expr

variable [Variables] (config : Config)

/-- What the constructs expect of the step that builds an operand. -/
structure BuildsSound (e : Expr) : Prop where
  input : JoinInputOK (toOperand config e)
  count : CountOK (toOperand config e)

variable {config}

theorem BuildsSound.value (h : BuildsSound config e) : ValueOK (toOperand config e) := h.input.value

theorem joinInputs_ok {inputs : List (Binding Expr)} (h : ∀ b ∈ inputs, BuildsSound config b.expr) :
    ∀ input ∈ inputs.map fun b => b.with (toOperand config b.expr), JoinInputOK input.expr := by
  intro input hm
  obtain ⟨b, hb, rfl⟩ := mem_map.1 hm
  exact (h b hb).input

theorem joinInputs_pair {left right : Binding Expr} (hl : BuildsSound config left.expr)
    (hr : BuildsSound config right.expr) : ∀ b ∈ [left, right], BuildsSound config b.expr := by
  simp [hl, hr]

theorem optional_ok {o : Option Expr} (h : ∀ e ∈ o, BuildsSound config e) :
    ∀ operand ∈ o.map (toOperand config), ValueOK operand := by
  intro operand hm
  obtain ⟨e, he, rfl⟩ := Option.map_eq_some_iff.1 hm
  exact (h e he).value

theorem Construct.builds [Variables.Sound] {m : BuildM Fragment} (h : Construct config (BuildsSound config) e m) :
    Builds (Made []) m MadeFragment := by
  by_cases hv : e.isRowless = true
  · exact madeKind.value h (fun _ => BuildsSound.value) Variables.Sound.builds (fun name h => member_builds h name) hv
  cases h with
  | scan set => exact scan_builds set
  | filter hi hp => exact (filter_makes hi.value hp.value).asFragment
  | record hi hf =>
    exact (projectRecord_makes hi.value (forall_mem_map.2 fun f hm => (hf f hm).value)).asFragment
  | value hi hp _ => exact (projectValue_makes hi.value hp.value).asFragment
  | join hl hr hc =>
    have ho := optional_ok (o := some _) (by simpa using hc)
    exact (joined_makes (joinInputs_ok (joinInputs_pair hl hr)) ho).asFragment
  | crossJoin hi => exact (joined_makes (joinInputs_ok hi) (by simp)).asFragment
  | group hi hk ha =>
    exact (group_makes hi.value (forall_mem_map.2 fun k hm => (hk k hm).value)
      (forall_mem_map.2 fun a hm => (ha a hm).value)).asFragment
  | sort hi hk =>
    exact (ordered_makes hi.value (forall_mem_map.2 fun k hm => (hk k hm).value)).asFragment
  | skip hi hk hc =>
    exact (skip_makes hi.value (forall_mem_map.2 fun k hm => (hk k hm).value) hc.count).asFragment
  | limit hi hc => exact (limit_makes hi.value hc.count).asFragment
  | distinct hi => exact (distinct_makes hi.value).asFragment
  | setOp hl hr => exact madeKind.setOperation (asStatement_makes hl.value).builds _ (asStatement_makes hr.value).builds
  | element hi => exact madeKind.element (asStatement_makes hi.value).builds
  | isEmpty hi | notEmpty hi => exact madeKind.emptiness (asStatement_makes hi.value).builds _
  | quantifier hi hp => exact quantified_builds hi.value hp.value
  | singleton hi => exact (singleton_makes hi.value).asFragment
  | collection hi _ => exact madeKind.collection _ (forall_mem_map.2 fun item hm => (hi item hm).value)
  | not ho => exact madeKind.negation ho.value
  | refused e cause => exact builds_throw
  | _ => exact absurd rfl hv

/-- A scan in a join is the text of its source. -/
theorem Construct.scan_text {m : BuildM Fragment} {P : Expr → Prop} (h : Construct config P e m)
    (he : e.isScan = true) {b' : Build} (hj : b.inJoin = true) (hr : Runs m b f b') :
    b' = b ∧ ∃ t, f = .text t := by
  cases h with
  | scan set =>
    simp only [Build.scan, runs_bind, runs_parentTakesIn, runs_ite, runs_newStatement, runs_pure, and_assoc,
      exists_and_left, exists_eq_left] at hr
    unfold inJoin at hj
    rw [hj] at hr
    obtain ⟨-, rfl, rfl⟩ := hr.resolve_right fun h => h.1 rfl
    exact ⟨rfl, _, rfl⟩
  | refused e cause => exact absurd hr runs_throw
  | _ => cases he

theorem Construct.takenIn (h : Construct config (BuildsSound config) e (e.build config))
    (he : (e.isJoin || e.isApply) = true) : TakenIn (toOperand config e) := by
  intro σ outer frames b b' i f hjoining hun hj hr
  have hasFragment : ∀ {keyword : String} {inputs : List (Binding Operand)} {condition : Option Operand},
      (∀ input ∈ inputs, JoinInputOK input.expr) → (∀ c ∈ condition, ValueOK c) →
      Runs (asFragment (joined keyword inputs condition)) b f b' →
      f = .statement i ∧ Joining σ outer frames b' i ∧ SameStacks b b' := by
    intro keyword inputs condition hi hc hr
    obtain ⟨j, rfl, hjoined⟩ := runs_asFragment.1 hr
    obtain ⟨rfl, hrest⟩ := joined_takenIn hi hc hjoining hun hj hjoined
    exact ⟨rfl, hrest⟩
  change Runs (e.build config) b f b' at hr
  generalize e.build config = m at h hr
  cases h with
  | join hl hr' hc => exact hasFragment (joinInputs_ok (joinInputs_pair hl hr')) (optional_ok (o := some _) (by simpa using hc)) hr
  | crossJoin hi => exact hasFragment (joinInputs_ok hi) (by simp) hr
  | refused e cause => exact absurd hr runs_throw
  | _ => cases he

/-- Every expression builds sound text. -/
theorem buildsSound [Variables.Sound] (e : Expr) : BuildsSound config e := by
  induction e using within_induction with
  | step e ih =>
    have hc : Construct config (BuildsSound config) e (e.build config) := build_construct ih
    refine ⟨⟨hc.builds, fun he b b' f hj hr => hc.scan_text he hj hr, hc.takenIn⟩, ?_⟩
    intro name type b b' f he hr
    change e = .parameter name type at he
    subst he
    obtain ⟨rfl, rfl⟩ := runs_pure.1 hr
    exact ⟨rfl, _, rfl⟩

end Expr

/-! ## Whole queries -/

namespace Query

theorem good_start : Good {} := by
  refine ⟨⟨Symbols.wf_empty, nofun, fun k l e he => ?_, fun k ho => ?_, tidy_empty⟩, nofun, nofun⟩
  · exact absurd (lt_of_mem_aliases he) (Nat.not_lt_zero k)
  · rw [get_of_size_le (Nat.zero_le k)] at ho
    cases ho with
    | here h | within h _ => simp [Statement.parts] at h

/-- A plan is what is built without a variable that is still pending. -/
theorem runs_of_plan {config : Config} {query : Expr} (h : plan config query = .ok (f, b)) :
    Runs (root config query) {} f b ∧ b.pendingVariable = false := by
  unfold plan at h
  cases hr : (root config query).run {} with
  | error e => rw [hr] at h; cases h
  | ok r =>
    rw [hr] at h
    change (if r.2.pendingVariable = true then _ else _) = _ at h
    split at h
    · cases h
    · rename_i hnone
      have hr' : r = (f, b) := Except.ok.inj h
      subst hr'
      exact ⟨hr, by simpa using hnone⟩

/-- The statements of a query are in order, and its text is sound. -/
theorem root_sound {config : Config} {query : Expr} (hrun : Runs (root config query) {} f b) :
    b.store.OK ∧ Sound b.store 0 [] [f.toPart] := by
  have hv : ValueOK (query.toOperand config) := (Expr.buildsSound query).value
  simp only [root, runs_ite, runs_bind, runs_updateStatement, runs_pure] at hrun
  rcases hrun with ⟨-, i, b1, has, -, b2, hb2, rfl, rfl⟩ | ⟨-, sql, b1, hsql, rfl, rfl⟩
  · obtain ⟨ho, -⟩ := asStatement_spec hv good_start rfl has
    obtain ⟨ho2, -⟩ := mark_spec ho hb2 (Statement.adds_marks _ _ _)
    exact ⟨ho2.ok, ho2.sound⟩
  · obtain ⟨hs, hf⟩ := hv good_start rfl (le_refl _) sound_nil hsql
    refine ⟨hs.store, ?_⟩
    have hpart : Sound b.store 0 [] [sql.toPart] := FragmentSound.toPart hf
    exact sound_group.2 ⟨sound_text.2 hpart, sound_nil⟩

theorem plan_sound {config : Config} {query : Expr} (h : plan config query = .ok (f, b)) :
    b.store.OK ∧ Sound b.store 0 [] [f.toPart] :=
  root_sound (runs_of_plan h).1

end Query

end RelSql
