/-
How the statements of a query stand in each other. Apart from the lists of `GROUP BY`, which repeat keys
that the select list has already, every statement stands in one place. So two places have a statement in
common only if it stands in such a list: going outward from it, there is one way through the other clauses.
-/
import Mathlib.Logic.Relation
import Mathlib.Tactic
import RelSql.Proofs.Statement.References

namespace RelSql

open RelSql.Part Statement List

open Relation (ReflTransGen reflTransGen_swap)

variable {j : StatementId}

/-! ## Statements in parts -/

namespace Part

def statement? : Part → Option StatementId
  | statement j => some j
  | _ => none

/-- The statements that stand in the parts, in their order. -/
def statements (ps : List Part) : List StatementId := (atoms ps).filterMap statement?

section

variable {ps qs : List Part}

theorem mem_statements : j ∈ statements ps ↔ .statement j ∈ atoms ps := by
  constructor
  · intro h
    obtain ⟨p, hp, hj⟩ := mem_filterMap.1 h
    cases p with
    | statement i => obtain rfl := Option.some.inj hj; exact hp
    | _ => cases hj
  · intro h
    exact mem_filterMap.2 ⟨_, h, rfl⟩

@[simp] theorem statements_nil : statements [] = [] := rfl

@[simp] theorem statements_append : statements (ps ++ qs) = statements ps ++ statements qs := by
  simp [statements]

@[simp] theorem statements_text {t : String} : statements (.text t :: ps) = statements ps := by
  simp [statements, statement?, filterMap_cons]

@[simp] theorem statements_line : statements (.line :: ps) = statements ps := by
  simp [statements, statement?, filterMap_cons]

@[simp] theorem statements_symbol {e : SymbolId} : statements (.symbol e :: ps) = statements ps := by
  simp [statements, statement?, filterMap_cons]

@[simp] theorem statements_statement : statements (.statement j :: ps) = j :: statements ps := by
  simp [statements, statement?]

@[simp] theorem statements_group : statements (.group qs :: ps) = statements qs ++ statements ps := by
  simp [statements]

theorem statements_cons (p : Part) : statements (p :: ps) = statements [p] ++ statements ps := by
  rw [← statements_append, singleton_append]

@[simp] theorem statements_flatten {items : List (List Part)} : statements items.flatten = items.flatMap statements := by
  induction items with
  | nil => rfl
  | cons item items ih => simp [ih]

@[simp] theorem statements_intercalate {separator : String} {items : List (List Part)} :
    statements ([text separator].intercalate items) = items.flatMap statements := by
  induction items with
  | nil => rfl
  | cons item items ih =>
    cases items with
    | nil => simp [intercalate]
    | cons next items => rw [intercalate_cons_cons]; simpa using ih

end

end Part

/-- The statements in the clauses of a statement, those in its `GROUP BY` list left out. -/
def Statement.nested (s : Statement) : List StatementId :=
  statements (s.selectList ++ s.fromList ++ s.condition) ++
    statements (s.ordering ++ s.top.getD [] ++ s.skip.getD [])

theorem Statement.statements_parts (s : Statement) : statements s.parts =
    statements (s.selectList ++ s.fromList ++ s.condition) ++ statements s.grouping ++
      statements (s.ordering ++ s.top.getD [] ++ s.skip.getD []) := by
  simp [parts]

theorem Statement.mem_statements_parts {s : Statement} :
    j ∈ statements s.parts ↔ j ∈ s.nested ∨ j ∈ statements s.grouping := by
  rw [s.statements_parts, nested]
  simp only [mem_append]
  tauto

/-! ## Ways from a statement to another -/

namespace Statements

variable {ps : List Part} {k : StatementId}

variable {S : Statements} {roots : List StatementId}

/-- The statement `j` stands in a clause of `i`. -/
def Contains (S : Statements) (i j : StatementId) : Prop := j ∈ statements (S.get i).parts

/-- The statement stands in a `GROUP BY` list, at any depth. -/
def Repeats (S : Statements) (k : StatementId) : Prop := ∃ i, Occurs S (S.get i).grouping k

/-- The statement stands in a clause of `p` other than `GROUP BY`. -/
def StandsIn (S : Statements) (j p : StatementId) : Prop := j ∈ (S.get p).nested

theorem occurs_iff :
    Occurs S ps k ↔ ∃ j ∈ statements ps, ReflTransGen S.Contains j k := by
  constructor
  · intro h
    induction h with
    | here h => exact ⟨_, mem_statements.2 h, .refl⟩
    | within hk _ ih =>
      obtain ⟨j, hj, hway⟩ := ih
      exact ⟨_, mem_statements.2 hk, .head hj hway⟩
  · rintro ⟨j, hj, hway⟩
    induction hway with
    | refl => exact .here (mem_statements.1 hj)
    | tail _ hc ih => exact ih.trans (.here (mem_statements.1 hc))

/-- Outward from a statement that no `GROUP BY` list repeats, the way leads through other clauses. -/
theorem outward (h : ReflTransGen S.Contains j k) (hk : ¬ S.Repeats k) :
    ReflTransGen S.StandsIn k j := by
  induction h using ReflTransGen.head_induction_on with
  | refl => exact .refl
  | @head i j hc hway ih =>
    rcases mem_statements_parts.1 hc with hn | hg
    · exact ih.tail hn
    · exact absurd ⟨i, occurs_iff.2 ⟨j, hg, hway⟩⟩ hk

/-! ## One place for each statement -/

/-- Each statement stands in one place, as one of the roots or in a clause of a statement. -/
def Linear (S : Statements) (roots : List StatementId) : Prop := (roots ++ S.toList.flatMap nested).Nodup

theorem nested_mem {p : StatementId} (h : S.StandsIn j p) :
    ∃ hp : p < S.toList.length, j ∈ (S.toList[p]).nested := by
  unfold StandsIn Statements.get at h
  rw [Array.getD_eq_getD_getElem?] at h
  by_cases hp : p < S.size
  · rw [Array.getElem?_eq_getElem hp] at h
    exact ⟨by simpa using hp, by simpa using h⟩
  · rw [Array.getElem?_eq_none (not_lt.1 hp)] at h
    cases h

theorem Linear.rightUnique (hl : S.Linear roots) : Relator.RightUnique S.StandsIn := by
  intro j p q hp hq
  obtain ⟨hp, hjp⟩ := nested_mem hp
  obtain ⟨hq, hjq⟩ := nested_mem hq
  have hpairs := pairwise_iff_getElem.1 (nodup_flatMap.1 (nodup_append.1 hl).2.1).2
  rcases lt_trichotomy p q with hlt | heq | hlt
  · exact absurd hjq (hpairs p q hp hq hlt hjp)
  · exact heq
  · exact absurd hjp (hpairs q p hq hp hlt hjq)

theorem Linear.nodup_nested (hl : S.Linear roots) (i : StatementId) : (S.get i).nested.Nodup := by
  by_cases hi : i < S.size
  · refine (nodup_flatMap.1 (nodup_append.1 hl).2.1).1 _ ?_
    unfold Statements.get
    rw [Array.getD_eq_getD_getElem?, Array.getElem?_eq_getElem hi]
    simp
  · unfold Statements.get
    rw [Array.getD_eq_getD_getElem?, Array.getElem?_eq_none (not_lt.1 hi)]
    exact nodup_nil

/-- None of the statements stands in one of them. -/
def Siblings (S : Statements) (js : List StatementId) : Prop :=
  ∀ j ∈ js, ∀ l ∈ js, ∀ p, S.StandsIn j p → ¬ ReflTransGen S.StandsIn p l

theorem Linear.not_standsIn (hl : S.Linear roots) {p : StatementId} (hj : j ∈ roots) : ¬ S.StandsIn j p := by
  intro hp
  obtain ⟨hp, hmem⟩ := nested_mem hp
  exact (nodup_append.1 hl).2.2 j hj j (mem_flatMap.2 ⟨_, getElem_mem hp, hmem⟩) rfl

theorem Linear.siblings_roots (hl : S.Linear roots) : S.Siblings roots :=
  fun _ hj _ _ _ hp _ => hl.not_standsIn hj hp

theorem Linear.siblings_nested (hl : S.Linear roots) (hacyclic : ∀ k, ¬ Occurs S (S.get k).parts k) (i : StatementId) :
    S.Siblings (S.get i).nested := by
  intro j hj l hlmem p hp hway
  obtain rfl := hl.rightUnique hj hp
  -- otherwise the statement stands in itself
  have hinward : ReflTransGen S.Contains l i :=
    ReflTransGen.mono (fun _ _ hc => mem_statements_parts.2 (Or.inl hc)) l i (reflTransGen_swap.2 hway)
  exact hacyclic i (occurs_iff.2 ⟨l, mem_statements_parts.2 (Or.inl hlmem), hinward⟩)

/-- Two of the statements lead to the same statement only if a `GROUP BY` list repeats it. -/
theorem Siblings.repeats {js : List StatementId} (hs : S.Siblings js) (hl : S.Linear roots) {l : StatementId}
    (hj : j ∈ js) (hlmem : l ∈ js) (hne : j ≠ l) (hjk : ReflTransGen S.Contains j k)
    (hlk : ReflTransGen S.Contains l k) : S.Repeats k := by
  by_contra hk
  rcases ReflTransGen.total_of_right_unique hl.rightUnique (outward hjk hk) (outward hlk hk) with hway | hway
  · rcases hway.cases_head with heq | ⟨p, hp, hway⟩
    · exact hne heq
    · exact hs j hj l hlmem p hp hway
  · rcases hway.cases_head with heq | ⟨p, hp, hway⟩
    · exact hne heq.symm
    · exact hs l hlmem j hj p hp hway

/-! ## Parts without a statement in common -/

/-- Any two of the statements in the parts have only such statements in common as a `GROUP BY` list
repeats. -/
def Apart (S : Statements) (ps : List Part) : Prop :=
  (statements ps).Pairwise fun j l =>
    ∀ k, ReflTransGen S.Contains j k → ReflTransGen S.Contains l k → S.Repeats k

theorem apart_append {qs : List Part} : S.Apart (ps ++ qs) ↔
    S.Apart ps ∧ S.Apart qs ∧ ∀ k, Occurs S ps k → Occurs S qs k → S.Repeats k := by
  unfold Apart
  rw [statements_append, pairwise_append]
  refine and_congr_right fun _ => and_congr_right fun _ => ⟨fun h k hp hq => ?_, fun h j hj l hl k hjk hlk => ?_⟩
  · obtain ⟨j, hj, hjk⟩ := occurs_iff.1 hp
    obtain ⟨l, hl, hlk⟩ := occurs_iff.1 hq
    exact h j hj l hl k hjk hlk
  · exact h k (occurs_iff.2 ⟨j, hj, hjk⟩) (occurs_iff.2 ⟨l, hl, hlk⟩)

theorem Siblings.pairwise {js : List StatementId} (hs : S.Siblings js) (hl : S.Linear roots) (hnodup : js.Nodup) :
    js.Pairwise fun j l => ∀ k, ReflTransGen S.Contains j k → ReflTransGen S.Contains l k → S.Repeats k :=
  List.Pairwise.imp_of_mem (fun hj hlmem hne _ hjk hlk => hs.repeats hl hj hlmem hne hjk hlk) hnodup

theorem Linear.apart_roots (hl : S.Linear (statements ps)) : S.Apart ps :=
  hl.siblings_roots.pairwise hl (nodup_append.1 hl).1

theorem Linear.apart_parts (hl : S.Linear roots) (hacyclic : ∀ k, ¬ Occurs S (S.get k).parts k) (i : StatementId) :
    S.Apart (S.get i).parts := by
  have hnested := (hl.siblings_nested hacyclic i).pairwise hl (hl.nodup_nested i)
  have hgrouping : ∀ j ∈ statements (S.get i).grouping, ∀ k, ReflTransGen S.Contains j k → S.Repeats k :=
    fun j hj k hway => ⟨i, occurs_iff.2 ⟨j, hj, hway⟩⟩
  unfold Apart
  rw [statements_parts]
  unfold nested at hnested
  obtain ⟨hbefore, hafter, hacross⟩ := pairwise_append.1 hnested
  -- what a `GROUP BY` list has in common with anything is repeated by it
  refine pairwise_append.2 ⟨pairwise_append.2 ⟨hbefore, ?_, ?_⟩, hafter, fun j hj l hlmem k hjk hlk => ?_⟩
  · exact List.Pairwise.imp_of_mem (fun hj _ _ k hjk _ => hgrouping _ hj k hjk)
      (pairwise_of_forall (R := fun _ _ => True) fun _ _ => trivial)
  · exact fun j _ l hlmem _ _ hlk => hgrouping l hlmem _ hlk
  · rcases mem_append.1 hj with hj | hj
    · exact hacross j hj l hlmem k hjk hlk
    · exact hgrouping j hj k hjk

end Statements

end RelSql
