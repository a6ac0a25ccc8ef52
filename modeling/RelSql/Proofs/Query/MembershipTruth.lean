/-
The truth of a disjunction that is written by keys. The leaves are gathered under their keys, and
each key is compared with its values by `=` or `IN` and tested for null. Truth is that of SQL, with
unknown for what depends on null. The order of the leaves and how often they come does not matter to
it, so the tests are as true as the disjunction, if no leaf compares a key with a test for null: such
a leaf is taken for the test itself.
-/
import RelSql.Proofs.Condition.Truth
import RelSql.Proofs.Query.FilterRows

namespace RelSql

open RelSql.Part KeyedLists Ident List Build

variable {e key : Expr} {V : Type}

/-! ## Values filed under keys -/

namespace KeyedLists

section

variable {κ ν β : Type} {same : κ → κ → Bool} {f : κ → ν → β}

theorem perm_flatMap_add (hf : ∀ k key v, same k key = true → f k v = f key v) (key : κ) (value : ν) (entries : KeyedLists κ ν) :
    ((add same key value entries).flatMap fun e => e.2.map (f e.1)).Perm
      ((entries.flatMap fun e => e.2.map (f e.1)) ++ [f key value]) := by
  induction entries with
  | nil => exact .refl _
  | cons entry rest ih =>
    obtain ⟨k, values⟩ := entry
    unfold add
    split
    · rename_i hsame
      simp only [flatMap_cons, map_append, map_singleton, hf k key value hsame, append_assoc]
      exact perm_append_comm.append_left _
    · rw [flatMap_cons, flatMap_cons, append_assoc]
      exact ih.append_left _

/-- What does not tell the same keys apart is found of the filed pairs as of the pairs. -/
theorem perm_flatMap_ofPairs (hf : ∀ k key v, same k key = true → f k v = f key v) (pairs : List (κ × ν)) :
    ((ofPairs same pairs).flatMap fun e => e.2.map (f e.1)).Perm (pairs.map fun p => f p.1 p.2) := by
  induction pairs using reverseRecOn with
  | nil => exact .nil
  | append_singleton pairs p ih =>
    rw [ofPairs_concat, map_append]
    exact (perm_flatMap_add hf _ _ _).trans (ih.append_right _)

/-- A relation that holds of all pairs, and does not tell the same keys apart, holds of what is filed. -/
theorem rel_of_mem_ofPairs {r : κ → ν → Prop} (hr : ∀ k key v, same k key = true → (r k v ↔ r key v))
    {pairs : List (κ × ν)} (h : ∀ p ∈ pairs, r p.1 p.2) {entry : κ × List ν} (he : entry ∈ ofPairs same pairs) {v : ν}
    (hv : v ∈ entry.2) : r entry.1 v := by
  have hmem := (perm_flatMap_ofPairs (f := r) (fun k key v hs => propext (hr k key v hs)) pairs).mem_iff.1
    (mem_flatMap.2 ⟨entry, he, mem_map_of_mem hv⟩)
  obtain ⟨p, hp, heq⟩ := mem_map.1 hmem
  exact heq ▸ h p hp

theorem ne_nil_of_mem_add {key : κ} {value : ν} {entries : KeyedLists κ ν} (h : ∀ entry ∈ entries, entry.2 ≠ []) :
    ∀ entry ∈ add same key value entries, entry.2 ≠ [] := by
  induction entries with
  | nil => simp [add]
  | cons entry rest ih =>
    obtain ⟨hentry, hrest⟩ := forall_mem_cons.1 h
    unfold add
    split
    · exact forall_mem_cons.2 ⟨by simp, hrest⟩
    · exact forall_mem_cons.2 ⟨hentry, ih hrest⟩

theorem ne_nil_of_mem_ofPairs {pairs : List (κ × ν)} {entry : κ × List ν} (h : entry ∈ ofPairs same pairs) :
    entry.2 ≠ [] := by
  induction pairs using reverseRecOn generalizing entry with
  | nil => exact absurd h not_mem_nil
  | append_singleton pairs p ih =>
    rw [ofPairs_concat] at h
    exact ne_nil_of_mem_add (fun _ => ih) entry h

end

section

variable {κ κ' ν ν' : Type} {same : κ → κ → Bool} {same' : κ' → κ' → Bool} {g : κ → κ'} (h : ν → ν')

/-- The entries with other keys and values in their places. -/
def mapEntries (g : κ → κ') (h : ν → ν') (entries : KeyedLists κ ν) : KeyedLists κ' ν' :=
  entries.map fun e => (g e.1, e.2.map h)

theorem mapEntries_add (hg : ∀ a b, same' (g a) (g b) = same a b) (key : κ) (value : ν) (entries : KeyedLists κ ν) :
    add same' (g key) (h value) (mapEntries g h entries) = mapEntries g h (add same key value entries) := by
  induction entries with
  | nil => rfl
  | cons entry rest ih =>
    obtain ⟨k, values⟩ := entry
    change add same' (g key) (h value) ((g k, values.map h) :: mapEntries g h rest) = _
    rw [add, add, hg]
    split
    · simp [mapEntries]
    · rw [ih]; rfl

theorem mapEntries_ofPairs (hg : ∀ a b, same' (g a) (g b) = same a b) (pairs : List (κ × ν)) :
    ofPairs same' (pairs.map fun p => (g p.1, h p.2)) = mapEntries g h (ofPairs same pairs) := by
  induction pairs using reverseRecOn with
  | nil => rfl
  | append_singleton pairs p ih => rw [map_append, map_singleton, ofPairs_concat, ih, mapEntries_add h hg, ofPairs_concat]

end

end KeyedLists

/-! ## The truth of a disjunction -/

/-- Values of expressions: `none` for null, and the same for keys that denote one thing. The truth of
other conditions than equalities and tests for null is left open. -/
structure Valuation (V : Type) where
  value : Expr → Option V
  equal : V → V → Bool
  equal_comm : ∀ a b, equal a b = equal b a
  same : ∀ {a b}, Expr.sameKey a b = true → value a = value b
  other : Expr → Option Bool

namespace Valuation

variable {V : Type} (v : Valuation V)

/-- The truth of `left = right`. -/
def equals (left right : Expr) : Option Bool :=
  match v.value left, v.value right with
  | some x, some y => some (v.equal x y)
  | _, _ => none

theorem equals_comm (left right : Expr) : v.equals left right = v.equals right left := by
  unfold equals
  cases v.value left <;> cases v.value right <;> simp [v.equal_comm]

/-- The truth of an expression as a condition. -/
def truth : Expr → Option Bool
  | .compare .eq left right => v.equals left right
  | .isNull operand => some (v.value operand).isNone
  | .or left right => either (truth left) (truth right)
  | e => v.other e

/-- The truth of a leaf, from its key and its value. -/
def leafTruth (key : Expr) : Expr → Option Bool
  | .isNull operand => some (v.value operand).isNone
  | value => v.equals key value

theorem leafTruth_of_not_isNullTest {value : Expr} (h : value.isNullTest = false) :
    v.leafTruth key value = v.equals key value := by
  cases value <;> first | rfl | cases h

theorem leafTruth_congr {k : Expr} (h : Expr.sameKey k key = true) (value : Expr) :
    v.leafTruth k value = v.leafTruth key value := by
  cases value <;> simp [leafTruth, equals, v.same h]

end Valuation

namespace Expr

/-- Some leaf of the disjunction compares with a test for null. -/
def comparesNullTest : Expr → Bool
  | compare _ left right => left.isNullTest || right.isNullTest
  | or left right => comparesNullTest left || comparesNullTest right
  | _ => false

/-- A disjunction is as true as its leaves. -/
theorem truth_eq_anyOf (v : Valuation V) {terms : List (Term Expr)} (h : terms? e = some terms)
    (hplain : e.comparesNullTest = false) : v.truth e = anyOf (terms.map fun t => v.leafTruth t.key t.value) := by
  replace h := splits_of_terms? h
  induction h with
  | left =>
    rw [map_singleton, anyOf_singleton, v.leafTruth_of_not_isNullTest (Bool.or_eq_false_iff.1 hplain).2]
    rfl
  | @right left right =>
    rw [map_singleton, anyOf_singleton, v.leafTruth_of_not_isNullTest (Bool.or_eq_false_iff.1 hplain).1]
    exact v.equals_comm left right
  | null => rw [map_singleton, anyOf_singleton]; rfl
  | or _ _ ihl ihr =>
    obtain ⟨hpl, hpr⟩ := Bool.or_eq_false_iff.1 hplain
    rw [map_append, anyOf_append, ← ihl hpl, ← ihr hpr]; rfl

/-- A leaf that is a test for null is one of its own key. -/
theorem nullTest_of_terms? {terms : List (Term Expr)} (h : terms? e = some terms)
    (hplain : e.comparesNullTest = false) : ∀ t ∈ terms, ∀ operand, t.value = isNull operand → operand = t.key := by
  replace h := splits_of_terms? h
  induction h with
  | left =>
    have hright := (Bool.or_eq_false_iff.1 hplain).2
    simp only [mem_singleton, forall_eq]
    rintro operand rfl
    cases hright
  | right =>
    have hleft := (Bool.or_eq_false_iff.1 hplain).1
    simp only [mem_singleton, forall_eq]
    rintro operand rfl
    cases hleft
  | null => simp
  | or _ _ ihl ihr =>
    obtain ⟨hpl, hpr⟩ := Bool.or_eq_false_iff.1 hplain
    exact forall_mem_append.2 ⟨ihl hpl, ihr hpr⟩

end Expr

/-! ## The tests that are written -/

/-- A test of a key: that it has a value, that it has one of several, or that it is null. -/
inductive KeyTest where
  | equal (key value : Expr)
  | among (key : Expr) (values : List Expr)
  | isNull (key : Expr)

namespace KeyTest

/-- `key IN (values)` is that the key equals one of the values. -/
def truth {V : Type} (v : Valuation V) : KeyTest → Option Bool
  | equal key value => v.equals key value
  | among key values => anyOf (values.map (v.equals key))
  | isNull key => some (v.value key).isNone

/-- The test for the values of a key. -/
def ofValues (key : Expr) : List Expr → List KeyTest
  | [] => []
  | [value] => [equal key value]
  | values => [among key values]

/-- The test that a test for null is. -/
def ofNullTest : Expr → List KeyTest
  | .isNull operand => [isNull operand]
  | _ => []

/-- The tests for a key and the values filed under it; the first test for null stands for all. -/
def ofEntry (entry : Expr × List Expr) : List KeyTest :=
  ofValues entry.1 (entry.2.filter (!·.isNullTest)) ++ (entry.2.find? (·.isNullTest)).toList.flatMap ofNullTest

theorem truth_ofValues (v : Valuation V) (key : Expr) (values : List Expr) :
    anyOf ((ofValues key values).map (truth v)) = anyOf (values.map (v.equals key)) := by
  match values with
  | [] => rfl
  | [value] => rfl
  | value :: value' :: rest => exact anyOf_singleton _

/-- The tests for an entry are as true as its leaves. -/
theorem truth_ofEntry (v : Valuation V) {entry : Expr × List Expr}
    (hnull : ∀ operand, .isNull operand ∈ entry.2 → v.value operand = v.value entry.1) :
    anyOf ((ofEntry entry).map (truth v)) = anyOf (entry.2.map (v.leafTruth entry.1)) := by
  obtain ⟨key, values⟩ := entry
  have hvalues : (values.filter (!·.isNullTest)).map (v.equals key) =
      (values.filter (!·.isNullTest)).map (v.leafTruth key) :=
    map_congr_left fun value hm => (v.leafTruth_of_not_isNullTest (by simpa using (mem_filter.1 hm).2)).symm
  rw [ofEntry, map_append, anyOf_append, truth_ofValues, hvalues, ← anyOf_append]
  refine anyOf_congr fun t => ?_
  rw [mem_append]
  constructor
  · rintro (ht | ht)
    · obtain ⟨value, hm, rfl⟩ := mem_map.1 ht
      exact mem_map_of_mem (mem_of_mem_filter hm)
    · obtain ⟨test, hm, rfl⟩ := mem_map.1 ht
      obtain ⟨value, hm, htest⟩ := mem_flatMap.1 hm
      have hmem := mem_of_find?_eq_some (Option.mem_toList.1 hm)
      cases value with
      | isNull operand =>
        rw [mem_singleton.1 htest]
        exact mem_map.2 ⟨_, hmem, rfl⟩
      | _ => cases htest
  · intro ht
    obtain ⟨value, hm, rfl⟩ := mem_map.1 ht
    by_cases hv : value.isNullTest = true
    · refine Or.inr ?_
      -- the first test for null is of the same key, so it is as true as this one
      obtain ⟨first, hfirst⟩ := Option.isSome_iff_exists.1 (find?_isSome.2 ⟨value, hm, hv⟩)
      have hft : first.isNullTest = true := find?_some hfirst
      have hfm := mem_of_find?_eq_some hfirst
      cases first with
      | isNull operand =>
        cases value with
        | isNull operand' =>
          rw [hfirst]
          refine mem_map.2 ⟨isNull operand, by simp [ofNullTest], ?_⟩
          change some (v.value operand).isNone = some (v.value operand').isNone
          rw [hnull operand hfm, hnull operand' hm]
        | _ => cases hv
      | _ => cases hft
    · exact Or.inl (mem_map_of_mem (mem_filter.2 ⟨hm, by simpa using hv⟩))

/-! ## Their text -/

variable (config : Config)

/-- The text of an expression as an operand, in parentheses where it needs them. -/
def OperandText (e : Expr) (p : Part) : Prop := ∃ b b', Runs (parenthesized (e.toOperand config)) b p b'

/-- The test has this text. -/
def Written : KeyTest → List Part → Prop
  | equal key value, ps => ∃ k x, OperandText config key k ∧ OperandText config value x ∧ ps = [k, .text " = ", x]
  | among key values, ps => ∃ k xs, OperandText config key k ∧ List.Forall₂ (OperandText config) values xs ∧
    ps = [k, .text " IN ("] ++ [text ","].intercalate (xs.map fun x => [x]) ++ [.text ")"]
  | isNull key, ps => ∃ sql b b', Runs (key.build config) b sql b' ∧ ps = [.group [sql.toPart, .text " IS NULL"]]

variable {config}

theorem written_ofValues {values : List Expr} {b b' : Build} {ps : List Part}
    (hr : Runs (valueTest (key.toOperand config) (values.map (Expr.toOperand config))) b ps b') :
    List.Forall₂ (Written config) (ofValues key values) (if ps.isEmpty then [] else [ps]) := by
  match values with
  | [] =>
    obtain ⟨rfl, -⟩ := runs_pure.1 hr
    exact .nil
  | [value] =>
    simp only [map_cons, map_nil, valueTest, runs_bind, runs_pure] at hr
    obtain ⟨k, b1, hk, x, b2, hx, rfl, rfl⟩ := hr
    exact .cons ⟨k, x, ⟨b, b1, hk⟩, ⟨b1, _, hx⟩, rfl⟩ .nil
  | value :: value' :: rest =>
    simp only [map_cons, valueTest, runs_bind, runs_pure] at hr
    obtain ⟨k, b1, hk, xs, b2, hxs, rfl, rfl⟩ := hr
    refine .cons ⟨k, xs, ⟨b, b1, hk⟩, ?_, rfl⟩ .nil
    rw [← map_cons, ← map_cons] at hxs
    have hvalues := forall₂_of_runs_mapM hxs
    rwa [forall₂_map_left_iff] at hvalues

/-- The text of an entry is that of its tests. -/
theorem written_ofEntry {entry : Expr × List Expr} {b b' : Build} {ps : List Part}
    (hr : Runs (keyTest (entry.1.toOperand config, entry.2.map (Expr.toOperand config))) b ps b') :
    ∃ texts, List.Forall₂ (Written config) (ofEntry entry) texts ∧ ps = [text " OR "].intercalate texts := by
  obtain ⟨key, values⟩ := entry
  simp only [keyTest, runs_bind, filter_map, find?_map] at hr
  obtain ⟨tested, b1, htested, hr⟩ := hr
  have hvalues := written_ofValues htested
  unfold ofEntry
  have htest : ((fun a : Operand => a.expr.isNullTest) ∘ Expr.toOperand config) = (·.isNullTest) := rfl
  rw [htest] at hr
  change List.Forall₂ _ (ofValues key (values.filter (!·.isNullTest))) _ at hvalues
  cases hnull : values.find? (·.isNullTest) with
  | none =>
    rw [hnull] at hr
    obtain ⟨rfl, -⟩ := runs_pure.1 hr
    refine ⟨_, by simpa using hvalues, ?_⟩
    cases ps with
    | nil => rfl
    | cons p ps => exact intercalate_singleton.symm
  | some test =>
    rw [hnull] at hr
    cases test with
    | isNull operand =>
      simp only [Option.map_some, runs_bind, runs_pure] at hr
      obtain ⟨sql, b2, hsql, rfl, -⟩ := hr
      change Runs (nullTest false (operand.toOperand config)) b1 sql b2 at hsql
      simp only [nullTest, runs_bind, runs_pure] at hsql
      obtain ⟨inner, b3, hinner, rfl, -⟩ := hsql
      refine ⟨_, rel_append hvalues (.cons ⟨inner, b1, b3, hinner, rfl⟩ .nil), ?_⟩
      cases tested with
      | nil => exact intercalate_singleton.symm
      | cons p ps =>
        change p :: ps ++ [.text " OR "] ++ _ = [text " OR "].intercalate [p :: ps, _]
        rw [intercalate_cons_cons, intercalate_singleton]; rfl
    | _ => cases find?_some hnull

theorem length_ofValues (key : Expr) (values : List Expr) :
    (ofValues key values).length = if values.isEmpty then 0 else 1 := by
  match values with
  | [] => rfl
  | [_] => rfl
  | _ :: _ :: _ => rfl

/-- One test for the values and one for null, if there are any. -/
theorem length_ofEntry (entry : Expr × List Expr) : (ofEntry entry).length = Expr.disjunctsOf id entry.2 := by
  obtain ⟨key, values⟩ := entry
  have hvalues : (ofValues key (values.filter (!·.isNullTest))).length =
      if values.any (fun v => !v.isNullTest) then 1 else 0 := by
    rw [length_ofValues]
    cases h : values.any fun v => !v.isNullTest with
    | true =>
      obtain ⟨v, hm, hv⟩ := any_eq_true.1 h
      have hne : values.filter (!·.isNullTest) ≠ [] := ne_nil_of_mem (mem_filter.2 ⟨hm, hv⟩)
      rw [if_neg (by simpa using hne)]; rfl
    | false =>
      rw [filter_eq_nil_iff.2 (any_eq_false.1 h)]; rfl
  have hnull : ((values.find? (·.isNullTest)).toList.flatMap ofNullTest).length =
      if values.any (·.isNullTest) then 1 else 0 := by
    rw [← isSome_find?]
    cases h : values.find? (·.isNullTest) with
    | none => rfl
    | some test =>
      cases test with
      | isNull operand => rfl
      | _ => cases find?_some h
  rw [ofEntry, length_append, hvalues, hnull]; rfl

theorem ofEntry_ne_nil {entry : Expr × List Expr} (h : entry.2 ≠ []) : ofEntry entry ≠ [] := by
  obtain ⟨value, hm⟩ := exists_mem_of_ne_nil _ h
  rw [ne_eq, ← length_eq_zero_iff, length_ofEntry, Expr.disjunctsOf]
  cases hv : value.isNullTest with
  | true =>
    have : entry.2.any (fun v => (id v).isNullTest) = true := any_eq_true.2 ⟨value, hm, hv⟩
    rw [this]; simp
  | false =>
    have : entry.2.any (fun v => !(id v).isNullTest) = true := any_eq_true.2 ⟨value, hm, by simp [hv]⟩
    rw [this]; simp

theorem intercalate_append {α : Type} {separator : List α} {xs ys : List (List α)} (hx : xs ≠ []) (hy : ys ≠ []) :
    separator.intercalate (xs ++ ys) = separator.intercalate xs ++ separator ++ separator.intercalate ys := by
  induction xs with
  | nil => exact absurd rfl hx
  | cons x xs ih =>
    cases xs with
    | nil => rw [singleton_append, intercalate_cons_of_ne_nil hy, intercalate_singleton]
    | cons x' xs =>
      rw [cons_append, intercalate_cons_of_ne_nil (by simp), ih (by simp), intercalate_cons_cons]
      simp only [append_assoc]

/-- The text of all entries is that of all their tests. -/
theorem written_entries {groups : KeyedLists Expr Expr} {pss : List (List Part)} (hne : ∀ entry ∈ groups, entry.2 ≠ [])
    (h : List.Forall₂ (fun entry ps => ∃ b b', Runs (keyTest (entry.1.toOperand config,
      entry.2.map (Expr.toOperand config))) b ps b') groups pss) :
    ∃ texts, List.Forall₂ (Written config) (groups.flatMap ofEntry) texts ∧
      [text " OR "].intercalate pss = [text " OR "].intercalate texts := by
  induction h with
  | nil => exact ⟨[], .nil, rfl⟩
  | @cons entry ps groups pss h hrest ih =>
    obtain ⟨b, b', hrun⟩ := h
    obtain ⟨hentry, hne⟩ := forall_mem_cons.1 hne
    obtain ⟨texts, hw, rfl⟩ := written_ofEntry hrun
    obtain ⟨more, hmore, heq⟩ := ih hne
    refine ⟨texts ++ more, rel_append hw hmore, ?_⟩
    cases hrest with
    | nil =>
      cases hmore
      rw [intercalate_singleton, append_nil]
    | @cons entry' ps' groups pss _ _ =>
      have htexts : texts ≠ [] := by
        rw [ne_eq, ← length_eq_zero_iff, ← hw.length_eq, length_eq_zero_iff]
        exact ofEntry_ne_nil hentry
      have hmore' : more ≠ [] := by
        rw [ne_eq, ← length_eq_zero_iff, ← hmore.length_eq, length_eq_zero_iff, flatMap_cons]
        exact append_ne_nil_of_left_ne_nil (ofEntry_ne_nil (hne _ mem_cons_self)) _
      rw [intercalate_append htexts hmore', ← heq, intercalate_cons_cons]

end KeyTest

/-! ## Disjunctions of a query -/

namespace Expr

variable {config : Config}

/-- The leaves with their steps are gathered like the leaves. -/
theorem gather_operands [Variables] (terms : List (Term Expr)) :
    gather Operand.expr (terms.map fun t => ⟨toOperand config t.key, toOperand config t.value⟩) =
      mapEntries (toOperand config) (toOperand config) (gather id terms) := by
  have hpairs : ofPairs (fun a b => sameKey (Operand.expr a) (Operand.expr b))
      ((terms.map fun t => (t.key, t.value)).map fun p => (toOperand config p.1, toOperand config p.2)) =
      mapEntries (toOperand config) (toOperand config)
        (ofPairs (fun a b => sameKey (id a) (id b)) (terms.map fun t => (t.key, t.value))) :=
    mapEntries_ofPairs _ (fun _ _ => rfl) _
  rw [gather, gather, ← hpairs, map_map, map_map]
  rfl

theorem terms_of_gathered? {groups : KeyedLists Expr Expr} (h : e.gathered? = some groups) :
    ∃ terms, e.terms? = some terms ∧ gather id terms = groups := by
  simp only [gathered?, Option.bind_eq_bind, Option.bind_eq_some_iff] at h
  obtain ⟨terms, hterms, hif⟩ := h
  split at hif
  · exact ⟨terms, hterms, Option.some.inj hif⟩
  · cases hif

theorem disjunctCount_eq_length (groups : KeyedLists Expr Expr) :
    disjunctCount id groups = (groups.flatMap KeyTest.ofEntry).length := by
  induction groups with
  | nil => rfl
  | cons entry rest ih =>
    rw [flatMap_cons, length_append, KeyTest.length_ofEntry, ← ih]
    rfl

theorem disjunctCount_operands [Variables] (groups : KeyedLists Expr Expr) :
    disjunctCount Operand.expr (mapEntries (toOperand config) (toOperand config) groups) =
      disjunctCount id groups := by
  unfold disjunctCount mapEntries
  rw [foldr_map]
  simp only [disjunctsOf, any_map]
  rfl

/-- The tests for the gathered leaves are as true as the disjunction. -/
theorem anyOf_tests (v : Valuation V) {terms : List (Term Expr)} (h : terms? e = some terms)
    (hplain : e.comparesNullTest = false) :
    anyOf (((gather id terms).flatMap KeyTest.ofEntry).map (KeyTest.truth v)) = v.truth e := by
  have hnull : ∀ entry ∈ gather id terms, ∀ operand, isNull operand ∈ entry.2 →
      v.value operand = v.value entry.1 := by
    intro entry he operand ho
    refine rel_of_mem_ofPairs (r := fun key value => ∀ operand, value = isNull operand →
      v.value operand = v.value key) (fun k key value hs => ?_) (fun p hp => ?_) he ho operand rfl
    · simp only [v.same (show sameKey k key = true from hs)]
    · obtain ⟨t, ht, rfl⟩ := mem_map.1 hp
      exact fun operand ho => by rw [nullTest_of_terms? h hplain t ht operand ho]
  calc anyOf (((gather id terms).flatMap KeyTest.ofEntry).map (KeyTest.truth v))
      = anyOf ((gather id terms).map fun entry => anyOf ((KeyTest.ofEntry entry).map (KeyTest.truth v))) := by
        rw [map_flatMap, anyOf_flatMap]
    _ = anyOf ((gather id terms).map fun entry => anyOf (entry.2.map (v.leafTruth entry.1))) := by
        congr 1
        exact map_congr_left fun entry he => KeyTest.truth_ofEntry v (hnull entry he)
    _ = anyOf ((gather id terms).flatMap fun entry => entry.2.map (v.leafTruth entry.1)) := (anyOf_flatMap _ _).symm
    _ = anyOf ((terms.map fun t => (t.key, t.value)).map fun p => v.leafTruth p.1 p.2) :=
        anyOf_congr fun _ => (perm_flatMap_ofPairs (f := v.leafTruth)
          (fun k key value (hs : sameKey k key = true) => v.leafTruth_congr hs value) _).mem_iff
    _ = v.truth e := by rw [map_map, truth_eq_anyOf v h hplain]; rfl

end Expr

/-- A disjunction that is gathered by keys is written as tests of the keys, joined by `OR` and inside
parentheses if there are several. Whatever values its expressions have, the tests are as true as the
disjunction, if no leaf of it compares a key with a test for null. -/
theorem membership_truth {config : Config} {left right : Expr} {b b' : Build} {f : Fragment}
    (hgathered : (Expr.gathered? (.or left right)).isSome = true) (hrun : Runs ((Expr.or left right).build config) b f b') :
    ∃ groups texts, Expr.gathered? (.or left right) = some groups ∧
      List.Forall₂ (KeyTest.Written config) (groups.flatMap KeyTest.ofEntry) texts ∧
      f = .parts (if 1 < texts.length then [.text "("] ++ [Part.text " OR "].intercalate texts ++ [.text ")"]
        else [Part.text " OR "].intercalate texts) ∧
      ((Expr.or left right).comparesNullTest = false → ∀ (V : Type) (v : Valuation V),
        anyOf ((groups.flatMap KeyTest.ofEntry).map (KeyTest.truth v)) = v.truth (.or left right)) := by
  obtain ⟨groups, hgroups⟩ := Option.isSome_iff_exists.1 hgathered
  obtain ⟨terms, hterms, rfl⟩ := Expr.terms_of_gathered? hgroups
  have hoperands := Expr.termOperands_of_terms? config hterms
  rw [Expr.termOperands] at hoperands
  rw [Expr.build, if_pos hgathered, hoperands, Expr.gather_operands, membership] at hrun
  simp only [runs_bind, runs_pure] at hrun
  obtain ⟨pss, b₁, hpss, rfl, -⟩ := hrun
  have hpss := forall₂_of_runs_mapM hpss
  rw [KeyedLists.mapEntries, List.forall₂_map_left_iff] at hpss
  have hne : ∀ entry ∈ Expr.gather id terms, entry.2 ≠ [] := fun entry he => KeyedLists.ne_nil_of_mem_ofPairs he
  obtain ⟨texts, hw, htext⟩ := KeyTest.written_entries hne hpss
  refine ⟨_, texts, hgroups, hw, ?_, fun hplain V v => Expr.anyOf_tests v hterms hplain⟩
  rw [Expr.disjunctCount_operands, Expr.disjunctCount_eq_length, hw.length_eq, htext]

def isNumber (key : Expr) (n : Int32) : Expr := .compare .eq key (.constant (.int32 n))

/-- A parameter that is one of two numbers, one of them compared from the other side, or null. -/
def oneOrTwoOrNull : Expr × Expr :=
  (isNumber (.parameter "p" (.scalar .int32)) 1,
    .or (.isNull (.parameter "p" (.scalar .int32)))
      (.compare .eq (.constant (.int32 2)) (.parameter "p" (.scalar .int32))))

/-- The numbers are gathered, and the tests keep the truth of the disjunction. -/
theorem membership_truth_of_parameter :
    (Expr.gathered? (.or oneOrTwoOrNull.1 oneOrTwoOrNull.2)).isSome = true ∧
    (Expr.or oneOrTwoOrNull.1 oneOrTwoOrNull.2).comparesNullTest = false ∧
    ∃ f b' groups, Runs ((Expr.or oneOrTwoOrNull.1 oneOrTwoOrNull.2).build {}) {} f b' ∧
      Expr.gathered? (.or oneOrTwoOrNull.1 oneOrTwoOrNull.2) = some groups ∧
      ∀ (V : Type) (v : Valuation V), anyOf ((groups.flatMap KeyTest.ofEntry).map (KeyTest.truth v)) =
        v.truth (.or oneOrTwoOrNull.1 oneOrTwoOrNull.2) := by
  have hgathered : (Expr.gathered? (.or oneOrTwoOrNull.1 oneOrTwoOrNull.2)).isSome = true := by decide +kernel
  obtain ⟨f, b', hrun, -⟩ := exists_runs (b := {}) (p := fun _ _ => true)
    (m := (Expr.or oneOrTwoOrNull.1 oneOrTwoOrNull.2).build {}) (by decide +kernel)
  obtain ⟨groups, -, hgroups, -, -, htruth⟩ := membership_truth hgathered hrun
  exact ⟨hgathered, rfl, f, b', groups, hrun, hgroups, htruth rfl⟩

/-- `k` tells whether `a` is null, or is two. -/
def flagsNull : Expr × Expr :=
  (.compare .eq (columnOf "q" "k") (.isNull (columnOf "q" "a")), isNumber (columnOf "q" "k") 2)

/-- `a` is not null, which `k` tells with a zero. -/
def notNullAndFlagged : Valuation Nat where
  value
    | .property _ name => if same name "k" then some 0 else some 5
    | .isNull _ => some 0
    | .constant _ => some 2
    | _ => none
  equal a b := a == b
  equal_comm a b := by rw [Bool.eq_iff_iff, beq_iff_eq, beq_iff_eq]; exact eq_comm
  same {a b} h := by
    cases a <;> cases b <;> first | rfl | cases h | skip
    rename_i n _ m
    have hnm : same n "k" = same m "k" := by
      unfold same
      rw [same_iff.1 (Bool.and_eq_true_iff.1 h).1]
    dsimp only
    rw [hnm]
  other _ := none

/-- A comparison with a test for null is written as that test, and is then false where the disjunction
is true. -/
theorem membership_of_null_test_differs :
    (Query.compile {} (.filter (pairsTable.bind "q") (.or flagsNull.1 flagsNull.2))).toOption =
      some ⟨"SELECT q.k AS k, q.a AS a FROM t AS q WHERE (q.k = 2 OR q.a IS NULL)", ["k", "a"]⟩ ∧
    (Expr.gathered? (.or flagsNull.1 flagsNull.2)).map
      (fun groups => anyOf ((groups.flatMap KeyTest.ofEntry).map (KeyTest.truth notNullAndFlagged))) = some (some false) ∧
    notNullAndFlagged.truth (.or flagsNull.1 flagsNull.2) = some true :=
  ⟨by decide +kernel, by decide +kernel, by decide +kernel⟩

end RelSql
