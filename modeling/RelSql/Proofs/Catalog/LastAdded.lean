/-
A catalog is what was added to it last: under each name, whatever the case, the set added last, in
the order in which the names came up first. A document gives the catalog of its sets, and only if
each of them has a name and keys that are members.
-/
import RelSql.Catalog.Document
import Mathlib.Tactic

namespace RelSql.Catalog

open Ident List

/-- The catalog after sets were added one after the other. -/
def ofSets (sets : List EntitySet) : Catalog := sets.foldl add {}

/-- The names of sets, as they are filed. -/
def keys (sets : List EntitySet) : List String := sets.map fun s => key s.name

/-- What a catalog shows of the sets that were added to it. -/
structure Shows (c : Catalog) (sets : List EntitySet) : Prop where
  get? : ∀ name, c.get? name = sets.reverse.find? fun s => same s.name name
  size : c.size = (keys sets).toFinset.card
  order : keys c.sets = (keys sets).eraseDups
  current : ∀ s ∈ c.sets, c.get? s.name = some s

section

variable (set : EntitySet) (sets : List EntitySet)

theorem ofSets_concat : ofSets (sets ++ [set]) = (ofSets sets).add set := by
  simp [ofSets]

theorem get?_ofSets (name : String) :
    (ofSets sets).get? name = sets.reverse.find? fun s => same s.name name := by
  induction sets using reverseRecOn with
  | nil => rfl
  | append_singleton sets set ih =>
    rw [ofSets_concat, get?_add, ih, reverse_append]
    by_cases h : same set.name name <;> simp [h]

/-- A set under a known name stays in the place of that name. -/
theorem keys_put : keys (put set sets) =
    if key set.name ∈ keys sets then keys sets else keys sets ++ [key set.name] := by
  induction sets with
  | nil => simp [put, keys]
  | cons s rest ih =>
    by_cases hs : key s.name = key set.name
    · simp [put, keys, same, hs]
    · have hput : keys (put set (s :: rest)) = key s.name :: keys (put set rest) := by
        simp [put, keys, same, hs]
      have hmem : key set.name ∈ keys (s :: rest) ↔ key set.name ∈ keys rest := by
        simp [keys, Ne.symm hs]
      rw [hput, ih]
      simp only [hmem]
      split <;> rfl

theorem keys_ofSets : keys (ofSets sets).sets = (keys sets).eraseDups := by
  induction sets using reverseRecOn with
  | nil => rfl
  | append_singleton sets set ih =>
    have hkeys : keys (sets ++ [set]) = keys sets ++ [key set.name] := by simp [keys]
    rw [ofSets_concat, hkeys, eraseDups_append]
    refine (keys_put set _).trans ?_
    simp only [ih, mem_eraseDups]
    by_cases h : key set.name ∈ keys sets <;> simp [removeAll, h, eraseDups_cons]

theorem nodup_keys_ofSets : (keys (ofSets sets).sets).Nodup := by
  induction sets using reverseRecOn with
  | nil => exact nodup_nil
  | append_singleton sets set ih =>
    rw [ofSets_concat]
    refine (keys_put set _).symm ▸ ?_
    split
    · exact ih
    · rename_i h
      rw [← concat_eq_append]
      exact ih.concat h

theorem shows_ofSets : Shows (ofSets sets) sets := by
  have hnodup := nodup_keys_ofSets sets
  refine ⟨get?_ofSets sets, ?_, keys_ofSets sets, fun s hs => ?_⟩
  · have hset : (keys (ofSets sets).sets).toFinset = (keys sets).toFinset := by
      ext k
      rw [keys_ofSets, mem_toFinset, mem_toFinset, mem_eraseDups]
    rw [← hset, toFinset_card_of_nodup hnodup, keys, length_map]
    rfl
  · unfold get?
    have hfound : ((ofSets sets).sets.find? fun t => same t.name s.name).isSome = true :=
      find?_isSome.2 ⟨s, hs, same_refl s.name⟩
    obtain ⟨t, ht⟩ := Option.isSome_iff_exists.1 hfound
    have hkey : key t.name = key s.name := by simpa [same] using find?_some ht
    rwa [inj_on_of_nodup_map hnodup (mem_of_find?_eq_some ht) hs hkey] at ht

end

/-! ## Documents -/

theorem checkSet_eq_ok_iff {set : EntitySet} : checkSet set = .ok () ↔
    Blank.onlyBlanks set.name = false ∧ ∀ k ∈ set.keys, (findMember? set.members k).isSome = true := by
  have hkeys : unknownKey? set = none ↔ ∀ k ∈ set.keys, (findMember? set.members k).isSome = true := by
    simp [unknownKey?, Option.ne_none_iff_isSome]
  unfold checkSet
  rw [← hkeys]
  cases Blank.onlyBlanks set.name <;> cases unknownKey? set <;> simp

theorem addAll_eq_ok_iff {c c' : Catalog} {sets : List EntitySet} :
    addAll c sets = .ok c' ↔ (∀ s ∈ sets, checkSet s = .ok ()) ∧ c' = sets.foldl add c := by
  induction sets generalizing c with
  | nil => simp [addAll, eq_comm]
  | cons set rest ih =>
    rw [addAll, forall_mem_cons, foldl_cons, and_assoc, ← ih]
    cases checkSet set <;> simp [bind, Except.bind]

/-- Any sequence of additions gives the catalog that `Shows` describes, and a document gives the catalog of
its sets in order, if each of them has a name and every key is one of its members. -/
theorem last_added_shown : (∀ sets, Shows (ofSets sets) sets) ∧
    ∀ text c, ofText text = .ok c ↔ ∃ j sets, Json.parse? text = some j ∧ readSets? j = some sets ∧
      c = ofSets sets ∧ ∀ s ∈ sets, Blank.onlyBlanks s.name = false ∧
        (∀ k ∈ s.keys, (findMember? s.members k).isSome = true) ∧ s.keyMembers.length = s.keys.length := by
  refine ⟨shows_ofSets, fun text c => ?_⟩
  have hset : ∀ s : EntitySet, (Blank.onlyBlanks s.name = false ∧
      (∀ k ∈ s.keys, (findMember? s.members k).isSome = true) ∧ s.keyMembers.length = s.keys.length) ↔
        checkSet s = .ok () := by
    intro s
    rw [checkSet_eq_ok_iff, EntitySet.keyMembers, filterMap_length_eq_length, and_self]
  simp only [hset]
  unfold ofText ofJson
  cases hj : Json.parse? text with
  | none => simp
  | some j =>
    cases hs : readSets? j with
    | none => simp [hs]
    | some sets =>
      simp only [hs, Option.some.injEq, exists_and_left, exists_eq_left']
      rw [addAll_eq_ok_iff, and_comm]
      rfl

end RelSql.Catalog
