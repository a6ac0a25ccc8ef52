/-
Gathering the leaves of a disjunction is a stable partition. To be the same key is an equivalence, the leaves are gathered just
if each of them has a key, and every value is filed once: the keys stand in the order in which they first come, and the values of
a key in the order of their leaves.
-/
import RelSql.Proofs.Query.BoundVariables

namespace RelSql

open List

/-! ## Filing by keys -/

namespace KeyedLists

variable {κ ν : Type} {r : κ → κ → Bool}

/-- What stays under the first key, and what is filed behind it. -/
theorem foldl_add_cons (k : κ) (pairs : List (κ × ν)) : ∀ (values : List ν) (entries : KeyedLists κ ν),
    pairs.foldl (fun entries p => add r p.1 p.2 entries) ((k, values) :: entries) =
      (k, values ++ (pairs.filter fun p => r k p.1).map Prod.snd) ::
        (pairs.filter fun p => !r k p.1).foldl (fun entries p => add r p.1 p.2 entries) entries := by
  induction pairs with
  | nil => simp
  | cons p rest ih =>
    intro values entries
    rw [foldl_cons, add]
    cases h : r k p.1 <;> simp [h, ih]

theorem ofPairs_cons (p : κ × ν) (rest : List (κ × ν)) : ofPairs r (p :: rest) =
    (p.1, p.2 :: (rest.filter fun q => r p.1 q.1).map Prod.snd) :: ofPairs r (rest.filter fun q => !r p.1 q.1) :=
  foldl_add_cons p.1 rest [p.2] []

/-- Induction on the pairs that are left when those with the first key are filed. -/
theorem filing_induction {P : List (κ × ν) → Prop} (nil : P [])
    (cons : ∀ p rest, P (rest.filter fun q => !r p.1 q.1) → P (p :: rest)) : ∀ pairs, P pairs
  | [] => nil
  | p :: rest => cons p rest (filing_induction nil cons _)
termination_by pairs => pairs.length
decreasing_by exact Nat.lt_succ_of_le (length_filter_le _ _)

theorem map_fst_ofPairs (pairs : List (κ × ν)) :
    (ofPairs r pairs).map Prod.fst = (pairs.map Prod.fst).eraseDupsBy fun k k' => r k' k := by
  induction pairs using filing_induction (r := r) with
  | nil => rfl
  | cons p rest ih => simp [ofPairs_cons, ih, eraseDupsBy_cons, filter_map, Function.comp_def]

theorem same_of_mem_ofPairs {key : κ} {rest : List (κ × ν)} :
    ∀ e ∈ ofPairs r (rest.filter fun q => !r key q.1), r key e.1 = false := fun e he =>
  (forall_ofPairs (R := fun k => r key k = false) (S := fun _ => True) (by simp +contextual) e he).1

theorem pairwise_ofPairs (pairs : List (κ × ν)) : (ofPairs r pairs).Pairwise fun e e' => r e.1 e'.1 = false := by
  induction pairs using filing_induction (r := r) with
  | nil => exact .nil
  | cons p rest ih => rw [ofPairs_cons]; exact .cons same_of_mem_ofPairs ih

theorem values_ofPairs (hsymm : ∀ a b, r a b = true → r b a = true)
    (htrans : ∀ a b c, r a b = true → r b c = true → r a c = true) {pairs : List (κ × ν)}
    (hrefl : ∀ p ∈ pairs, r p.1 p.1 = true) :
    ∀ e ∈ ofPairs r pairs, e.2 = (pairs.filter fun q => r e.1 q.1).map Prod.snd := by
  induction pairs using filing_induction (r := r) with
  | nil => exact fun _ he => absurd he not_mem_nil
  | cons p rest ih =>
    rw [ofPairs_cons]
    obtain ⟨hp, hrest⟩ := forall_mem_cons.1 hrefl
    refine forall_mem_cons.2 ⟨by simp [hp], fun e he => ?_⟩
    -- no pair with the first key has this one
    have hother : ∀ k, r e.1 k = true → r p.1 k = false := fun k hk => by
      by_contra h
      have := same_of_mem_ofPairs e he
      rw [htrans _ _ _ (by simpa using h) (hsymm _ _ hk)] at this
      cases this
    have hne : ¬ r e.1 p.1 = true := fun h => by rw [hother p.1 h] at hp; cases hp
    rw [ih (fun q hq => hrest q (mem_of_mem_filter hq)) e he, filter_cons, if_neg hne, filter_filter]
    congr 1
    exact filter_congr fun q _ => by cases h : r e.1 q.1 <;> simp [h, hother]

end KeyedLists

/-! ## Leaves and their keys -/

namespace Expr

variable {a b c e : Expr} {terms : List (Term Expr)}

theorem sameKey_refl (h : a.isKey = true) : sameKey a a = true := by
  fun_induction isKey a with
  | case1 | case2 => simp [sameKey, Ident.same]
  | case3 owner name ih => simp [sameKey, Ident.same, ih h]
  | case4 => cases h

theorem sameKey_symm (h : sameKey a b = true) : sameKey b a = true := by
  fun_induction sameKey a b with
  | case1 => simp_all [sameKey, Ident.same]
  | case2 | case3 => simp_all [sameKey, Ident.same]
  | case4 => cases h

theorem sameKey_trans (hab : sameKey a b = true) (hbc : sameKey b c = true) : sameKey a c = true := by
  fun_induction sameKey a b generalizing c with
  | case4 => cases hab
  | _ =>
    unfold sameKey at hbc
    split at hbc <;> simp_all [sameKey, Ident.same]

/-- The leaves of a disjunction from left to right. -/
def disjuncts : Expr → List Expr
  | or left right => disjuncts left ++ disjuncts right
  | e => [e]

/-- An equality with a key on one side, or a test of a key for null. -/
def HasKey : Expr → Prop
  | compare .eq left right => left.isKey = true ∨ right.isKey = true
  | isNull operand => operand.isKey = true
  | _ => False

theorem isSome_terms? (e : Expr) : (terms? e).isSome = true ↔ ∀ d ∈ disjuncts e, HasKey d := by
  fun_induction terms? e with
  | case6 left right ihl ihr =>
    rw [disjuncts, forall_mem_append, ← ihl, ← ihr]
    cases terms? left <;> cases terms? right <;> simp
  | _ => simp_all [disjuncts, HasKey]

theorem Splits.disjuncts (h : Splits e terms) : Forall₂ (fun d t => Splits d [t]) e.disjuncts terms := by
  induction h with
  | left hl => exact .cons (.left hl) .nil
  | right hl hr => exact .cons (.right hl hr) .nil
  | null ho => exact .cons (.null ho) .nil
  | or _ _ ihl ihr => exact rel_append ihl ihr

theorem Splits.isKey (h : Splits e terms) : ∀ t ∈ terms, t.key.isKey = true := by
  induction h with
  | left hl => exact forall_mem_singleton.2 hl
  | right _ hr => exact forall_mem_singleton.2 hr
  | null ho => exact forall_mem_singleton.2 ho
  | or _ _ ihl ihr => exact forall_mem_append.2 ⟨ihl, ihr⟩

open KeyedLists

/-- A disjunction is gathered just if each leaf has a key. Each leaf is then filed once. -/
theorem gather_stable_partition (e : Expr) :
    Equivalence (fun a b : { k : Expr // k.isKey = true } => sameKey a b = true) ∧
    ((terms? e).isSome = true ↔ ∀ d ∈ disjuncts e, HasKey d) ∧
    ∀ terms, terms? e = some terms →
      Forall₂ (fun d t => Splits d [t]) (disjuncts e) terms ∧
      (gather id terms).Pairwise (fun g g' => sameKey g.1 g'.1 = false) ∧
      (gather id terms).map Prod.fst = (terms.map Term.key).eraseDupsBy (fun k k' => sameKey k' k) ∧
      (∀ g ∈ gather id terms, g.2 = (terms.filter fun t => sameKey g.1 t.key).map Term.value) ∧
      ((gather id terms).flatMap Prod.snd).Perm (terms.map Term.value) := by
  refine ⟨⟨fun k => sameKey_refl k.2, sameKey_symm, sameKey_trans⟩, isSome_terms? e, fun terms hterms => ?_⟩
  have hsplits := splits_of_terms? hterms
  refine ⟨hsplits.disjuncts, pairwise_ofPairs _, ?_, ?_, ?_⟩
  · rw [gather, map_fst_ofPairs, map_map]; rfl
  · have hrefl : ∀ p ∈ terms.map fun t => (t.key, t.value), sameKey p.1 p.1 = true :=
      forall_mem_map.2 fun t hm => sameKey_refl (hsplits.isKey t hm)
    refine fun g hg => (values_ofPairs (r := sameKey) (fun _ _ => sameKey_symm) (fun _ _ _ => sameKey_trans) hrefl g hg).trans ?_
    simp [Function.comp_def, filter_map]
  · simpa [gather, Function.comp_def] using
      perm_flatMap_ofPairs (f := fun _ v => v) (fun _ _ _ _ => rfl) (terms.map fun t => (t.key, t.value))

end Expr

end RelSql
