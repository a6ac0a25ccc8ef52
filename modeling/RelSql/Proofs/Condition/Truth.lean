/-
Truth in SQL, with unknown for what depends on null. A disjunction is told by which truth values there
are in it, not by their order or by how often they come.
-/
import Mathlib.Tactic

namespace RelSql

open List

/-- Conjunction in SQL; `none` is unknown. -/
def both : Option Bool → Option Bool → Option Bool
  | some false, _ => some false
  | _, some false => some false
  | some true, some true => some true
  | _, _ => none

/-- Disjunction in SQL; `none` is unknown. -/
def either : Option Bool → Option Bool → Option Bool
  | some true, _ => some true
  | _, some true => some true
  | some false, some false => some false
  | _, _ => none

theorem both_eq_true_iff {a b : Option Bool} : both a b = some true ↔ a = some true ∧ b = some true := by
  rcases a with _ | _ | _ <;> rcases b with _ | _ | _ <;> simp [both]

theorem either_eq_true_iff {a b : Option Bool} : either a b = some true ↔ a = some true ∨ b = some true := by
  rcases a with _ | _ | _ <;> rcases b with _ | _ | _ <;> simp [either]

/-- The disjunction of all. -/
def anyOf (truths : List (Option Bool)) : Option Bool := truths.foldr either (some false)

theorem anyOf_eq (truths : List (Option Bool)) :
    anyOf truths = if some true ∈ truths then some true else if none ∈ truths then none else some false := by
  induction truths with
  | nil => rfl
  | cons t rest ih =>
    change either t (anyOf rest) = _
    rw [ih]
    rcases t with _ | _ | _ <;> by_cases ht : some true ∈ rest <;> by_cases hn : none ∈ rest <;> simp [ht, hn, either]

/-- Only which truth values there are counts. -/
theorem anyOf_congr {l l' : List (Option Bool)} (h : ∀ t, t ∈ l ↔ t ∈ l') : anyOf l = anyOf l' := by
  simp only [anyOf_eq, h]

theorem anyOf_append (l l' : List (Option Bool)) : anyOf (l ++ l') = either (anyOf l) (anyOf l') := by
  simp only [anyOf_eq, mem_append]
  by_cases h1 : some true ∈ l <;> by_cases h2 : some true ∈ l' <;> by_cases h3 : none ∈ l <;> by_cases h4 : none ∈ l' <;>
    simp [h1, h2, h3, h4, either]

theorem anyOf_singleton (t : Option Bool) : anyOf [t] = t := by
  rcases t with _ | _ | _ <;> rfl

theorem anyOf_flatMap {α : Type} (f : α → List (Option Bool)) (as : List α) :
    anyOf (as.flatMap f) = anyOf (as.map fun a => anyOf (f a)) := by
  induction as with
  | nil => rfl
  | cons a as ih => rw [flatMap_cons, anyOf_append, ih]; rfl

end RelSql
