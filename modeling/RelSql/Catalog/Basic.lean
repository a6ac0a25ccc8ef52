/-
A catalog: the entity sets known to a caller, filed by name whatever the case. A set added under
a known name takes the place of the older one.
-/
import RelSql.Catalog.EntitySet

namespace RelSql

structure Catalog where
  sets : List EntitySet := []
deriving Inhabited

namespace Catalog

/-- The rows with `set` in the place of the set of its name, or at the end if there is none. -/
def put (set : EntitySet) : List EntitySet → List EntitySet
  | [] => [set]
  | s :: rest => if Ident.same s.name set.name then set :: rest else s :: put set rest

def add (c : Catalog) (set : EntitySet) : Catalog := ⟨put set c.sets⟩

def get? (c : Catalog) (name : String) : Option EntitySet :=
  c.sets.find? fun s => Ident.same s.name name

def size (c : Catalog) : Nat := c.sets.length

def isEmpty (c : Catalog) : Bool := c.sets.isEmpty

theorem find?_put (set : EntitySet) (name : String) (sets : List EntitySet) :
    (put set sets).find? (fun s => Ident.same s.name name) =
      if Ident.same set.name name then some set
      else sets.find? fun s => Ident.same s.name name := by
  induction sets with
  | nil => by_cases h : Ident.same set.name name <;> simp [put, h]
  | cons s rest ih =>
    by_cases hs : Ident.same s.name set.name
    · have key : Ident.same s.name name = Ident.same set.name name := by
        simp only [Ident.same, Ident.same_iff.1 hs]
      by_cases h : Ident.same set.name name <;> simp [put, hs, h, key]
    · by_cases h : Ident.same s.name name
      · have ne : Ident.same set.name name = false := by
          refine Bool.eq_false_iff.2 fun found => hs ?_
          exact Ident.same_trans h (Ident.same_symm found)
        simp [put, hs, h, ne]
      · simp [put, hs, h, ih]

/-- A set is found under every spelling of its name, and hides no other set. -/
theorem get?_add (c : Catalog) (set : EntitySet) (name : String) :
    (c.add set).get? name = if Ident.same set.name name then some set else c.get? name :=
  find?_put set name c.sets

end Catalog

end RelSql
