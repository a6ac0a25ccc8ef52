/-
The registry of names in use. A fresh name is its base followed by the first number that gives a
name not in use; the registry remembers the last number of each base, so that numbers are not
tried twice.
-/
import RelSql.Text.Digits
import RelSql.Text.Ident

namespace RelSql

/-- The names in use, each filed under its key with the last number appended to it. -/
structure Registry where
  entries : List (String × Nat) := []
deriving Repr, DecidableEq, Inhabited

namespace Registry

def lastNumber? (r : Registry) (name : String) : Option Nat := r.entries.lookup (Ident.key name)

def contains (r : Registry) (name : String) : Bool := (r.lastNumber? name).isSome

def size (r : Registry) : Nat := r.entries.length

def isEmpty (r : Registry) : Bool := r.entries.isEmpty

/-- Files a number under a key, in place of the one that was there. -/
def put (key : String) (number : Nat) : List (String × Nat) → List (String × Nat)
  | [] => [(key, number)]
  | (k, n) :: rest => if k = key then (k, number) :: rest else (k, n) :: put key number rest

def set (r : Registry) (name : String) (number : Nat) : Registry :=
  ⟨put (Ident.key name) number r.entries⟩

/-- Takes note of a name; one in use stays as it is. -/
def register (r : Registry) (name : String) : Registry :=
  if r.contains name then r else r.set name 0

def numbered (base : String) (number : Nat) : String := base ++ Digits.ofNat number

/-- The first number after `last` that gives a free name. Of `r.size + 1` candidates one is free,
so `r.size` failures are enough to go on without a look. -/
def firstFree (r : Registry) (base : String) : Nat → Nat → Nat
  | 0, last => last + 1
  | tries + 1, last =>
    if r.contains (numbered base (last + 1)) then firstFree r base tries (last + 1)
    else last + 1

/-- A name not in use, which is in use from now on. -/
def fresh (r : Registry) (base : String) : String × Registry :=
  let number := r.firstFree base r.size ((r.lastNumber? base).getD 0)
  let name := numbered base number
  (name, (r.set base number).set name 0)

theorem lookup_put (key other : String) (number : Nat) (entries : List (String × Nat)) :
    (put key number entries).lookup other =
      if other = key then some number else entries.lookup other := by
  induction entries with
  | nil =>
    by_cases h : other = key
    · simp [put, h]
    · simp [put, List.lookup_cons, h, beq_false_of_ne h]
  | cons e rest ih =>
    obtain ⟨k, n⟩ := e
    by_cases hk : k = key
    · subst hk
      by_cases h : other = k
      · simp [put, h]
      · simp [put, List.lookup_cons, h, beq_false_of_ne h]
    · by_cases h : other = k
      · subst h; simp [put, hk]
      · simp [put, hk, List.lookup_cons, beq_false_of_ne h, ih]

/-- Only the number of the name that is set changes. -/
theorem lastNumber?_set (r : Registry) (name other : String) (number : Nat) :
    (r.set name number).lastNumber? other =
      if Ident.key other = Ident.key name then some number else r.lastNumber? other :=
  lookup_put _ _ _ _

theorem contains_set (r : Registry) (name other : String) (number : Nat) :
    (r.set name number).contains other = (Ident.same other name || r.contains other) := by
  rw [contains, lastNumber?_set, Ident.same]
  by_cases h : Ident.key other = Ident.key name <;> simp [h, contains]

end Registry

end RelSql
