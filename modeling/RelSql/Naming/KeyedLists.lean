/-
Values gathered under keys. Keys are compared by a relation that the caller supplies; they keep
the order in which they first came, and each key its values in the order in which they came.
-/
namespace RelSql

/-- Lists of values filed under keys. -/
abbrev KeyedLists (κ ν : Type) := List (κ × List ν)

namespace KeyedLists

variable {κ ν : Type} (same : κ → κ → Bool)

/-- Files a value under the first key that is the same, or under a new key at the end. -/
def add (key : κ) (value : ν) : KeyedLists κ ν → KeyedLists κ ν
  | [] => [(key, [value])]
  | (k, values) :: rest =>
    if same k key then (k, values ++ [value]) :: rest else (k, values) :: add key value rest

/-- The values of the first key that is the same. -/
def get? (key : κ) (entries : KeyedLists κ ν) : Option (List ν) :=
  (entries.find? fun e => same e.1 key).map Prod.snd

/-- The pairs filed one after the other. -/
def ofPairs (pairs : List (κ × ν)) : KeyedLists κ ν :=
  pairs.foldl (fun entries p => add same p.1 p.2 entries) []

theorem ofPairs_concat (pairs : List (κ × ν)) (p : κ × ν) :
    ofPairs same (pairs ++ [p]) = add same p.1 p.2 (ofPairs same pairs) := by
  simp [ofPairs]

end KeyedLists

end RelSql
