/-
Entity sets: the sources of rows that queries scan and modifications change.
-/
import RelSql.Data.Type

namespace RelSql

/-- A set of rows. `table` overrides the name under which the store knows the set. A set with a
defining query is backed by that query and not by a table. -/
structure EntitySet where
  name : String
  table : Option String := none
  definingQuery : Option String := none
  members : List Member
  keys : List String := []
deriving Inhabited

namespace EntitySet

/-- The name that stands for the set in query text. -/
def storeName (s : EntitySet) : String :=
  match s.table with
  | some table => if table = "" then s.name else table
  | none => s.name

def elementType (s : EntitySet) : DataType := .row s.members

/-- The members that the keys name, in the order of the keys; unknown keys are passed over. -/
def keyMembers (s : EntitySet) : List Member := s.keys.filterMap (findMember? s.members)

/-- What a scan of the set reads from. -/
def source (s : EntitySet) : String :=
  match s.definingQuery with
  | some query => "(" ++ query ++ ")"
  | none => s.storeName

def beq (a b : EntitySet) : Bool :=
  a.name == b.name && a.table == b.table && a.definingQuery == b.definingQuery &&
    DataType.beqMembers a.members b.members && a.keys == b.keys

instance : BEq EntitySet := ⟨beq⟩

end EntitySet

end RelSql
