/-
The types of expressions, variables, members and parameters: scalars, rows of named members, and
collections. A row's members have an order, and a member is found by its name whatever the case.
-/
import RelSql.Data.Kind
import RelSql.Data.Facets
import RelSql.Text.Digits
import RelSql.Text.Escaped
import RelSql.Text.Ident

namespace RelSql

inductive DataType where
  | primitive (kind : Kind) (facets : Facets)
  | row (members : List (String × DataType))
  | collection (element : DataType)
deriving Inhabited

/-- A named member of a row. -/
abbrev Member := String × DataType

/-- The first member of that name. -/
def findMember? (members : List Member) (name : String) : Option Member :=
  members.find? fun m => Ident.same m.1 name

namespace DataType

/-- A scalar type without facets. -/
def scalar (kind : Kind) : DataType := primitive kind {}

def boolean : DataType := scalar .boolean

def string : DataType := scalar .string

def emptyRow : DataType := row []

def isCollection : DataType → Bool
  | collection _ => true
  | _ => false

def isPrimitive : DataType → Bool
  | primitive .. => true
  | _ => false

def isRow : DataType → Bool
  | row _ => true
  | _ => false

def kind? : DataType → Option Kind
  | primitive kind _ => some kind
  | _ => none

def facets? : DataType → Option Facets
  | primitive _ facets => some facets
  | _ => none

/-- The element type of a collection; any other type is its own element type. -/
def element : DataType → DataType
  | collection e => e
  | ty => ty

/-- The members of a row; other types have none. -/
def properties : DataType → List Member
  | row members => members
  | _ => []

def member? (ty : DataType) (name : String) : Option Member := findMember? ty.properties name

/-! ## Equality -/

mutual

/-- Two types are equal when kinds, facets and members agree, names by their exact spelling. -/
def beq : DataType → DataType → Bool
  | primitive k f, primitive k' f' => k == k' && f == f'
  | row ms, row ms' => beqMembers ms ms'
  | collection e, collection e' => beq e e'
  | _, _ => false

def beqMembers : List (String × DataType) → List (String × DataType) → Bool
  | [], [] => true
  | (n, t) :: ms, (n', t') :: ms' => n == n' && beq t t' && beqMembers ms ms'
  | _, _ => false

end

instance : BEq DataType := ⟨beq⟩

/-! ## Description -/

def describeOption : Option String → String
  | some text => "Some(" ++ text ++ ")"
  | none => "None"

def describeFacets (f : Facets) : String :=
  "Facets \x7b max_length: " ++ describeOption (f.maxLength.map Digits.ofNat) ++
    ", fixed_length: " ++ describeOption (f.fixedLength.map toString) ++
    ", unicode: " ++ describeOption (f.unicode.map toString) ++
    ", precision: " ++ describeOption (f.precision.map Digits.ofNat) ++
    ", scale: " ++ describeOption (f.scale.map Digits.ofNat) ++
    ", nullable: " ++ describeOption (f.nullable.map toString) ++ " \x7d"

mutual

/-- A type spelled out on one line, for messages. -/
def describe : DataType → String
  | primitive kind facets =>
    "Primitive \x7b kind: " ++ kind.name ++ ", facets: " ++ describeFacets facets ++ " \x7d"
  | row members => "Row(RowType \x7b members: [" ++ describeMembers members ++ "] \x7d)"
  | collection e => "Collection(" ++ describe e ++ ")"

def describeMembers : List (String × DataType) → String
  | [] => ""
  | [(name, ty)] => describeMember name (describe ty)
  | (name, ty) :: rest => describeMember name (describe ty) ++ ", " ++ describeMembers rest

def describeMember (name ty : String) : String :=
  "Member \x7b name: " ++ Escaped.quote name ++ ", ty: " ++ ty ++ " \x7d"

end

end DataType

end RelSql
