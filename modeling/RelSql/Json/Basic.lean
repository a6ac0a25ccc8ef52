/-
Documents: the values of JSON text. An object keeps its fields in the order of the text, repeated
names included. A number written without point and exponent is an integer; all others keep their
text. A string with half of a surrogate pair follows the grammar and yet stands for no text; it is
unreadable, and so is an object with such a name.
-/
namespace RelSql

inductive Json where
  | null
  | bool (value : Bool)
  | integer (value : Int)
  | number (text : String)
  | string (value : String)
  | array (items : List Json)
  | object (fields : List (String × Json))
  | unreadable
deriving Inhabited, Repr

namespace Json

def bool? : Json → Option Bool
  | bool b => some b
  | _ => none

def string? : Json → Option String
  | string s => some s
  | _ => none

def integer? : Json → Option Int
  | integer i => some i
  | _ => none

/-- A number from zero to `max`. -/
def natUpTo? (max : Nat) : Json → Option Nat
  | integer (.ofNat n) => if n ≤ max then some n else none
  | _ => none

def array? : Json → Option (List Json)
  | array items => some items
  | _ => none

def object? : Json → Option (List (String × Json))
  | object fields => some fields
  | _ => none

/-- Each item of an array, read by `read`. -/
def listOf? {α : Type} (read : Json → Option α) (j : Json) : Option (List α) := do
  (← j.array?).mapM read

/-! ## Records

A record is an object with the fields by name, or an array with them in the order in which they
are declared. -/

/-- The fields of an object that are declared, each at most once; others are ignored. -/
def namedFields? (declared : List String) (fields : List (String × Json)) :
    Option (List (String × Json)) :=
  let known := fields.filter fun f => declared.contains f.1
  if (known.map Prod.fst).Nodup then some known else none

/-- The declared fields of a record in either form. An array has no more items than there are
fields. -/
def record? (declared : List String) : Json → Option (List (String × Json))
  | object fields => namedFields? declared fields
  | array items => if items.length ≤ declared.length then some (declared.zip items) else none
  | _ => none

/-- A field that must be there. -/
def required? {α : Type} (fields : List (String × Json)) (name : String)
    (read : Json → Option α) : Option α := do
  read (← fields.lookup name)

/-- A field with a default for when it is missing. -/
def withDefault? {α : Type} (fields : List (String × Json)) (name : String) (default : α)
    (read : Json → Option α) : Option α :=
  match fields.lookup name with
  | some j => read j
  | none => some default

/-- A field that may be missing or null. -/
def optional? {α : Type} (fields : List (String × Json)) (name : String)
    (read : Json → Option α) : Option (Option α) :=
  match fields.lookup name with
  | none | some null => some none
  | some j => (read j).map some

end Json

end RelSql
