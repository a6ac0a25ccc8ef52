/-
Catalog documents. A document lists entity sets; every set has a name that is not blank, and every
key of a set is one of its members.
-/
import RelSql.Catalog.Basic
import RelSql.Error
import RelSql.Json.Limits
import RelSql.Text.Blank

namespace RelSql.Catalog

/-! ## The form of a document -/

/-- A kind by its name, or as an object that maps the name to null. -/
def readKind? : Json → Option Kind
  | .string name => Kind.ofName? name
  | .object [(name, .null)] => Kind.ofName? name
  | _ => none

def facetNames : List String :=
  ["max_length", "fixed_length", "unicode", "precision", "scale", "nullable"]

/-- The facets among the fields of an object: lengths of 32 bits, precision and scale of 8. -/
def readFacets? (fields : List (String × Json)) : Option Facets := do
  let maxLength ← Json.optional? fields "max_length" (Json.natUpTo? (Nat.pow 2 32 - 1))
  let fixedLength ← Json.optional? fields "fixed_length" Json.bool?
  let unicode ← Json.optional? fields "unicode" Json.bool?
  let precision ← Json.optional? fields "precision" (Json.natUpTo? (Nat.pow 2 8 - 1))
  let scale ← Json.optional? fields "scale" (Json.natUpTo? (Nat.pow 2 8 - 1))
  let nullable ← Json.optional? fields "nullable" Json.bool?
  return { maxLength, fixedLength, unicode, precision, scale, nullable }

/-- How many levels a document may nest. -/
def depthLimit : Nat := 127

/-- How many of them lie at or above a member: the document, its list of sets, a set, its list of
members, and the member. -/
def memberLevel : Nat := 5

/-- A member; its facets stand among its own fields, so it is always an object, and all its fields
are kept until the facets are taken from them. -/
def readMember? (j : Json) : Option Member := do
  let all ← j.object?
  guard (Json.fieldsFit (depthLimit - memberLevel) all)
  let fields ← Json.namedFields? ("name" :: "type" :: facetNames) all
  let name ← Json.required? fields "name" Json.string?
  let kind ← Json.required? fields "type" readKind?
  let facets ← readFacets? fields
  return (name, .primitive kind facets)

def readSet? (j : Json) : Option EntitySet := do
  let fields ← j.record? ["name", "table", "defining_query", "keys", "members"]
  let name ← Json.required? fields "name" Json.string?
  let table ← Json.optional? fields "table" Json.string?
  let definingQuery ← Json.optional? fields "defining_query" Json.string?
  let keys ← Json.withDefault? fields "keys" [] (Json.listOf? Json.string?)
  let members ← Json.required? fields "members" (Json.listOf? readMember?)
  return { name, table, definingQuery, members, keys }

def readSets? (j : Json) : Option (List EntitySet) := do
  let fields ← j.record? ["entity_sets"]
  Json.required? fields "entity_sets" (Json.listOf? readSet?)

/-! ## Its rules -/

/-- The first key that names no member. -/
def unknownKey? (set : EntitySet) : Option String :=
  set.keys.find? fun k => (findMember? set.members k).isNone

def checkSet (set : EntitySet) : Except Error Unit :=
  if Blank.onlyBlanks set.name then .error (.catalog .emptyName)
  else match unknownKey? set with
    | some key => .error (.catalog (.unknownKey key set.name))
    | none => .ok ()

/-- Adds the sets in order, each after its check. -/
def addAll (c : Catalog) : List EntitySet → Except Error Catalog
  | [] => .ok c
  | set :: rest => do
    checkSet set
    addAll (c.add set) rest

def ofJson (j : Json) : Except Error Catalog :=
  match readSets? j with
  | some sets => addAll {} sets
  | none => .error (.catalog .document)

/-- The catalog that a document describes. -/
def ofText (text : String) : Except Error Catalog :=
  match Json.parse? text with
  | some j => ofJson j
  | none => .error (.catalog .document)

end RelSql.Catalog
