/-
Compiling a modification: its text, with numbered parameters for its constants, and a select that
reads the changed row back when members are asked for.
-/
import RelSql.Config
import RelSql.Modification.Words

namespace RelSql

structure CompiledModification where
  text : String
  parameters : List ParameterRecord
deriving Inhabited

namespace Modification

/-! ## Parameters -/

/-- Text with its values numbered. `bound` files the number of a member's value under its key, the
latest first. -/
structure Numbered where
  text : String := ""
  parameters : List ParameterRecord := []
  bound : List (String × Nat) := []
deriving Inhabited

namespace Numbered

/-- The parameter for the next value. -/
def nextRecord (config : Config) (n : Numbered) (c : Constant) : ParameterRecord where
  name := config.parameterName ("p" ++ Digits.ofNat n.parameters.length)
  value := some c
  kind := c.kind

def put (config : Config) (n : Numbered) : Word → Numbered
  | .text s => { n with text := n.text ++ s }
  | .value c =>
    let record := n.nextRecord config c
    { n with text := n.text ++ record.name, parameters := n.parameters ++ [record] }
  | .binds member =>
    { n with bound := (Ident.key member, n.parameters.length - 1) :: n.bound }

def ofWords (config : Config) (ws : List Word) : Numbered := ws.foldl (put config) {}

/-- The parameter that holds the value of a member. -/
def boundName? (n : Numbered) (member : String) : Option String := do
  let i ← n.bound.lookup (Ident.key member)
  let record ← n.parameters[i]?
  return record.name

end Numbered

/-! ## Reading back -/

/-- The columns by which the changed row is found again and their values. A single key of 64-bit
integers may be one that the store gave out; otherwise all keys must have values, and a row just
inserted is found by its row number. -/
def keyConditions (config : Config) (set : EntitySet) (inserted : Bool)
    (valueOf : String → Option String) : Except Error (List (String × String)) :=
  let keys := set.keyMembers.map Prod.fst
  match generatedKey? set with
  | some key =>
    match valueOf key with
    | some value => .ok [(key, value)]
    | none => if inserted then .ok [(key, config.lastInsertId)] else general keys
  | none => general keys
where
  /-- The key of a set that has one key only, of 64-bit integers. -/
  generatedKey? (set : EntitySet) : Option String :=
    match set.keyMembers with
    | [key] => if key.2.kind? = some .int64 then some key.1 else none
    | _ => none
  general (keys : List String) : Except Error (List (String × String)) :=
    match keys.find? fun k => (valueOf k).isNone with
    | none =>
      if keys.isEmpty then missing "<key>"
      else .ok (keys.filterMap fun k => (valueOf k).map fun v => (k, v))
    | some key => missing key
  missing (key : String) : Except Error (List (String × String)) :=
    if inserted then .ok [(config.rowidColumn, config.lastInsertId)]
    else .error (.missingKeyValue set.storeName key)

/-- The select that reads members back. -/
def readBackText (config : Config) (set : EntitySet) (returning : List String)
    (conditions : List (String × String)) : String :=
  "SELECT " ++ ", ".intercalate returning ++ "\nFROM " ++ set.source ++ "\nWHERE " ++
    config.rowChangedMarker ++
    String.join (conditions.map fun c => " AND " ++ c.1 ++ " = " ++ c.2) ++ ";\n"

def readBack (config : Config) (set : EntitySet) (m : Modification) (n : Numbered) :
    Except Error String := do
  if m.returning.isEmpty then return ""
  let conditions ← keyConditions config set m.isInsert n.boundName?
  return readBackText config set m.returning conditions

/-- Compiles a modification. -/
def compile (config : Config) (m : Modification) : Except Error CompiledModification := do
  let set ← targetSet m.target
  let name ← targetName set
  let n := Numbered.ofWords config (← statementWords name m)
  let rest ← readBack config set m n
  return { text := n.text ++ rest, parameters := n.parameters }

end Modification

end RelSql
