/-
Symbols: the extents and columns that a query text names. Names are settled only when the text is
written, so the parts of a text refer to symbols by their place in a table, and a symbol gets a
new name at most once.
-/
import RelSql.Data.Type
import RelSql.Naming.Registry

namespace RelSql

/-- The place of a symbol in the table. -/
abbrev SymbolId := Nat

/-- What makes an extent a join. A nested join is one that a subselect encloses: its columns are
those of the subselect. `flattened` lists the extents that a flat join has in its `FROM` list. -/
structure JoinInfo where
  extents : List SymbolId
  columns : List SymbolId := []
  flattened : List SymbolId := []
  nested : Bool := false
deriving Repr, DecidableEq, Inhabited

/-- An extent has a type, a column has none. `columns` files the columns of an extent under their
keys. -/
structure Symbol where
  name : String
  type : Option DataType := none
  newName : Option String := none
  needsRenaming : Bool := false
  columns : List (String × SymbolId) := []
  join : Option JoinInfo := none
deriving Inhabited

namespace Symbol

def extent (name : String) (type : DataType) : Symbol := { name, type := some type }

def column (name : String) : Symbol := { name }

def joined (name : String) (type : DataType) (join : JoinInfo) : Symbol :=
  { name, type := some type, join := some join }

/-- The name under which the symbol is written from now on. -/
def currentName (s : Symbol) : String := s.newName.getD s.name

def isRenamed (s : Symbol) : Bool := s.newName.isSome

def isJoin (s : Symbol) : Bool := s.join.isSome

def isPrimitive (s : Symbol) : Bool :=
  match s.type with
  | some ty => ty.isPrimitive
  | none => false

def properties (s : Symbol) : List Member :=
  match s.type with
  | some ty => ty.properties
  | none => []

/-- The column of that name, if the extent has it already. -/
def column? (s : Symbol) (name : String) : Option SymbolId := s.columns.lookup (Ident.key name)

end Symbol

/-- All symbols of a query, in the order of their creation. -/
abbrev Symbols := Array Symbol

namespace Symbols

def get (symbols : Symbols) (i : SymbolId) : Symbol := symbols.getD i default

def add (symbols : Symbols) (s : Symbol) : SymbolId × Symbols := (symbols.size, symbols.push s)

/-- Gives a symbol its new name, unless it has one. -/
def rename? (symbols : Symbols) (i : SymbolId) (newName : String) : Option Symbols :=
  if (symbols.get i).isRenamed then none
  else some (symbols.modify i fun s => { s with newName := some newName })

def setNeedsRenaming (symbols : Symbols) (i : SymbolId) (flag : Bool) : Symbols :=
  symbols.modify i fun s => { s with needsRenaming := flag }

/-- The column of that name, created if the extent does not have it. -/
def columnOrInsert (symbols : Symbols) (i : SymbolId) (name : String) : SymbolId × Symbols :=
  match (symbols.get i).column? name with
  | some c => (c, symbols)
  | none =>
    let (c, symbols) := symbols.add (.column name)
    (c, symbols.modify i fun s => { s with columns := s.columns ++ [(Ident.key name, c)] })

/-- The input of a join by its variable; of two inputs with one name the later counts. -/
def joinInput? (symbols : Symbols) (join : JoinInfo) (name : String) : Option SymbolId :=
  join.extents.reverse.find? fun e => Ident.same (symbols.get e).name name

/-- The names that an extent takes where it is visible: those of the extents that it stands for. -/
def visibleNames (symbols : Symbols) (i : SymbolId) : List String :=
  match (symbols.get i).join with
  | some join =>
    if join.flattened.isEmpty then [(symbols.get i).currentName]
    else join.flattened.map fun e => (symbols.get e).currentName
  | none => [(symbols.get i).currentName]

/-- The extents that a flat join stands for, in order, down to plain extents and nested joins.
Inputs of a scalar type are passed over. A join is younger than its inputs, so the number of
symbols bounds the depth. -/
def expand (symbols : Symbols) : Nat → SymbolId → List SymbolId
  | 0, _ => []
  | depth + 1, i =>
    match (symbols.get i).join with
    | some join =>
      if join.nested then [i]
      else (join.extents.filter fun e => !(symbols.get e).isPrimitive).flatMap (expand symbols depth)
    | none => [i]

def leaves (symbols : Symbols) (i : SymbolId) : List SymbolId := symbols.expand symbols.size i

/-- Marks columns that share a name for renaming. Each column is compared with the first one of its
name; `seen` holds those first ones. -/
def markClashes (symbols : Symbols) (seen : List (String × SymbolId)) : List SymbolId → Symbols
  | [] => symbols
  | c :: rest =>
    let key := Ident.key (symbols.get c).name
    match seen.lookup key with
    | none => markClashes symbols ((key, c) :: seen) rest
    | some first =>
      if first = c then markClashes symbols seen rest
      else markClashes ((symbols.setNeedsRenaming first true).setNeedsRenaming c true) seen rest

end Symbols

/-- The symbols of a query and the registries of the names that its extents and columns use. -/
structure Names where
  symbols : Symbols := #[]
  extents : Registry := {}
  columns : Registry := {}
deriving Inhabited

end RelSql
