/-
The text of a command tree: a compiled query, a compiled modification, or a call.
-/
import RelSql.Command.Tree
import RelSql.Modification.Compile
import RelSql.Query.Compile

namespace RelSql

/-- Text is run as it stands; a stored procedure is called by its name. -/
inductive CommandKind where
  | text
  | storedProcedure
deriving Repr, DecidableEq, Inhabited

def CommandKind.name : CommandKind → String
  | text => "Text"
  | storedProcedure => "StoredProcedure"

/-- Generated text, the columns that it returns and the parameters made up for its constants. -/
structure Generated where
  text : String
  kind : CommandKind := .text
  columns : List String := []
  parameters : List ParameterRecord := []
deriving Inhabited

namespace CommandTree

/-- Compiles a tree that is a modification. -/
def compileModification (config : Config) (tree : CommandTree) :
    Except Error CompiledModification :=
  match tree with
  | modification m => m.compile config
  | other => .error (.badArgument (.notModification other.treeName))

def generate (config : Config) : CommandTree → Except Error Generated
  | query q _ => do
    let compiled ← Query.compile config q
    return { text := compiled.text, columns := compiled.columns }
  | function _ (some text) _ => .ok { text }
  | function f none _ => .ok { text := f.qualifiedName, kind := .storedProcedure }
  | modification m => do
    let compiled ← m.compile config
    return { text := compiled.text, parameters := compiled.parameters }

end CommandTree

end RelSql
