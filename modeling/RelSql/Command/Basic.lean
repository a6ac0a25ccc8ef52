/-
Commands: generated text with its parameters, declared ones first and then those that stand for
the constants of a modification.
-/
import RelSql.Command.Generate
import RelSql.Command.Parameter

namespace RelSql

structure Command where
  text : String
  kind : CommandKind
  columns : List String
  parameters : List Parameter
deriving Inhabited

namespace CommandTree

/-- A declared parameter. What a function says of its parameter counts more than the declaration. -/
def declaredParameter (config : Config) (function? : Option Function) (declared : String × DataType) :
    Except Error Parameter :=
  let name := config.parameterName declared.1
  match function?.bind fun f => f.parameter? declared.1 with
  | some p => Parameter.ofType name p.type p.mode
  | none => Parameter.ofType name declared.2 .input

def function? : CommandTree → Option Function
  | function f _ _ => some f
  | _ => none

def command (config : Config) (tree : CommandTree) : Except Error Command := do
  let generated ← tree.generate config
  let declared ← (tree.parameters?.getD []).mapM (declaredParameter config tree.function?)
  let made ← generated.parameters.mapM Parameter.ofRecord
  return {
    text := generated.text
    kind := generated.kind
    columns := generated.columns
    parameters := declared ++ made }

end CommandTree

end RelSql
