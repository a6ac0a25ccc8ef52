/-
Functions that expressions call: built-in ones and those of the store.
-/
import RelSql.Data.Type

namespace RelSql

/-- The way a parameter passes its value. -/
inductive ParameterMode where
  | input
  | output
  | inputOutput
  | returnValue
deriving Repr, DecidableEq, Inhabited

structure FunctionParameter where
  name : String
  type : DataType
  mode : ParameterMode := .input
deriving Inhabited

/-- A function. `storeName` overrides the name in text; a niladic function is written without an
argument list. -/
structure Function where
  name : String
  schema : Option String := none
  storeName : Option String := none
  builtIn : Bool := true
  niladic : Bool := false
  returnType : DataType := .scalar .int32
  parameters : List FunctionParameter := []
deriving Inhabited

namespace Function

def emittedName (f : Function) : String :=
  match f.storeName with
  | some name => if name = "" then f.name else name
  | none => f.name

/-- The name of a function in text: store functions stand behind their schema. -/
def qualifiedName (f : Function) : String :=
  match f.schema with
  | some schema =>
    if f.builtIn || schema = "" then f.emittedName else schema ++ "." ++ f.emittedName
  | none => f.emittedName

/-- The first parameter of exactly that name. -/
def parameter? (f : Function) (name : String) : Option FunctionParameter :=
  f.parameters.find? (·.name == name)

def beqParameter (a b : FunctionParameter) : Bool :=
  a.name == b.name && a.type == b.type && a.mode == b.mode

def beq (a b : Function) : Bool :=
  a.name == b.name && a.schema == b.schema && a.storeName == b.storeName &&
    a.builtIn == b.builtIn && a.niladic == b.niladic && a.returnType == b.returnType &&
    a.parameters.length == b.parameters.length &&
    (a.parameters.zip b.parameters).all fun p => beqParameter p.1 p.2

instance : BEq Function := ⟨beq⟩

end Function

end RelSql
