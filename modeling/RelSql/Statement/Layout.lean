/-
Layout of query text. Compact text puts one blank at a break, unless there is one or an opening
parenthesis already; pretty text starts a line there, with one tab for each enclosing statement.
-/
import RelSql.Statement.Basic

namespace RelSql

/-- A piece of text with all names settled. A name tells the symbol that it stands for, and
`enter` and `leave` enclose the text of a statement. -/
inductive Piece where
  | text (text : String)
  | name (symbol : SymbolId) (text : String)
  | line
  | enter (statement : StatementId)
  | leave
deriving Repr, DecidableEq, Inhabited

/-- Text being laid out. The characters are kept last first; `indent` is one less than the number
of enclosing statements. -/
structure Layout where
  pretty : Bool
  reversed : List Char := []
  indent : Int := -1
  atLineStart : Bool := false
deriving Repr, DecidableEq

namespace Layout

def start (pretty : Bool) : Layout := { pretty }

def text (l : Layout) : String := String.ofList l.reversed.reverse

/-- Adds text, behind the tabs of a new line if it is the first of that line. -/
def write (l : Layout) (s : String) : Layout :=
  if s.isEmpty then l
  else
    let margin := if l.atLineStart then List.replicate l.indent.toNat '\t' else []
    { l with reversed := s.toList.reverse ++ (margin ++ l.reversed), atLineStart := false }

/-- No blank is needed at a break in compact text. -/
def isOpen : List Char → Bool
  | [] => true
  | c :: _ => c == ' ' || c == '('

def line (l : Layout) : Layout :=
  if l.pretty then { l with reversed := '\n' :: l.reversed, atLineStart := true }
  else if isOpen l.reversed then l
  else { l with reversed := ' ' :: l.reversed }

def enter (l : Layout) : Layout := { l with indent := l.indent + 1 }

def leave (l : Layout) : Layout := { l with indent := l.indent - 1 }

def put (l : Layout) : Piece → Layout
  | .text s => l.write s
  | .name _ s => l.write s
  | .line => l.line
  | .enter _ => l.enter
  | .leave => l.leave

/-- The text of the pieces. -/
def render (pretty : Bool) (pieces : List Piece) : String :=
  (pieces.foldl put (start pretty)).text

end Layout

end RelSql
