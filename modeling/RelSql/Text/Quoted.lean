/-
Quoted text: a text between single quotes, where a quote inside is written twice.
-/
namespace RelSql.Quoted

/-- Doubles every quote. -/
def escape : List Char → List Char
  | [] => []
  | '\'' :: rest => '\'' :: '\'' :: escape rest
  | c :: rest => c :: escape rest

/-- The text between quotes. -/
def quote (text : String) : String := "'" ++ String.ofList (escape text.toList) ++ "'"

end RelSql.Quoted
