/-
Text in double quotes for messages. Quotes, backslashes and characters without a shape of their
own are written as escapes, so that the text shows every character that it has.
-/
import RelSql.Text.DefaultIgnorable
import RelSql.Text.ExtendingMark
import RelSql.Text.Invisible

namespace RelSql.Escaped

/-- The character does not show by itself: it is invisible, drawn onto the one before it, or not
drawn at all where it has no effect. -/
def isHidden (c : Char) : Bool :=
  Ranges.has c.toNat Invisible.ranges || Ranges.has c.toNat ExtendingMark.ranges ||
    Ranges.has c.toNat DefaultIgnorable.ranges

/-- A code point by its hexadecimal number. -/
def codePoint (c : Char) : List Char := ['\\', 'u', '\x7b'] ++ Nat.toDigits 16 c.toNat ++ ['\x7d']

def escapeChar (c : Char) : List Char :=
  match c with
  | '"' => ['\\', '"']
  | '\\' => ['\\', '\\']
  | '\n' => ['\\', 'n']
  | '\r' => ['\\', 'r']
  | '\t' => ['\\', 't']
  | '\x00' => ['\\', '0']
  | _ => if isHidden c then codePoint c else [c]

/-- The text between double quotes. -/
def quote (text : String) : String :=
  "\"" ++ String.ofList (text.toList.flatMap escapeChar) ++ "\""

theorem isHidden_iff (c : Char) :
    isHidden c = true ↔
      ((∃ r ∈ Invisible.ranges, r.1 ≤ c.toNat ∧ c.toNat ≤ r.2) ∨
        ∃ r ∈ ExtendingMark.ranges, r.1 ≤ c.toNat ∧ c.toNat ≤ r.2) ∨
          ∃ r ∈ DefaultIgnorable.ranges, r.1 ≤ c.toNat ∧ c.toNat ≤ r.2 := by
  rw [isHidden, Bool.or_eq_true, Bool.or_eq_true, Ranges.has_iff Invisible.invisible_ascending,
    Ranges.has_iff ExtendingMark.extendingMark_ascending,
    Ranges.has_iff DefaultIgnorable.defaultIgnorable_ascending]

end RelSql.Escaped
