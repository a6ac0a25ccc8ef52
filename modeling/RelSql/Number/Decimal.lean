/-
Exact decimals: an integer mantissa over a power of ten. The scale is part of the value, so
`1.50` and `1.5` are two decimals. Text has an optional sign, digits and at most one point, and
never an exponent.
-/
import RelSql.Text.Blank
import RelSql.Text.Digits

namespace RelSql

/-- The number `mantissa / 10 ^ scale`, written with `scale` digits after the point. -/
structure Decimal where
  mantissa : Int
  scale : Nat
deriving Repr, DecidableEq, Inhabited

namespace Decimal

/-- The greatest magnitude that text may denote: the mantissa is a signed number of 128 bits. -/
def maxMagnitude : Nat := Nat.pow 2 127 - 1

def ofInt (i : Int) : Decimal := ⟨i, 0⟩

/-! ## Reading -/

/-- A leading sign and what follows it; the flag says whether it is a minus. -/
def splitSign : List Char → Bool × List Char
  | '-' :: rest => (true, rest)
  | '+' :: rest => (false, rest)
  | cs => (false, cs)

/-- What stands before and after the first point. -/
def splitPoint (cs : List Char) : List Char × List Char :=
  (cs.takeWhile (· != '.'), (cs.dropWhile (· != '.')).drop 1)

/-- Reads decimal text, blanks at both ends ignored; `none` when the text is no decimal or its
digits denote more than `maxMagnitude`. -/
def parse (text : String) : Option Decimal :=
  let (negative, body) := splitSign (Blank.trim text.toList)
  let (whole, fraction) := splitPoint body
  let digits := whole ++ fraction
  if digits.isEmpty || !digits.all Char.isDigit then none
  else
    let magnitude := Digits.value digits
    if magnitude ≤ maxMagnitude then
      some ⟨if negative then -(magnitude : Int) else magnitude, fraction.length⟩
    else none

/-! ## Writing -/

/-- The digits of a magnitude with a point before the last `scale` of them, and at least one
digit before the point. -/
def pointed (scale magnitude : Nat) : List Char :=
  if scale = 0 then Digits.decimal magnitude
  else
    let ds := Digits.padLeft (scale + 1) (Digits.decimal magnitude)
    ds.take (ds.length - scale) ++ '.' :: ds.drop (ds.length - scale)

def chars (d : Decimal) : List Char :=
  if d.mantissa < 0 then '-' :: pointed d.scale d.mantissa.natAbs
  else pointed d.scale d.mantissa.natAbs

/-- The text of a decimal: every digit of the scale, trailing zeros included. -/
def toText (d : Decimal) : String := String.ofList d.chars

end Decimal

end RelSql
