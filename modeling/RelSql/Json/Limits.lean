/-
Limits on a value that is kept. A value that is skipped has only to follow the grammar; one that is
kept must also be readable, nest no deeper than a bound, and have numbers in the range of a double.

The range is that of the leading digits. As many as fit a word of 64 bits make a whole number; it
and the power of ten that stands for the other places are each rounded to a double, and the
product must be below what rounds to infinity.
-/
import RelSql.Json.Reader
import RelSql.Number.Binary

namespace RelSql.Json

/-! ## Numbers -/

/-- Digits behind a number, as long as it stays a word of 64 bits, and the count of those left. -/
def leading (n : Nat) : List Char → Nat × Nat
  | [] => (n, 0)
  | c :: cs =>
    let next := 10 * n + Digits.digitValue c
    if next < Nat.pow 2 64 then leading next cs else (n, cs.length + 1)

/-- The greatest power of ten in the range of a double. -/
def greatestPower : Int := 308

/-- Whether `n * 10 ^ e` is finite as a product of doubles. -/
def isFinite (n : Nat) (e : Int) : Bool :=
  n == 0 || e < 0 ||
    (e ≤ greatestPower &&
      Binary.Format.double.round n * Binary.Format.double.round (Nat.pow 10 e.toNat) <
        Binary.Format.double.overflow)

/-- Whether the number with these digits before and after the point is in range. -/
def inRange (whole fraction : List Char) (exponent : Int) : Bool :=
  let (n, skipped) := leading 0 whole
  let (n, unread) := leading n fraction
  isFinite n (exponent + skipped - (fraction.length - unread : Nat))

/-- The number that an exponent with its mark denotes, zero when there is none. -/
def exponentValue : List Char → Int
  | [] => 0
  | _ :: '-' :: ds => -(Digits.value ds : Int)
  | _ :: '+' :: ds => Digits.value ds
  | _ :: ds => Digits.value ds

def textInRange (text : String) : Bool :=
  let (whole, rest) := Reader.digits (text.toList.dropWhile (· == '-'))
  let (fraction, rest) := Reader.digits (rest.dropWhile (· == '.'))
  inRange whole fraction (exponentValue rest)

/-! ## Values -/

mutual

/-- Whether a value can be kept below which `depth` more levels may nest. -/
def fits : Nat → Json → Bool
  | _, null => true
  | _, bool _ => true
  | _, integer i => inRange (Digits.decimal i.natAbs) [] 0
  | _, number text => textInRange text
  | _, string _ => true
  | 0, array _ => false
  | depth + 1, array items => itemsFit depth items
  | 0, object _ => false
  | depth + 1, object fields => fieldsFit depth fields
  | _, unreadable => false

def itemsFit : Nat → List Json → Bool
  | _, [] => true
  | depth, j :: rest => fits depth j && itemsFit depth rest

def fieldsFit : Nat → List (String × Json) → Bool
  | _, [] => true
  | depth, (_, j) :: rest => fits depth j && fieldsFit depth rest

end

end RelSql.Json
